import Mathlib.Data.List.Basic
import VbaModules.Command.Directory
import VbaModules.Command.Run

/-!
# Files that are written are read back

What commands do to files is told for the directory in memory. A file that can be read can be
written (`Directory.exists_writeText`): then every path that leads to it reads the new text, and
every other path reads what it read before, since paths are followed past the same files and
directories as before (`Directory.follow_congr`).

What a command answers at a desk, and the desk that it leaves, is `Desk.perform`. The operations on
files are performed by what they do to the directory.
-/

namespace VbaModules

namespace Directory

/-! ### Following paths -/

/-- Whether a path can be followed past an entry. -/
def Entry.isFolder : Entry → Bool
  | folder => true
  | file _ => false

/-- Two directories **with the same places**: where there is a file or a directory in the one there
is one in the other. -/
def SamePlaces (d d' : Directory) : Prop :=
  ∀ place, (d'.entryAt? place).map Entry.isFolder = (d.entryAt? place).map Entry.isFolder

/-- Paths are followed past files and directories whatever the files hold. -/
theorem follow_congr {d d' : Directory} (h : d.SamePlaces d') (inside : Bool) (place : List String)
    (components : List String) :
    d'.follow inside place components = d.follow inside place components := by
  induction components generalizing place with
  | nil => rfl
  | cons component rest ih =>
    have hentry := h (place ++ [component])
    rw [follow, follow]
    simp only [ih]
    refine if_congr Iff.rfl rfl (if_congr Iff.rfl rfl (if_congr Iff.rfl rfl ?_))
    -- past the next component there is the same kind of entry in both
    generalize d.entryAt? (place ++ [component]) = entry at hentry ⊢
    generalize d'.entryAt? (place ++ [component]) = entry' at hentry ⊢
    rcases entry with _ | _ | _ <;> rcases entry' with _ | _ | _ <;> first | rfl | cases hentry

/-- Paths lead to the same places in directories with the same places. -/
theorem locate_congr {d d' : Directory} (h : d.SamePlaces d') (path : String) :
    d'.locate path = d.locate path := by
  rw [locate, locate, follow_congr h]

/-! ### Putting a file where one has been -/

theorem lookup_filter_of_ne {α : Type} {place other : List String} (h : other ≠ place)
    (files : List (List String × α)) :
    (files.filter (·.1 != place)).lookup other = files.lookup other := by
  induction files with
  | nil => rfl
  | cons file files ih =>
    obtain ⟨key, content⟩ := file
    by_cases hkey : key = place
    · have hother : (other == key) = false := by simpa [hkey] using h
      rw [List.filter_cons_of_neg (by simp [hkey]), ih, List.lookup_cons, hother]
    · rw [List.filter_cons_of_pos (by simpa using hkey), List.lookup_cons, List.lookup_cons, ih]

section PutFile

variable {d : Directory} {place : List String} {content : ByteArray}

/-- A file that is put holds what was put. -/
@[simp]
theorem entryAt?_putFile_self :
    (d.putFile place content).entryAt? place = some (.file content) := by
  rw [entryAt?, putFile, List.lookup_cons_self]

/-- Other places are left alone. -/
theorem entryAt?_putFile_of_ne {other : List String} (h : other ≠ place) :
    (d.putFile place content).entryAt? other = d.entryAt? other := by
  have hother : (other == place) = false := by simpa using h
  have hlookup : (d.putFile place content).files.lookup other = d.files.lookup other := by
    rw [putFile, List.lookup_cons, hother]
    exact lookup_filter_of_ne h d.files
  rw [entryAt?, entryAt?, hlookup]
  rfl

/-- A file in the place of a file adds no place and takes none away. -/
theorem samePlaces_putFile {old : ByteArray} (h : d.entryAt? place = some (.file old)) :
    d.SamePlaces (d.putFile place content) := by
  intro other
  by_cases hother : other = place
  · rw [hother, entryAt?_putFile_self, h]
    rfl
  · rw [entryAt?_putFile_of_ne hother]

end PutFile

/-! ### Reading what is written -/

/-- A text is decoded from its encoding. -/
theorem fromUTF8?_toUTF8 (text : String) : String.fromUTF8? text.toUTF8 = some text :=
  dif_pos text.isValidUTF8

/-- A text is read where the path leads to a file that holds it. -/
theorem readText_eq_ok_iff {d : Directory} {path text : String} :
    d.readText path = .ok text ↔ ∃ place content, d.locate path = .ok place ∧
      d.entryAt? place = some (.file content) ∧ endingOf path ≠ .slash ∧
      String.fromUTF8? content = some text := by
  rw [readText]
  cases hplace : d.locate path with
  | error fault => simp [bind, Except.bind]
  | ok place =>
    rcases hentry : d.entryAt? place with _ | (_ | content)
    · simp [bind, Except.bind, hentry]
    · simp [bind, Except.bind, hentry]
    · by_cases hending : endingOf path = .slash
      · simp [bind, Except.bind, hentry, hending]
      · cases htext : String.fromUTF8? content with
        | none => simp [bind, Except.bind, hentry, hending, htext]
        | some held => simp [bind, Except.bind, hentry, hending, htext]

/-- A path that leads somewhere has no fault. -/
theorem pathFault?_eq_none {d : Directory} {path : String} {place : List String}
    (h : d.locate path = .ok place) : pathFault? path = none := by
  cases hfault : pathFault? path with
  | none => rfl
  | some fault =>
    rw [locate, hfault] at h
    cases h

/-- **A file that can be read can be written.** Then the paths that lead to it read the new text,
and the others read what they have read before. -/
theorem exists_writeText {d : Directory} {path text : String} (h : d.readText path = .ok text)
    (new : String) :
    ∃ d', d.writeText path new = .ok d' ∧ d'.readText path = .ok new ∧
      ∀ other held, d.readText other = .ok held →
        d'.readText other = .ok held ∨ held = text ∧ d'.readText other = .ok new := by
  obtain ⟨place, content, hplace, hentry, hending, htext⟩ := readText_eq_ok_iff.mp h
  have hsame : d.SamePlaces (d.putFile place new.toUTF8) := samePlaces_putFile hentry
  refine ⟨d.putFile place new.toUTF8, ?_, ?_, fun other held hheld => ?_⟩
  · rw [writeText, pathFault?_eq_none hplace, hplace]
    cases hkind : endingOf path with
    | slash => exact absurd hkind hending
    | _ => simp [bind, Except.bind, hentry]
  · exact readText_eq_ok_iff.mpr ⟨place, new.toUTF8, (locate_congr hsame path).trans hplace,
      entryAt?_putFile_self, hending, fromUTF8?_toUTF8 new⟩
  · obtain ⟨place', content', hplace', hentry', hending', htext'⟩ := readText_eq_ok_iff.mp hheld
    have hlocate := (locate_congr hsame other).trans hplace'
    -- the other path leads to the same file, or to one that is left alone
    by_cases heq : place' = place
    · right
      rw [heq, hentry, Option.some.injEq, Entry.file.injEq] at hentry'
      rw [heq] at hlocate
      rw [hentry', htext', Option.some.injEq] at htext
      exact ⟨htext, readText_eq_ok_iff.mpr
        ⟨place, new.toUTF8, hlocate, entryAt?_putFile_self, hending', fromUTF8?_toUTF8 new⟩⟩
    · left
      exact readText_eq_ok_iff.mpr ⟨place', content', hlocate,
        (entryAt?_putFile_of_ne heq).trans hentry', hending', htext'⟩

section Name

variable {name : String} (hslash : '/' ∉ name.toList)
include hslash

theorem endingOf_of_name (hdot : name ≠ ".") : endingOf name = .name := by
  have hsplit : name.toList.splitOnP (· == '/') = [name.toList] :=
    List.splitOnP_eq_singleton fun c hc => by simpa using ne_of_mem_of_not_mem hc hslash
  have hsteps : ((name.toList.splitOnP (· == '/')).filter (!·.isEmpty)).getLast? ≠ some ['.'] := by
    intro hlast
    have hmem := List.mem_of_mem_filter (List.mem_of_getLast? hlast)
    rw [hsplit, List.mem_singleton] at hmem
    exact hdot (String.toList_inj.mp hmem.symm)
  have hends : name.endsWith "/" = false := by
    rw [String.endsWith_eq_endsWith_toSlice, String.Slice.endsWith_string_eq_false_iff]
    exact fun hcloses => hslash (by simpa using hcloses.subset (List.mem_singleton_self '/'))
  simp only [endingOf, hsteps, hends, Bool.false_eq_true, if_false]

/-- A name alone leads to the file of that name. -/
theorem readText_of_name {d : Directory} {text : String} (hname : name ∉ ["", ".", ".."])
    (hsize : name.utf8ByteSize ≤ maxComponent) (hfault : pathFault? name = none)
    (hentry : d.entryAt? [name] = some (.file text.toUTF8)) : d.readText name = .ok text := by
  simp only [List.mem_cons, List.not_mem_nil, or_false, not_or] at hname
  obtain ⟨hempty, hdot, hparent⟩ := hname
  have hending := endingOf_of_name hslash hdot
  have hcomponents : Origin.components name = [name] := by
    rw [Origin.components, List.splitOnP_eq_singleton fun c hc => by
      simpa using ne_of_mem_of_not_mem hc hslash, List.map_singleton, String.ofList_toList,
      List.filter_cons_of_pos (by simp [hempty, hdot]), List.filter_nil]
  have hbeginning : beginning name = [] := by
    have hstarts : name.startsWith "/" = false := by
      rw [String.startsWith_string_eq_false_iff]
      exact fun hbegins => hslash (hbegins.subset (by simp))
    rw [beginning, hstarts]
    rfl
  have hlocate : d.locate name = .ok [name] := by
    rw [locate, hfault, hending, hbeginning, hcomponents, follow, if_neg hparent,
      if_neg (Nat.not_lt.mpr hsize)]
    rfl
  exact readText_eq_ok_iff.mpr ⟨[name], text.toUTF8, hlocate, hentry, by rw [hending]; simp,
    fromUTF8?_toUTF8 text⟩

end Name

end Directory

/-! ### Performing commands -/

namespace Desk

variable {α β : Type}

/-- What a command answers at the desk, and the desk that it leaves. -/
def perform (desk : Desk) (command : ExceptT Failure (StateM Desk) α) : Except Failure α × Desk :=
  command.run.run desk

/-- A command that goes well is followed by the next one, at the desk that it leaves. -/
theorem perform_bind {desk desk' : Desk} {command : ExceptT Failure (StateM Desk) α} {a : α}
    (h : desk.perform command = (.ok a, desk')) (next : α → ExceptT Failure (StateM Desk) β) :
    desk.perform (command >>= next) = desk'.perform (next a) := by
  rw [perform] at h
  rw [perform, ExceptT.run_bind, StateT.run_bind, h]
  rfl

/-- An operation on a file that goes well is performed by what it does. -/
theorem perform_onFile {desk desk' : Desk} {operation : StateM Desk (Except FileFault α)} {a : α}
    (h : operation.run desk = (.ok a, desk')) (path : String) :
    desk.perform (Command.onFile path operation) = (.ok a, desk') := by
  have hlift : desk.perform (liftM operation) = (.ok (.ok a), desk') :=
    congrArg (fun answer => (Except.ok answer.1, answer.2)) h
  rw [Command.onFile, perform_bind hlift]
  rfl

/-- Reading a file that can be read gives its text. -/
theorem perform_read {desk : Desk} {path text : String}
    (h : desk.directory.readText path = .ok text) :
    desk.perform (Command.read path) = (.ok text, desk) :=
  perform_onFile (congrArg (·, desk) h) path

/-- Writing a file that can be written changes the directory only. -/
theorem perform_write {desk : Desk} {path text : String} {directory : Directory}
    (h : desk.directory.writeText path text = .ok directory) :
    desk.perform (Command.write path text) = (.ok (), { desk with directory := directory }) := by
  refine perform_onFile ?_ path
  have hchange : (change (·.writeText path text)).run desk =
      (.ok (), { desk with directory := directory }) := by
    simp only [change, StateT.run_bind, StateT.run_get, pure_bind, h]
    rfl
  exact hchange

/-- A line that is reported is added to the errors. -/
theorem perform_reportLine (desk : Desk) (line : String) :
    desk.perform (Command.reportLine line) =
      (.ok (), { desk with errors := desk.errors ++ (line ++ "\n") }) :=
  rfl

end Desk

end VbaModules

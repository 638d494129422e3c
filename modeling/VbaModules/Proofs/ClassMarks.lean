import VbaModules.Proofs.FirstElements
import VbaModules.Proofs.RenamedModules
import VbaModules.Proofs.RuleTables
import VbaModules.Rename.ClassName

/-!
# Names for class modules

Class modules get new names by putting a mark before the old ones. The table of the new names has an
entry for every class module whose name does not begin with the mark (`eq_of_classTable_eq_ok`), and
of two names that are the same word the later one counts (`RenameTable.get?_ofList`). There is no
table if some class module is unmarkable: it gives no name, or its new name would be too long. The
first such module in the order of the bundle is the one reported (`classTable_eq_error_iff`).

So renaming the class modules of a bundle acts on the names like the table
(`Bundle.rename_eq_ok_iff`), and every module gives afterwards what the table makes of its name
(`Bundle.declaredName?_marked`).
-/

namespace VbaModules

open Text Lexer

/-! ### Results that are mapped -/

section Results

variable {ε α β : Type} {f : α → β} {x : Except ε α}

theorem map_eq_ok_iff {b : β} : x.map f = .ok b ↔ ∃ a, x = .ok a ∧ f a = b := by
  cases x <;> simp [Except.map]

theorem map_eq_error_iff {e : ε} : x.map f = .error e ↔ x = .error e := by
  cases x <;> simp [Except.map]

end Results

/-! ### The table of class names -/

/-- Whether a name begins with the mark of renamed class modules, in this letter case. -/
def hasClassMark (name : String) : Bool :=
  classMark.toList.isPrefixOf name.toList

/-- A marked name has the mark. -/
theorem hasClassMark_append (name : String) : hasClassMark (classMark ++ name) = true := by
  rw [hasClassMark, List.isPrefixOf_iff_prefix, String.toList_append]
  exact List.prefix_append _ _

/-- The name of a class module that is to be marked: one that does not have the mark. -/
def plainClassName? (source : String × List Token) : Option String :=
  if Origin.isClass source.1 then (declaredName? source.2).filter (!hasClassMark ·) else none

/-- A plain class name is declared by a class file and has no mark. -/
theorem plainClassName?_eq_some_iff {source : String × List Token} {name : String} :
    plainClassName? source = some name ↔
      Origin.isClass source.1 = true ∧ declaredName? source.2 = some name ∧
        hasClassMark name = false := by
  rw [plainClassName?]
  split
  next hclass => simp [hclass, Option.filter_eq_some_iff]
  next hclass => simp [hclass]

/-- The names of the class modules of a bundle that do not have the mark. -/
def Bundle.plainClassNames (bundle : Bundle) : List String :=
  bundle.entries.filterMap plainClassName?

/-- A class module is **unmarkable**, with the error that says so: it gives no name, or its name has
no mark and would be too long with it. -/
inductive Unmarkable : String × List Token → RenamingError → Prop where
  | missingName {origin : String} {tokens : List Token} (hclass : Origin.isClass origin = true)
      (hname : declaredName? tokens = none) : Unmarkable (origin, tokens) (.missingName ⟨origin⟩)
  | nameTooLong {origin : String} {tokens : List Token} {name : String}
      (hclass : Origin.isClass origin = true) (hname : declaredName? tokens = some name)
      (hplain : hasClassMark name = false) (hlong : maxModuleName < (classMark ++ name).length) :
      Unmarkable (origin, tokens) (.nameTooLong origin name (classMark ++ name))

/-- What becomes of the declared name of a class: nothing, an error or a marked name. -/
theorem classRenaming?_of_declaredName? {origin : String} {tokens : List Token} {name : String}
    (hclass : Origin.isClass origin = true) (hname : declaredName? tokens = some name) :
    classRenaming? .empty origin tokens =
      if hasClassMark name then .ok none
      else if maxModuleName < (classMark ++ name).length then
        .error (.nameTooLong origin name (classMark ++ name))
      else .ok (some (name, classMark ++ name)) := by
  have hcovers : RuleList.empty.covers name = false := rfl
  rw [classRenaming?, if_pos hclass, declaredName, hname, hasClassMark]
  simp only [hcovers, Bool.or_false, gt_iff_lt]

/-- **A class cannot be renamed exactly if it cannot be marked.** -/
theorem classRenaming?_eq_error_iff {source : String × List Token} {e : RenamingError} :
    classRenaming? .empty source.1 source.2 = .error e ↔ Unmarkable source e := by
  obtain ⟨origin, tokens⟩ := source
  constructor
  · intro h
    by_cases hclass : Origin.isClass origin = true
    · cases hname : declaredName? tokens with
      | none =>
        rw [classRenaming?, if_pos hclass, declaredName, hname] at h
        cases h
        exact .missingName hclass hname
      | some name =>
        rw [classRenaming?_of_declaredName? hclass hname] at h
        split at h
        next => cases h
        next hplain =>
          split at h
          next hlong =>
            cases h
            exact .nameTooLong hclass hname (Bool.eq_false_iff.mpr hplain) hlong
          next => cases h
    · rw [classRenaming?, if_neg hclass] at h
      cases h
  · intro h
    cases h with
    | missingName hclass hname => rw [classRenaming?, if_pos hclass, declaredName, hname]
    | nameTooLong hclass hname hplain hlong =>
      rw [classRenaming?_of_declaredName? hclass hname, if_neg (by simp [hplain]), if_pos hlong]

/-- A class module that can be marked has an entry exactly if its name does not have the mark. -/
theorem eq_of_classRenaming?_eq_ok {source : String × List Token} {entry : Option (String × String)}
    (h : classRenaming? .empty source.1 source.2 = .ok entry) :
    entry = (plainClassName? source).map fun name => (name, classMark ++ name) := by
  by_cases hclass : Origin.isClass source.1 = true
  · rw [plainClassName?, if_pos hclass]
    cases hname : declaredName? source.2 with
    | none =>
      rw [classRenaming?, if_pos hclass, declaredName, hname] at h
      cases h
    | some name =>
      rw [classRenaming?_of_declaredName? hclass hname] at h
      split at h
      next hmark =>
        cases h
        simp [hmark]
      next hplain =>
        split at h
        next => cases h
        next =>
          cases h
          simp [hplain]
  · rw [classRenaming?, if_neg hclass] at h
    cases h
    rw [plainClassName?, if_neg hclass]
    rfl

/-- The table lists the renamings of the classes. -/
theorem classTable_eq (bundle : Bundle) :
    classTable .empty bundle =
      (bundle.entries.mapM fun source => classRenaming? .empty source.1 source.2).map
        fun entries => .ofList (entries.filterMap id) :=
  rfl

/-- **There is no table if some module is unmarkable**, and the first one is reported. -/
theorem classTable_eq_error_iff {bundle : Bundle} {e : RenamingError} :
    classTable .empty bundle = .error e ↔
      ∃ source, IsFirst (fun source => ∃ e, Unmarkable source e) bundle.entries source ∧
        Unmarkable source e := by
  rw [classTable_eq, map_eq_error_iff, mapM_eq_error_iff]
  simp only [classRenaming?_eq_error_iff]

/-- A table has the new names of the class modules whose names do not have the mark. -/
theorem eq_of_classTable_eq_ok {bundle : Bundle} {table : RenameTable}
    (h : classTable .empty bundle = .ok table) :
    table = .ofList (bundle.plainClassNames.map fun name => (name, classMark ++ name)) := by
  rw [classTable_eq] at h
  obtain ⟨entries, hentries, rfl⟩ := map_eq_ok_iff.mp h
  have hmap : (bundle.entries.map fun source =>
      (plainClassName? source).map fun name => (name, classMark ++ name)) = entries := by
    rw [← List.forall₂_eq_eq_eq, List.forall₂_map_left_iff]
    exact (mapM_eq_ok_iff_forall₂.mp hentries).imp fun _ _ h => (eq_of_classRenaming?_eq_ok h).symm
  rw [← hmap, List.filterMap_map, Bundle.plainClassNames, List.map_filterMap]
  rfl

/-! ### What becomes of a word -/

/-- What becomes of a word if the given names get the mark. -/
def markOf? (names : List String) : String → Option String :=
  (RenameTable.ofList (names.map fun name => (name, classMark ++ name))).get?

/-- A word that is marked is one of the names. -/
theorem exists_of_markOf?_eq_some {names : List String} {word renamed : String}
    (h : markOf? names word = some renamed) :
    ∃ name ∈ names, sameWord word name = true ∧ renamed = classMark ++ name := by
  rw [markOf?, RenameTable.get?_ofList] at h
  obtain ⟨pair, hfind, rfl⟩ := Option.map_eq_some_iff.mp h
  have hword := List.find?_some hfind
  have hmem := List.mem_reverse.mp (List.mem_of_find?_eq_some hfind)
  obtain ⟨name, hname, rfl⟩ := List.mem_map.mp hmem
  exact ⟨name, hname, hword, rfl⟩

/-- Other words stay. -/
theorem markOf?_eq_none_iff {names : List String} {word : String} :
    markOf? names word = none ↔ ∀ name ∈ names, sameWord word name = false := by
  rw [markOf?, RenameTable.get?_ofList, Option.map_eq_none_iff, List.find?_eq_none]
  simp

/-- A word that is one of the names gets the mark, in the spelling of that name. -/
theorem exists_markOf?_eq_some {names : List String} {word : String}
    (h : ∃ name ∈ names, sameWord word name = true) :
    ∃ name ∈ names, sameWord word name = true ∧ markOf? names word = some (classMark ++ name) := by
  cases hget : markOf? names word with
  | none =>
    obtain ⟨name, hmem, hword⟩ := h
    rw [markOf?_eq_none_iff.mp hget name hmem] at hword
    cases hword
  | some renamed =>
    obtain ⟨name, hmem, hword, rfl⟩ := exists_of_markOf?_eq_some hget
    exact ⟨name, hmem, hword, rfl⟩

/-- No replacement is a word of a naming line, since none of these begins like the mark. -/
theorem avoidsNamingWords_markOf? (names : List String) : AvoidsNamingWords (markOf? names) := by
  intro word renamed h naming hnaming
  obtain ⟨name, -, -, rfl⟩ := exists_of_markOf?_eq_some h
  have hhead : ∀ naming ∈ namingWords, (foldCase naming).toList.head? ≠ some 'z' := by decide
  by_contra hsame
  rw [Bool.not_eq_false, sameWord_iff] at hsame
  refine hhead naming hnaming ?_
  rw [← hsame, toList_foldCase, String.toList_append]
  rfl

/-! ### Renamed bundles -/

namespace Bundle

/-- The bundle with the names of all its modules replaced, with the number of changes. -/
def renamedBy (bundle : Bundle) (replacement? : String → Option String) : Renamed where
  bundle := bundle.mapValues fun _ tokens => renameTokens replacement? tokens
  changed :=
    (bundle.entries.map fun source => countRenamed replacement? source.2).foldr (· + ·) 0
  notices := bundle.entries.map fun source => .renamed source.1 (countRenamed replacement? source.2)

/-- Renaming a bundle renames in each source. -/
theorem entries_renamedBy (bundle : Bundle) (replacement? : String → Option String) :
    (bundle.renamedBy replacement?).bundle.entries =
      bundle.entries.map fun source => (source.1, renameTokens replacement? source.2) :=
  rfl

/-- Renaming first makes the rules, which may fail, and then applies them. -/
theorem rename_eq (bundle : Bundle) (rules : RuleList) (renameClasses : Bool) :
    bundle.rename rules renameClasses =
      (bundleRules rules renameClasses bundle).map fun rules =>
        bundle.renamedBy rules.replacementFor? := by
  simp only [rename, renamedBy, applyRules, changesBy, List.map_map]
  rfl

/-- The bundle with the class modules marked. -/
def marked (bundle : Bundle) : Renamed :=
  bundle.renamedBy (markOf? bundle.plainClassNames)

/-- **Renaming fails with the error of the first class that cannot be marked.** -/
theorem rename_eq_error_iff {bundle : Bundle} {e : RenamingError} :
    bundle.rename .empty true = .error e ↔
      ∃ source, IsFirst (fun source => ∃ e, Unmarkable source e) bundle.entries source ∧
        Unmarkable source e := by
  rw [rename_eq, map_eq_error_iff, bundleRules, if_pos rfl, map_eq_error_iff,
    classTable_eq_error_iff]

/-- It fails exactly if there is such a class. -/
theorem exists_rename_eq_error_iff {bundle : Bundle} :
    (∃ e, bundle.rename .empty true = .error e) ↔
      ∃ source ∈ bundle.entries, ∃ e, Unmarkable source e := by
  rw [← exists_isFirst_iff]
  constructor
  · rintro ⟨e, h⟩
    obtain ⟨source, hfirst, -⟩ := rename_eq_error_iff.mp h
    exact ⟨source, hfirst⟩
  · rintro ⟨source, hfirst⟩
    obtain ⟨e, h⟩ := hfirst.prop
    exact ⟨e, rename_eq_error_iff.mpr ⟨source, hfirst, h⟩⟩

/-- **Renaming the class modules marks them**, unless one of them is unmarkable. -/
theorem rename_eq_ok_iff {bundle : Bundle} {renamed : Renamed} :
    bundle.rename .empty true = .ok renamed ↔
      (∀ source ∈ bundle.entries, ∀ e, ¬Unmarkable source e) ∧ renamed = bundle.marked := by
  have hvalue : ∀ {renamed}, bundle.rename .empty true = .ok renamed →
      renamed = bundle.marked := by
    intro renamed h
    rw [rename_eq, bundleRules, if_pos rfl] at h
    obtain ⟨rules, hrules, rfl⟩ := map_eq_ok_iff.mp h
    obtain ⟨table, htable, rfl⟩ := map_eq_ok_iff.mp hrules
    rw [eq_of_classTable_eq_ok htable, marked, markOf?]
    exact congrArg _ (funext (RuleList.replacementFor?_addTable_ofList _))
  constructor
  · intro h
    refine ⟨fun source hsource e he => ?_, hvalue h⟩
    obtain ⟨e', herror⟩ := exists_rename_eq_error_iff.mpr ⟨source, hsource, e, he⟩
    rw [h] at herror
    cases herror
  · rintro ⟨hmarkable, rfl⟩
    cases hrename : bundle.rename .empty true with
    | error e =>
      obtain ⟨source, hsource, e', he'⟩ := exists_rename_eq_error_iff.mp ⟨e, hrename⟩
      exact absurd he' (hmarkable source hsource e')
    | ok renamed => rw [hvalue hrename]

/-- The name that a module of a bundle of texts gives after the class modules are marked. -/
theorem declaredName?_marked {texts : List (String × String)} {source : String × List Token}
    (h : source ∈ (ofTexts texts).entries) (names : List String) :
    declaredName? (renameTokens (markOf? names) source.2) =
      (declaredName? source.2).map fun name => (markOf? names name).getD name := by
  obtain ⟨text, -, hlex⟩ := exists_text_of_mem_ofTexts h
  rw [hlex, declaredName?_renameTokens (avoidsNamingWords_markOf? names)]

end Bundle

end VbaModules

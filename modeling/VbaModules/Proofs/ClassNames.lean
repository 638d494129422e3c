import VbaModules.Proofs.Converting

/-!
# When the classes of a bundle have different names

A class module keeps its name. A standard module `M` becomes the class `z__M`, or gets a name with a
counter if that is too long. Names with counters are different from all names taken before them and
from all names that fit, and generated names of different modules are different. What nothing
prevents is that a class module is called `z__M` already: the name `z__M` is not compared with the
names that are taken, although those of the class modules are recorded for it. So the names of the
classes are different exactly if no class module has such a name (`nodup_className_iff`).
-/

namespace VbaModules

open Text

/-! ### The three kinds of names -/

theorem generatedMark_append_inj {m n : String} (h : generatedMark ++ m = generatedMark ++ n) :
    m = n := by
  have hlist := congrArg String.toList h
  rw [String.toList_append, String.toList_append] at hlist
  exact String.toList_inj.mp (List.append_cancel_left hlist)

/-- The name of the class that a module becomes. -/
def classNameFor (taken : List String) (m : NamedModule) : String :=
  if m.isClass then m.name else ShortName.shorten (generatedMark ++ m.name) taken

/-- The names that are taken after a module became a class. -/
def takenAfter (taken : List String) (m : NamedModule) : List String :=
  if m.isClass then taken else ShortName.take (classNameFor taken m) taken

theorem mem_takenAfter {taken : List String} {m : NamedModule} {x : String} :
    x ∈ takenAfter taken m ↔ x ∈ taken ∨ m.isClass = false ∧ x = classNameFor taken m := by
  rw [takenAfter]
  split
  next hclass => simp [hclass]
  next hclass => rw [ShortName.mem_take, or_comm]; simp [hclass]

/-- One step of the conversion, as far as names are concerned. -/
theorem exists_convertAll_cons (exports : Exports) (taken : List String) (m : NamedModule)
    (rest : List NamedModule) :
    ∃ c, convertAll exports taken (m :: rest) =
        c :: convertAll exports (takenAfter taken m) rest ∧
      c.className = classNameFor taken m ∧ c.converted = !m.isClass := by
  rw [convertAll, takenAfter, classNameFor]
  cases m.isClass with
  | true => exact ⟨_, rfl, rfl, rfl⟩
  | false => exact ⟨_, rfl, rfl, rfl⟩

/-- **Where the name of a class comes from**: a class module keeps its own, a standard module has
the generated one if it fits, or else one with a counter that was not taken. -/
inductive ComesFrom (taken : List String) (modules : List NamedModule) (x : String) : Prop where
  | kept {m : NamedModule} (hm : m ∈ modules) (hclass : m.isClass = true) (hname : m.name = x)
  | generated {m : NamedModule} (hm : m ∈ modules) (hclass : m.isClass = false)
      (hname : generatedMark ++ m.name = x) (hfits : ShortName.fits x = true)
  | numbered {m : NamedModule} (hm : m ∈ modules) (hclass : m.isClass = false)
      (hfits : ShortName.fits x = false) (hout : x ∉ taken)

theorem ComesFrom.mono {taken taken' : List String} {modules modules' : List NamedModule}
    {x : String} (h : ComesFrom taken' modules x) (htaken : ∀ y ∈ taken, y ∈ taken')
    (hmodules : ∀ m ∈ modules, m ∈ modules') : ComesFrom taken modules' x := by
  cases h with
  | kept hm hclass hname => exact .kept (hmodules _ hm) hclass hname
  | generated hm hclass hname hfits => exact .generated (hmodules _ hm) hclass hname hfits
  | numbered hm hclass hfits hout =>
    exact .numbered (hmodules _ hm) hclass hfits fun hmem => hout (htaken x hmem)

theorem comesFrom_classNameFor (taken : List String) (m : NamedModule) :
    ComesFrom taken [m] (classNameFor taken m) := by
  rw [classNameFor]
  split
  next hclass => exact .kept List.mem_cons_self hclass rfl
  next hclass =>
    have hstandard : m.isClass = false := by simpa using hclass
    cases hfits : ShortName.fits (generatedMark ++ m.name) with
    | true =>
      rw [ShortName.shorten_of_fits hfits]
      exact .generated List.mem_cons_self hstandard rfl hfits
    | false =>
      obtain ⟨n, hn, hout⟩ := ShortName.exists_shorten_eq_numbered hfits taken
      rw [hn]
      exact .numbered List.mem_cons_self hstandard (ShortName.fits_numbered hfits n) hout

/-- Every class of a conversion has a name of one of the three kinds. -/
theorem comesFrom_of_mem {exports : Exports} {taken : List String} {modules : List NamedModule}
    {x : String} (hx : x ∈ (convertAll exports taken modules).map ClassModule.className) :
    ComesFrom taken modules x := by
  induction modules generalizing taken with
  | nil => simp [convertAll] at hx
  | cons m rest ih =>
    obtain ⟨c, h, hname, -⟩ := exists_convertAll_cons exports taken m rest
    rw [h, List.map_cons, List.mem_cons] at hx
    rcases hx with rfl | hx
    · rw [hname]
      exact (comesFrom_classNameFor taken m).mono (fun _ hy => hy) (by simp)
    · exact (ih hx).mono (fun y hy => mem_takenAfter.mpr (Or.inl hy))
        fun n hn => List.mem_cons_of_mem m hn

/-! ### Classes with different names -/

/-- No class module among them has the name that a standard module among them gets. -/
def NoneGenerated (modules : List NamedModule) : Prop :=
  ∀ c ∈ modules, ∀ m ∈ modules, c.isClass = true → m.isClass = false →
    ShortName.fits (generatedMark ++ m.name) = true → c.name ≠ generatedMark ++ m.name

theorem NoneGenerated.tail {m : NamedModule} {rest : List NamedModule}
    (h : NoneGenerated (m :: rest)) : NoneGenerated rest :=
  fun c hc n hn => h c (List.mem_cons_of_mem m hc) n (List.mem_cons_of_mem m hn)

/-- The name of a class is not given out again: each of the three kinds of names is compared with
each kind of later names. -/
theorem classNameFor_not_mem {exports : Exports} {taken : List String} {m : NamedModule}
    {rest : List NamedModule} (hnames : ∀ n ∈ rest, m.name ≠ n.name)
    (hkept : ∀ n ∈ m :: rest, n.isClass = true → n.name ∈ taken)
    (hnone : NoneGenerated (m :: rest)) :
    classNameFor taken m ∉
      (convertAll exports (takenAfter taken m) rest).map ClassModule.className := by
  intro hmem
  have hhere := comesFrom_classNameFor taken m
  have hlater := comesFrom_of_mem hmem
  have htaken : m.isClass = false → classNameFor taken m ∈ takenAfter taken m :=
    fun hclass => mem_takenAfter.mpr (Or.inr ⟨hclass, rfl⟩)
  generalize classNameFor taken m = x at hhere hlater htaken
  cases hhere with
  | @kept m' hm hclass hname =>
    obtain rfl := List.mem_singleton.mp hm
    have hx : x ∈ taken := hname ▸ hkept m' List.mem_cons_self hclass
    cases hlater with
    | kept hn _ heq => exact hnames _ hn (hname.trans heq.symm)
    | generated hn hstandard heq hfits =>
      exact hnone m' List.mem_cons_self _ (List.mem_cons_of_mem m' hn) hclass hstandard
        (heq ▸ hfits) (hname.trans heq.symm)
    | numbered _ _ _ hout => exact hout (mem_takenAfter.mpr (Or.inl hx))
  | @generated m' hm hclass hname hfits =>
    obtain rfl := List.mem_singleton.mp hm
    cases hlater with
    | kept hn hclass' heq =>
      exact hnone _ (List.mem_cons_of_mem m' hn) m' List.mem_cons_self hclass' hclass
        (hname ▸ hfits) (heq.trans hname.symm)
    | generated hn _ heq _ =>
      exact hnames _ hn (generatedMark_append_inj (hname.trans heq.symm))
    | numbered _ _ _ hout => exact hout (htaken hclass)
  | @numbered m' hm hclass hfits hout =>
    obtain rfl := List.mem_singleton.mp hm
    cases hlater with
    | kept hn hclass' heq =>
      exact hout (heq ▸ hkept _ (List.mem_cons_of_mem m' hn) hclass')
    | generated _ _ _ hfits' =>
      rw [hfits] at hfits'
      cases hfits'
    | numbered _ _ _ hout' => exact hout' (htaken hclass)

theorem nodup_className_convertAll {exports : Exports} {taken : List String}
    {modules : List NamedModule} (hnames : modules.Pairwise fun m n => m.name ≠ n.name)
    (hkept : ∀ m ∈ modules, m.isClass = true → m.name ∈ taken) (hnone : NoneGenerated modules) :
    ((convertAll exports taken modules).map ClassModule.className).Nodup := by
  induction modules generalizing taken with
  | nil => simp [convertAll]
  | cons m rest ih =>
    obtain ⟨hm, hrest⟩ := List.pairwise_cons.mp hnames
    obtain ⟨c, h, hname, -⟩ := exists_convertAll_cons exports taken m rest
    have hkept' : ∀ n ∈ rest, n.isClass = true → n.name ∈ takenAfter taken m := by
      intro n hn hclass
      exact mem_takenAfter.mpr (Or.inl (hkept n (List.mem_cons_of_mem m hn) hclass))
    rw [h, List.map_cons, List.nodup_cons, hname]
    exact ⟨classNameFor_not_mem hm hkept hnone, ih hrest hkept' hnone.tail⟩

/-- Every module becomes a class. -/
theorem exists_class_of_mem {exports : Exports} {taken : List String}
    {modules : List NamedModule} {m : NamedModule} (hm : m ∈ modules) :
    ∃ c ∈ convertAll exports taken modules, ∃ taken', c.className = classNameFor taken' m ∧
      c.converted = !m.isClass := by
  induction modules generalizing taken with
  | nil => cases hm
  | cons n rest ih =>
    obtain ⟨c, h, hname, hconverted⟩ := exists_convertAll_cons exports taken n rest
    rw [h]
    rcases List.mem_cons.mp hm with rfl | hrest
    · exact ⟨c, List.mem_cons_self, taken, hname, hconverted⟩
    · obtain ⟨c', hc', hrest⟩ := ih hrest
      exact ⟨c', List.mem_cons_of_mem c hc', hrest⟩

/-- **When the classes of a bundle have different names**: if its modules do, ignoring ASCII case,
exactly when no class module is named `z__M` for a standard module `M` whose name `z__M` fits. -/
theorem nodup_className_iff {bundle : Bundle} {classes : List ClassModule}
    (hconvert : convertBundle bundle = .ok classes)
    (hdistinct : bundle.modules.Pairwise fun m n => sameWord m.name n.name = false) :
    (classes.map ClassModule.className).Nodup ↔
      ∀ c ∈ bundle.modules, ∀ m ∈ bundle.modules, c.isClass = true → m.isClass = false →
        ShortName.fits (generatedMark ++ m.name) = true → c.name ≠ generatedMark ++ m.name := by
  obtain ⟨-, rfl⟩ := convertBundle_eq_ok_iff.mp hconvert
  constructor
  · intro hnodup c hc m hm hclass hstandard hfits heq
    obtain ⟨c', hc', taken, hname, hkept⟩ := exists_class_of_mem hc
    obtain ⟨m', hm', taken', hname', hconverted⟩ := exists_class_of_mem hm
    rw [classNameFor, if_pos hclass] at hname
    rw [classNameFor, if_neg (by simp [hstandard]), ShortName.shorten_of_fits hfits] at hname'
    -- the two classes would be the same, but only one was made from a standard module
    have hsame : c' = m' := List.inj_on_of_nodup_map hnodup hc' hm' (by rw [hname, hname', heq])
    rw [hsame, hconverted, hclass, hstandard] at hkept
    cases hkept
  · intro hnone
    refine nodup_className_convertAll (hdistinct.imp ?_) ?_ hnone
    · rintro m n hne heq
      rw [heq, sameWord, beq_self_eq_true] at hne
      cases hne
    · exact fun m hm hclass => mem_keptNames.mpr ⟨m, hm, hclass, rfl⟩

/-! ### Two bundles -/

/-- A class module with the mark of generated names, beside standard modules with a short and a long
name. -/
def rowTexts : List NamedText :=
  [⟨"grid.bas", "Grid", ""⟩, ⟨"old.cls", "z__Row", ""⟩,
    ⟨"cells.bas", "CellsOfTheRowsAndColumnsOfAllGrids", ""⟩]

/-- The classes get different names: one is generated, one kept and one cut. -/
theorem nodup_className_rowTexts :
    ∃ classes, convertBundle (.ofNamedTexts rowTexts) = .ok classes ∧
      (classes.map ClassModule.className).Nodup := by
  obtain ⟨⟨classes, hconvert⟩, hmodules⟩ :=
    @exists_convertBundle_ofNamedTexts rowTexts (by decide) (by decide)
  refine ⟨classes, hconvert, (nodup_className_iff hconvert ?_).mpr ?_⟩
  · rw [hmodules]
    decide
  · rw [hmodules]
    decide

/-- A class module that has the name which a standard module gets. -/
def oldGridTexts : List NamedText :=
  [⟨"grid.bas", "Grid", ""⟩, ⟨"old.cls", "z__Grid", ""⟩]

/-- **Two classes can have the same name**, although the modules have different names. -/
theorem className_oldGridTexts :
    ∃ classes, convertBundle (.ofNamedTexts oldGridTexts) = .ok classes ∧
      ((Bundle.ofNamedTexts oldGridTexts).modules.Pairwise fun m n =>
        sameWord m.name n.name = false) ∧
      classes.map ClassModule.className = ["z__Grid", "z__Grid"] ∧
      ¬(classes.map ClassModule.className).Nodup := by
  obtain ⟨⟨classes, hconvert⟩, hmodules⟩ :=
    @exists_convertBundle_ofNamedTexts oldGridTexts (by decide) (by decide)
  have hnames : classes.map ClassModule.className = ["z__Grid", "z__Grid"] := by
    obtain ⟨-, rfl⟩ := convertBundle_eq_ok_iff.mp hconvert
    rw [hmodules, oldGridTexts, List.map_cons, List.map_cons, List.map_nil]
    obtain ⟨c, hc, hname, -⟩ := exists_convertAll_cons _ _ _ _
    obtain ⟨d, hd, hname', -⟩ := exists_convertAll_cons _ _ _ _
    rw [hc, hd, List.map_cons, List.map_cons, hname, hname', convertAll, List.map_nil]
    decide
  refine ⟨classes, hconvert, by rw [hmodules]; decide, hnames, ?_⟩
  rw [hnames]
  decide

end VbaModules

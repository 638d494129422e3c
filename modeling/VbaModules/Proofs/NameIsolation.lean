import Mathlib.Data.List.Pairwise
import VbaModules.Proofs.Assembling
import VbaModules.Proofs.SectionPartition

/-!
# How far qualifying keeps private names apart

Every private symbol gets the name of its module and an underscore in front. Module names and
symbols may hold underscores themselves, so the qualified name does not tell where the module name
ends, and different modules can arrive at the same qualified name.

`sameWord_qualifiedName_iff` says exactly when: one module name has to go on where the other one
ends, with an underscore and some word, and this word with an underscore has to stand in front of
the symbol of the other module (`Straddles`). Equal symbols of modules with different names are
always kept apart, and so are all symbols of modules of which no name extends another by an
underscore and a word.
-/

namespace VbaModules

open Text

theorem Text.sameWord_comm (a b : String) : sameWord a b = sameWord b a := by
  rw [sameWord, sameWord, Bool.beq_comm]

/-! ### One spelling for each private name -/

/-- No two of the first spellings are the same word. -/
theorem nodup_foldCase_firstSpellings (names : List String) :
    ((firstSpellings names).map foldCase).Nodup := by
  induction names with
  | nil => exact List.nodup_nil
  | cons name names ih =>
    rw [firstSpellings, List.map_cons, List.nodup_cons]
    refine ⟨fun hmem => ?_, ih.sublist (List.filter_sublist.map foldCase)⟩
    obtain ⟨other, hother, hfold⟩ := List.mem_map.mp hmem
    have hkept := List.of_mem_filter hother
    simp [sameWord, hfold] at hkept

namespace Qualify

/-- The table gives every spelling of a private name its qualified form, and nothing else. -/
theorem get?_table_eq_some_iff {module word replacement : String} {tokens : List Token} :
    (table module tokens).get? word = some replacement ↔
      ∃ s ∈ privateNames tokens, sameWord word s = true ∧ replacement = qualifiedName module s := by
  have hwords : (((privateNames tokens).map fun s => (s, qualifiedName module s)).map
      fun entry => foldCase entry.1).Nodup := by
    rw [List.map_map, privateNames]
    exact nodup_foldCase_firstSpellings _
  rw [table, RenameTable.get?_ofList_eq_some_iff hwords]
  constructor
  · rintro ⟨name, hmem, hword⟩
    obtain ⟨s, hs, heq⟩ := List.mem_map.mp hmem
    obtain ⟨rfl, rfl⟩ := Prod.mk.inj heq
    exact ⟨s, hs, hword, rfl⟩
  · rintro ⟨s, hs, hword, rfl⟩
    exact ⟨s, List.mem_map.mpr ⟨s, hs, rfl⟩, hword⟩

theorem get?_table {module s : String} {tokens : List Token} (h : s ∈ privateNames tokens) :
    (table module tokens).get? s = some (qualifiedName module s) :=
  get?_table_eq_some_iff.mpr ⟨s, h, sameWord_iff.mpr rfl, rfl⟩

/-! ### When qualified names agree -/

/-- The module name `n` and the symbol `s` of the module `m` **straddle** the same word: with the
word `x`, the name `n` is `m_x` and the symbol `s` is `x_t`. -/
def Straddles (m s n t : String) : Prop :=
  ∃ x, sameWord n (qualifiedName m x) ∧ sameWord s (qualifiedName x t)

/-- The folded characters of a qualified name. -/
theorem toList_foldCase_qualifiedName (m s : String) :
    (foldCase (qualifiedName m s)).toList =
      (foldCase m).toList ++ '_' :: (foldCase s).toList := by
  have hunderscore : Char.toLower '_' = '_' := by decide
  simp [qualifiedName, hunderscore]

theorem sameWord_iff_toList {a b : String} :
    sameWord a b = true ↔ (foldCase a).toList = (foldCase b).toList := by
  rw [sameWord_iff, String.toList_inj]

/-- A qualified name that straddles a word can be read in both ways. -/
theorem Straddles.sameWord_qualifiedName {m s n t : String} (h : Straddles m s n t) :
    sameWord (qualifiedName m s) (qualifiedName n t) = true := by
  obtain ⟨x, hn, hs⟩ := h
  rw [sameWord_iff_toList, toList_foldCase_qualifiedName] at hn hs ⊢
  rw [toList_foldCase_qualifiedName, hn, hs, List.append_assoc, List.cons_append]

/-- The longer of two module names under one qualified name straddles a word. -/
theorem straddles_of_longer_name {m s n t : String} {middle : List Char}
    (hne : sameWord m n = false) (hn : (foldCase n).toList = (foldCase m).toList ++ middle)
    (hs : '_' :: (foldCase s).toList = middle ++ '_' :: (foldCase t).toList) :
    Straddles m s n t := by
  cases middle with
  | nil =>
    rw [List.append_nil, ← sameWord_iff_toList, sameWord_comm, hne] at hn
    cases hn
  | cons c middle =>
    rw [List.cons_append, List.cons.injEq] at hs
    obtain ⟨rfl, hs⟩ := hs
    -- the word is cut out of `n` itself, whose letters need not be folded
    obtain ⟨x, hword⟩ : ∃ x, (foldCase x).toList = middle := by
      refine ⟨String.ofList (n.toList.drop (m.toList.length + 1)), ?_⟩
      rw [toList_foldCase, String.toList_ofList, List.map_drop, ← toList_foldCase, hn,
        toList_foldCase, ← List.drop_drop, List.drop_left' (by simp)]
      rfl
    refine ⟨x, sameWord_iff_toList.mpr ?_, sameWord_iff_toList.mpr ?_⟩
    · rw [toList_foldCase_qualifiedName, hword, hn]
    · rw [toList_foldCase_qualifiedName, hword, hs]

/-- **Qualified names of different modules agree only by straddling a word.** -/
theorem sameWord_qualifiedName_iff {m s n t : String} (hne : sameWord m n = false) :
    sameWord (qualifiedName m s) (qualifiedName n t) = true ↔
      Straddles m s n t ∨ Straddles n t m s := by
  constructor
  · intro h
    rw [sameWord_iff_toList, toList_foldCase_qualifiedName, toList_foldCase_qualifiedName,
      List.append_eq_append_iff] at h
    rcases h with ⟨middle, hn, hs⟩ | ⟨middle, hm, ht⟩
    · exact Or.inl (straddles_of_longer_name hne hn hs)
    · exact Or.inr (straddles_of_longer_name (sameWord_comm m n ▸ hne) hm ht)
  · rintro (h | h)
    · exact h.sameWord_qualifiedName
    · rw [sameWord_comm]
      exact h.sameWord_qualifiedName

end Qualify

/-! ### Private names in a merged module -/

namespace Assembly

/-- The merged module lists a source under the name that the source gives itself. -/
theorem Assembled.declaredName? {bundle : Bundle} {name? : Option String} {result : Assembly}
    {first : Prepared} {rest : List Prepared} (h : Assembled bundle name? result first rest)
    {origin m : String} {tokens : List Token} (hsource : bundle.get? origin = some tokens)
    (hname : result.moduleNames.get? origin = some m) : declaredName? tokens = some m := by
  obtain ⟨i, hi⟩ := List.getElem?_of_mem (Dictionary.get?_eq_some_iff.mp hsource)
  obtain ⟨p, hp, hprepare⟩ := h.exists_prepared hi
  obtain ⟨name, hdeclared, rfl⟩ := prepare_eq_ok_iff.mp hprepare
  have hlisted : (origin, name) ∈ result.moduleNames.entries := by
    rw [h.entries_moduleNames]
    exact List.mem_map.mpr ⟨_, List.mem_of_getElem? hp, rfl⟩
  have hsame := (Dictionary.get?_eq_some_iff.mpr hlisted).symm.trans hname
  rw [hdeclared, hsame]

/-- **Private names across modules.** In a merged module whose sources have different names, a
private symbol `s` of the source `m` and a private symbol `t` of the source `n` are renamed to
`m_s` and `n_t`, and these are the same word exactly if they straddle a word. -/
theorem private_names_agree_iff {texts : List (String × String)} {name? : Option String}
    {result : Assembly} (hresult : ofBundle (Bundle.ofTexts texts) name? = .ok result)
    (hdistinct : result.moduleNames.entries.Pairwise fun a b => sameWord a.2 b.2 = false)
    {o o' m n : String} (horigins : o ≠ o') (hm : result.moduleNames.get? o = some m)
    (hn : result.moduleNames.get? o' = some n) {ts ts' : List Token}
    (hts : (Bundle.ofTexts texts).get? o = some ts)
    (hts' : (Bundle.ofTexts texts).get? o' = some ts') {s t : String}
    (hs : s ∈ privateNames ts) (ht : t ∈ privateNames ts') :
    (declaredName? ts = some m ∧ declaredName? ts' = some n) ∧
      (Qualify.table m ts).get? s = some (Qualify.qualifiedName m s) ∧
      (Qualify.table n ts').get? t = some (Qualify.qualifiedName n t) ∧
      (sameWord (Qualify.qualifiedName m s) (Qualify.qualifiedName n t) = true ↔
        Qualify.Straddles m s n t ∨ Qualify.Straddles n t m s) := by
  obtain ⟨first, rest, h⟩ := ofBundle_eq_ok_iff.mp hresult
  have hne : sameWord m n = false := by
    have : Std.Symm fun a b : String × String => sameWord a.2 b.2 = false :=
      ⟨fun a b hab => (sameWord_comm b.2 a.2).trans hab⟩
    have hpair := hdistinct.forall (Dictionary.get?_eq_some_iff.mp hm)
      (Dictionary.get?_eq_some_iff.mp hn) fun heq => horigins (congrArg Prod.fst heq)
    exact hpair
  exact ⟨⟨h.declaredName? hts hm, h.declaredName? hts' hn⟩, Qualify.get?_table hs,
    Qualify.get?_table ht, Qualify.sameWord_qualifiedName_iff hne⟩

/-! ### Two modules that clash -/

/-- The tokens of a module with the given name and one private variable. -/
def variableModule (name symbol : String) : List Token :=
  namingLine name ++
    [⟨.reserved, "Private"⟩, ⟨.blank, " "⟩, ⟨.name, symbol⟩, ⟨.lineBreak, "\n"⟩]

/-- Two modules whose private variables both become `Grid_Row_Count`. -/
def gridTexts : List (String × String) :=
  [("grid.bas", "Attribute VB_Name = \"Grid\"\nPrivate Row_Count\n"),
    ("row.bas", "Attribute VB_Name = \"Grid_Row\"\nPrivate Count\n")]

/-- What is read of the two modules: their tokens, names and private symbols, and what is found in
the tokens that qualifying makes of them. -/
theorem reading_gridTexts :
    gridTexts.map (fun source => (source.1, Lexer.lex source.2)) =
        [("grid.bas", variableModule "Grid" "Row_Count"),
          ("row.bas", variableModule "Grid_Row" "Count")] ∧
      (declaredName? (variableModule "Grid" "Row_Count") = some "Grid" ∧
        declaredName? (variableModule "Grid_Row" "Count") = some "Grid_Row") ∧
      ("Row_Count" ∈ privateNames (variableModule "Grid" "Row_Count") ∧
        "Count" ∈ privateNames (variableModule "Grid_Row" "Count")) ∧
      (Qualify.qualify "Grid" (variableModule "Grid" "Row_Count") =
          variableModule "Grid" "Grid_Row_Count" ∧
        Candidate.all (variableModule "Grid" "Grid_Row_Count") =
          [⟨0, 10, .attributeLine⟩, ⟨10, 14, .global⟩]) ∧
      Qualify.qualify "Grid_Row" (variableModule "Grid_Row" "Count") =
          variableModule "Grid_Row" "Grid_Row_Count" ∧
        Candidate.all (variableModule "Grid_Row" "Grid_Row_Count") =
          [⟨0, 10, .attributeLine⟩, ⟨10, 14, .global⟩] := by
  decide +kernel

theorem entries_gridTexts : (Bundle.ofTexts gridTexts).entries =
    [("grid.bas", variableModule "Grid" "Row_Count"),
      ("row.bas", variableModule "Grid_Row" "Count")] :=
  Bundle.entries_ofTexts reading_gridTexts.1 (by decide)

/-- A module of two sections, its name and its variable, has no option statements. -/
theorem ofSections_variableModule {origin name symbol qualified : String}
    (hqualify : Qualify.qualify name (variableModule name symbol) = variableModule name qualified)
    (hall : Candidate.all (variableModule name qualified) =
      [⟨0, 10, .attributeLine⟩, ⟨10, 14, .global⟩]) :
    OptionStatement.ofSections
      (Prepared.named origin name (variableModule name symbol)).sections = [] := by
  simp only [Prepared.named, qualifiedSections, Partition.sectionsOf, Partition.sections, hqualify,
    Partition.spans_eq_coverFrom_absorb hall (by decide)]
  -- neither span is an option line, so there is nothing to sort
  exact List.mergeSort_nil

theorem ofBundle_gridTexts : ∃ result, ofBundle (Bundle.ofTexts gridTexts) none = .ok result ∧
    (result.moduleNames.entries.Pairwise fun a b => sameWord a.2 b.2 = false) ∧
    result.moduleNames.get? "grid.bas" = some "Grid" ∧
    result.moduleNames.get? "row.bas" = some "Grid_Row" := by
  obtain ⟨-, ⟨hgrid, hrow⟩, -, ⟨hgridQualify, hgridAll⟩, hrowQualify, hrowAll⟩ := reading_gridTexts
  obtain ⟨result, h⟩ : ∃ result, Assembled (Bundle.ofTexts gridTexts) none result
      (.named "grid.bas" "Grid" (variableModule "Grid" "Row_Count"))
      [.named "row.bas" "Grid_Row" (variableModule "Grid_Row" "Count")] := by
    refine ⟨_, ?_, ?_, rfl⟩
    · rw [entries_gridTexts]
      exact .cons (prepare_eq_ok_iff.mpr ⟨_, hgrid, rfl⟩)
        (.cons (prepare_eq_ok_iff.mpr ⟨_, hrow, rfl⟩) .nil)
    · intro p hp
      obtain rfl := List.mem_singleton.mp hp
      rw [ofSections_variableModule hgridQualify hgridAll,
        ofSections_variableModule hrowQualify hrowAll]
  have hnames : result.moduleNames.entries = [("grid.bas", "Grid"), ("row.bas", "Grid_Row")] :=
    h.entries_moduleNames
  refine ⟨result, ofBundle_eq_ok_iff.mpr ⟨_, _, h⟩, ?_⟩
  rw [Dictionary.get?, Dictionary.get?, hnames]
  decide

theorem get?_gridTexts :
    (Bundle.ofTexts gridTexts).get? "grid.bas" = some (variableModule "Grid" "Row_Count") ∧
      (Bundle.ofTexts gridTexts).get? "row.bas" = some (variableModule "Grid_Row" "Count") := by
  rw [Dictionary.get?, Dictionary.get?, entries_gridTexts]
  decide

theorem mem_privateNames_gridTexts :
    "Row_Count" ∈ privateNames (variableModule "Grid" "Row_Count") ∧
      "Count" ∈ privateNames (variableModule "Grid_Row" "Count") :=
  reading_gridTexts.2.2.1

/-- The two modules can be merged, and both readings of the qualified name are there. -/
theorem gridTexts_straddle :
    ∃ result, ofBundle (Bundle.ofTexts gridTexts) none = .ok result ∧
      (Qualify.Straddles "Grid" "Row_Count" "Grid_Row" "Count" ∨
        Qualify.Straddles "Grid_Row" "Count" "Grid" "Row_Count") := by
  obtain ⟨result, hresult, hdistinct, hgrid, hrow⟩ := ofBundle_gridTexts
  have hagree := private_names_agree_iff hresult hdistinct (by decide) hgrid hrow
    get?_gridTexts.1 get?_gridTexts.2 mem_privateNames_gridTexts.1 mem_privateNames_gridTexts.2
  exact ⟨result, hresult, hagree.2.2.2.mp (by decide +kernel)⟩

/-- **Different modules can clash**: the sources have different names and can be merged, yet a
private symbol of the one and a private symbol of the other get the same qualified name. -/
theorem gridTexts_private_names_clash :
    ∃ result ts ts' s t, ofBundle (Bundle.ofTexts gridTexts) none = .ok result ∧
      (result.moduleNames.entries.Pairwise fun a b => sameWord a.2 b.2 = false) ∧
      result.moduleNames.get? "grid.bas" = some "Grid" ∧
      result.moduleNames.get? "row.bas" = some "Grid_Row" ∧
      (Bundle.ofTexts gridTexts).get? "grid.bas" = some ts ∧
      (Bundle.ofTexts gridTexts).get? "row.bas" = some ts' ∧
      s ∈ privateNames ts ∧ t ∈ privateNames ts' ∧
      Qualify.qualifiedName "Grid" s = Qualify.qualifiedName "Grid_Row" t := by
  obtain ⟨result, hresult, hdistinct, hgrid, hrow⟩ := ofBundle_gridTexts
  exact ⟨result, _, _, "Row_Count", "Count", hresult, hdistinct, hgrid, hrow, get?_gridTexts.1,
    get?_gridTexts.2, mem_privateNames_gridTexts.1, mem_privateNames_gridTexts.2, by decide⟩

end Assembly

end VbaModules

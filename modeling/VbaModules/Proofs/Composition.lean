import Mathlib.Data.List.Perm.Basic
import VbaModules.Proofs.Assembling
import VbaModules.Proofs.NameIsolation

/-!
# Merging is compositional

Assembling treats every source on its own. Whether it succeeds depends only on the option
statements of the sources, which must all be there and be the same
(`exists_ofBundle_eq_ok_iff`), and what a source puts in a bucket depends on nothing but the source
(`bucket_eq_flatMap`). So assembling two bundles one after the other is assembling each of them and
putting the results together bucket by bucket. The bucket of the option statements is the
exception: it is filled by the first source alone.

Nothing is said here about errors. If assembling fails, the error names the first source that is to
blame, and that does depend on the order.
-/

namespace VbaModules

/-! ### What a source contributes -/

/-- A source, given by its origin and tokens, ready for merging if it gives its name. -/
def prepared? (source : String × List Token) : Option Prepared :=
  (prepare source.1 source.2).toOption

/-- The option statements of a source, sorted. -/
def sourceOptions? (source : String × List Token) : Option (List String) :=
  (prepared? source).map fun p => OptionStatement.ofSections p.sections

/-- The sections that a source puts in a bucket, in their order. -/
def sourceSections (bucket : Bucket) (source : String × List Token) : List Section :=
  (prepared? source).toList.flatMap (·.contribution bucket)

/-- The origin of a source with the name it gives itself. -/
def sourceNames (source : String × List Token) : List (String × String) :=
  (prepared? source).toList.map fun p => (p.origin, p.name)

theorem prepared?_eq_some_iff {source : String × List Token} {p : Prepared} :
    prepared? source = some p ↔ prepare source.1 source.2 = .ok p := by
  rw [prepared?]
  cases prepare source.1 source.2 <;> simp [Except.toOption]

/-- Sources that can all be prepared contribute what their prepared forms do. -/
theorem flatMap_prepared? {α : Type} {sources : List (String × List Token)} {ps : List Prepared}
    (h : List.Forall₂ (fun e p => prepare e.1 e.2 = .ok p) sources ps) (f : Prepared → List α) :
    ps.flatMap f = sources.flatMap fun source => (prepared? source).toList.flatMap f := by
  induction h with
  | nil => rfl
  | cons hp _ ih =>
    rw [List.flatMap_cons, List.flatMap_cons, ih, prepared?_eq_some_iff.mpr hp]
    simp

/-! ### Bundles one after the other -/

namespace Bundle

/-- The bundle with the modules of another one inserted after its own. -/
def followedBy (earlier later : Bundle) : Bundle :=
  later.entries.foldl (fun bundle (origin, tokens) => bundle.insert origin tokens) earlier

/-- The option statements of the first module, sorted. -/
def firstOptions? (bundle : Bundle) : Option (List String) :=
  bundle.entries.head?.bind sourceOptions?

/-- If no origin is in both bundles, the modules of both are there. -/
theorem entries_followedBy {earlier later : Bundle}
    (h : ∀ origin, earlier.contains origin = true → later.contains origin = false) :
    (earlier.followedBy later).entries = earlier.entries ++ later.entries := by
  refine Dictionary.entries_foldl_insert ?_
  rw [List.map_append]
  refine List.nodup_append.mpr ⟨earlier.distinct, later.distinct, ?_⟩
  rintro _ hearlier origin hlater rfl
  obtain ⟨⟨_, ts⟩, hts, rfl⟩ := List.mem_map.mp hearlier
  obtain ⟨⟨origin, us⟩, hus, rfl⟩ := List.mem_map.mp hlater
  have hcontains := h origin (by rw [Dictionary.contains, Dictionary.get?_eq_some_iff.mpr hts]; rfl)
  rw [Dictionary.contains, Dictionary.get?_eq_some_iff.mpr hus] at hcontains
  cases hcontains

end Bundle

namespace Assembly

/-! ### The merged module, source by source -/

/-- The sections in a bucket of a merged module. -/
def bucket (m : Assembly) (b : Bucket) : List Section :=
  (m.buckets.lookup b).getD []

section Result

variable {bundle : Bundle} {name? : Option String} {result : Assembly}

theorem Assembled.bucket_eq {first : Prepared} {rest : List Prepared}
    (h : Assembled bundle name? result first rest) (b : Bucket) :
    result.bucket b = bucketSections first rest b := by
  rw [bucket, h.result_eq]
  cases b <;> rfl

/-- **Each source fills the buckets on its own**: a bucket holds what the sources put there, one
after the other. Only the first source puts option statements there. -/
theorem bucket_eq_flatMap (h : ofBundle bundle name? = .ok result) (b : Bucket) :
    result.bucket b =
      (if b = .options then bundle.entries.take 1 else bundle.entries).flatMap
        (sourceSections b) := by
  obtain ⟨first, rest, hassembled⟩ := ofBundle_eq_ok_iff.mp h
  have hprepared := hassembled.prepared
  rw [hassembled.bucket_eq, bucketSections]
  split
  next =>
    have hfirst := flatMap_prepared? (List.forall₂_take 1 hprepared) (·.contribution b)
    rw [List.append_nil]
    rwa [List.take_succ_cons, List.take_zero, List.flatMap_singleton] at hfirst
  next =>
    have hall := flatMap_prepared? hprepared (·.contribution b)
    rwa [List.flatMap_cons] at hall

theorem entries_moduleNames_eq_flatMap (h : ofBundle bundle name? = .ok result) :
    result.moduleNames.entries = bundle.entries.flatMap sourceNames := by
  obtain ⟨first, rest, hassembled⟩ := ofBundle_eq_ok_iff.mp h
  have hall := flatMap_prepared? hassembled.prepared fun p => [(p.origin, p.name)]
  rw [hassembled.entries_moduleNames, List.map_eq_flatMap, hall]
  refine List.flatMap_congr fun source _ => ?_
  rw [sourceNames, List.map_eq_flatMap]

/-- **Assembling succeeds** exactly if there is a source and all sources give their names and have
the same option statements. -/
theorem exists_ofBundle_eq_ok_iff :
    (∃ result, ofBundle bundle name? = .ok result) ↔
      bundle.entries ≠ [] ∧
        ∃ options, ∀ source ∈ bundle.entries, sourceOptions? source = some options := by
  constructor
  · rintro ⟨result, hresult⟩
    obtain ⟨first, rest, h⟩ := ofBundle_eq_ok_iff.mp hresult
    have hagree : ∀ p ∈ first :: rest, OptionStatement.ofSections p.sections =
        OptionStatement.ofSections first.sections :=
      List.forall_mem_cons.mpr ⟨rfl, h.agree⟩
    refine ⟨fun hnil => ?_, OptionStatement.ofSections first.sections, fun source hsource => ?_⟩
    · have hlength := h.prepared.length_eq
      rw [hnil] at hlength
      cases hlength
    · obtain ⟨i, hi⟩ := List.getElem?_of_mem hsource
      obtain ⟨p, hp, hprepare⟩ := h.exists_prepared hi
      rw [sourceOptions?, prepared?_eq_some_iff.mpr hprepare, Option.map_some,
        hagree p (List.mem_of_getElem? hp)]
  · rintro ⟨hne, options, hoptions⟩
    -- each source can be prepared, since it has options
    have hprepared : ∃ ps : List Prepared,
        List.Forall₂ (fun e p => prepare e.1 e.2 = .ok p) bundle.entries ps ∧
          ∀ p ∈ ps, OptionStatement.ofSections p.sections = options := by
      generalize bundle.entries = sources at hoptions
      induction sources with
      | nil => exact ⟨[], .nil, by simp⟩
      | cons source sources ih =>
        obtain ⟨hsource, hsources⟩ := List.forall_mem_cons.mp hoptions
        obtain ⟨p, hp, hpoptions⟩ := Option.map_eq_some_iff.mp hsource
        obtain ⟨ps, hps, hpsoptions⟩ := ih hsources
        exact ⟨p :: ps, .cons (prepared?_eq_some_iff.mp hp) hps,
          List.forall_mem_cons.mpr ⟨hpoptions, hpsoptions⟩⟩
    obtain ⟨ps, hps, hsame⟩ := hprepared
    cases ps with
    | nil => exact absurd (List.forall₂_nil_right_iff.mp hps) hne
    | cons first rest =>
      obtain ⟨hfirst, hrest⟩ := List.forall_mem_cons.mp hsame
      exact ⟨_, ofBundle_eq_ok_iff.mpr
        ⟨first, rest, hps, fun p hp => (hrest p hp).trans hfirst.symm, rfl⟩⟩

theorem name_eq_of_ofBundle_eq_ok (h : ofBundle bundle name? = .ok result) :
    some result.name = name?.or (bundle.entries.head?.bind fun e => declaredName? e.2) := by
  obtain ⟨first, rest, hassembled⟩ := ofBundle_eq_ok_iff.mp h
  rw [hassembled.result_eq]
  obtain ⟨e, es, hp, -, hentries⟩ := List.forall₂_cons_right_iff.mp hassembled.prepared
  obtain ⟨name, hname, rfl⟩ := prepare_eq_ok_iff.mp hp
  rw [hentries]
  cases name? <;> simp [hname, Prepared.named]

end Result

/-- The option statements that all sources share are those of the first. -/
theorem firstOptions?_eq_some {bundle : Bundle} (hne : bundle.entries ≠ []) {options : List String}
    (h : ∀ source ∈ bundle.entries, sourceOptions? source = some options) :
    bundle.firstOptions? = some options := by
  obtain ⟨source, sources, hentries⟩ := List.exists_cons_of_ne_nil hne
  rw [Bundle.firstOptions?, hentries, List.head?_cons, Option.bind_some]
  exact h source (hentries ▸ List.mem_cons_self)

/-- **Merging is compositional.** Two bundles without a common origin can be assembled one after the
other exactly if each of them can be assembled and their first modules have the same option
statements. The result then has the names of the sources of both, the option statements of the
earlier bundle, and in every other bucket what the earlier and then what the later one has there.
Whether it succeeds does not depend on the order of the sources. -/
theorem ofBundle_followedBy {earlier later : Bundle} (hearlier : earlier.isEmpty = false)
    (hlater : later.isEmpty = false)
    (hdisjoint : ∀ origin, earlier.contains origin = true → later.contains origin = false)
    (name? : Option String) :
    ((∃ m, ofBundle (earlier.followedBy later) name? = .ok m) ↔
      (∃ m, ofBundle earlier name? = .ok m) ∧ (∃ m, ofBundle later name? = .ok m) ∧
        earlier.firstOptions? = later.firstOptions?) ∧
    (∀ m m₁ m₂, ofBundle (earlier.followedBy later) name? = .ok m →
      ofBundle earlier name? = .ok m₁ → ofBundle later name? = .ok m₂ →
        (∀ b, b ≠ .options → m.bucket b = m₁.bucket b ++ m₂.bucket b) ∧
        m.bucket .options = m₁.bucket .options ∧
        m.moduleNames.entries = m₁.moduleNames.entries ++ m₂.moduleNames.entries ∧
        m.name = m₁.name) ∧
    ∀ other : Bundle, other.entries.Perm (earlier.followedBy later).entries →
      ((∃ m, ofBundle other name? = .ok m) ↔
        ∃ m, ofBundle (earlier.followedBy later) name? = .ok m) := by
  have hentries := Bundle.entries_followedBy hdisjoint
  have hne₁ : earlier.entries ≠ [] := by simpa [Dictionary.isEmpty] using hearlier
  have hne₂ : later.entries ≠ [] := by simpa [Dictionary.isEmpty] using hlater
  refine ⟨?_, fun m m₁ m₂ hm hm₁ hm₂ => ⟨fun b hb => ?_, ?_, ?_, ?_⟩, fun other hperm => ?_⟩
  -- all sources have the same options exactly if this holds in both bundles and of their first
  -- modules
  · simp only [exists_ofBundle_eq_ok_iff, hentries, List.forall_mem_append]
    constructor
    · rintro ⟨-, options, h₁, h₂⟩
      refine ⟨⟨hne₁, options, h₁⟩, ⟨hne₂, options, h₂⟩, ?_⟩
      rw [firstOptions?_eq_some hne₁ h₁, firstOptions?_eq_some hne₂ h₂]
    · rintro ⟨⟨-, options₁, h₁⟩, ⟨-, options₂, h₂⟩, hsame⟩
      rw [firstOptions?_eq_some hne₁ h₁, firstOptions?_eq_some hne₂ h₂, Option.some.injEq] at hsame
      subst hsame
      exact ⟨List.append_ne_nil_of_left_ne_nil hne₁ _, options₁, h₁, h₂⟩
  · simp only [bucket_eq_flatMap hm, bucket_eq_flatMap hm₁, bucket_eq_flatMap hm₂, if_neg hb,
      hentries, List.flatMap_append]
  · have htake : (earlier.entries ++ later.entries).take 1 = earlier.entries.take 1 :=
      List.take_append_of_le_length (List.length_pos_iff.mpr hne₁)
    rw [bucket_eq_flatMap hm, bucket_eq_flatMap hm₁, if_pos rfl, if_pos rfl, hentries, htake]
  · rw [entries_moduleNames_eq_flatMap hm, entries_moduleNames_eq_flatMap hm₁,
      entries_moduleNames_eq_flatMap hm₂, hentries, List.flatMap_append]
  · have hhead : (earlier.entries ++ later.entries).head? = earlier.entries.head? :=
      List.head?_append_of_ne_nil _ hne₁
    rw [← Option.some.injEq, name_eq_of_ofBundle_eq_ok hm, name_eq_of_ofBundle_eq_ok hm₁, hentries,
      hhead]
  · simp only [exists_ofBundle_eq_ok_iff, hperm.mem_iff, ne_eq, ← List.length_eq_zero_iff,
      hperm.length_eq]

/-! ### Two modules, each in a bundle of its own -/

/-- A module with one private variable has no options, and its name is the one it gives itself. -/
theorem source_variableModule {origin name symbol qualified : String}
    (hname : declaredName? (variableModule name symbol) = some name)
    (hqualify : Qualify.qualify name (variableModule name symbol) = variableModule name qualified)
    (hall : Candidate.all (variableModule name qualified) =
      [⟨0, 10, .attributeLine⟩, ⟨10, 14, .global⟩]) :
    sourceOptions? (origin, variableModule name symbol) = some [] ∧
      sourceNames (origin, variableModule name symbol) = [(origin, name)] := by
  have hprepare : prepare origin (variableModule name symbol) =
      .ok (.named origin name (variableModule name symbol)) :=
    prepare_eq_ok_iff.mpr ⟨name, hname, rfl⟩
  rw [sourceOptions?, sourceNames, prepared?_eq_some_iff.mpr hprepare]
  refine ⟨?_, rfl⟩
  rw [Option.map_some, ofSections_variableModule hqualify hall]

/-- A bundle of one module with one private variable. -/
def gridBundle : Bundle :=
  Bundle.ofTexts [("grid.bas", "Attribute VB_Name = \"Grid\"\nPrivate Count\n")]

/-- Another bundle of one module with one private variable. -/
def rowBundle : Bundle :=
  Bundle.ofTexts [("row.bas", "Attribute VB_Name = \"Row\"\nPrivate Count\n")]

/-- What is read of the two modules: their tokens and names, and what is found in the tokens that
qualifying makes of them. -/
theorem reading_gridBundle_rowBundle :
    (Lexer.lex "Attribute VB_Name = \"Grid\"\nPrivate Count\n" = variableModule "Grid" "Count" ∧
        declaredName? (variableModule "Grid" "Count") = some "Grid" ∧
        Qualify.qualify "Grid" (variableModule "Grid" "Count") =
          variableModule "Grid" "Grid_Count" ∧
        Candidate.all (variableModule "Grid" "Grid_Count") =
          [⟨0, 10, .attributeLine⟩, ⟨10, 14, .global⟩]) ∧
      Lexer.lex "Attribute VB_Name = \"Row\"\nPrivate Count\n" = variableModule "Row" "Count" ∧
        declaredName? (variableModule "Row" "Count") = some "Row" ∧
        Qualify.qualify "Row" (variableModule "Row" "Count") = variableModule "Row" "Row_Count" ∧
        Candidate.all (variableModule "Row" "Row_Count") =
          [⟨0, 10, .attributeLine⟩, ⟨10, 14, .global⟩] := by
  decide +kernel

theorem entries_gridBundle_rowBundle :
    gridBundle.entries = [("grid.bas", variableModule "Grid" "Count")] ∧
      rowBundle.entries = [("row.bas", variableModule "Row" "Count")] := by
  obtain ⟨⟨hgrid, -⟩, hrow, -⟩ := reading_gridBundle_rowBundle
  constructor
  · exact Bundle.entries_ofTexts (congrArg (fun tokens => [("grid.bas", tokens)]) hgrid) (by decide)
  · exact Bundle.entries_ofTexts (congrArg (fun tokens => [("row.bas", tokens)]) hrow) (by decide)

theorem sources_gridBundle_rowBundle :
    ((∀ source ∈ gridBundle.entries, sourceOptions? source = some []) ∧
      gridBundle.entries.flatMap sourceNames = [("grid.bas", "Grid")]) ∧
    (∀ source ∈ rowBundle.entries, sourceOptions? source = some []) ∧
      rowBundle.entries.flatMap sourceNames = [("row.bas", "Row")] := by
  obtain ⟨hgrid, hrow⟩ := entries_gridBundle_rowBundle
  obtain ⟨⟨-, hgridName, hgridQualify, hgridAll⟩, -, hrowName, hrowQualify, hrowAll⟩ :=
    reading_gridBundle_rowBundle
  simp only [hgrid, hrow, List.forall_mem_singleton, List.flatMap_singleton]
  exact ⟨source_variableModule hgridName hgridQualify hgridAll,
    source_variableModule hrowName hrowQualify hrowAll⟩

/-- The variable of the earlier module comes before that of the later one. -/
theorem ofBundle_gridBundle_rowBundle :
    ∃ m m₁ m₂, ofBundle (gridBundle.followedBy rowBundle) none = .ok m ∧
      ofBundle gridBundle none = .ok m₁ ∧ ofBundle rowBundle none = .ok m₂ ∧
      m.bucket .globals = m₁.bucket .globals ++ m₂.bucket .globals ∧
      m.moduleNames.entries = [("grid.bas", "Grid"), ("row.bas", "Row")] := by
  obtain ⟨hgridEntries, hrowEntries⟩ := entries_gridBundle_rowBundle
  obtain ⟨⟨hgridOptions, hgridNames⟩, hrowOptions, hrowNames⟩ := sources_gridBundle_rowBundle
  have hgrid : gridBundle.entries ≠ [] := by rw [hgridEntries]; simp
  have hrow : rowBundle.entries ≠ [] := by rw [hrowEntries]; simp
  have hdisjoint : ∀ origin, gridBundle.contains origin = true →
      rowBundle.contains origin = false := by
    intro origin
    simp only [Dictionary.contains, Dictionary.get?, hgridEntries, hrowEntries]
    grind
  obtain ⟨hsuccess, hresult, -⟩ := ofBundle_followedBy
    (by simpa [Dictionary.isEmpty] using hgrid) (by simpa [Dictionary.isEmpty] using hrow)
    hdisjoint none
  have hgridOk : ∃ m, ofBundle gridBundle none = .ok m :=
    exists_ofBundle_eq_ok_iff.mpr ⟨hgrid, [], hgridOptions⟩
  have hrowOk : ∃ m, ofBundle rowBundle none = .ok m :=
    exists_ofBundle_eq_ok_iff.mpr ⟨hrow, [], hrowOptions⟩
  obtain ⟨m, hm⟩ := hsuccess.mpr ⟨hgridOk, hrowOk, by
    rw [firstOptions?_eq_some hgrid hgridOptions, firstOptions?_eq_some hrow hrowOptions]⟩
  obtain ⟨m₁, hm₁⟩ := hgridOk
  obtain ⟨m₂, hm₂⟩ := hrowOk
  obtain ⟨hbuckets, -, hnames, -⟩ := hresult m m₁ m₂ hm hm₁ hm₂
  refine ⟨m, m₁, m₂, hm, hm₁, hm₂, hbuckets .globals (by decide), ?_⟩
  rw [hnames, entries_moduleNames_eq_flatMap hm₁, entries_moduleNames_eq_flatMap hm₂,
    hgridNames, hrowNames]
  rfl

end Assembly

end VbaModules

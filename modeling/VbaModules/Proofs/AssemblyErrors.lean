import VbaModules.Proofs.FirstElements
import VbaModules.Proofs.VisibleOptions

/-!
# When assembling fails

There are three reasons for which sources are not assembled, and each has precedence over the next:
there is no source, some source does not give its name, or some source has other option statements
than the first one. The error names the first source to blame (`Refusal`). What is compared are the
option statements as multisets: they are sorted for the comparison, and sorted lists agree exactly
if one list is a permutation of the other (`OptionStatement.ofSections_eq_iff`). So a source can be
exchanged for one that has the same option statements in another order (`ofBundle_errors`).
-/

namespace VbaModules

/-! ### Sorted option statements -/

namespace OptionStatement

theorem ofSections_perm (sections : List Section) :
    (ofSections sections).Perm (inOrder sections) := by
  rw [ofSections_eq]
  exact List.mergeSort_perm _ _

theorem pairwise_le_ofSections (sections : List Section) :
    (ofSections sections).Pairwise (· ≤ ·) := by
  have htest : ∀ a b : String, (!decide (b < a)) = true ↔ a ≤ b := by
    intro a b
    rw [Bool.not_eq_true', decide_eq_false_iff_not, String.not_lt]
  rw [ofSections_eq]
  refine (List.pairwise_mergeSort ?_ ?_ _).imp fun {a b} h => (htest a b).mp h
  · intro a b c hab hbc
    exact (htest a c).mpr (String.le_trans ((htest a b).mp hab) ((htest b c).mp hbc))
  · intro a b
    rw [Bool.or_eq_true, htest, htest]
    exact String.le_total a b

theorem eq_of_perm_of_sorted {a b : List String} (hperm : a.Perm b) (ha : a.Pairwise (· ≤ ·))
    (hb : b.Pairwise (· ≤ ·)) : a = b :=
  hperm.eq_of_pairwise (fun _ _ _ _ hle hge => String.le_antisymm hle hge) ha hb

/-- **Sorted statements agree** exactly if the statements do up to their order. -/
theorem ofSections_eq_iff {sections sections' : List Section} :
    ofSections sections = ofSections sections' ↔ (inOrder sections).Perm (inOrder sections') := by
  constructor
  · intro heq
    exact (ofSections_perm sections).symm.trans (heq ▸ ofSections_perm sections')
  · intro hperm
    have hsorted : (ofSections sections).Perm (ofSections sections') :=
      (ofSections_perm sections).trans (hperm.trans (ofSections_perm sections').symm)
    exact eq_of_perm_of_sorted hsorted (pairwise_le_ofSections _) (pairwise_le_ofSections _)

end OptionStatement

/-! ### Sources to blame -/

/-- The source does not give its name. -/
def Nameless (source : String × List Token) : Prop :=
  declaredName? source.2 = none

/-- The option statements of a source in normal form, in the order of the sections that it has once
its private names are qualified and its conditional blocks are resolved. There are none to speak of
if it does not give its name. -/
def statedOptions? (source : String × List Token) : Option (List String) :=
  (declaredName? source.2).map fun name =>
    OptionStatement.inOrder ((qualifiedSections source.1 name source.2).map Proxy.resolve)

/-- Both sources give their names, and they have **the same option statements** up to order. -/
def SameOptions (source source' : String × List Token) : Prop :=
  ∃ options options', statedOptions? source = some options ∧
    statedOptions? source' = some options' ∧ options.Perm options'

/-- The list holds the option statements of the source in ascending order. -/
def SortedOptions (source : String × List Token) (options : List String) : Prop :=
  ∃ stated, statedOptions? source = some stated ∧ options.Perm stated ∧ options.Pairwise (· ≤ ·)

/-- **Why sources are not assembled**, and the error that says so. -/
inductive Refusal : List (String × List Token) → AssemblyError → Prop where
  /-- There is no source. -/
  | noSources : Refusal [] .noSources
  /-- A source does not give its name, whatever the options are. The first such source is named. -/
  | missingName {sources : List (String × List Token)} {source : String × List Token}
      (hsource : IsFirst Nameless sources source) : Refusal sources (.missingName ⟨source.1⟩)
  /-- All sources give their names, but one of them has other option statements than the first one.
  The first source is named and the first such source, both with their option statements. -/
  | optionConflict {first source : String × List Token} {rest : List (String × List Token)}
      {options options' : List String} (hnamed : ∀ s ∈ first :: rest, ¬Nameless s)
      (hsource : IsFirst (fun s => ¬SameOptions first s) rest source)
      (hoptions : SortedOptions first options) (hoptions' : SortedOptions source options') :
      Refusal (first :: rest) (.optionConflict first.1 options source.1 options')

theorem SameOptions.symm {source source' : String × List Token} (h : SameOptions source source') :
    SameOptions source' source := by
  obtain ⟨options, options', hoptions, hoptions', hperm⟩ := h
  exact ⟨options', options, hoptions', hoptions, hperm.symm⟩

theorem SameOptions.trans {source source' source'' : String × List Token}
    (h : SameOptions source source') (h' : SameOptions source' source'') :
    SameOptions source source'' := by
  obtain ⟨options, options', hoptions, hoptions', hperm⟩ := h
  obtain ⟨options₁, options₂, hoptions₁, hoptions₂, hperm'⟩ := h'
  obtain rfl := Option.some.inj (hoptions'.symm.trans hoptions₁)
  exact ⟨options, options₂, hoptions, hoptions₂, hperm.trans hperm'⟩

/-! ### Prepared sources -/

theorem prepare_eq_error_iff {origin : String} {tokens : List Token} {e : MissingModuleName} :
    prepare origin tokens = .error e ↔ Nameless (origin, tokens) ∧ e = ⟨origin⟩ := by
  rw [prepare, declaredName, Nameless]
  cases declaredName? tokens with
  | none => simp [Except.map, eq_comm]
  | some name => simp [Except.map]

section Prepared

variable {source source' : String × List Token} {p p' : Prepared}

theorem statedOptions?_of_prepare (h : prepare source.1 source.2 = .ok p) :
    statedOptions? source = some (OptionStatement.inOrder p.sections) := by
  obtain ⟨name, hname, rfl⟩ := prepare_eq_ok_iff.mp h
  rw [statedOptions?, hname]
  rfl

theorem not_nameless_of_prepare (h : prepare source.1 source.2 = .ok p) : ¬Nameless source := by
  obtain ⟨name, hname, -⟩ := prepare_eq_ok_iff.mp h
  rw [Nameless, hname]
  exact Option.some_ne_none name

theorem sameOptions_iff_of_prepare (h : prepare source.1 source.2 = .ok p)
    (h' : prepare source'.1 source'.2 = .ok p') :
    SameOptions source source' ↔
      OptionStatement.ofSections p'.sections = OptionStatement.ofSections p.sections := by
  rw [eq_comm, OptionStatement.ofSections_eq_iff]
  have hstated := statedOptions?_of_prepare h
  have hstated' := statedOptions?_of_prepare h'
  constructor
  · rintro ⟨options, options', hoptions, hoptions', hperm⟩
    obtain rfl := Option.some.inj (hstated.symm.trans hoptions)
    obtain rfl := Option.some.inj (hstated'.symm.trans hoptions')
    exact hperm
  · exact fun hperm => ⟨_, _, hstated, hstated', hperm⟩

theorem sortedOptions_iff_of_prepare (h : prepare source.1 source.2 = .ok p)
    {options : List String} :
    SortedOptions source options ↔ options = OptionStatement.ofSections p.sections := by
  have hstated := statedOptions?_of_prepare h
  constructor
  · rintro ⟨stated, hoptions, hperm, hsorted⟩
    obtain rfl := Option.some.inj (hstated.symm.trans hoptions)
    exact OptionStatement.eq_of_perm_of_sorted
      (hperm.trans (OptionStatement.ofSections_perm p.sections).symm) hsorted
      (OptionStatement.pairwise_le_ofSections p.sections)
  · rintro rfl
    exact ⟨_, hstated, OptionStatement.ofSections_perm _, OptionStatement.pairwise_le_ofSections _⟩

end Prepared

namespace Assembly

/-! ### Why assembling fails -/

variable {bundle : Bundle} {name? : Option String} {e : AssemblyError}

/-- Either a source does not give its name, or all sources are prepared and then compared. -/
theorem ofBundle_cases (bundle : Bundle) (name? : Option String) :
    (∃ source, IsFirst Nameless bundle.entries source ∧
      ofBundle bundle name? = .error (.missingName ⟨source.1⟩)) ∨
    ∃ ps, List.Forall₂ (fun e p => prepare e.1 e.2 = .ok p) bundle.entries ps ∧
      ofBundle bundle name? = ofPrepared name? ps := by
  cases hsources : bundle.entries.mapM fun s => prepare s.1 s.2 with
  | error e =>
    obtain ⟨source, hfirst, he⟩ := mapM_eq_error_iff.mp hsources
    obtain ⟨-, rfl⟩ := prepare_eq_error_iff.mp he
    refine .inl ⟨source, hfirst.imp fun s _ => ?_, by rw [ofBundle, hsources]; rfl⟩
    simp [prepare_eq_error_iff]
  | ok ps =>
    exact .inr ⟨ps, mapM_eq_ok_iff_forall₂.mp hsources, by rw [ofBundle, hsources]; rfl⟩

theorem ofPrepared_cons_eq_error_iff {first : Prepared} {rest : List Prepared} :
    ofPrepared name? (first :: rest) = .error e ↔
      ∃ p, IsFirst (fun p => OptionStatement.ofSections p.sections ≠
          OptionStatement.ofSections first.sections) rest p ∧
        e = .optionConflict first.origin (OptionStatement.ofSections first.sections) p.origin
          (OptionStatement.ofSections p.sections) := by
  have hfirst : ∀ p, IsFirst (fun p => OptionStatement.ofSections p.sections ≠
      OptionStatement.ofSections first.sections) rest p ↔
        conflicting? (OptionStatement.ofSections first.sections) rest = some p := by
    intro p
    simp only [conflicting?, find?_eq_some_iff_isFirst, bne_iff_ne]
  simp only [hfirst]
  rw [ofPrepared]
  cases conflicting? (OptionStatement.ofSections first.sections) rest with
  | none => simp
  | some p => simp [eq_comm]

/-- Sources that are all prepared are refused for their options, unless there are none. -/
theorem ofPrepared_eq_error_iff {sources : List (String × List Token)} {ps : List Prepared}
    (h : List.Forall₂ (fun s p => prepare s.1 s.2 = .ok p) sources ps) :
    ofPrepared name? ps = .error e ↔ Refusal sources e := by
  have hnamed : ∀ s ∈ sources, ¬Nameless s := by
    intro s hs
    obtain ⟨p, -, hp⟩ := exists_mem_of_forall₂ h hs
    exact not_nameless_of_prepare hp
  cases h with
  | nil =>
    constructor
    · rintro ⟨⟩
      exact .noSources
    · intro hrefusal
      cases hrefusal with
      | noSources => rfl
      | missingName hsource => exact absurd hsource not_isFirst_nil
  | @cons first p rest ps hp hps =>
    -- the sources that differ from the first one correspond to the prepared ones that do
    have hdiffer : ∀ s q, prepare s.1 s.2 = .ok q →
        (¬SameOptions first s ↔
          OptionStatement.ofSections q.sections ≠ OptionStatement.ofSections p.sections) :=
      fun s q hq => not_congr (sameOptions_iff_of_prepare hp hq)
    rw [ofPrepared_cons_eq_error_iff]
    constructor
    · rintro ⟨q, hq, rfl⟩
      obtain ⟨s, hs, hprepare⟩ := hq.exists_of_forall₂ hps.flip
        fun q s hprepare => (hdiffer s q hprepare).symm
      rw [Prepared.origin_eq hp, Prepared.origin_eq hprepare]
      exact .optionConflict hnamed hs ((sortedOptions_iff_of_prepare hp).mpr rfl)
        ((sortedOptions_iff_of_prepare hprepare).mpr rfl)
    · intro hrefusal
      cases hrefusal with
      | missingName hsource => exact absurd hsource.prop (hnamed _ hsource.mem)
      | optionConflict _ hs hoptions hoptions' =>
        obtain ⟨q, hq, hprepare⟩ := hs.exists_of_forall₂ hps hdiffer
        refine ⟨q, hq, ?_⟩
        rw [Prepared.origin_eq hp, Prepared.origin_eq hprepare,
          (sortedOptions_iff_of_prepare hp).mp hoptions,
          (sortedOptions_iff_of_prepare hprepare).mp hoptions']

/-- **Why assembling fails**, told by the sources. -/
theorem ofBundle_eq_error_iff : ofBundle bundle name? = .error e ↔ Refusal bundle.entries e := by
  rcases ofBundle_cases bundle name? with ⟨source, hsource, heq⟩ | ⟨ps, hps, heq⟩
  · rw [heq]
    constructor
    · rintro ⟨⟩
      exact .missingName hsource
    · intro hrefusal
      generalize bundle.entries = sources at hsource hrefusal
      cases hrefusal with
      | noSources => exact absurd hsource not_isFirst_nil
      | missingName hsource' => rw [hsource.unique hsource']
      | optionConflict hnamed => exact absurd hsource.prop (hnamed _ hsource.mem)
  · rw [heq]
    exact ofPrepared_eq_error_iff hps

/-- **When assembling succeeds**, told by the sources. -/
theorem exists_ofBundle_iff_sameOptions :
    (∃ m, ofBundle bundle name? = .ok m) ↔
      ∃ first rest, bundle.entries = first :: rest ∧ ∀ s ∈ first :: rest, SameOptions first s := by
  constructor
  · rintro ⟨m, hm⟩
    obtain ⟨p, ps, h⟩ := ofBundle_eq_ok_iff.mp hm
    obtain ⟨first, rest, hp, hps, hentries⟩ := List.forall₂_cons_right_iff.mp h.prepared
    refine ⟨first, rest, hentries, List.forall_mem_cons.mpr ⟨?_, fun s hs => ?_⟩⟩
    · exact (sameOptions_iff_of_prepare hp hp).mpr rfl
    · obtain ⟨q, hq, hprepare⟩ := exists_mem_of_forall₂ hps hs
      exact (sameOptions_iff_of_prepare hp hprepare).mpr (h.agree q hq)
  · rintro ⟨first, rest, hentries, hsame⟩
    cases houtcome : ofBundle bundle name? with
    | ok m => exact ⟨m, rfl⟩
    | error e =>
      -- a source to blame would not have the options of the first
      have hrefusal := ofBundle_eq_error_iff.mp houtcome
      rw [hentries] at hrefusal
      exfalso
      cases hrefusal with
      | missingName hsource =>
        obtain ⟨-, options, -, hoptions, -⟩ := hsame _ hsource.mem
        rw [statedOptions?, hsource.prop] at hoptions
        cases hoptions
      | optionConflict _ hsource =>
        exact hsource.prop (hsame _ (List.mem_cons_of_mem first hsource.mem))

/-- Sources that are exchanged for others with the same options stay in agreement. -/
theorem exists_sameOptions_of_forall₂ {sources others : List (String × List Token)}
    (h : List.Forall₂ (fun s s' => s' = s ∨ SameOptions s s') sources others)
    (hsame : ∃ first rest, sources = first :: rest ∧ ∀ s ∈ first :: rest, SameOptions first s) :
    ∃ first rest, others = first :: rest ∧ ∀ s ∈ first :: rest, SameOptions first s := by
  obtain ⟨first, rest, rfl, hsame⟩ := hsame
  have hcounterpart : ∀ s s', s ∈ first :: rest → s' = s ∨ SameOptions s s' →
      SameOptions first s' := by
    rintro s s' hs (rfl | hexchanged)
    · exact hsame s' hs
    · exact (hsame s hs).trans hexchanged
  obtain ⟨first', rest', hfirst, -, rfl⟩ := List.forall₂_cons_left_iff.mp h
  refine ⟨first', rest', rfl, fun s' hs' => ?_⟩
  obtain ⟨s, hs, hrel⟩ := exists_mem_of_forall₂ h.flip hs'
  exact (hcounterpart first first' List.mem_cons_self hfirst).symm.trans (hcounterpart s s' hs hrel)

/-- **The errors of assembling are exact.** A bundle is refused with an error exactly if its sources
give this reason (`Refusal`), and it is assembled exactly if there is a source and all sources give
their names and have the option statements of the first one. So exchanging sources for others that
give their names and have the same option statements, in whatever order, does not change whether it
is assembled. -/
theorem ofBundle_errors (bundle : Bundle) (name? : Option String) :
    (∀ e, ofBundle bundle name? = .error e ↔ Refusal bundle.entries e) ∧
      ((∃ m, ofBundle bundle name? = .ok m) ↔
        ∃ first rest, bundle.entries = first :: rest ∧
          ∀ s ∈ first :: rest, SameOptions first s) ∧
      ∀ other : Bundle,
        List.Forall₂ (fun s s' => s' = s ∨ SameOptions s s') bundle.entries other.entries →
          ((∃ m, ofBundle other name? = .ok m) ↔ ∃ m, ofBundle bundle name? = .ok m) := by
  refine ⟨fun e => ofBundle_eq_error_iff, exists_ofBundle_iff_sameOptions, fun other hother => ?_⟩
  rw [exists_ofBundle_iff_sameOptions, exists_ofBundle_iff_sameOptions]
  constructor
  · refine exists_sameOptions_of_forall₂ (hother.flip.imp ?_)
    rintro s' s (rfl | hexchanged)
    · exact .inl rfl
    · exact .inr hexchanged.symm
  · exact exists_sameOptions_of_forall₂ hother

end Assembly

end VbaModules

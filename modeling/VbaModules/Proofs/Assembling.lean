import Mathlib.Data.List.Forall2
import VbaModules.Merge.Assembly
import VbaModules.Proofs.Lookup

/-!
# What a successful assembly consists of

Assembling a bundle succeeds exactly when it has a source, every source gives its name, and all
sources have the option statements of the first. `Assembled` records this together with the merged
module it leads to, so that what is proved about merged modules starts from the prepared sources
and not from the steps of the program.
-/

namespace VbaModules

/-- A traversal that may fail succeeds with the results of its steps. -/
theorem mapM_eq_ok_iff_forall₂ {α β ε : Type} {f : α → Except ε β} {as : List α} {bs : List β} :
    as.mapM f = .ok bs ↔ List.Forall₂ (fun a b => f a = .ok b) as bs := by
  induction as generalizing bs with
  | nil =>
    rw [List.mapM_nil, List.forall₂_nil_left_iff]
    exact ⟨fun h => (Except.ok.inj h).symm, fun h => h ▸ rfl⟩
  | cons a as ih =>
    rw [List.mapM_cons, List.forall₂_cons_left_iff]
    constructor
    · intro h
      cases ha : f a with
      | error e => simp [ha, bind, Except.bind] at h
      | ok b =>
        cases has : as.mapM f with
        | error e => simp [ha, has, bind, Except.bind] at h
        | ok cs =>
          simp only [ha, has, bind, Except.bind, pure, Except.pure, Except.ok.injEq] at h
          exact ⟨b, cs, rfl, ih.mp has, h.symm⟩
    · rintro ⟨b, cs, ha, hcs, rfl⟩
      simp [ha, ih.mpr hcs, bind, Except.bind, pure, Except.pure]

/-! ### Bundles of texts -/

/-- The line `Attribute VB_Name = "..."` of a module with the given name. -/
def namingLine (name : String) : List Token :=
  [⟨.reserved, "Attribute"⟩, ⟨.blank, " "⟩, ⟨.reserved, "VB_Name"⟩, ⟨.blank, " "⟩, ⟨.unknown, "="⟩,
    ⟨.blank, " "⟩, ⟨.unknown, "\""⟩, ⟨.name, name⟩, ⟨.unknown, "\""⟩, ⟨.lineBreak, "\n"⟩]

/-- Texts under different origins are all in the bundle, in their order. -/
theorem Bundle.entries_ofTexts {texts : List (String × String)}
    {entries : List (String × List Token)}
    (hlex : texts.map (fun (origin, text) => (origin, Lexer.lex text)) = entries)
    (hdistinct : (entries.map Prod.fst).Nodup) : (Bundle.ofTexts texts).entries = entries := by
  rw [Bundle.ofTexts, hlex]
  exact Dictionary.entries_ofList hdistinct

/-! ### Preparing a source -/

/-- The source prepared under a given name. -/
def Prepared.named (origin name : String) (tokens : List Token) : Prepared where
  origin := origin
  name := name
  qualified := Qualify.countQualified name tokens
  sections := (qualifiedSections origin name tokens).map Proxy.resolve

/-- A source is prepared under the name it gives itself. -/
theorem prepare_eq_ok_iff {origin : String} {tokens : List Token} {p : Prepared} :
    prepare origin tokens = .ok p ↔
      ∃ name, declaredName? tokens = some name ∧ p = .named origin name tokens := by
  rw [prepare, declaredName]
  cases declaredName? tokens with
  | none => simp [Except.map]
  | some name => simp [Except.map, Prepared.named, eq_comm]

theorem Prepared.origin_eq {origin : String} {tokens : List Token} {p : Prepared}
    (h : prepare origin tokens = .ok p) : p.origin = origin := by
  obtain ⟨name, -, rfl⟩ := prepare_eq_ok_iff.mp h
  rfl

namespace Assembly

/-! ### Assembling -/

theorem conflicting?_eq_none_iff {options : List String} {rest : List Prepared} :
    conflicting? options rest = none ↔
      ∀ p ∈ rest, OptionStatement.ofSections p.sections = options := by
  simp [conflicting?]

/-- The bundle is **assembled** to a merged module from prepared sources that agree on their
options. -/
structure Assembled (bundle : Bundle) (name? : Option String) (result : Assembly)
    (first : Prepared) (rest : List Prepared) : Prop where
  prepared : List.Forall₂ (fun e p => prepare e.1 e.2 = .ok p) bundle.entries (first :: rest)
  agree : ∀ p ∈ rest,
    OptionStatement.ofSections p.sections = OptionStatement.ofSections first.sections
  result_eq : result =
    { name := name?.getD first.name
      moduleNames := .ofList ((first :: rest).map fun p => (p.origin, p.name))
      buckets := Bucket.all.map fun bucket => (bucket, bucketSections first rest bucket) }

theorem ofPrepared_cons_eq_ok_iff {name? : Option String} {first : Prepared}
    {rest : List Prepared} {result : Assembly} :
    ofPrepared name? (first :: rest) = .ok result ↔
      (∀ p ∈ rest, OptionStatement.ofSections p.sections =
        OptionStatement.ofSections first.sections) ∧
      result =
        { name := name?.getD first.name
          moduleNames := .ofList ((first :: rest).map fun p => (p.origin, p.name))
          buckets := Bucket.all.map fun bucket => (bucket, bucketSections first rest bucket) } := by
  rw [ofPrepared, ← conflicting?_eq_none_iff]
  cases conflicting? (OptionStatement.ofSections first.sections) rest with
  | none => simp [eq_comm]
  | some p => simp

/-- **Success of assembling**, told by the sources. -/
theorem ofBundle_eq_ok_iff {bundle : Bundle} {name? : Option String} {result : Assembly} :
    ofBundle bundle name? = .ok result ↔
      ∃ first rest, Assembled bundle name? result first rest := by
  rw [ofBundle]
  cases hsources : bundle.entries.mapM fun (origin, tokens) => prepare origin tokens with
  | error e =>
    refine iff_of_false (by simp [Except.mapError, bind, Except.bind]) ?_
    rintro ⟨first, rest, h⟩
    rw [mapM_eq_ok_iff_forall₂.mpr h.prepared] at hsources
    cases hsources
  | ok sources =>
    have hprepared := mapM_eq_ok_iff_forall₂.mp hsources
    change ofPrepared name? sources = .ok result ↔ _
    constructor
    · intro hok
      cases sources with
      | nil => simp [ofPrepared] at hok
      | cons first rest =>
        obtain ⟨hagree, hresult⟩ := ofPrepared_cons_eq_ok_iff.mp hok
        exact ⟨first, rest, hprepared, hagree, hresult⟩
    · rintro ⟨first, rest, h⟩
      rw [mapM_eq_ok_iff_forall₂.mpr h.prepared] at hsources
      obtain rfl := Except.ok.inj hsources
      exact ofPrepared_cons_eq_ok_iff.mpr ⟨h.agree, h.result_eq⟩

/-! ### The sources of a merged module -/

section Assembled

variable {bundle : Bundle} {name? : Option String} {result : Assembly} {first : Prepared}
  {rest : List Prepared}

theorem Assembled.map_origin (h : Assembled bundle name? result first rest) :
    (first :: rest).map Prepared.origin = bundle.entries.map Prod.fst := by
  have horigins : List.Forall₂ (fun e p => e.1 = p.origin) bundle.entries (first :: rest) :=
    h.prepared.imp fun _ _ hp => (Prepared.origin_eq hp).symm
  rw [← List.forall₂_eq_eq_eq, List.forall₂_map_left_iff, List.forall₂_map_right_iff]
  exact horigins.flip.imp fun _ _ hp => hp.symm

theorem Assembled.nodup_origin (h : Assembled bundle name? result first rest) :
    ((first :: rest).map Prepared.origin).Nodup :=
  h.map_origin ▸ bundle.distinct

/-- The names of the sources are listed by origin, in the order of the bundle. -/
theorem Assembled.entries_moduleNames (h : Assembled bundle name? result first rest) :
    result.moduleNames.entries = (first :: rest).map fun p => (p.origin, p.name) := by
  rw [h.result_eq]
  refine Dictionary.entries_ofList ?_
  rw [List.map_map]
  exact h.nodup_origin

/-- The source at a place of the bundle is prepared to the source at that place. -/
theorem Assembled.exists_prepared (h : Assembled bundle name? result first rest) {i : Nat}
    {origin : String} {tokens : List Token} (hsource : bundle.entries[i]? = some (origin, tokens)) :
    ∃ p, (first :: rest)[i]? = some p ∧ prepare origin tokens = .ok p := by
  obtain ⟨hi, hentry⟩ := List.getElem?_eq_some_iff.mp hsource
  have hi' : i < (first :: rest).length := h.prepared.length_eq ▸ hi
  have hp := h.prepared.get hi hi'
  rw [List.get_eq_getElem, List.get_eq_getElem, hentry] at hp
  exact ⟨_, List.getElem?_eq_getElem hi', hp⟩

end Assembled

end Assembly

end VbaModules

import Mathlib.Data.List.Perm.Basic
import VbaModules.Proofs.Assembling
import VbaModules.Proofs.SectionPartition

/-!
# What merging keeps of a source

Merging drops the attribute lines of every source, and the option statements of every source but
the first. All other sections are meant to be kept. But code of unknown kind is put in front of the
section after it before anything is dropped, and so it is dropped together with an attribute line
or option statement that follows it.

The account is exact. Apart from these stranded sections every token of a section that is not
dropped reaches one place of one bucket (`Assembled.tokensFrom_append_stranded_perm`), and nothing
is lost at all exactly if no section of unknown kind stands directly before a dropped one. It is
kept token by token along `attachUnknown` (`count_keptTokens_attachUnknown`); the buckets then only
sort what is left, and the origins of the sections tell the sources apart.
-/

namespace VbaModules

/-! ### What is dropped -/

/-- Whether merging drops sections like this one. Of the first source, it keeps the option
statements. -/
def Section.isDropped (isFirst : Bool) (s : Section) : Bool :=
  s.kind == .attributeLine || (s.kind == .optionLine && !isFirst)

/-- The tokens of the sections that are not dropped. -/
def keptTokens (isFirst : Bool) (sections : List Section) : List Token :=
  (sections.filter (!·.isDropped isFirst)).flatMap Section.tokens

/-- The sections of unknown kind that stand **directly before a dropped one**. -/
def stranded (isFirst : Bool) : List Section → List Section
  | [] => []
  | [_] => []
  | a :: b :: rest =>
    if a.kind = .unknown ∧ b.isDropped isFirst then a :: stranded isFirst (b :: rest)
    else stranded isFirst (b :: rest)

theorem count_keptTokens_nil (isFirst : Bool) (t : Token) : (keptTokens isFirst []).count t = 0 :=
  rfl

/-- What is kept is counted section by section. -/
theorem count_keptTokens_cons (isFirst : Bool) (s : Section) (rest : List Section) (t : Token) :
    (keptTokens isFirst (s :: rest)).count t =
      (if s.isDropped isFirst then 0 else s.tokens.count t) +
        (keptTokens isFirst rest).count t := by
  rw [keptTokens, List.filter_cons]
  cases s.isDropped isFirst <;> simp [keptTokens]

theorem mem_of_mem_stranded {isFirst : Bool} {sections : List Section} {s : Section}
    (h : s ∈ stranded isFirst sections) : s ∈ sections := by
  fun_induction stranded isFirst sections with
  | case1 => exact h
  | case2 => simp at h
  | case3 a b rest _ ih =>
    rcases List.mem_cons.mp h with rfl | hrest
    · exact List.mem_cons_self
    · exact List.mem_cons_of_mem _ (ih hrest)
  | case4 a b rest _ ih => exact List.mem_cons_of_mem _ (ih h)

/-! ### Attaching code of unknown kind -/

/-- **The balance of attaching and dropping**, for each token. What the attached sections keep, what
is stranded, and what is carried into a dropped section add up to what was carried and what should
be kept. Nothing is carried into a section of unknown kind, since no two such are neighbours. -/
theorem count_keptTokens_attachUnknown {isFirst : Bool} {carry : List Token} {s : Section}
    {rest : List Section}
    (hchain : (s :: rest).IsChain fun a b => a.kind ≠ .unknown ∨ b.kind ≠ .unknown)
    (hcarry : s.kind = .unknown → carry = []) (t : Token) :
    (keptTokens isFirst (attachUnknown carry (s :: rest))).count t +
        ((stranded isFirst (s :: rest)).flatMap Section.tokens).count t +
        (if s.isDropped isFirst then carry.count t else 0) =
      carry.count t + (keptTokens isFirst (s :: rest)).count t := by
  have hgrown : ∀ (carry : List Token) (s : Section),
      Section.isDropped isFirst { s with tokens := carry ++ s.tokens } = s.isDropped isFirst :=
    fun _ _ => rfl
  induction rest generalizing carry s with
  | nil =>
    simp only [attachUnknown, stranded, count_keptTokens_cons, count_keptTokens_nil, hgrown,
      List.flatMap_nil, List.count_nil, List.count_append]
    split <;> omega
  | cons r rest ih =>
    obtain ⟨hsr, htail⟩ := List.isChain_cons_cons.mp hchain
    by_cases hunknown : s.kind = .unknown
    · -- `s` is carried on, and is lost exactly if `r` is dropped
      obtain rfl := hcarry hunknown
      have hr : r.kind ≠ .unknown := hsr.resolve_left (not_not_intro hunknown)
      have hkept : s.isDropped isFirst = false := by simp [Section.isDropped, hunknown]
      have hrest := @ih s.tokens r htail fun h => absurd h hr
      simp only [attachUnknown, stranded, hunknown, if_true, true_and, List.nil_append,
        count_keptTokens_cons isFirst s, hkept, Bool.false_eq_true, if_false, List.count_nil]
      split at hrest
      next hdropped =>
        rw [if_pos hdropped, List.flatMap_cons, List.count_append]
        omega
      next hdropped =>
        rw [if_neg hdropped]
        omega
    · -- `s` takes what is carried, and nothing is carried on
      have hrest := @ih [] r htail fun _ => rfl
      simp only [List.count_nil, ite_self] at hrest
      simp only [attachUnknown, stranded, hunknown, if_false, false_and,
        count_keptTokens_cons isFirst s, count_keptTokens_cons isFirst { s with tokens := _ },
        hgrown, List.count_append]
      split <;> omega

/-! ### The sections of a prepared source -/

/-- A conditional block never stands for code of unknown kind. -/
theorem Proxy.kind?_ne_unknown (tokens : List Token) : kind? tokens ≠ some .unknown := by
  fun_induction kind? tokens with
  | case1 => simp
  | case2 => simp
  | case3 t ts s hs ih =>
    have hknown : s.kind ≠ .unknown := by
      simpa using List.find?_some hs
    intro h
    rw [Option.some.injEq] at h
    split at h
    next =>
      cases hinner : kind? s.tokens with
      | none => simp [hinner] at h
      | some kind =>
        rw [hinner, Option.getD_some] at h
        exact ih (h ▸ hinner)
    next => exact hknown h

/-- Resolving makes no section known or unknown. -/
theorem Proxy.resolve_kind_eq_unknown_iff {s : Section} :
    (resolve s).kind = .unknown ↔ s.kind = .unknown := by
  rw [resolve]
  split
  next hconditional =>
    simp only [hconditional, reduceCtorEq, iff_false]
    intro h
    cases hkind : kind? s.tokens with
    | none => simp [hkind] at h
    | some kind =>
      rw [hkind, Option.getD_some] at h
      exact kind?_ne_unknown s.tokens (h ▸ hkind)
  next => rfl

/-- Resolving changes no tokens. -/
@[simp]
theorem Proxy.resolve_tokens (s : Section) : (resolve s).tokens = s.tokens := by
  rw [resolve]
  split <;> rfl

@[simp]
theorem Proxy.resolve_origin (s : Section) : (resolve s).origin = s.origin := by
  rw [resolve]
  split <;> rfl

section Prepared

variable {origin name : String} {tokens : List Token}

/-- The sections of a prepared source in a row are the source with its private names qualified. -/
theorem Prepared.flatMap_tokens_named :
    (Prepared.named origin name tokens).sections.flatMap Section.tokens =
      Qualify.qualify name tokens := by
  simp only [Prepared.named, qualifiedSections, Partition.sectionsOf, List.flatMap_map,
    Proxy.resolve_tokens]
  exact Partition.flatMap_tokens_sections _

/-- The sections of a source say where they come from. -/
theorem Prepared.origin_of_mem_named {s : Section}
    (h : s ∈ (Prepared.named origin name tokens).sections) : s.origin = some origin := by
  obtain ⟨u, hu, rfl⟩ := List.mem_map.mp h
  obtain ⟨v, -, rfl⟩ := List.mem_map.mp hu
  exact Proxy.resolve_origin _

/-- No section of a source is empty. -/
theorem Prepared.tokens_ne_nil_of_mem_named {s : Section}
    (h : s ∈ (Prepared.named origin name tokens).sections) : s.tokens ≠ [] := by
  obtain ⟨u, hu, rfl⟩ := List.mem_map.mp h
  obtain ⟨v, hv, rfl⟩ := List.mem_map.mp hu
  have hne : v.tokens ≠ [] := Partition.tokens_ne_nil_of_mem_sections hv
  rwa [Proxy.resolve_tokens]

/-- Two sections of unknown kind do not follow one another in a source. -/
theorem Prepared.isChain_named :
    (Prepared.named origin name tokens).sections.IsChain
      fun a b => a.kind ≠ .unknown ∨ b.kind ≠ .unknown := by
  rw [Prepared.named, qualifiedSections, Partition.sectionsOf, Partition.sections, List.map_map,
    List.map_map, List.isChain_map]
  refine (Partition.isChain_spans _).imp fun a b hab => ?_
  simp only [Function.comp_apply, ne_eq, Proxy.resolve_kind_eq_unknown_iff]
  exact hab

end Prepared

/-! ### Filling the buckets -/

/-- Sorting sections into the buckets neither repeats nor loses one that has a bucket. -/
theorem perm_flatMap_filter_bucket (place? : Section → Option Bucket) (sections : List Section) :
    (Bucket.all.flatMap fun bucket => sections.filter (place? · == some bucket)).Perm
      (sections.filter fun s => (place? s).isSome) := by
  induction sections with
  | nil => exact .refl _
  | cons s rest ih =>
    have hone : (Bucket.all.flatMap fun bucket => [s].filter (place? · == some bucket)) =
        [s].filter fun s => (place? s).isSome := by
      cases hplace : place? s with
      | none => simp [hplace]
      | some bucket => cases bucket <;> simp [hplace, Bucket.all]
    have hsplit : ∀ p : Section → Bool, (s :: rest).filter p = [s].filter p ++ rest.filter p :=
      fun p => List.filter_append [s] rest
    simp only [hsplit]
    refine (List.flatMap_append_perm _ _ _).symm.trans ?_
    rw [hone]
    exact ih.append_left _

/-- The bucket of a section of the first or of a later source. -/
def Section.bucket? (isFirst : Bool) (s : Section) : Option Bucket :=
  if s.isDropped isFirst then none else Bucket.ofKind? s.kind

/-- A section has a bucket exactly if it is not dropped. -/
theorem Section.isSome_bucket? (isFirst : Bool) (s : Section) :
    (s.bucket? isFirst).isSome = !s.isDropped isFirst := by
  rw [bucket?]
  split
  next hdropped => simp [hdropped]
  next hdropped =>
    cases hkind : s.kind <;> simp_all [Bucket.ofKind?, isDropped]

/-- A section goes into the bucket of its kind, but options only from the first source. -/
theorem Section.bucket?_beq_some (isFirst : Bool) (s : Section) (bucket : Bucket) :
    (s.bucket? isFirst == some bucket) =
      (!(bucket == .options && !isFirst) && Bucket.ofKind? s.kind == some bucket) := by
  obtain ⟨_, kind, _, _⟩ := s
  cases kind <;> cases bucket <;> cases isFirst <;> rfl

/-- The sections that the first or a later source puts in a bucket. -/
def Prepared.placed (p : Prepared) (isFirst : Bool) (bucket : Bucket) : List Section :=
  (attachUnknown [] p.sections).filter (·.bucket? isFirst == some bucket)

/-- A bucket holds what the first source places there, and then what the others do. -/
theorem bucketSections_eq_placed (first : Prepared) (rest : List Prepared) (bucket : Bucket) :
    bucketSections first rest bucket =
      first.placed true bucket ++ rest.flatMap (·.placed false bucket) := by
  simp only [bucketSections, Prepared.placed, Prepared.contribution, Section.bucket?_beq_some]
  by_cases hoptions : bucket = .options
  · simp [hoptions]
  · have hother : (bucket == Bucket.options) = false := by simpa using hoptions
    simp [hoptions, hother]

/-- Attaching changes neither the kinds nor the origins of the sections that remain. -/
theorem exists_mem_of_mem_attachUnknown {carry : List Token} {sections : List Section} {s : Section}
    (h : s ∈ attachUnknown carry sections) :
    ∃ u ∈ sections, s.kind = u.kind ∧ s.origin = u.origin := by
  fun_induction attachUnknown carry sections with
  | case1 => simp at h
  | case2 carry u =>
    obtain rfl := List.mem_singleton.mp h
    exact ⟨u, List.mem_singleton_self u, rfl, rfl⟩
  | case3 carry u rest _ _ ih =>
    obtain ⟨v, hv, hsame⟩ := ih h
    exact ⟨v, List.mem_cons_of_mem _ hv, hsame⟩
  | case4 carry u rest _ _ ih =>
    rcases List.mem_cons.mp h with rfl | hrest
    · exact ⟨u, List.mem_cons_self, rfl, rfl⟩
    · obtain ⟨v, hv, hsame⟩ := ih hrest
      exact ⟨v, List.mem_cons_of_mem _ hv, hsame⟩

/-- Every section that a prepared source places is marked with the origin of the source. -/
theorem Prepared.origin_of_mem_placed {origin : String} {tokens : List Token} {p : Prepared}
    (hp : prepare origin tokens = .ok p) {isFirst : Bool} {bucket : Bucket} {s : Section}
    (h : s ∈ p.placed isFirst bucket) : s.origin = some p.origin := by
  obtain ⟨name, -, rfl⟩ := prepare_eq_ok_iff.mp hp
  obtain ⟨u, hu, -, horigin⟩ := exists_mem_of_mem_attachUnknown (List.mem_of_mem_filter h)
  rw [horigin]
  exact Prepared.origin_of_mem_named hu

namespace Assembly

/-! ### What a merged module holds of a source -/

/-- The tokens of all sections with the given origin, over all buckets. -/
def tokensFrom (m : Assembly) (origin : String) : List Token :=
  (m.sections.filter (·.2.origin == some origin)).flatMap (·.2.tokens)

section Assembled

variable {bundle : Bundle} {name? : Option String} {result : Assembly} {first p : Prepared}
  {rest : List Prepared}

/-- What is put together was prepared from an entry of the bundle. -/
theorem Assembled.exists_prepare_eq_ok (h : Assembled bundle name? result first rest)
    (hp : p ∈ first :: rest) :
    ∃ source ∈ bundle.entries, prepare source.1 source.2 = .ok p := by
  obtain ⟨i, hi⟩ := List.getElem?_of_mem hp
  obtain ⟨hlt, rfl⟩ := List.getElem?_eq_some_iff.mp hi
  have hlt' : i < bundle.entries.length := h.prepared.length_eq ▸ hlt
  exact ⟨_, List.get_mem _ ⟨i, hlt'⟩, h.prepared.get hlt' hlt⟩

/-- Of what some sources place, the sections of one origin are what the source of this origin
places, if there is one. -/
theorem Assembled.filter_flatMap_placed (h : Assembled bundle name? result first rest)
    {sources : List Prepared} (hsources : ∀ q ∈ sources, q ∈ first :: rest) (isFirst : Bool)
    (bucket : Bucket) (origin : String) :
    (sources.flatMap (·.placed isFirst bucket)).filter (·.origin == some origin) =
      (sources.filter (·.origin == origin)).flatMap (·.placed isFirst bucket) := by
  induction sources with
  | nil => rfl
  | cons q sources ih =>
    obtain ⟨hq, hrest⟩ := List.forall_mem_cons.mp hsources
    obtain ⟨_, _, hprepare⟩ := h.exists_prepare_eq_ok hq
    have horigin : ∀ s ∈ q.placed isFirst bucket, s.origin = some q.origin :=
      fun s hs => Prepared.origin_of_mem_placed hprepare hs
    rw [List.flatMap_cons, List.filter_append, ih hrest, List.filter_cons]
    split
    next hsame =>
      rw [List.flatMap_cons, List.filter_eq_self.mpr fun s hs => ?_]
      rw [horigin s hs]
      simpa using hsame
    next hother =>
      rw [List.filter_eq_nil_iff.mpr fun s hs => ?_, List.nil_append]
      rw [horigin s hs]
      simpa using hother

theorem filter_origin_of_not_mem {sources : List Prepared} {origin : String}
    (h : origin ∉ sources.map Prepared.origin) : sources.filter (·.origin == origin) = [] := by
  refine List.filter_eq_nil_iff.mpr fun q hq hsame => h ?_
  exact beq_iff_eq.mp hsame ▸ List.mem_map_of_mem hq

/-- With different origins, a source is found by its own. -/
theorem filter_origin_of_mem {sources : List Prepared}
    (hnodup : (sources.map Prepared.origin).Nodup) (hp : p ∈ sources) :
    sources.filter (·.origin == p.origin) = [p] := by
  induction sources with
  | nil => simp at hp
  | cons q sources ih =>
    rw [List.map_cons, List.nodup_cons] at hnodup
    rcases List.mem_cons.mp hp with rfl | hmem
    · rw [List.filter_cons, if_pos (beq_self_eq_true _), filter_origin_of_not_mem hnodup.1]
    · have hother : ¬(q.origin == p.origin) = true := fun hsame =>
        hnodup.1 (beq_iff_eq.mp hsame ▸ List.mem_map_of_mem hmem)
      rw [List.filter_cons, if_neg hother, ih hnodup.2 hmem]

/-- The sections of one source in a bucket are those that this source places there. -/
theorem Assembled.filter_bucketSections (h : Assembled bundle name? result first rest) {i : Nat}
    (hi : (first :: rest)[i]? = some p) (bucket : Bucket) :
    (bucketSections first rest bucket).filter (·.origin == some p.origin) =
      p.placed (i == 0) bucket := by
  have hnodup := h.nodup_origin
  rw [List.map_cons, List.nodup_cons] at hnodup
  have hfirst := h.filter_flatMap_placed (fun q (hq : q ∈ [first]) => by simp_all) true bucket
    p.origin
  have hrest := h.filter_flatMap_placed (fun q (hq : q ∈ rest) => List.mem_cons_of_mem _ hq) false
    bucket p.origin
  rw [List.flatMap_singleton] at hfirst
  rw [bucketSections_eq_placed, List.filter_append, hfirst, hrest]
  cases i with
  | zero =>
    obtain rfl : first = p := Option.some.inj hi
    simp [filter_origin_of_not_mem hnodup.1]
  | succ j =>
    have hp : p ∈ rest := List.mem_of_getElem? hi
    have hother : first.origin ≠ p.origin := fun hsame =>
      hnodup.1 (hsame ▸ List.mem_map_of_mem hp)
    simp [hother, filter_origin_of_mem hnodup.2 hp]

/-- What a merged module holds of a source, bucket by bucket. -/
theorem Assembled.tokensFrom_eq (h : Assembled bundle name? result first rest) {i : Nat}
    (hi : (first :: rest)[i]? = some p) :
    result.tokensFrom p.origin =
      (Bucket.all.flatMap fun bucket => p.placed (i == 0) bucket).flatMap Section.tokens := by
  simp only [tokensFrom, sections, h.result_eq, List.flatMap_map, List.filter_flatMap,
    List.filter_map, List.flatMap_assoc, Function.comp_def]
  congr 1
  funext bucket
  rw [← h.filter_bucketSections hi bucket]

/-- A source keeps exactly the tokens of the sections that are not dropped after code of unknown
kind is attached. -/
theorem Assembled.tokensFrom_perm (h : Assembled bundle name? result first rest) {i : Nat}
    (hi : (first :: rest)[i]? = some p) :
    (result.tokensFrom p.origin).Perm (keptTokens (i == 0) (attachUnknown [] p.sections)) := by
  have hperm := perm_flatMap_filter_bucket (Section.bucket? (i == 0)) (attachUnknown [] p.sections)
  simp only [Section.isSome_bucket?] at hperm
  rw [h.tokensFrom_eq hi, keptTokens]
  exact hperm.flatMap_right _

/-- **The balance of merging.** What a merged module holds of a source and the stranded sections of
this source are together what should be kept of it. -/
theorem Assembled.tokensFrom_append_stranded_perm (h : Assembled bundle name? result first rest)
    {i : Nat} {origin name : String} {tokens : List Token}
    (hi : (first :: rest)[i]? = some (.named origin name tokens)) :
    (result.tokensFrom origin ++
        (stranded (i == 0) (Prepared.named origin name tokens).sections).flatMap
          Section.tokens).Perm
      (keptTokens (i == 0) (Prepared.named origin name tokens).sections) := by
  refine ((h.tokensFrom_perm hi).append_right _).trans (List.perm_iff_count.mpr fun t => ?_)
  have hchain := @Prepared.isChain_named origin name tokens
  -- nothing is carried into the first section, so the balance has no further term
  cases hsections : (Prepared.named origin name tokens).sections with
  | nil => rfl
  | cons s rest =>
    rw [hsections] at hchain
    have hbalance := @count_keptTokens_attachUnknown (i == 0) [] s rest hchain (fun _ => rfl) t
    simpa [List.count_append] using hbalance

end Assembled

/-- No stranded section is empty, so their tokens are missed as soon as there is one. -/
theorem flatMap_stranded_eq_nil_iff {isFirst : Bool} {origin name : String}
    {tokens : List Token} :
    (stranded isFirst (Prepared.named origin name tokens).sections).flatMap Section.tokens = [] ↔
      stranded isFirst (Prepared.named origin name tokens).sections = [] := by
  refine ⟨fun h => List.eq_nil_iff_forall_not_mem.mpr fun s hs => ?_, fun h => by rw [h]; rfl⟩
  exact Prepared.tokens_ne_nil_of_mem_named (mem_of_mem_stranded hs)
    (List.flatMap_eq_nil_iff.mp h s hs)

/-- **What merging keeps.** The sections of a source cut its qualified tokens up. The merged module
and the stranded sections share the tokens of those that are not dropped, each token counted as
often as it occurs, and so **nothing is lost exactly if no section is stranded**. -/
theorem tokensFrom_perm_keptTokens_iff {bundle : Bundle} {name? : Option String}
    {result : Assembly} (hresult : ofBundle bundle name? = .ok result) {i : Nat} {origin : String}
    {tokens : List Token} (hsource : bundle.entries[i]? = some (origin, tokens)) :
    ∃ name sections, declaredName? tokens = some name ∧
      sections = (qualifiedSections origin name tokens).map Proxy.resolve ∧
      sections.flatMap Section.tokens = Qualify.qualify name tokens ∧
      (result.tokensFrom origin ++ (stranded (i == 0) sections).flatMap Section.tokens).Perm
        (keptTokens (i == 0) sections) ∧
      ((result.tokensFrom origin).Perm (keptTokens (i == 0) sections) ↔
        stranded (i == 0) sections = []) := by
  obtain ⟨first, rest, h⟩ := ofBundle_eq_ok_iff.mp hresult
  obtain ⟨p, hi, hp⟩ := h.exists_prepared hsource
  obtain ⟨name, hname, rfl⟩ := prepare_eq_ok_iff.mp hp
  have hbalance := h.tokensFrom_append_stranded_perm hi
  refine ⟨name, (Prepared.named origin name tokens).sections, hname, rfl,
    Prepared.flatMap_tokens_named, hbalance, ?_⟩
  constructor
  · intro hkept
    -- the two sides of the balance are equally long without the stranded tokens
    have hlength := hbalance.length_eq
    rw [List.length_append, hkept.length_eq] at hlength
    refine flatMap_stranded_eq_nil_iff.mp (List.length_eq_zero_iff.mp ?_)
    omega
  · intro hnone
    rw [hnone, List.flatMap_nil, List.append_nil] at hbalance
    exact hbalance

/-! ### A module that loses a line -/

/-- A compilation constant of a module. -/
def constantLine : List Token :=
  [⟨.unknown, "#"⟩, ⟨.reserved, "Const"⟩, ⟨.blank, " "⟩, ⟨.name, "Wide"⟩, ⟨.blank, " "⟩,
    ⟨.unknown, "="⟩, ⟨.blank, " "⟩, ⟨.unknown, "1"⟩, ⟨.lineBreak, "\n"⟩]

/-- A module whose compilation constant stands before its name. -/
def constantTexts : List (String × String) :=
  [("grid.bas", "#Const Wide = 1\nAttribute VB_Name = \"Grid\"\n")]

/-- What is read of the module: its tokens and its name, and that qualifying keeps the tokens, in
which there is a single section that is not unknown. -/
theorem reading_constantTexts :
    constantTexts.map (fun source => (source.1, Lexer.lex source.2)) =
        [("grid.bas", constantLine ++ namingLine "Grid")] ∧
      declaredName? (constantLine ++ namingLine "Grid") = some "Grid" ∧
      Qualify.qualify "Grid" (constantLine ++ namingLine "Grid") =
        constantLine ++ namingLine "Grid" ∧
      Candidate.all (constantLine ++ namingLine "Grid") = [⟨9, 19, .attributeLine⟩] := by
  decide +kernel

theorem entries_constantTexts : (Bundle.ofTexts constantTexts).entries =
    [("grid.bas", constantLine ++ namingLine "Grid")] :=
  Bundle.entries_ofTexts reading_constantTexts.1 (by decide)

theorem declaredName?_constantTexts :
    declaredName? (constantLine ++ namingLine "Grid") = some "Grid" :=
  reading_constantTexts.2.1

/-- The line with the constant is of unknown kind, and the line after it names the module. -/
theorem qualifiedSections_constantTexts :
    (qualifiedSections "grid.bas" "Grid" (constantLine ++ namingLine "Grid")).map Proxy.resolve =
      [⟨constantLine, .unknown, some "grid.bas", false⟩,
        ⟨namingLine "Grid", .attributeLine, some "grid.bas", false⟩] := by
  obtain ⟨-, -, hqualify, hall⟩ := reading_constantTexts
  simp only [qualifiedSections, Partition.sectionsOf, Partition.sections, hqualify,
    Partition.spans_eq_coverFrom_absorb hall (by decide)]
  decide +kernel

/-- The module is merged without an error. -/
theorem exists_assembled_constantTexts :
    ∃ result, Assembled (Bundle.ofTexts constantTexts) none result
      (.named "grid.bas" "Grid" (constantLine ++ namingLine "Grid")) [] := by
  refine ⟨_, ?_, by simp, rfl⟩
  rw [entries_constantTexts]
  exact .cons (prepare_eq_ok_iff.mpr ⟨_, declaredName?_constantTexts, rfl⟩) .nil

/-- The constant stands before an attribute line, so it is stranded and missed. -/
theorem constantTexts_stranded :
    ∃ result, ofBundle (Bundle.ofTexts constantTexts) none = .ok result ∧
      (result.tokensFrom "grid.bas" ++ constantLine).Perm constantLine ∧
      ¬(result.tokensFrom "grid.bas").Perm constantLine := by
  obtain ⟨result, h⟩ := exists_assembled_constantTexts
  have hresult := ofBundle_eq_ok_iff.mpr ⟨_, _, h⟩
  have hsource : (Bundle.ofTexts constantTexts).entries[0]? =
      some ("grid.bas", constantLine ++ namingLine "Grid") := by
    rw [entries_constantTexts]
    rfl
  obtain ⟨name, sections, hname, hsections, -, hbalance, hiff⟩ :=
    tokensFrom_perm_keptTokens_iff hresult hsource
  obtain rfl : "Grid" = name := Option.some.inj (declaredName?_constantTexts.symm.trans hname)
  rw [qualifiedSections_constantTexts] at hsections
  subst hsections
  exact ⟨result, hresult, hbalance, fun hkept => absurd (hiff.mp hkept) (by decide)⟩

/-- **Code can be lost**: the constant is in a section that is not dropped, yet the merged module
has no token of its source. -/
theorem constantTexts_constant_lost :
    ∃ result, ofBundle (Bundle.ofTexts constantTexts) none = .ok result ∧
      (Bundle.ofTexts constantTexts).get? "grid.bas" = some (constantLine ++ namingLine "Grid") ∧
      declaredName? (constantLine ++ namingLine "Grid") = some "Grid" ∧
      keptTokens true ((qualifiedSections "grid.bas" "Grid" (constantLine ++ namingLine "Grid")).map
        Proxy.resolve) = constantLine ∧
      result.tokensFrom "grid.bas" = [] := by
  obtain ⟨result, h⟩ := exists_assembled_constantTexts
  have hkept := h.tokensFrom_perm (i := 0) rfl
  simp only [Prepared.named, qualifiedSections_constantTexts] at hkept
  refine ⟨result, ofBundle_eq_ok_iff.mpr ⟨_, _, h⟩, ?_, declaredName?_constantTexts, ?_,
    hkept.eq_nil⟩
  · rw [Dictionary.get?, entries_constantTexts]
    decide
  · rw [qualifiedSections_constantTexts]
    rfl

end Assembly

end VbaModules

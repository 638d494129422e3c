import VbaModules.Proofs.ConditionalNesting
import VbaModules.Proofs.Conservation
import VbaModules.Proofs.Scanning

/-!
# What a conditional block stands for is well defined

To tell what a conditional block stands for, the tokens after its first line are cut into sections,
and the first section of known kind decides. If this section is a conditional block itself, the
same is asked of it, and so on. The tokens may be any, so nothing tells from the outside that this
comes to an end or that an inner block gives an answer.

It does. A conditional section begins with an opening directive, which is in the first line of the
section and so is gone when the question is asked again. Each question leaves fewer opening
directives after the first line than the one before (`Nested.openings_lt`). So the questions are
never nested deeper than there are opening directives, and there is **exactly one** way to answer
them all (`resolves_iff`), which is `kind?`.
-/

namespace VbaModules

open Token Candidate

/-! ### Conditional sections -/

/-- A candidate of conditional kind was proposed by the search for conditional blocks. -/
theorem mem_conditionals_of_kind {tokens : List Token} {g : Span} (h : g ∈ all tokens)
    (hkind : g.kind = .conditional) : g ∈ conditionals tokens := by
  rw [all, List.mem_append, List.mem_append, List.mem_append] at h
  rcases h with ((hconditional | hblock) | hdeclaration) | hglobal
  · exact hconditional
  · obtain ⟨keyword, hkeyword⟩ := exists_kind_of_mem_blocksFrom hblock
    rw [hkeyword, blockKind] at hkind
    split at hkind
    · cases hkind
    · split at hkind <;> cases hkind
  · obtain ⟨m, -, rfl⟩ := List.mem_map.mp hdeclaration
    simp only [declarationKind] at hkind
    split at hkind
    · cases hkind
    · split at hkind <;> cases hkind
  · obtain ⟨m, -, rfl⟩ := List.mem_map.mp hglobal
    cases hkind

/-- **A conditional section begins with an opening directive.** -/
theorem Partition.exists_opening_of_mem_sections {tokens : List Token} {s : Section}
    (h : s ∈ sections tokens) (hkind : s.kind = .conditional) :
    ∃ t ts, s.tokens = t :: ts ∧ t.kind = .conditional .opening := by
  obtain ⟨u, hu, rfl⟩ := List.mem_map.mp h
  have hukind : u.kind = .conditional := hkind
  obtain ⟨g, hg, hstart, hgkind⟩ := (united_of_mem_spans hu (by simp [hukind])).exists_kind_eq
  have hconditional := mem_conditionals_of_kind hg (hgkind.trans hukind)
  obtain ⟨-, q, -, hmatched⟩ := matched_of_mem_conditionals hconditional
  obtain ⟨t, ht, hopening⟩ := hmatched.staysOpen.exists_opening
  have hlt := (consecutive_spans tokens).start_lt_stop_of_mem hu
  have hhead : (slice tokens u.start u.stop).head? = some t := by
    rw [slice, List.head?_drop, List.getElem?_take_of_lt hlt, ← hstart, ht]
  obtain ⟨ts, hts⟩ := List.head?_eq_some_iff.mp hhead
  exact ⟨t, ts, hts, hopening⟩

theorem Partition.sections_nil : sections [] = [] := by
  refine List.eq_nil_iff_forall_not_mem.mpr fun s hs => ?_
  exact tokens_ne_nil_of_mem_sections hs (List.eq_nil_of_length_eq_zero
    (Nat.le_zero.mp (length_tokens_le hs)))

namespace Proxy

/-! ### Questions within questions -/

/-- The block `inner` is **nested** in the block `tokens`: it is one of the conditional sections
after the first line. What `tokens` stands for depends on no other blocks. -/
def Nested (inner tokens : List Token) : Prop :=
  ∃ s ∈ Partition.sections (afterFirstLine tokens), s.kind = .conditional ∧ s.tokens = inner

/-- The opening directive is in the first line. -/
theorem openings_afterFirstLine_lt {t : Token} {ts : List Token}
    (h : t.kind = .conditional .opening) :
    openings (afterFirstLine (t :: ts)) < openings (t :: ts) := by
  have hpos : 0 < lineEnd (t :: ts) 0 := lt_lineEnd (by simp)
  obtain ⟨n, hn⟩ := Nat.exists_eq_add_one_of_ne_zero hpos.ne'
  have hrest : openings (ts.drop n) ≤ openings ts := (List.drop_sublist n ts).countP_le
  have hfirst : openings (t :: ts) = openings ts + 1 := List.countP_cons_of_pos (by simp [h])
  rw [afterFirstLine, hn, List.drop_succ_cons]
  omega

theorem openings_le_of_mem_sections {tokens : List Token} {s : Section}
    (h : s ∈ Partition.sections tokens) : openings s.tokens ≤ openings tokens := by
  obtain ⟨u, -, rfl⟩ := List.mem_map.mp h
  exact ((List.drop_sublist _ _).trans (List.take_sublist _ _)).countP_le

/-- **Each question leaves fewer opening directives.** -/
theorem Nested.openings_lt {inner tokens : List Token} (h : Nested inner tokens) :
    openings (afterFirstLine inner) < openings (afterFirstLine tokens) := by
  obtain ⟨s, hs, hkind, rfl⟩ := h
  obtain ⟨t, ts, htokens, hopening⟩ := Partition.exists_opening_of_mem_sections hs hkind
  have hlt := @openings_afterFirstLine_lt t ts hopening
  rw [← htokens] at hlt
  exact hlt.trans_le (openings_le_of_mem_sections hs)

theorem wellFounded_nested : WellFounded Nested :=
  Subrelation.wf Nested.openings_lt (measure fun tokens => openings (afterFirstLine tokens)).wf

/-- Blocks are nested no deeper than there are opening directives. -/
theorem length_le_of_isChain_nested {tokens : List Token} {blocks : List (List Token)}
    (h : (tokens :: blocks).IsChain fun outer inner => Nested inner outer) :
    blocks.length ≤ openings (afterFirstLine tokens) := by
  induction blocks generalizing tokens with
  | nil => exact Nat.zero_le _
  | cons block blocks ih =>
    obtain ⟨hnested, hrest⟩ := List.isChain_cons_cons.mp h
    exact (ih hrest).trans_lt hnested.openings_lt

/-! ### The answers -/

/-- The kind that a section counts as, where `kindOf?` tells what conditional blocks stand for. -/
def countedAs (kindOf? : List Token → Option Section.Kind) (s : Section) : Section.Kind :=
  if s.kind = .conditional then (kindOf? s.tokens).getD .conditional else s.kind

/-- `kindOf?` **resolves** conditional blocks: going through the sections after the first line, each
counted as `kindOf?` itself tells, it gives the first kind that is not unknown. -/
def Resolves (kindOf? : List Token → Option Section.Kind) : Prop :=
  ∀ tokens, kindOf? tokens =
    ((Partition.sections (afterFirstLine tokens)).map (countedAs kindOf?)).find? (· != .unknown)

theorem countedAs_kind? (s : Section) : countedAs kind? s = (resolve s).kind := by
  rw [countedAs, resolve]
  split <;> rfl

theorem kind?_eq_map (tokens : List Token) :
    kind? tokens = (firstConstruct? tokens).map (countedAs kind?) := by
  cases tokens with
  | nil =>
    have hnone : firstConstruct? [] = none := by
      rw [firstConstruct?, afterFirstLine, List.drop_nil, Partition.sections_nil, List.find?_nil]
    rw [kind?, hnone, Option.map_none]
  | cons t ts => exact kind?_cons t ts

/-- Counting a nested block as what it stands for makes no section known or unknown, so the first
section of known kind is the one that decides. -/
theorem resolves_kind? : Resolves kind? := by
  intro tokens
  rw [kind?_eq_map, List.find?_map, firstConstruct?]
  congr 2
  funext s
  rw [Bool.eq_iff_iff, Function.comp_apply, bne_iff_ne, bne_iff_ne, countedAs_kind?, ne_eq,
    ne_eq, resolve_kind_eq_unknown_iff]

/-- **There is one answer only**, by induction on the nesting: functions that agree on the nested
blocks count each section as the same. -/
theorem Resolves.eq {f g : List Token → Option Section.Kind} (hf : Resolves f) (hg : Resolves g) :
    f = g := by
  funext tokens
  induction tokens using wellFounded_nested.induction with
  | _ tokens ih =>
    rw [hf tokens, hg tokens]
    congr 1
    refine List.map_congr_left fun s hs => ?_
    rw [countedAs, countedAs]
    split
    next hkind => rw [ih s.tokens ⟨s, hs, hkind, rfl⟩]
    next => rfl

theorem resolves_iff {kindOf? : List Token → Option Section.Kind} :
    Resolves kindOf? ↔ kindOf? = kind? :=
  ⟨fun h => h.eq resolves_kind?, fun h => h ▸ resolves_kind?⟩

theorem kind?_eq_none_iff {tokens : List Token} :
    kind? tokens = none ↔
      ∀ s ∈ Partition.sections (afterFirstLine tokens), s.kind = .unknown := by
  rw [kind?_eq_map, Option.map_eq_none_iff, firstConstruct?, List.find?_eq_none]
  simp only [bne_iff_ne, ne_eq, not_not]

/-- **What a conditional block stands for is well defined.** The questions for nested blocks come to
an end, no deeper than there are opening directives after the first line, and `kind?` is the only
function that answers them all. A block never stands for code of unknown kind; it stands for nothing
exactly if all sections after its first line are unknown, and else for the first one that is not, or
for what this one stands for in turn. -/
theorem kind?_well_defined :
    WellFounded Nested ∧
      (∀ tokens blocks, (tokens :: blocks).IsChain (fun outer inner => Nested inner outer) →
        blocks.length ≤ openings (afterFirstLine tokens)) ∧
      (∀ kindOf?, Resolves kindOf? ↔ kindOf? = kind?) ∧
      ∀ tokens, kind? tokens ≠ some .unknown ∧
        (kind? tokens = none ↔
          ∀ s ∈ Partition.sections (afterFirstLine tokens), s.kind = .unknown) ∧
        kind? tokens =
          ((Partition.sections (afterFirstLine tokens)).find? (·.kind != .unknown)).map fun s =>
            if s.kind = .conditional then (kind? s.tokens).getD .conditional else s.kind :=
  ⟨wellFounded_nested, fun _ _ => length_le_of_isChain_nested, fun _ => resolves_iff,
    fun tokens => ⟨kind?_ne_unknown tokens, kind?_eq_none_iff, kind?_eq_map tokens⟩⟩

end Proxy

end VbaModules

import Mathlib.Data.List.Chain
import VbaModules.Section.Partition

/-!
# The sections of a module partition its tokens

Whatever the four searches propose, the spans of the sections follow each other without gap or
overlap from the first token to the last, none is empty, and no two of unknown kind are neighbours.
Nothing is assumed of the tokens: kinds and texts may be combined as they like.

The argument goes along the construction. Each search proposes spans that hold a token, end within
the module and are of known kind (`Proposal`); how proposals overlap does not matter. Uniting them
leaves proposals that stand apart from each other (`Apart`), and filling the gaps between spans
that stand apart gives a run without gaps (`Consecutive`).
-/

namespace VbaModules

open Token

/-! ### Slices of a token list -/

/-- Slices are joined where they meet. -/
theorem Token.slice_append_slice {tokens : List Token} {a b c : Nat} (hab : a ≤ b) (hbc : b ≤ c) :
    slice tokens a b ++ slice tokens b c = slice tokens a c := by
  have hprefix : tokens.take b = (tokens.take c).take b := by
    rw [List.take_take, Nat.min_eq_left hbc]
  have hsuffix : (tokens.take c).drop b = ((tokens.take c).drop a).drop (b - a) := by
    rw [List.drop_drop, Nat.add_sub_cancel' hab]
  rw [slice, slice, slice, hprefix, List.drop_take, hsuffix, List.take_append_drop]

theorem Token.slice_zero_length (tokens : List Token) : slice tokens 0 tokens.length = tokens := by
  rw [slice, List.take_length, List.drop_zero]

/-- The end of a line lies at or after the position asked for, and within the tokens. -/
theorem Token.lineEnd_bounds {tokens : List Token} {start : Nat} (h : start ≤ tokens.length) :
    start ≤ lineEnd tokens start ∧ lineEnd tokens start ≤ tokens.length := by
  rw [lineEnd]
  split
  next offset hoffset =>
    have hlt : offset < (tokens.drop start).length := by
      obtain ⟨hlt, -⟩ := List.findIdx?_eq_some_iff_getElem.mp hoffset
      exact hlt
    rw [List.length_drop] at hlt
    omega
  next => exact ⟨h, le_rfl⟩

/-- Every match of a search lies within the tokens, at or after the position where it began. -/
theorem Pattern.bounds_of_mem_matchesFrom {p : Pattern} {anchored : Bool} {tokens : List Token}
    {position : Nat} {m : Match} (h : m ∈ p.matchesFrom anchored tokens position) :
    position ≤ m.start ∧ m.start < m.stop ∧ m.stop ≤ tokens.length := by
  fun_induction Pattern.matchesFrom p anchored tokens position with
  | case1 => simp at h
  | case2 position first hfirst ih =>
    have hbounds := Pattern.next?_bounds hfirst
    rcases List.mem_cons.mp h with rfl | hrest
    · exact hbounds
    · have hlater := ih hrest
      omega

namespace Candidate

/-! ### What the searches propose -/

/-- A span that a search may propose in a module of the given length: it **holds a token**, ends
**within the module**, and is of **known kind**. -/
structure Proposal (length : Nat) (s : Span) : Prop where
  start_lt_stop : s.start < s.stop
  stop_le : s.stop ≤ length
  kind_ne : s.kind ≠ .unknown

/-- The blocks proposed from a position on. While a block is open, its opening directive stands
before the position. -/
theorem proposal_of_mem_conditionalsFrom {position : Nat} {opened : Option (Nat × Nat)}
    {ts : List Token} {s : Span} (hopened : ∀ o ∈ opened, o.1 < position)
    (h : s ∈ (conditionalsFrom position opened ts).1) : Proposal (position + ts.length) s := by
  fun_induction conditionalsFrom position opened ts with
  | case1 => simp at h
  | case2 position t ts _ ih =>
    rw [List.length_cons, ← Nat.succ_add_eq_add_succ]
    exact ih (by simp) h
  | case3 position t ts start inner _ ih =>
    rw [List.length_cons, ← Nat.succ_add_eq_add_succ]
    have hstart : start < position := hopened _ rfl
    exact ih (by simp only [Option.mem_some_iff, forall_eq']; omega) h
  | case4 position t ts start _ spans unclosed hrest ih =>
    have hstart : start < position := hopened _ rfl
    rcases List.mem_cons.mp h with rfl | hmem
    · exact ⟨by simp only; omega, by simp, by simp⟩
    · rw [List.length_cons, ← Nat.succ_add_eq_add_succ]
      exact ih (by simp) (by rw [hrest]; exact hmem)
  | case5 position t ts start inner _ ih =>
    rw [List.length_cons, ← Nat.succ_add_eq_add_succ]
    have hstart : start < position := hopened _ rfl
    exact ih (by simp only [Option.mem_some_iff, forall_eq']; omega) h
  | case6 position opened t ts _ _ _ _ ih =>
    rw [List.length_cons, ← Nat.succ_add_eq_add_succ]
    exact ih (fun o ho => Nat.lt_succ_of_lt (hopened o ho)) h

/-- A block is of known kind. -/
theorem blockKind_ne_unknown (keyword : String) : blockKind keyword ≠ .unknown := by
  rw [blockKind]
  split
  · simp
  · split <;> simp

/-- A declaration is of known kind. -/
theorem declarationKind_ne_unknown (keyword : String) : declarationKind keyword ≠ .unknown := by
  rw [declarationKind]
  split
  · simp
  · split <;> simp

/-- Procedures and types are proposed as spans within the tokens, of known kind. -/
theorem proposal_of_mem_blocksFrom {tokens : List Token} {position : Nat} {s : Span}
    (h : s ∈ blocksFrom tokens position) : Proposal tokens.length s := by
  fun_induction blocksFrom tokens position with
  | case1 => simp at h
  | case2 => simp at h
  | case3 position header hheader keyword closer hcloser ih =>
    rcases List.mem_cons.mp h with rfl | hrest
    · have hstart := Pattern.next?_bounds hheader
      have hstop := Pattern.next?_bounds hcloser
      exact ⟨by simp only; omega, hstop.2.2, blockKind_ne_unknown keyword⟩
    · exact ih hrest

/-- A span from the start of a match to the end of the line where the match stops. -/
theorem proposal_line {p : Pattern} {tokens : List Token} {m : Match} {kind : Section.Kind}
    (h : m ∈ p.lineMatches tokens) (hkind : kind ≠ .unknown) :
    Proposal tokens.length ⟨m.start, lineEnd tokens m.stop, kind⟩ := by
  obtain ⟨-, hlt, hle⟩ := Pattern.bounds_of_mem_matchesFrom h
  obtain ⟨hstop, hlength⟩ := lineEnd_bounds hle
  exact ⟨Nat.lt_of_lt_of_le hlt hstop, hlength, hkind⟩

/-- **All four searches** make proposals. -/
theorem proposal_of_mem_all {tokens : List Token} {s : Span} (h : s ∈ all tokens) :
    Proposal tokens.length s := by
  simp only [all, List.mem_append] at h
  rcases h with ((hconditional | hblock) | hdeclaration) | hglobal
  · have hproposal := proposal_of_mem_conditionalsFrom (by simp) hconditional
    rwa [Nat.zero_add] at hproposal
  · exact proposal_of_mem_blocksFrom hblock
  · obtain ⟨m, hm, rfl⟩ := List.mem_map.mp hdeclaration
    exact proposal_line hm (declarationKind_ne_unknown _)
  · obtain ⟨m, hm, rfl⟩ := List.mem_map.mp hglobal
    rcases List.mem_append.mp hm with hvariable | hconstant
    · exact proposal_line (List.mem_of_mem_filter hvariable) (by simp)
    · exact proposal_line hconstant (by simp)

end Candidate

namespace Partition

open Candidate

/-! ### Uniting proposals -/

/-- Spans of known kind that **stand apart**: each holds a token, starts at or after the end of the
one before (the first at or after `position`), and ends within `length`. -/
inductive Apart (length : Nat) : Nat → List Span → Prop where
  | nil (position : Nat) : Apart length position []
  | cons {position : Nat} {s : Span} {rest : List Span} (hstart : position ≤ s.start)
      (hproposal : Proposal length s) (hrest : Apart length s.stop rest) :
      Apart length position (s :: rest)

/-- Spans that stand apart from a position on do so from any earlier one. -/
theorem Apart.of_le {length position earlier : Nat} {spans : List Span}
    (h : Apart length position spans) (hle : earlier ≤ position) :
    Apart length earlier spans := by
  cases h with
  | nil => exact .nil earlier
  | cons hstart hproposal hrest => exact .cons (hle.trans hstart) hproposal hrest

/-- What precedes a span begins no later. -/
theorem start_le_of_precedes {a b : Span} (h : precedes a b = true) : a.start ≤ b.start := by
  simp only [precedes, Bool.or_eq_true, Bool.and_eq_true, decide_eq_true_eq, beq_iff_eq] at h
  omega

theorem precedes_trans (a b c : Span) : precedes a b → precedes b c → precedes a c := by
  simp only [precedes, Bool.or_eq_true, Bool.and_eq_true, decide_eq_true_eq, beq_iff_eq]
  omega

theorem precedes_total (a b : Span) : precedes a b || precedes b a := by
  simp only [precedes, Bool.or_eq_true, Bool.and_eq_true, decide_eq_true_eq, beq_iff_eq]
  omega

/-- Sorted spans stand in the order of their starts. -/
theorem pairwise_mergeSort_precedes (spans : List Span) :
    (spans.mergeSort precedes).Pairwise fun a b => a.start ≤ b.start :=
  (List.pairwise_mergeSort precedes_trans precedes_total spans).imp start_le_of_precedes

/-- Extending the current span by what reaches into it leaves spans that stand apart. The order
matters here: nothing later starts before the current span, so growing at the end is enough. -/
theorem apart_absorb {length : Nat} {current : Span} {spans : List Span}
    (hcurrent : Proposal length current) (hspans : ∀ s ∈ spans, Proposal length s)
    (hsorted : (current :: spans).Pairwise fun a b => a.start ≤ b.start) :
    Apart length current.start (absorb current spans) := by
  induction spans generalizing current with
  | nil => exact .cons le_rfl hcurrent (.nil _)
  | cons s rest ih =>
    obtain ⟨hs, hrest⟩ := List.forall_mem_cons.mp hspans
    obtain ⟨hbefore, htail⟩ := List.pairwise_cons.mp hsorted
    rw [absorb]
    split
    next =>
      have hgrown : Proposal length { current with stop := max current.stop s.stop } :=
        ⟨Nat.lt_of_lt_of_le hcurrent.start_lt_stop (Nat.le_max_left _ _),
          Nat.max_le.mpr ⟨hcurrent.stop_le, hs.stop_le⟩, hcurrent.kind_ne⟩
      refine ih hgrown hrest (List.pairwise_cons.mpr ⟨fun b hb => ?_, htail.tail⟩)
      exact hbefore b (List.mem_cons_of_mem _ hb)
    next hreach =>
      exact .cons le_rfl hcurrent ((ih hs hrest htail).of_le (Nat.le_of_not_lt hreach))

/-- **Uniting proposals leaves proposals that stand apart**, in whatever order they came. -/
theorem apart_unite {length : Nat} {spans : List Span} (h : ∀ s ∈ spans, Proposal length s) :
    Apart length 0 (unite spans) := by
  have hsorted := pairwise_mergeSort_precedes spans
  have hmem : ∀ s ∈ spans.mergeSort precedes, Proposal length s :=
    fun s hs => h s (List.mem_mergeSort.mp hs)
  rw [unite]
  split
  next => exact .nil 0
  next s rest heq =>
    rw [heq] at hsorted hmem
    obtain ⟨hs, hrest⟩ := List.forall_mem_cons.mp hmem
    exact (apart_absorb hs hrest hsorted).of_le (Nat.zero_le _)

/-! ### Filling the gaps -/

/-- Spans that **follow each other without gap** from one position to another, none of them
empty. -/
inductive Consecutive : Nat → Nat → List Span → Prop where
  | nil (position : Nat) : Consecutive position position []
  | cons {start stop : Nat} {s : Span} {rest : List Span} (hstart : s.start = start)
      (hlt : s.start < s.stop) (hrest : Consecutive s.stop stop rest) :
      Consecutive start stop (s :: rest)

/-- A gap before consecutive spans makes them begin earlier. -/
theorem Consecutive.gap_append {position start stop : Nat} {spans : List Span}
    (h : Consecutive start stop spans) (hle : position ≤ start) :
    Consecutive position stop (gap position start ++ spans) := by
  rw [gap]
  split
  next hlt => exact .cons rfl hlt h
  next hnot =>
    obtain rfl : position = start := by omega
    exact h

/-- Filling the gaps between spans that stand apart covers everything up to the end. -/
theorem consecutive_coverFrom {length position : Nat} {spans : List Span}
    (h : Apart length position spans) (hle : position ≤ length) :
    Consecutive position length (coverFrom position length spans) := by
  induction h with
  | nil position =>
    have hgap := (Consecutive.nil length).gap_append hle
    rwa [List.append_nil] at hgap
  | cons hstart hproposal _ ih =>
    exact (Consecutive.cons rfl hproposal.start_lt_stop (ih hproposal.stop_le)).gap_append hstart

/-- The two neighbours are not both of unknown kind. -/
def NotBothUnknown (a b : Span) : Prop :=
  a.kind ≠ .unknown ∨ b.kind ≠ .unknown

/-- A gap is filled by one span, and what stands on its other side is of known kind. -/
theorem isChain_coverFrom {length position : Nat} {spans : List Span}
    (h : Apart length position spans) :
    (coverFrom position length spans).IsChain NotBothUnknown := by
  induction h with
  | nil position =>
    rw [coverFrom, gap]
    split
    · exact .singleton _
    · exact .nil
  | @cons position s rest _ hproposal _ ih =>
    have hs : (s :: coverFrom s.stop length rest).IsChain NotBothUnknown :=
      ih.cons fun _ _ => Or.inl hproposal.kind_ne
    rw [coverFrom, gap]
    split
    · exact .cons_cons (Or.inr hproposal.kind_ne) hs
    · exact hs

/-- Filling the gaps keeps all spans. -/
theorem mem_coverFrom {position length : Nat} {spans : List Span} {s : Span} (h : s ∈ spans) :
    s ∈ coverFrom position length spans := by
  induction spans generalizing position with
  | nil => cases h
  | cons t rest ih =>
    rw [coverFrom, List.mem_append, List.mem_cons]
    rcases List.mem_cons.mp h with rfl | hrest
    · exact .inr (.inl rfl)
    · exact .inr (.inr (ih hrest))

/-! ### Reading a run of spans -/

theorem Consecutive.start_le_stop {start stop : Nat} {spans : List Span}
    (h : Consecutive start stop spans) : start ≤ stop := by
  induction h with
  | nil => exact le_rfl
  | cons hstart hlt _ ih => omega

/-- No span of a consecutive run is empty. -/
theorem Consecutive.start_lt_stop_of_mem {start stop : Nat} {spans : List Span}
    (h : Consecutive start stop spans) {s : Span} (hs : s ∈ spans) : s.start < s.stop := by
  induction h with
  | nil => simp at hs
  | cons _ hlt _ ih =>
    rcases List.mem_cons.mp hs with rfl | hmem
    · exact hlt
    · exact ih hmem

/-- The spans of a consecutive run end within it. -/
theorem Consecutive.stop_le_of_mem {start stop : Nat} {spans : List Span}
    (h : Consecutive start stop spans) {s : Span} (hs : s ∈ spans) : s.stop ≤ stop := by
  induction h with
  | nil => simp at hs
  | cons _ _ hrest ih =>
    rcases List.mem_cons.mp hs with rfl | hmem
    · exact hrest.start_le_stop
    · exact ih hmem

/-- They begin within it. -/
theorem Consecutive.start_le_of_mem {start stop : Nat} {spans : List Span}
    (h : Consecutive start stop spans) {s : Span} (hs : s ∈ spans) : start ≤ s.start := by
  induction h with
  | nil => cases hs
  | cons hstart hlt _ ih =>
    rcases List.mem_cons.mp hs with rfl | hmem
    · exact hstart.ge
    · have hle := ih hmem
      omega

/-- Consecutive spans do not overlap. -/
theorem Consecutive.eq_of_overlap {start stop : Nat} {spans : List Span}
    (h : Consecutive start stop spans) {s u : Span} (hs : s ∈ spans) (hu : u ∈ spans)
    (hsu : s.start < u.stop) (hus : u.start < s.stop) : s = u := by
  induction h with
  | nil => cases hs
  | cons hstart hlt hrest ih =>
    rcases List.mem_cons.mp hs with rfl | hs'
    · rcases List.mem_cons.mp hu with rfl | hu'
      · rfl
      · have hle := hrest.start_le_of_mem hu'
        omega
    · rcases List.mem_cons.mp hu with rfl | hu'
      · have hle := hrest.start_le_of_mem hs'
        omega
      · exact ih hs' hu'

/-- The first span begins where the run begins, if the run is not empty. -/
theorem Consecutive.head?_start {start stop : Nat} {spans : List Span}
    (h : Consecutive start stop spans) :
    spans.head?.map Span.start = if start = stop then none else some start := by
  cases h with
  | nil => simp
  | cons hstart hlt hrest =>
    have hle := hrest.start_le_stop
    rw [if_neg (by omega), List.head?_cons, Option.map_some, hstart]

/-- The last span ends where the run ends, if the run is not empty. -/
theorem Consecutive.getLast?_stop {start stop : Nat} {spans : List Span}
    (h : Consecutive start stop spans) :
    spans.getLast?.map Span.stop = if start = stop then none else some stop := by
  induction h with
  | nil => simp
  | @cons start stop s rest hstart hlt hrest ih =>
    have hle := hrest.start_le_stop
    rw [if_neg (by omega)]
    rcases hrest with _ | ⟨hstart', hlt', hrest'⟩
    · rfl
    · have hle' := hrest'.start_le_stop
      rw [List.getLast?_cons_cons, ih, if_neg (by omega)]

/-- Each span begins where the one before it ends. -/
theorem Consecutive.isChain {start stop : Nat} {spans : List Span}
    (h : Consecutive start stop spans) : spans.IsChain fun a b => b.start = a.stop := by
  induction h with
  | nil => exact .nil
  | cons _ _ hrest ih =>
    rcases hrest with _ | ⟨hstart', _, _⟩
    · exact .singleton _
    · exact .cons_cons hstart' ih

/-- The slices of a run in a row are the slice from its beginning to its end. -/
theorem Consecutive.flatMap_slice {start stop : Nat} {spans : List Span}
    (h : Consecutive start stop spans) (tokens : List Token) :
    spans.flatMap (fun s => slice tokens s.start s.stop) = slice tokens start stop := by
  induction h with
  | nil position => simp [slice]
  | cons hstart hlt hrest ih =>
    rw [List.flatMap_cons, ih, hstart]
    exact slice_append_slice (by omega) hrest.start_le_stop

/-! ### The partition of a module -/

/-- **The sections of a module follow one another** from its first token to its last. -/
theorem consecutive_spans (tokens : List Token) :
    Consecutive 0 tokens.length (spans tokens) :=
  consecutive_coverFrom (apart_unite fun _ => proposal_of_mem_all) (Nat.zero_le _)

/-- Two sections of unknown kind do not follow one another. -/
theorem isChain_spans (tokens : List Token) : (spans tokens).IsChain NotBothUnknown :=
  isChain_coverFrom (apart_unite fun _ => proposal_of_mem_all)

/-- No section is empty. -/
theorem tokens_ne_nil_of_mem_sections {tokens : List Token} {s : Section}
    (h : s ∈ sections tokens) : s.tokens ≠ [] := by
  obtain ⟨span, hspan, rfl⟩ := List.mem_map.mp h
  have hrun := consecutive_spans tokens
  have hlt := hrun.start_lt_stop_of_mem hspan
  have hle := hrun.stop_le_of_mem hspan
  refine List.ne_nil_of_length_pos ?_
  simp only [Section.ofTokens, slice, List.length_drop, List.length_take]
  omega

/-- Proposals that come in order need no sorting to be united. -/
theorem spans_eq_coverFrom_absorb {tokens : List Token} {s : Span} {rest : List Span}
    (hall : Candidate.all tokens = s :: rest)
    (hsorted : (s :: rest).Pairwise fun a b => precedes a b = true) :
    spans tokens = coverFrom 0 tokens.length (absorb s rest) := by
  rw [spans, hall, unite, List.mergeSort_of_pairwise hsorted]

/-- The sections in a row are the module again. -/
theorem flatMap_tokens_sections (tokens : List Token) :
    (sections tokens).flatMap Section.tokens = tokens := by
  rw [sections, List.flatMap_map]
  exact ((consecutive_spans tokens).flatMap_slice tokens).trans (slice_zero_length tokens)

/-- **The sections partition the module**: no span is empty; the first starts at the first token
and the last ends with the last one, unless there are no tokens and then no spans; each next span
starts where the one before ends, and is not of unknown kind if that one is. So the sections in a
row give back the tokens. -/
theorem spans_partition (tokens : List Token) :
    (∀ s ∈ spans tokens, s.start < s.stop) ∧
      (spans tokens).head?.map Span.start = (if tokens = [] then none else some 0) ∧
      (spans tokens).getLast?.map Span.stop =
        (if tokens = [] then none else some tokens.length) ∧
      (spans tokens).IsChain (fun a b => b.start = a.stop) ∧
      (spans tokens).IsChain (fun a b => a.kind ≠ .unknown ∨ b.kind ≠ .unknown) ∧
      (sections tokens).flatMap Section.tokens = tokens := by
  have hrun := consecutive_spans tokens
  have hempty : 0 = tokens.length ↔ tokens = [] := eq_comm.trans List.length_eq_zero_iff
  refine ⟨fun s hs => hrun.start_lt_stop_of_mem hs, ?_, ?_, hrun.isChain, isChain_spans tokens,
    flatMap_tokens_sections tokens⟩
  · simpa only [hempty] using hrun.head?_start
  · simpa only [hempty] using hrun.getLast?_stop

end Partition

end VbaModules

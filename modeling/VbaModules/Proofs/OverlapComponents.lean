import Mathlib.Logic.Relation
import VbaModules.Proofs.IntrinsicKinds

/-!
# Sections are connected candidates

Which candidates become one section can be told without the order in which they are absorbed. Two
candidates are linked if a chain of candidates leads from the one to the other, each sharing a token
with the next (`Linked`). Linked candidates are within the same section and others are not, so the
sections of known kind are the connected components of the candidates, and the sections of unknown
kind are what is left (`spans_components`).

That linked candidates stay together is one step at a time: a candidate that shares a token with a
section is within it. For the converse we go from token to token. Every cut through a section goes
through a candidate, which holds the tokens on both sides of the cut and links what holds the one
to what holds the other (`United.linked`).

The kind of a section is that of the candidate that leads in it (`Candidate.Leads`). Of candidates
at the same place the one of the first search leads, since sorting keeps the order of equals.
-/

namespace VbaModules

open Token

/-! ### Spans that share a token -/

namespace Span

/-- The token at the position is one of the span. -/
def Holds (s : Span) (i : Nat) : Prop :=
  s.start ≤ i ∧ i < s.stop

/-- Some token is one of both spans. -/
def Shares (a b : Span) : Prop :=
  ∃ i, a.Holds i ∧ b.Holds i

/-- The first span does not reach beyond the second. -/
def Within (a b : Span) : Prop :=
  b.start ≤ a.start ∧ a.stop ≤ b.stop

theorem Shares.symm {a b : Span} (h : a.Shares b) : b.Shares a := by
  obtain ⟨i, ha, hb⟩ := h
  exact ⟨i, hb, ha⟩

theorem Within.holds {a b : Span} (h : a.Within b) {i : Nat} (hi : a.Holds i) : b.Holds i :=
  ⟨h.1.trans hi.1, hi.2.trans_le h.2⟩

end Span

/-- A **chain of the spans** leads from the one to the other, each sharing a token with the next. -/
def Linked (spans : List Span) : Span → Span → Prop :=
  Relation.ReflTransGen fun a b => a ∈ spans ∧ b ∈ spans ∧ a.Shares b

theorem Linked.symm {spans : List Span} {a b : Span} (h : Linked spans a b) :
    Linked spans b a := by
  induction h with
  | refl => exact .refl
  | tail _ hstep ih =>
    obtain ⟨hc, hd, hshares⟩ := hstep
    exact .head ⟨hd, hc, hshares.symm⟩ ih

/-! ### United spans are components -/

namespace Partition

section Components

variable {spans : List Span} {u c d : Span}

/-- A span that shares a token with a united span is within it. -/
theorem United.within_of_shares (h : United spans u) (hc : c ∈ spans) (hshares : u.Shares c) :
    c.Within u := by
  obtain ⟨i, hu, hi⟩ := hshares
  rcases h.apart_or_within c hc with hbefore | hafter | hwithin
  · exact absurd (hi.2.trans_le hbefore) (Nat.not_lt_of_le hu.1)
  · exact absurd (hu.2.trans_le hafter) (Nat.not_lt_of_le hi.1)
  · exact hwithin

theorem United.within_of_linked (h : United spans u) (hc : c.Within u)
    (hlinked : Linked spans c d) : d.Within u := by
  induction hlinked with
  | refl => exact hc
  | tail _ hstep ih =>
    obtain ⟨-, hd, i, hi, hdi⟩ := hstep
    exact h.within_of_shares hd ⟨i, ih.holds hi, hdi⟩

/-- From token to token: what holds one token of a united span is linked to what holds a later
one. -/
theorem United.linked_of_le (h : United spans u) (hc : c ∈ spans) (hd : d ∈ spans) {i j : Nat}
    (hij : i ≤ j) (hi : c.Holds i) (hj : d.Holds j) (hstart : u.start ≤ i) (hstop : j < u.stop) :
    Linked spans c d := by
  induction j, hij using Nat.le_induction generalizing d with
  | base => exact .single ⟨hc, hd, i, hi, hj⟩
  | succ j hij ih =>
    obtain ⟨g, hg, hgstart, hgstop⟩ := h.exists_cut (j + 1) (by omega) hstop
    have hcg : Linked spans c g :=
      ih hg ⟨Nat.le_of_lt_succ hgstart, Nat.lt_of_succ_lt hgstop⟩ (by omega)
    exact hcg.tail ⟨hg, hd, j + 1, ⟨hgstart.le, hgstop⟩, hj⟩

/-- Spans that are within one united span are **linked**. -/
theorem United.linked (h : United spans u) (hspans : ∀ s ∈ spans, s.start < s.stop)
    (hc : c ∈ spans) (hd : d ∈ spans) (hcu : c.Within u) (hdu : d.Within u) : Linked spans c d := by
  have hheld : ∀ {s : Span}, s ∈ spans → s.Holds s.start := fun hs => ⟨le_rfl, hspans _ hs⟩
  rcases Nat.le_total c.start d.start with hle | hle
  · exact h.linked_of_le hc hd hle (hheld hc) (hheld hd) hcu.1 (hdu.holds (hheld hd)).2
  · exact (h.linked_of_le hd hc hle (hheld hd) (hheld hc) hdu.1 (hcu.holds (hheld hc)).2).symm

/-- The kind of a united span is that of the first of the spans that start where it starts and stop
first, and of these it is the one given first. -/
theorem United.exists_first (h : United spans u) :
    ∃ c, (spans.filter fun d => d.start == c.start && d.stop == c.stop).head? = some c ∧
      c.start = u.start ∧ (∀ d ∈ spans, d.start = u.start → c.stop ≤ d.stop) ∧
      c.kind = u.kind := by
  obtain ⟨c, hc, hkind⟩ := Option.map_eq_some_iff.mp h.kind_eq
  obtain ⟨rest, hsort⟩ := List.head?_eq_some_iff.mp hc
  have hmem : ∀ {d : Span}, d ∈ c :: rest ↔ d ∈ spans ∧ d.start = u.start := by
    intro d
    rw [← hsort, List.mem_mergeSort, List.mem_filter, beq_iff_eq]
  have hstart : c.start = u.start := (hmem.mp List.mem_cons_self).2
  have hsorted := List.pairwise_mergeSort precedes_trans precedes_total
    (spans.filter (·.start == u.start))
  rw [hsort, List.pairwise_cons] at hsorted
  refine ⟨c, ?_, hstart, fun d hd hdstart => ?_, hkind⟩
  · -- sorting does not move spans at the same place past each other
    have hfilter := filter_mergeSort precedes_trans precedes_total
      (fun d => d.start == c.start && d.stop == c.stop) (spans.filter (·.start == u.start))
    have hequal : ((spans.filter (·.start == u.start)).filter
        fun d => d.start == c.start && d.stop == c.stop).Pairwise
          fun a b => precedes a b = true := by
      refine List.pairwise_of_forall_mem_list fun a ha b hb => ?_
      have ha' := (List.mem_filter.mp ha).2
      have hb' := (List.mem_filter.mp hb).2
      simp only [Bool.and_eq_true, beq_iff_eq] at ha' hb'
      simp [precedes, ha', hb']
    rw [List.mergeSort_of_pairwise hequal, hsort, List.filter_cons_of_pos (by simp),
      List.filter_filter] at hfilter
    have hsame : spans.filter (fun d => d.start == c.start && d.stop == c.stop) =
        spans.filter fun d =>
          (d.start == c.start && d.stop == c.stop) && d.start == u.start := by
      refine List.filter_congr fun d _ => ?_
      rw [hstart]
      cases d.start == u.start <;> simp
    rw [hsame, ← hfilter, List.head?_cons]
  · rcases List.mem_cons.mp (hmem.mpr ⟨hd, hdstart⟩) with rfl | hrest
    · exact le_rfl
    · have hprecedes := hsorted.1 d hrest
      simp only [precedes, Bool.or_eq_true, Bool.and_eq_true, decide_eq_true_eq, beq_iff_eq]
        at hprecedes
      omega

end Components

end Partition

/-! ### The candidate that leads -/

namespace Candidate

/-- One of the four searches for candidates. -/
inductive Search where
  | conditional
  | block
  | declaration
  | global
deriving DecidableEq, Repr

namespace Search

/-- What the search proposes. -/
def find : Search → List Token → List Span
  | conditional => conditionals
  | block => blocks
  | declaration => declarations
  | global => globals

/-- The searches in the order in which their proposals are listed. -/
def inOrder : List Search :=
  [conditional, block, declaration, global]

/-- The place of a search in this order. -/
def rank (search : Search) : Nat :=
  inOrder.idxOf search

theorem mem_inOrder (search : Search) : search ∈ inOrder := by
  cases search <;> decide

theorem rank_injective {a b : Search} (h : a.rank = b.rank) : a = b :=
  (List.idxOf_inj (mem_inOrder a)).mp h

theorem pairwise_rank_inOrder : inOrder.Pairwise fun a b => a.rank ≤ b.rank := by
  decide

end Search

theorem all_eq_flatMap_find (tokens : List Token) :
    all tokens = Search.inOrder.flatMap fun search => search.find tokens := by
  simp [all, Search.inOrder, Search.find]

theorem mem_all_of_mem_find {tokens : List Token} {search : Search} {c : Span}
    (h : c ∈ search.find tokens) : c ∈ all tokens := by
  rw [all_eq_flatMap_find]
  exact List.mem_flatMap.mpr ⟨search, search.mem_inOrder, h⟩

/-- The candidate, found by the search, **leads** among those within a span: it has the least start,
among those with this start the least stop, and among those at the same place it comes from the
first search. -/
structure Leads (tokens : List Token) (u : Span) (search : Search) (c : Span) : Prop where
  mem : c ∈ search.find tokens
  within : c.Within u
  least : ∀ (other : Search) (d : Span), d ∈ other.find tokens → d.Within u →
    c.start < d.start ∨ c.start = d.start ∧
      (c.stop < d.stop ∨ c.stop = d.stop ∧ search.rank ≤ other.rank)

section Leading

variable {tokens : List Token} {u : Span}

/-- Among the candidates within a united span one leads, and the span has its kind. -/
theorem exists_leads (h : Partition.United (all tokens) u) (hlt : u.start < u.stop) :
    ∃ search c, Leads tokens u search c ∧ c.kind = u.kind := by
  obtain ⟨c, hfirst, hstart, hleast, hkind⟩ := h.exists_first
  rw [all_eq_flatMap_find, List.filter_flatMap, List.head?_flatMap,
    List.findSome?_eq_some_iff] at hfirst
  obtain ⟨before, search, after, horder, hhead, hnone⟩ := hfirst
  have hmem : c ∈ search.find tokens := (List.mem_filter.mp (List.mem_of_mem_head? hhead)).1
  have hpos := (proposal_of_mem_all (mem_all_of_mem_find hmem)).start_lt_stop
  have hwithin : c.Within u := h.within_of_shares (mem_all_of_mem_find hmem)
    ⟨c.start, ⟨hstart.ge, hstart.trans_lt hlt⟩, le_rfl, hpos⟩
  refine ⟨search, c, ⟨hmem, hwithin, fun other d hd hdu => ?_⟩, hkind⟩
  rcases hdu.1.lt_or_eq with hlater | hsame
  · exact .inl (hstart.trans_lt hlater)
  · refine .inr ⟨hstart.trans hsame, ?_⟩
    rcases (hleast d (mem_all_of_mem_find hd) hsame.symm).lt_or_eq with hshorter | hstop
    · exact .inl hshorter
    · refine .inr ⟨hstop, ?_⟩
      -- the searches before this one find nothing at the same place
      have hnot : other ∉ before := by
        intro hbefore
        have hempty := List.head?_eq_none_iff.mp (hnone other hbefore)
        have hthere : d ∈ (other.find tokens).filter
            fun d => d.start == c.start && d.stop == c.stop :=
          List.mem_filter.mpr ⟨hd, by simp [hstart, hsame, hstop]⟩
        rw [hempty] at hthere
        cases hthere
      have hpairwise := Search.pairwise_rank_inOrder
      have hother := other.mem_inOrder
      rw [horder] at hpairwise hother
      rcases List.mem_cons.mp ((List.mem_append.mp hother).resolve_left hnot) with rfl | hafter
      · exact le_rfl
      · exact (List.pairwise_cons.mp (List.pairwise_append.mp hpairwise).2.1).1 other hafter

/-- What one search finds at one place is of one kind. -/
theorem kind_eq_of_mem_find {search : Search} {c d : Span} (hc : c ∈ search.find tokens)
    (hd : d ∈ search.find tokens) (hstart : c.start = d.start) : c.kind = d.kind := by
  cases search with
  | conditional => rw [eq_of_pairwise_start (pairwise_conditionals tokens) hc hd hstart]
  | block => rw [eq_of_pairwise_start (pairwise_blocksFrom tokens 0) hc hd hstart]
  | declaration =>
    have hpairwise := pairwise_lineSpans declarationStart
      (fun t => some (declarationKind ((t.map fun t => Text.foldCase t.text).getD ""))) tokens
    rw [← declarations_eq_lineSpans] at hpairwise
    rw [eq_of_pairwise_start hpairwise hc hd hstart]
  | global =>
    obtain ⟨m, -, rfl⟩ := List.mem_map.mp hc
    obtain ⟨m', -, rfl⟩ := List.mem_map.mp hd
    rfl

/-- The candidates that lead in a span are all of one kind. -/
theorem Leads.kind_eq {search search' : Search} {c c' : Span} (h : Leads tokens u search c)
    (h' : Leads tokens u search' c') : c.kind = c'.kind := by
  have hle := h.least search' c' h'.mem h'.within
  have hge := h'.least search c h.mem h.within
  obtain rfl : search = search' := Search.rank_injective (by omega)
  exact kind_eq_of_mem_find h.mem h'.mem (by omega)

end Leading

end Candidate

/-! ### The sections of a module -/

namespace Partition

open Candidate

section Sections

variable {tokens : List Token} {s c : Span}

theorem start_lt_stop_of_mem_all : ∀ c ∈ all tokens, c.start < c.stop :=
  fun _ hc => (proposal_of_mem_all hc).start_lt_stop

theorem United.kind_ne_unknown (h : United (all tokens) s) : s.kind ≠ .unknown := by
  obtain ⟨c, hc, -, hkind⟩ := h.exists_kind_eq
  rw [← hkind]
  exact (proposal_of_mem_all hc).kind_ne

/-- A section that shares a token with a candidate is united from candidates. -/
theorem united_of_shares (hs : s ∈ spans tokens) (hc : c ∈ all tokens) (hshares : s.Shares c) :
    United (all tokens) s := by
  obtain ⟨i, hi, hci⟩ := hshares
  exact united_of_overlap hs hc (hi.1.trans_lt hci.2) (hci.1.trans_lt hi.2)

/-- Every candidate is within exactly one section of known kind. -/
theorem existsUnique_within (hc : c ∈ all tokens) :
    ∃! s, s ∈ spans tokens ∧ s.kind ≠ .unknown ∧ c.Within s := by
  have hpos := start_lt_stop_of_mem_all c hc
  obtain ⟨s, hs, hwithin⟩ := exists_mem_unite hc
  have hunited : United (all tokens) s := united_of_mem_unite start_lt_stop_of_mem_all hs
  refine ⟨s, ⟨mem_coverFrom hs, hunited.kind_ne_unknown, hwithin⟩, ?_⟩
  rintro t ⟨ht, -, htstart, htstop⟩
  exact (consecutive_spans tokens).eq_of_overlap ht (mem_coverFrom hs) (by omega) (by omega)

/-- Two candidates are within the same section exactly if they are linked. -/
theorem exists_within_iff_linked {d : Span} (hc : c ∈ all tokens) (hd : d ∈ all tokens) :
    (∃ s ∈ spans tokens, s.kind ≠ .unknown ∧ c.Within s ∧ d.Within s) ↔
      Linked (all tokens) c d := by
  constructor
  · rintro ⟨s, hs, hkind, hcs, hds⟩
    exact (united_of_mem_spans hs hkind).linked start_lt_stop_of_mem_all hc hd hcs hds
  · intro hlinked
    obtain ⟨s, ⟨hs, hkind, hcs⟩, -⟩ := existsUnique_within hc
    exact ⟨s, hs, hkind, hcs, (united_of_mem_spans hs hkind).within_of_linked hcs hlinked⟩

end Sections

/-- **The sections are the connected components of the candidates.** Every candidate is within
exactly one section of known kind, and two candidates are within the same one exactly if they are
linked. A section of known kind starts where a candidate starts, stops where one stops, and has the
kind of the candidate that leads in it. A section of unknown kind shares no token with any
candidate. -/
theorem spans_components (tokens : List Token) :
    (∀ c ∈ all tokens, ∃! s, s ∈ spans tokens ∧ s.kind ≠ .unknown ∧ c.Within s) ∧
      (∀ c ∈ all tokens, ∀ d ∈ all tokens,
        (∃ s ∈ spans tokens, s.kind ≠ .unknown ∧ c.Within s ∧ d.Within s) ↔
          Linked (all tokens) c d) ∧
      (∀ s ∈ spans tokens, s.kind ≠ .unknown →
        (∃ c ∈ all tokens, c.start = s.start) ∧ (∃ c ∈ all tokens, c.stop = s.stop) ∧
          (∃ search c, Leads tokens s search c) ∧
          ∀ search c, Leads tokens s search c → c.kind = s.kind) ∧
      ∀ s ∈ spans tokens, s.kind = .unknown → ∀ c ∈ all tokens, ¬s.Shares c := by
  refine ⟨fun c hc => existsUnique_within hc, fun c hc d hd => exists_within_iff_linked hc hd,
    fun s hs hkind => ?_, fun s hs hkind c hc hshares => ?_⟩
  · have hunited := united_of_mem_spans hs hkind
    have hlt := (consecutive_spans tokens).start_lt_stop_of_mem hs
    obtain ⟨search, c, hleads, hkind'⟩ := exists_leads hunited hlt
    exact ⟨hunited.exists_start_eq, exists_stop_eq_of_mem_spans hs hkind,
      ⟨search, c, hleads⟩, fun _ _ h => (h.kind_eq hleads).trans hkind'⟩
  · exact (united_of_shares hs hc hshares).kind_ne_unknown hkind

end Partition

end VbaModules

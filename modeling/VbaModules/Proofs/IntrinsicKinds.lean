import VbaModules.Proofs.CutOut
import VbaModules.Proofs.DirectiveLines
import VbaModules.Proofs.Uniting

/-!
# The kind of a section is its own

A section of known kind is a section wherever it stands: cut out of its module and partitioned on
its own, it is one section again, with the same tokens and the same kind (`sections_eq_singleton`).
So the kind depends on the tokens of the section alone, although the searches look backwards for the
start of a line, count the conditional blocks that are open and stop at a procedure without an end.

The span of a section of known kind is united from candidates, so it can be cut out of the module
(`cutOut_of_united`). What the candidates say of the span in the module they say of the whole in the
part (`united_slice`), and spans that are all within one united span unite to it.
-/

namespace VbaModules.Partition

open Token Candidate

/-! ### Spans of known kind -/

theorem mem_of_mem_coverFrom {position length : Nat} {spans : List Span} {s : Span}
    (h : s ∈ coverFrom position length spans) (hkind : s.kind ≠ .unknown) : s ∈ spans := by
  have hgap : ∀ {start stop}, s ∉ gap start stop := by
    intro start stop hs
    rw [gap] at hs
    split at hs
    · obtain rfl := List.mem_singleton.mp hs
      exact hkind rfl
    · cases hs
  induction spans generalizing position with
  | nil => exact absurd h hgap
  | cons t rest ih =>
    rw [coverFrom, List.mem_append] at h
    rcases List.mem_cons.mp (h.resolve_left hgap) with rfl | hrest
    · exact List.mem_cons_self
    · exact List.mem_cons_of_mem _ (ih hrest)

/-- A span of known kind is united from candidates. -/
theorem united_of_mem_spans {tokens : List Token} {s : Span} (h : s ∈ spans tokens)
    (hkind : s.kind ≠ .unknown) : United (all tokens) s :=
  united_of_mem_unite (fun _ hs => (proposal_of_mem_all hs).start_lt_stop)
    (mem_of_mem_coverFrom h hkind)

/-- A section that shares a token with a candidate is united from candidates. -/
theorem united_of_overlap {tokens : List Token} {s g : Span} (hs : s ∈ spans tokens)
    (hg : g ∈ all tokens) (hsg : s.start < g.stop) (hgs : g.start < s.stop) :
    United (all tokens) s := by
  obtain ⟨u, hu, hstart, hstop⟩ := exists_mem_unite hg
  have hsame : s = u := (consecutive_spans tokens).eq_of_overlap hs (mem_coverFrom hu) (by omega)
    (by omega)
  rw [hsame]
  exact united_of_mem_unite (fun _ h => (proposal_of_mem_all h).start_lt_stop) hu

/-- A united span has the kind of one of the spans that starts where it starts. -/
theorem United.exists_kind_eq {spans : List Span} {u : Span} (h : United spans u) :
    ∃ g ∈ spans, g.start = u.start ∧ g.kind = u.kind := by
  obtain ⟨g, hg, hkind⟩ := Option.map_eq_some_iff.mp h.kind_eq
  obtain ⟨hmem, hstart⟩ := List.mem_filter.mp (List.mem_mergeSort.mp (List.mem_of_mem_head? hg))
  exact ⟨g, hmem, beq_iff_eq.mp hstart, hkind⟩

theorem United.exists_start_eq {spans : List Span} {u : Span} (h : United spans u) :
    ∃ g ∈ spans, g.start = u.start := by
  obtain ⟨g, hg, hstart, -⟩ := h.exists_kind_eq
  exact ⟨g, hg, hstart⟩

/-- Some candidate ends where a section of known kind ends. -/
theorem exists_stop_eq_of_mem_spans {tokens : List Token} {s : Span} (hs : s ∈ spans tokens)
    (hkind : s.kind ≠ .unknown) : ∃ g ∈ all tokens, g.stop = s.stop := by
  have hunited := united_of_mem_spans hs hkind
  have hlt := (consecutive_spans tokens).start_lt_stop_of_mem hs
  rcases Nat.lt_or_ge s.start (s.stop - 1) with hlong | hshort
  · obtain ⟨g, hg, hstart, hstop⟩ := hunited.exists_cut (s.stop - 1) hlong (by omega)
    have hwithin := hunited.apart_or_within g hg
    exact ⟨g, hg, by omega⟩
  · obtain ⟨g, hg, hstart⟩ := hunited.exists_start_eq
    have hpos := (proposal_of_mem_all hg).start_lt_stop
    have hwithin := hunited.apart_or_within g hg
    exact ⟨g, hg, by omega⟩

/-! ### Cutting a span out -/

/-- A candidate begins a line. -/
theorem beginsLine_of_mem_all {tokens : List Token} (hlead : Lexer.DirectivesLead true tokens)
    {g : Span} (h : g ∈ all tokens) : beginsLine tokens g.start = true := by
  rcases start_of_mem_all h with
    ⟨-, t, ht, hkind⟩ | ⟨-, m, hm, heq⟩ | ⟨m, hm, heq⟩ | ⟨m, hm, heq, -⟩ | ⟨m, hm, heq⟩
  · exact (hlead.of_getElem? ht hkind).1
  · exact heq ▸ hm.beginsLine rfl
  · exact heq ▸ hm.beginsLine rfl
  · exact heq ▸ hm.beginsLine rfl
  · exact heq ▸ hm.beginsLine rfl

theorem cutOut_of_united {text : String} {s : Span} (h : s ∈ spans (Lexer.lex text))
    (hunited : United (all (Lexer.lex text)) s) : CutOut (Lexer.lex text) s.start s.stop := by
  have hconsecutive := consecutive_spans (Lexer.lex text)
  obtain ⟨g, hg, hstart⟩ := hunited.exists_start_eq
  exact {
    lt := hconsecutive.start_lt_stop_of_mem h
    le := hconsecutive.stop_le_of_mem h
    beginsLine := hstart ▸ beginsLine_of_mem_all (Lexer.directivesLead_lex text) hg
    numberSign := fun _ ht hkind => (Lexer.beginsLine_of_lex ht hkind).2
    apart_or_within := hunited.apart_or_within
    exists_first := ⟨g, hg, hstart⟩ }

theorem precedes_shift (a : Nat) (s t : Span) :
    precedes (s.shift a) (t.shift a) = precedes s t := by
  rw [Bool.eq_iff_iff]
  simp [precedes, Span.shift]

/-- What is united from candidates of the module is united from candidates of the part that is cut
out. -/
theorem united_slice {tokens : List Token} {a b : Nat} {kind : Section.Kind}
    (hcut : CutOut tokens a b) (h : United (all tokens) ⟨a, b, kind⟩) :
    United (all (slice tokens a b)) ⟨0, b - a, kind⟩ where
  apart_or_within s hs := by
    have hstop := (proposal_of_mem_all hs).stop_le
    rw [length_slice hcut.le] at hstop
    exact Or.inr (Or.inr ⟨Nat.zero_le _, hstop⟩)
  exists_cut x hx hxb := by
    simp only at hx hxb
    obtain ⟨s, hs, hsx, hxs⟩ := h.exists_cut (a + x) (by simp only; omega) (by simp only; omega)
    obtain ⟨hle, hstop⟩ : a ≤ s.start ∧ s.stop ≤ b := by
      have hcases := hcut.apart_or_within s hs
      omega
    obtain ⟨s, rfl⟩ := Span.exists_shift (s := s) hle (by omega)
    simp only [Span.shift] at hsx hxs hstop
    exact ⟨s, hcut.mem_all_slice hs hstop, by omega, by omega⟩
  kind_eq := by
    -- the candidates at the beginning are the same, and moving them keeps their order
    have hkind := h.kind_eq
    simp only at hkind ⊢
    rw [← hcut.filter_all_slice, ← List.map_mergeSort (r := precedes)
      (fun s _ t _ => (precedes_shift a s t).symm), List.head?_map, Option.map_map] at hkind
    exact hkind

/-- **The kind of a section is its own**: a section of known kind that is partitioned on its own is
one section, itself. -/
theorem sections_eq_singleton {text : String} {s : Section} (h : s ∈ sections (Lexer.lex text))
    (hkind : s.kind ≠ .unknown) : sections s.tokens = [s] := by
  obtain ⟨⟨a, b, kind⟩, hspan, rfl⟩ := List.mem_map.mp h
  have hunited := united_of_mem_spans hspan hkind
  have hcut := cutOut_of_united hspan hunited
  have hlength := length_slice (a := a) hcut.le
  have hone : unite (all (slice (Lexer.lex text) a b)) = [⟨0, b - a, kind⟩] := by
    refine (united_slice hcut hunited).unite_eq fun s hs => ?_
    have hproposal := proposal_of_mem_all hs
    rw [hlength] at hproposal
    exact ⟨hproposal.start_lt_stop, hproposal.stop_le⟩
  have hspans : spans (slice (Lexer.lex text) a b) = [⟨0, b - a, kind⟩] := by
    rw [spans, hone, hlength]
    simp [coverFrom, gap]
  have hwhole := slice_zero_length (slice (Lexer.lex text) a b)
  rw [hlength] at hwhole
  simp only [sections, Section.ofTokens, hspans, List.map_cons, List.map_nil, hwhole]

/-- A procedure with a conditional block in it, in a module whose first conditional block is never
closed. The module has no conditional block, but the procedure on its own has one. -/
def unclosedText : String :=
  "#If 1\nSub P\n#If 0\n#End If\nEnd Sub"

theorem sections_eq_singleton_unclosedText :
    let s := Section.ofTokens (slice (Lexer.lex unclosedText) 4 17) .procedure
    s ∈ sections (Lexer.lex unclosedText) ∧ s.kind ≠ .unknown ∧ sections s.tokens = [s] := by
  have hspan : ⟨4, 17, .procedure⟩ ∈ spans (Lexer.lex unclosedText) := by decide +kernel
  have hmem := List.mem_map_of_mem (f := fun s : Span =>
    Section.ofTokens (slice (Lexer.lex unclosedText) s.start s.stop) s.kind) hspan
  exact ⟨hmem, by decide, sections_eq_singleton hmem (by decide)⟩

end VbaModules.Partition

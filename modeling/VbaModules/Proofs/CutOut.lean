import VbaModules.Proofs.OpeningWords
import VbaModules.Proofs.SlicedCandidates

/-!
# Stretches that can be cut out of a module

Let a stretch of a module begin at the start of a line where some candidate starts, and let no
candidate straddle its ends (`CutOut`). Then the candidates of the module within the stretch are
candidates of the stretch (`CutOut.mem_all_slice`), and those of the stretch that start at its
beginning are those of the module that start there, in the same order (`CutOut.filter_all_slice`).

At the beginning of the stretch the searches keep out of each other's way. Where a directive opens a
block there, any candidate that starts there is a conditional block, and where a header stands
there, it is a procedure or type. So a block that is opened at the beginning of the stretch is one
of the module.
-/

namespace VbaModules.Candidate

open Token Text

/-! ### All searches -/

/-- The lines that declare an external procedure, an option or an attribute. -/
def declarationLines : List Token → List Span :=
  lineSpans declarationStart fun t =>
    some (declarationKind ((t.map fun t => foldCase t.text).getD ""))

/-- The lines that declare a variable. -/
def variableLines : List Token → List Span :=
  lineSpans variableStart fun t => if t.any canNameVariable then some .global else none

/-- The lines that declare a constant. -/
def constantLines : List Token → List Span :=
  lineSpans constantStart fun _ => some .global

/-- The searches that propose spans. -/
def searches : List (List Token → List Span) :=
  [conditionals, blocks, declarationLines, variableLines, constantLines]

theorem all_eq_flatMap (tokens : List Token) :
    all tokens = searches.flatMap fun find => find tokens := by
  rw [all, globals_eq_lineSpans, declarations_eq_lineSpans]
  simp [searches, declarationLines, variableLines, constantLines]

theorem pairwise_of_mem_searches {find : List Token → List Span} (h : find ∈ searches)
    (tokens : List Token) : (find tokens).Pairwise fun s t => s.start < t.start := by
  simp only [searches, List.mem_cons, List.not_mem_nil, or_false] at h
  rcases h with rfl | rfl | rfl | rfl | rfl
  · exact pairwise_conditionals tokens
  · exact pairwise_blocksFrom tokens 0
  · exact pairwise_lineSpans _ _ tokens
  · exact pairwise_lineSpans _ _ tokens
  · exact pairwise_lineSpans _ _ tokens

theorem exists_isMatch_of_mem_lineSpans {p : Pattern} (hstays : p.staysInLine = true)
    {kind? : Option Token → Option Section.Kind} {tokens : List Token} {g : Span}
    (h : g ∈ lineSpans p kind? tokens) :
    ∃ m, p.IsMatch true tokens m ∧ m.start = g.start ∧
      (kind? (lastToken? tokens m)).isSome = true := by
  obtain ⟨m, hmatch, hkind, hstart, -⟩ := (mem_lineSpans_iff hstays).mp h
  exact ⟨m, hmatch, hstart.symm, by rw [hkind, Option.isSome_some]⟩

/-- **What a candidate begins with**: a directive that opens a conditional block, a header, or the
first words of a declaration. -/
theorem start_of_mem_all {tokens : List Token} {g : Span} (h : g ∈ all tokens) :
    (g ∈ conditionals tokens ∧
        ∃ t, tokens[g.start]? = some t ∧ t.kind = .conditional .opening) ∨
      (g ∈ blocks tokens ∧ ∃ m, blockHeader.IsMatch true tokens m ∧ m.start = g.start) ∨
      (∃ m, declarationStart.IsMatch true tokens m ∧ m.start = g.start) ∨
      (∃ m, variableStart.IsMatch true tokens m ∧ m.start = g.start ∧
        (lastToken? tokens m).any canNameVariable = true) ∨
      ∃ m, constantStart.IsMatch true tokens m ∧ m.start = g.start := by
  rw [all, globals_eq_lineSpans, declarations_eq_lineSpans] at h
  simp only [List.mem_append] at h
  rcases h with ((hconditional | hblock) | hdeclaration) | hvariable | hconstant
  · refine Or.inl ⟨hconditional, ?_⟩
    obtain ⟨o, ho, -⟩ | ⟨i, t, hi, ht, hkind⟩ := start_of_mem_conditionalsFrom hconditional
    · cases ho
    · rw [Nat.zero_add] at hi
      exact ⟨t, hi ▸ ht, hkind⟩
  · exact Or.inr (Or.inl ⟨hblock, (start_of_mem_blocksFrom hblock).2⟩)
  · obtain ⟨m, hmatch, hstart, -⟩ := exists_isMatch_of_mem_lineSpans rfl hdeclaration
    exact Or.inr (Or.inr (Or.inl ⟨m, hmatch, hstart⟩))
  · obtain ⟨m, hmatch, hstart, hkind⟩ := exists_isMatch_of_mem_lineSpans rfl hvariable
    refine Or.inr (Or.inr (Or.inr (Or.inl ⟨m, hmatch, hstart, ?_⟩)))
    by_contra hnot
    rw [if_neg hnot] at hkind
    cases hkind
  · obtain ⟨m, hmatch, hstart, -⟩ := exists_isMatch_of_mem_lineSpans rfl hconstant
    exact Or.inr (Or.inr (Or.inr (Or.inr ⟨m, hmatch, hstart⟩)))

/-- No match of these patterns begins with a number sign, as directives do. -/
theorem avoidsNumberSign_of_mem {p : Pattern}
    (h : p ∈ [blockHeader, declarationStart, variableStart, constantStart]) :
    p.avoidsNumberSign = true := by
  have hall : [blockHeader, declarationStart, variableStart, constantStart].all
      Pattern.avoidsNumberSign = true := by decide
  exact List.all_eq_true.mp hall p h

/-- A candidate that begins with a directive is a conditional block. -/
theorem mem_conditionals_of_numberSign {tokens : List Token} {g : Span} (h : g ∈ all tokens)
    {t : Token} (ht : tokens[g.start]? = some t) (hsign : t.text.toList.head? = some '#') :
    g ∈ conditionals tokens := by
  have hnot : ∀ {p m}, p ∈ [blockHeader, declarationStart, variableStart, constantStart] →
      p.IsMatch true tokens m → m.start ≠ g.start :=
    fun hp hm heq => hm.head?_text_ne (avoidsNumberSign_of_mem hp) (heq ▸ ht) hsign
  rcases start_of_mem_all h with
    ⟨hg, -⟩ | ⟨-, m, hm, heq⟩ | ⟨m, hm, heq⟩ | ⟨m, hm, heq, -⟩ | ⟨m, hm, heq⟩
  · exact hg
  · exact absurd heq (hnot (by simp) hm)
  · exact absurd heq (hnot (by simp) hm)
  · exact absurd heq (hnot (by simp) hm)
  · exact absurd heq (hnot (by simp) hm)

/-- A candidate that begins with a header is a procedure or type. -/
theorem mem_blocks_of_header {tokens : List Token} {g : Span} (h : g ∈ all tokens)
    {header : Match} (hheader : blockHeader.IsMatch true tokens header)
    (hstart : header.start = g.start)
    (hsign : ∀ t, tokens[g.start]? = some t → t.kind = .conditional .opening →
      t.text.toList.head? = some '#') : g ∈ blocks tokens := by
  rcases start_of_mem_all h with
    ⟨-, t, ht, hkind⟩ | ⟨hg, -⟩ | ⟨m, hm, heq⟩ | ⟨m, hm, heq, hlast⟩ | ⟨m, hm, heq⟩
  · exact absurd (hsign t ht hkind)
      (hheader.head?_text_ne (avoidsNumberSign_of_mem (by simp)) (hstart ▸ ht))
  · exact hg
  · exact absurd (hstart.trans heq.symm)
      (hheader.start_ne hm rfl rfl excludes_declarationStart)
  · rw [any_canNameVariable_eq_false hheader hm (hstart.trans heq.symm)] at hlast
    cases hlast
  · exact absurd (hstart.trans heq.symm) (hheader.start_ne hm rfl rfl excludes_constantStart)

/-! ### Stretches that can be cut out -/

/-- A stretch of a module that can be **cut out**: it begins at the start of a line with a
candidate, and no candidate straddles its ends. A directive at its beginning is told from words by
its number sign. -/
structure CutOut (tokens : List Token) (a b : Nat) : Prop where
  lt : a < b
  le : b ≤ tokens.length
  beginsLine : beginsLine tokens a = true
  numberSign : ∀ t, tokens[a]? = some t → t.kind = .conditional .opening →
    t.text.toList.head? = some '#'
  apart_or_within : ∀ s ∈ all tokens, s.stop ≤ a ∨ b ≤ s.start ∨ a ≤ s.start ∧ s.stop ≤ b
  exists_first : ∃ g ∈ all tokens, g.start = a

namespace CutOut

variable {tokens : List Token} {a b : Nat}

theorem stop_le (h : CutOut tokens a b) {s : Span} (hs : s ∈ all tokens) (hle : a ≤ s.start)
    (hlt : s.start < b) : s.stop ≤ b := by
  have hpos := (proposal_of_mem_all hs).start_lt_stop
  have hcases := h.apart_or_within s hs
  omega

theorem stop_le_start (h : CutOut tokens a b) {s : Span} (hs : s ∈ all tokens)
    (hlt : s.start < a) : s.stop ≤ a := by
  have hab := h.lt
  have hcases := h.apart_or_within s hs
  omega

theorem mem_all_of_mem_searches {find : List Token → List Span} (hfind : find ∈ searches) {s : Span}
    (hs : s ∈ find tokens) : s ∈ all tokens := by
  rw [all_eq_flatMap]
  exact List.mem_flatMap.mpr ⟨find, hfind, hs⟩

/-- Every search finds alike in a module and in a stretch that can be cut out of it. -/
theorem findsAlike (h : CutOut tokens a b) {find : List Token → List Span}
    (hfind : find ∈ searches) : FindsAlike find tokens a b := by
  have hmem : ∀ s ∈ find tokens, s ∈ all tokens := fun s => mem_all_of_mem_searches hfind
  have hwithin : ∀ s ∈ find tokens, a ≤ s.start → s.start < b → s.stop ≤ b :=
    fun s hs => h.stop_le (hmem s hs)
  have hapart : ∀ s ∈ find tokens, s.start < a → s.stop ≤ a :=
    fun s hs => h.stop_le_start (hmem s hs)
  obtain ⟨g, hg, hstart⟩ := h.exists_first
  have hstop : g.stop ≤ b := h.stop_le hg hstart.ge (hstart.trans_lt h.lt)
  simp only [searches, List.mem_cons, List.not_mem_nil, or_false] at hfind
  rcases hfind with rfl | rfl | rfl | rfl | rfl
  · refine findsAlike_conditionals h.lt.le h.le hapart fun t ht hkind => ?_
    exact ⟨g, mem_conditionals_of_numberSign hg (hstart ▸ ht) (h.numberSign t ht hkind), hstart,
      hstop⟩
  · refine findsAlike_blocks h.beginsLine hapart fun header hheader heq => ?_
    exact ⟨g, mem_blocks_of_header hg hheader (heq.trans hstart.symm) (hstart ▸ h.numberSign),
      hstart, hstop⟩
  · exact findsAlike_lineSpans rfl rfl h.beginsLine h.le hwithin
  · exact findsAlike_lineSpans rfl rfl h.beginsLine h.le hwithin
  · exact findsAlike_lineSpans rfl rfl h.beginsLine h.le hwithin

/-- A candidate of the module within the stretch is a candidate of the stretch. -/
theorem mem_all_slice (h : CutOut tokens a b) {s : Span} (hs : s.shift a ∈ all tokens)
    (hstop : a + s.stop ≤ b) : s ∈ all (slice tokens a b) := by
  rw [all_eq_flatMap] at hs ⊢
  obtain ⟨find, hfind, hs⟩ := List.mem_flatMap.mp hs
  exact List.mem_flatMap.mpr ⟨find, hfind, (h.findsAlike hfind).found s hs hstop⟩

/-- What one search finds at the beginning of the stretch it finds there in the module. -/
theorem filter_find_slice (h : CutOut tokens a b) {find : List Token → List Span}
    (hfind : find ∈ searches) :
    ((find (slice tokens a b)).filter (·.start == 0)).map (Span.shift a) =
      (find tokens).filter (·.start == a) := by
  have halike := h.findsAlike hfind
  have hpairwise := pairwise_of_mem_searches hfind
  refine eq_of_mem_iff_of_pairwise ?_ ((hpairwise tokens).filter _) fun s => ?_
  · refine List.pairwise_map.mpr (((hpairwise _).filter _).imp fun hlt => ?_)
    exact Nat.add_lt_add_left hlt a
  · simp only [List.mem_map, List.mem_filter, beq_iff_eq]
    constructor
    · rintro ⟨s, ⟨hs, hzero⟩, rfl⟩
      refine ⟨halike.first s hs hzero, ?_⟩
      rw [Span.shift, hzero, Nat.add_zero]
    · rintro ⟨hs, hstart⟩
      have hmem := mem_all_of_mem_searches hfind hs
      have hlt := (proposal_of_mem_all hmem).start_lt_stop
      have hstop := h.stop_le hmem hstart.ge (hstart.trans_lt h.lt)
      obtain ⟨s, rfl⟩ := Span.exists_shift (s := s) hstart.ge (by omega)
      simp only [Span.shift] at hstart hstop
      exact ⟨s, ⟨halike.found s hs hstop, by omega⟩, rfl⟩

/-- **The candidates at the beginning of the stretch** are those that the module has there, in the
same order. -/
theorem filter_all_slice (h : CutOut tokens a b) :
    ((all (slice tokens a b)).filter (·.start == 0)).map (Span.shift a) =
      (all tokens).filter (·.start == a) := by
  rw [all_eq_flatMap, all_eq_flatMap, List.filter_flatMap, List.filter_flatMap, List.map_flatMap]
  exact List.flatMap_congr fun find hfind => h.filter_find_slice hfind

end CutOut

end VbaModules.Candidate

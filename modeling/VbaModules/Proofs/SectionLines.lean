import VbaModules.Proofs.AliasClauses
import VbaModules.Proofs.Conservation
import VbaModules.Proofs.IntrinsicKinds

/-!
# Sections begin lines, and some are lines

A section of known kind begins with the first code of a line. If it is an attribute, an option, an
external declaration, a variable or a constant, then it is this line and nothing else
(`spans_begin_lines`).

Uniting candidates could make more of a line, or less. It does not, since the searches keep to the
lines of a module. Every candidate begins a line, so none begins within another line. And what
begins where a line was proposed is this line: a conditional block begins with a directive, which
is no word, and the headers of procedures and types exclude the first words of the lines
(`stop_eq_of_isLine`).
-/

namespace VbaModules

open Token Candidate

/-! ### Lines -/

/-- Positions of one line have the same end of line. -/
theorem lineEnd_eq_of_forall {tokens : List Token} {i j : Nat} (hij : i ≤ j)
    (hj : j ≤ tokens.length)
    (h : ∀ k t, i ≤ k → k < j → tokens[k]? = some t → t.isLineBreak = false) :
    lineEnd tokens j = lineEnd tokens i := by
  induction j, hij using Nat.le_induction with
  | base => rfl
  | succ j hij ih =>
    have hbreak := h j _ hij (Nat.lt_succ_self j) (List.getElem?_eq_getElem hj)
    rw [← ih (by omega) fun k t hk hkj => h k t hk (by omega), lineEnd, lineEnd,
      List.drop_eq_getElem_cons hj, List.findIdx?_cons, hbreak]
    cases (tokens.drop (j + 1)).findIdx? isLineBreak with
    | none => rfl
    | some offset =>
      simp only [Bool.false_eq_true, if_false, Option.map_some]
      omega

theorem Pattern.IsMatch.lineEnd_stop {p : Pattern} {tokens : List Token} {m : Match}
    (h : p.IsMatch true tokens m) (hstays : p.staysInLine = true) :
    lineEnd tokens m.stop = lineEnd tokens m.start :=
  lineEnd_eq_of_forall h.start_lt_stop.le h.stop_le fun _ _ hk hkm ht =>
    h.isLineBreak_eq_false hstays hk hkm ht

/-! ### Candidates -/

/-- The kinds of sections that are lines. -/
def Section.Kind.ofLines : List Section.Kind :=
  [.attributeLine, .optionLine, .declaration, .global]

section Candidates

variable {tokens : List Token} {g : Span}

/-- A candidate is a conditional block, a procedure or type, or a line. -/
theorem mem_all_cases (h : g ∈ all tokens) :
    g ∈ conditionals tokens ∨ g ∈ blocks tokens ∨
      ∃ p m, p ∈ [declarationStart, variableStart, constantStart] ∧ p.IsMatch true tokens m ∧
        g.start = m.start ∧ g.stop = lineEnd tokens m.stop := by
  rw [all_eq_flatMap, List.mem_flatMap] at h
  obtain ⟨find, hfind, hg⟩ := h
  simp only [searches, List.mem_cons, List.not_mem_nil, or_false] at hfind
  rcases hfind with rfl | rfl | rfl | rfl | rfl
  · exact .inl hg
  · exact .inr (.inl hg)
  · obtain ⟨m, hm, -, hstart, hstop⟩ := (mem_lineSpans_iff rfl).mp hg
    exact .inr (.inr ⟨_, m, by simp, hm, hstart, hstop⟩)
  · obtain ⟨m, hm, -, hstart, hstop⟩ := (mem_lineSpans_iff rfl).mp hg
    exact .inr (.inr ⟨_, m, by simp, hm, hstart, hstop⟩)
  · obtain ⟨m, hm, -, hstart, hstop⟩ := (mem_lineSpans_iff rfl).mp hg
    exact .inr (.inr ⟨_, m, by simp, hm, hstart, hstop⟩)

theorem staysInLine_of_mem {p : Pattern}
    (h : p ∈ [declarationStart, variableStart, constantStart]) : p.staysInLine = true := by
  have hall : [declarationStart, variableStart, constantStart].all Pattern.staysInLine = true := by
    decide
  exact List.all_eq_true.mp hall p h

/-- A candidate does not begin with a blank. -/
theorem exists_first_of_mem_all (h : g ∈ all tokens) :
    ∃ t, tokens[g.start]? = some t ∧ t.isBlank = false := by
  rcases start_of_mem_all h with
    ⟨-, t, ht, hkind⟩ | ⟨-, m, hm, heq⟩ | ⟨m, hm, heq⟩ | ⟨m, hm, heq, -⟩ | ⟨m, hm, heq⟩
  · exact ⟨t, ht, by simp [isBlank, hkind]⟩
  · exact heq ▸ hm.exists_first
  · exact heq ▸ hm.exists_first
  · exact heq ▸ hm.exists_first
  · exact heq ▸ hm.exists_first

theorem kind_of_mem_conditionalsFrom {position : Nat} {opened : Option (Nat × Nat)}
    {ts : List Token} (h : g ∈ (conditionalsFrom position opened ts).1) :
    g.kind = .conditional := by
  induction ts generalizing position opened with
  | nil => cases h
  | cons t ts ih =>
    rw [conditionalsFrom_cons, List.mem_append] at h
    rcases h with hhere | hrest
    · rcases conditionalStep_cases position opened t with
        ⟨-, hstep⟩ | ⟨-, -, hstep⟩ | ⟨start, inner, -, ⟨inner', hstep⟩ | hstep⟩
      · simp [hstep] at hhere
      · simp [hstep] at hhere
      · simp [hstep] at hhere
      · rw [hstep] at hhere
        rw [List.mem_singleton.mp hhere]
    · exact ih hrest

theorem exists_kind_of_mem_blocksFrom {position : Nat} (h : g ∈ blocksFrom tokens position) :
    ∃ keyword, g.kind = blockKind keyword := by
  fun_induction blocksFrom tokens position with
  | case1 => cases h
  | case2 => cases h
  | case3 position header hheader keyword closer hcloser ih =>
    rcases List.mem_cons.mp h with rfl | hrest
    · exact ⟨keyword, rfl⟩
    · exact ih hrest

theorem blockKind_not_mem_ofLines (keyword : String) :
    blockKind keyword ∉ Section.Kind.ofLines := by
  rw [blockKind]
  split
  · decide
  · split <;> decide

/-- A candidate that is a line is neither a conditional block nor a procedure or type. -/
theorem not_mem_of_isLine (tokens : List Token) (hkind : g.kind ∈ Section.Kind.ofLines) :
    g ∉ conditionals tokens ∧ g ∉ blocks tokens := by
  refine ⟨fun hg => ?_, fun hg => ?_⟩
  · rw [kind_of_mem_conditionalsFrom hg] at hkind
    exact absurd hkind (by decide)
  · obtain ⟨keyword, hblock⟩ := exists_kind_of_mem_blocksFrom hg
    exact blockKind_not_mem_ofLines keyword (hblock ▸ hkind)

/-- A candidate that is a line is found by its first words. -/
theorem exists_isMatch_of_isLine (h : g ∈ all tokens) (hkind : g.kind ∈ Section.Kind.ofLines) :
    ∃ (p : Pattern) (m : Match), p.staysInLine = true ∧ p.IsMatch true tokens m ∧
      g.start = m.start ∧ g.stop = lineEnd tokens m.stop := by
  obtain ⟨hconditional, hblock⟩ := not_mem_of_isLine tokens hkind
  obtain ⟨p, m, hp, hm⟩ := ((mem_all_cases h).resolve_left hconditional).resolve_left hblock
  exact ⟨p, m, staysInLine_of_mem hp, hm⟩

variable (hlead : Lexer.DirectivesLead true tokens)
include hlead

/-- Where a line was proposed, neither a conditional block nor a procedure or type begins. -/
theorem not_mem_of_start_eq (hg : g ∈ all tokens) (hkind : g.kind ∈ Section.Kind.ofLines) {c : Span}
    (hstart : c.start = g.start) : c ∉ conditionals tokens ∧ c ∉ blocks tokens := by
  obtain ⟨hconditional, hblock⟩ := not_mem_of_isLine tokens hkind
  have hsign : ∀ t, tokens[g.start]? = some t → t.kind = .conditional .opening →
      t.text.toList.head? = some '#' := fun t ht hopening => (hlead.of_getElem? ht hopening).2
  refine ⟨fun hc => ?_, fun hc => ?_⟩
  · -- the line would begin with a directive
    obtain ⟨o, ho, -⟩ | ⟨i, t, hi, ht, hopening⟩ := start_of_mem_conditionalsFrom hc
    · cases ho
    · rw [Nat.zero_add] at hi
      rw [← hi, hstart] at ht
      exact hconditional (mem_conditionals_of_numberSign hg ht (hsign t ht hopening))
  · -- the line would begin with a header
    obtain ⟨-, header, hheader, heq⟩ := start_of_mem_blocksFrom hc
    exact hblock (mem_blocks_of_header hg hheader (heq.trans hstart) hsign)

/-- **What begins where a line was proposed is this line.** -/
theorem stop_eq_of_isLine (hg : g ∈ all tokens) (hkind : g.kind ∈ Section.Kind.ofLines) {c : Span}
    (hc : c ∈ all tokens) (hstart : c.start = g.start) : c.stop = lineEnd tokens g.start := by
  obtain ⟨hconditional, hblock⟩ := not_mem_of_start_eq hlead hg hkind hstart
  obtain ⟨p, m, hp, hm, hmstart, hmstop⟩ :=
    ((mem_all_cases hc).resolve_left hconditional).resolve_left hblock
  rw [hmstop, hm.lineEnd_stop (staysInLine_of_mem hp), ← hmstart, hstart]

end Candidates

/-! ### Sections -/

namespace Partition

section Sections

variable {tokens : List Token} {s : Span}

/-- **A section of the kind of a line is the line.** -/
theorem United.stop_eq_lineEnd (hlead : Lexer.DirectivesLead true tokens)
    (hs : United (all tokens) s) (hlt : s.start < s.stop)
    (hkind : s.kind ∈ Section.Kind.ofLines) : s.stop = lineEnd tokens s.start := by
  obtain ⟨g, hg, hstart, hgkind⟩ := hs.exists_kind_eq
  rw [← hgkind] at hkind
  obtain ⟨p, m, hstays, hm, hmstart, hmstop⟩ := exists_isMatch_of_isLine hg hkind
  have hline : g.stop = lineEnd tokens g.start := stop_eq_of_isLine hlead hg hkind hg rfl
  rw [← hstart, ← hline]
  have hpos := (proposal_of_mem_all hg).start_lt_stop
  have hwithin := hs.apart_or_within g hg
  by_contra hne
  -- a candidate that goes on beyond the line would begin within it
  obtain ⟨c, hc, hcstart, hcstop⟩ := hs.exists_cut g.stop (by omega) (by omega)
  have hcwithin := hs.apart_or_within c hc
  rcases Nat.lt_or_ge g.start c.start with hlater | hsame
  · have hend := hm.lineEnd_le_of_beginsLine hstays (by omega) (beginsLine_of_mem_all hlead hc)
    omega
  · have hend := stop_eq_of_isLine hlead hg hkind hc (by omega)
    omega

end Sections

/-- **Sections begin lines, and some are lines.** A section of known kind begins with the first
token of a line that is not blank. If it is an attribute, an option, an external declaration, a
variable or a constant, it ends where this line ends, and no token of it but the last is a line
break. -/
theorem spans_begin_lines {text : String} {s : Span} (h : s ∈ spans (Lexer.lex text))
    (hkind : s.kind ≠ .unknown) :
    beginsLine (Lexer.lex text) s.start = true ∧
      (∃ t, (Lexer.lex text)[s.start]? = some t ∧ t.isBlank = false) ∧
      (s.kind ∈ Section.Kind.ofLines →
        s.stop = lineEnd (Lexer.lex text) s.start ∧
          ∀ i t, s.start ≤ i → i + 1 < s.stop → (Lexer.lex text)[i]? = some t →
            t.isLineBreak = false) := by
  have hlead := Lexer.directivesLead_lex text
  have hunited := united_of_mem_spans h hkind
  obtain ⟨g, hg, hstart⟩ := hunited.exists_start_eq
  refine ⟨hstart ▸ beginsLine_of_mem_all hlead hg, hstart ▸ exists_first_of_mem_all hg,
    fun hline => ?_⟩
  have hlt := (consecutive_spans (Lexer.lex text)).start_lt_stop_of_mem h
  have hstop := hunited.stop_eq_lineEnd hlead hlt hline
  refine ⟨hstop, fun i t hi hlast ht => ?_⟩
  rw [hstop] at hlast
  exact isLineBreak_eq_false_of_lt_lineEnd hi hlast ht

/-- An attribute line after a stray directive, which is a section of its own. -/
theorem spans_begin_lines_constantTexts :
    let tokens := Lexer.lex "#Const Wide = 1\nAttribute VB_Name = \"Grid\"\n"
    ⟨9, 19, .attributeLine⟩ ∈ spans tokens ∧ beginsLine tokens 9 = true ∧
      19 = lineEnd tokens 9 := by
  obtain ⟨hread, -, -, hall⟩ := Assembly.reading_constantTexts
  have hlex : Lexer.lex "#Const Wide = 1\nAttribute VB_Name = \"Grid\"\n" =
      Assembly.constantLine ++ namingLine "Grid" := by
    simpa [Assembly.constantTexts] using hread
  have hmem : ⟨9, 19, .attributeLine⟩ ∈
      spans (Lexer.lex "#Const Wide = 1\nAttribute VB_Name = \"Grid\"\n") := by
    rw [hlex, spans_eq_coverFrom_absorb hall (by decide)]
    decide
  obtain ⟨hline, -, hlines⟩ := spans_begin_lines hmem (by decide)
  exact ⟨hmem, hline, (hlines (by decide)).1⟩

end Partition

end VbaModules

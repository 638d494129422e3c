import VbaModules.Proofs.Lexemes

/-!
# Directives begin lines

A number sign is read as a directive only where nothing but blanks stands before it in its line. So
every directive of a module begins a line in the sense in which the searches look for lines, and its
text begins with the number sign (`beginsLine_of_lex`).
-/

namespace VbaModules.Lexer

open Token

/-- **Directives lead their lines**: each begins a line, and its text begins with a number sign.
Here `atStart` tells whether the tokens themselves begin a line. -/
def DirectivesLead : Bool → List Token → Prop
  | _, [] => True
  | atStart, t :: ts =>
    (∀ d, t.kind = .conditional d → atStart = true ∧ t.text.toList.head? = some '#') ∧
      DirectivesLead (lineStartAfter atStart t) ts

theorem DirectivesLead.cons_of_kind {atStart : Bool} {t : Token} {ts : List Token}
    (hkind : ∀ d, t.kind ≠ .conditional d)
    (hrest : DirectivesLead (lineStartAfter atStart t) ts) : DirectivesLead atStart (t :: ts) :=
  ⟨fun d hd => absurd hd (hkind d), hrest⟩

theorem DirectivesLead.of_getElem? {atStart : Bool} {ts : List Token}
    (h : DirectivesLead atStart ts) {i : Nat} {t : Token} (ht : ts[i]? = some t) {d : Directive}
    (hkind : t.kind = .conditional d) :
    (ts.take i).foldl lineStartAfter atStart = true ∧ t.text.toList.head? = some '#' := by
  induction ts generalizing atStart i with
  | nil => simp at ht
  | cons u us ih =>
    cases i with
    | zero =>
      obtain rfl : u = t := by simpa using ht
      exact h.1 d hkind
    | succ i => exact ih h.2 ht

theorem DirectivesLead.of_append {atStart : Bool} {ts us : List Token}
    (h : DirectivesLead atStart (ts ++ us)) :
    DirectivesLead atStart ts ∧ DirectivesLead (ts.foldl lineStartAfter atStart) us := by
  induction ts generalizing atStart with
  | nil => exact ⟨trivial, h⟩
  | cons t ts ih => exact ⟨⟨h.1, (ih h.2).1⟩, (ih h.2).2⟩

/-- In a part of the tokens that begins with a line, directives lead their lines too. -/
theorem DirectivesLead.slice {tokens : List Token} (h : DirectivesLead true tokens) {a : Nat}
    (hline : beginsLine tokens a = true) (b : Nat) : DirectivesLead true (slice tokens a b) := by
  rw [← List.take_append_drop a tokens] at h
  have hrest := h.of_append.2
  rw [show (tokens.take a).foldl lineStartAfter true = true from hline,
    ← List.take_append_drop (b - a) (tokens.drop a)] at hrest
  rw [Token.slice, List.drop_take]
  exact hrest.of_append.1

/-! ### The lexer -/

/-- The lexer knows the start of a line as the searches do. -/
theorem LineState.atStart_after (state : LineState) (t : Token) :
    (state.after t).atStart = lineStartAfter state.atStart t := by
  obtain ⟨kind, text⟩ := t
  cases kind <;> rfl

theorem Lexeme.atStart_of_directive {state : LineState} {d : Directive} {text rest : List Char}
    (h : Lexeme state (.conditional d) text rest) :
    state.atStart = true ∧ text.head? = some '#' := by
  generalize hkind : Token.Kind.conditional d = kind at h
  cases h with
  | directive hstate _ _ => exact ⟨hstate, rfl⟩
  | word hcs _ _ => exact absurd hkind (wordKind_ne (by simp) (by simp) _)
  | _ => cases hkind

theorem Cuts.directivesLead {state : LineState} {ts : List Token} (h : Cuts state ts) :
    DirectivesLead state.atStart ts := by
  induction h with
  | nil => trivial
  | @cons state t ts hlexeme _ ih =>
    rw [LineState.atStart_after] at ih
    refine ⟨fun d hd => ?_, ih⟩
    rw [hd] at hlexeme
    exact hlexeme.atStart_of_directive

/-- A literal that is taken apart is within a line, and so are its parts. -/
theorem directivesLead_splitNames (due : Nat) {atStart : Bool} {ts : List Token}
    (h : DirectivesLead atStart ts) : DirectivesLead atStart (splitNames due ts) := by
  fun_induction splitNames due ts generalizing atStart with
  | case1 => exact h
  | case2 due t ts hbreak ih => exact ⟨h.1, ih h.2⟩
  | case3 due t ts hbreak hstring name hname ih =>
    have hinside : lineStartAfter atStart t = false := by
      rw [lineStartAfter, isBlank, isLineBreak, kind_eq_string_of_due hstring]
      rfl
    have hrest := ih h.2
    rw [hinside] at hrest
    exact .cons_of_kind (by simp [quoteToken]) <| .cons_of_kind (by simp) <|
      .cons_of_kind (by simp [quoteToken]) hrest
  | case4 due t ts hbreak hstring hname ih => exact ⟨h.1, ih h.2⟩
  | case5 due t ts hbreak hstring hline ih => exact ⟨h.1, ih h.2⟩
  | case6 due t ts hbreak hstring hline ih => exact ⟨h.1, ih h.2⟩

theorem directivesLead_scanModule (cs : List Char) : DirectivesLead true (scanModule cs) := by
  unfold scanModule
  split
  next cs => exact .cons_of_kind (by simp [markToken]) (cuts_scan .start cs).directivesLead
  next => exact (cuts_scan .start cs).directivesLead

theorem directivesLead_lex (text : String) : DirectivesLead true (lex text) := by
  rw [lex_eq_splitNames]
  exact directivesLead_splitNames 0 (directivesLead_scanModule text.toList)

/-- **Every directive of a module begins a line**, and begins with a number sign. -/
theorem beginsLine_of_lex {text : String} {i : Nat} {t : Token} (ht : (lex text)[i]? = some t)
    {d : Directive} (hkind : t.kind = .conditional d) :
    beginsLine (lex text) i = true ∧ t.text.toList.head? = some '#' :=
  (directivesLead_lex text).of_getElem? ht hkind

end VbaModules.Lexer

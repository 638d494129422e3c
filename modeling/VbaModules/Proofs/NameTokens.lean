import VbaModules.Proofs.LineEndings
import VbaModules.Proofs.References

/-!
# Name tokens

A name token of a module comes about in one of two ways. Either the lexer has read an identifier
that is not a keyword, or the name was taken out of the literal of a naming line; then it stands
right after a quote and may be any text that can stand in a literal (`nameToken_of_lex`). So a name
token that does not follow a quote is a free word, and no name token has a line break in it.
-/

namespace VbaModules.Lexer

open Exports

/-! ### Free words and texts of literals -/

/-- Whether a text is read as a name: it is an identifier and not a keyword. -/
def isFreeWord (word : String) : Bool :=
  isIdentifier word.toList && !Keyword.contains word

/-- A text that **fits into a literal**: it is not empty, and between two quotes it is one string
literal for the lexer. The second quote need not close the literal, since it may be half of a pair.
-/
structure FitsLiteral (name : String) : Prop where
  ne_empty : name ≠ ""
  exists_literalTail : ∃ isClosed, LiteralTail isClosed (name.toList ++ ['"'])

theorem isFreeWord_iff {word : String} :
    isFreeWord word = true ↔ isIdentifier word.toList = true ∧ Keyword.contains word = false := by
  rw [isFreeWord, Bool.and_eq_true, Bool.not_eq_true']

theorem FitsLiteral.of_isFreeWord {name : String} (h : isFreeWord name = true) :
    FitsLiteral name := by
  have hidentifier := (isFreeWord_iff.mp h).1
  refine ⟨?_, true, literalTail_of_isIdentifier hidentifier⟩
  rintro rfl
  cases hidentifier

theorem FitsLiteral.isBreakChar_eq_false {name : String} (h : FitsLiteral name) :
    ∀ c ∈ name.toList, isBreakChar c = false := by
  obtain ⟨isClosed, htail⟩ := h.exists_literalTail
  exact fun c hc => htail.isBreakChar_eq_false c (List.mem_append_left _ hc)

/-! ### What is scanned -/

/-- What every scanned token satisfies: a name is a **free word**, and a string literal has some
**tail of a literal** after its quote. -/
structure WellRead (t : Token) : Prop where
  isFreeWord : t.kind = .name → isFreeWord t.text = true
  literal : t.kind = .string → ∃ isClosed cs, t.text.toList = '"' :: cs ∧ LiteralTail isClosed cs

theorem wellRead_of_kind {t : Token} (hname : t.kind ≠ .name) (hstring : t.kind ≠ .string) :
    WellRead t :=
  ⟨fun h => absurd h hname, fun h => absurd h hstring⟩

theorem Lexeme.exists_literalTail_of_string {state : LineState} {text rest : List Char}
    (h : Lexeme state .string text rest) :
    ∃ isClosed cs, text = '"' :: cs ∧ LiteralTail isClosed cs := by
  generalize hkind : Token.Kind.string = kind at h
  cases h with
  | literal hcs _ => exact ⟨_, _, rfl, hcs⟩
  | word => exact absurd hkind (wordKind_ne (by simp) (by simp) _)
  | _ => cases hkind

theorem Lexeme.isFreeWord_of_name {state : LineState} {word : String} {rest : List Char}
    (h : Lexeme state .name word.toList rest) : isFreeWord word = true := by
  refine isFreeWord_iff.mpr ⟨h.isIdentifier_of_name.1, ?_⟩
  generalize hkind : Token.Kind.name = kind at h
  generalize hword : word.toList = cs at h
  cases h with
  | word =>
    rw [wordKind, ← hword, String.ofList_toList] at hkind
    by_contra hcontains
    rw [Bool.not_eq_false] at hcontains
    rw [if_pos hcontains] at hkind
    cases hkind
  | _ => cases hkind

theorem wellRead_of_mem_scanModule {cs : List Char} {t : Token} (h : t ∈ scanModule cs) :
    WellRead t := by
  rcases exists_lexeme_of_mem_scanModule h with rfl | ⟨state, rest, hlexeme⟩
  · exact wellRead_of_kind (by simp [markToken]) (by simp [markToken])
  · refine ⟨fun hname => ?_, fun hstring => ?_⟩
    · rw [hname] at hlexeme
      exact hlexeme.isFreeWord_of_name
    · rw [hstring] at hlexeme
      exact hlexeme.exists_literalTail_of_string

/-- The name out of a literal fits into a literal again. -/
theorem WellRead.fitsLiteral {t : Token} {name : String} (h : WellRead t) (hkind : t.kind = .string)
    (hname : unquoted? t.text = some name) : FitsLiteral name := by
  obtain ⟨hne, c, htext⟩ := unquoted?_eq_some hname
  obtain ⟨isClosed, cs, hcs, htail⟩ := h.literal hkind
  rw [htext, List.cons_append] at hcs
  obtain ⟨-, rfl⟩ := List.cons.inj hcs
  exact ⟨hne, isClosed, htail⟩

/-! ### Where name tokens stand -/

/-- A name token **stands free or after a quote**: it is a free word, or the token before it is a
quote and it fits into a literal. -/
def NameStands (previous t : Token) : Prop :=
  t.kind = .name → isFreeWord t.text = true ∨ previous = quoteToken ∧ FitsLiteral t.text

theorem nameStands_of_kind {previous t : Token} (h : t.kind ≠ .name) : NameStands previous t :=
  fun hname => absurd hname h

/-- Taking a literal apart puts its name after a quote, and all other tokens stay as scanned. -/
theorem isChain_splitNames (due : Nat) {ts : List Token} (h : ∀ t ∈ ts, WellRead t)
    (previous : Token) : (previous :: splitNames due ts).IsChain NameStands := by
  have hscanned : ∀ {previous t : Token}, WellRead t → NameStands previous t :=
    fun ht hname => .inl (ht.isFreeWord hname)
  fun_induction splitNames due ts generalizing previous with
  | case1 => exact .singleton _
  | case2 due t ts hbreak ih =>
    obtain ⟨ht, hts⟩ := List.forall_mem_cons.mp h
    exact .cons_cons (hscanned ht) (ih hts t)
  | case3 due t ts hbreak hstring name hname ih =>
    obtain ⟨ht, hts⟩ := List.forall_mem_cons.mp h
    have hfits := ht.fitsLiteral (kind_eq_string_of_due hstring) hname
    exact .cons_cons (nameStands_of_kind (by simp [quoteToken])) <|
      .cons_cons (fun _ => .inr ⟨rfl, hfits⟩) <|
      .cons_cons (nameStands_of_kind (by simp [quoteToken])) (ih hts quoteToken)
  | case4 due t ts hbreak hstring hname ih =>
    obtain ⟨ht, hts⟩ := List.forall_mem_cons.mp h
    exact .cons_cons (hscanned ht) (ih hts t)
  | case5 due t ts hbreak hstring hline ih =>
    obtain ⟨ht, hts⟩ := List.forall_mem_cons.mp h
    exact .cons_cons (hscanned ht) (ih hts t)
  | case6 due t ts hbreak hstring hline ih =>
    obtain ⟨ht, hts⟩ := List.forall_mem_cons.mp h
    exact .cons_cons (hscanned ht) (ih hts t)

/-- **Every name token of a module** is a free word, or it follows a quote and fits into a literal.
-/
theorem nameToken_of_lex {text : String} {i : Nat} {t : Token} (ht : (lex text)[i]? = some t)
    (hkind : t.kind = .name) :
    isFreeWord t.text = true ∨ previous? (lex text) i = some quoteToken ∧ FitsLiteral t.text := by
  -- a line break before the first token changes nothing, for no name follows it as it would a quote
  have hchain : (⟨.lineBreak, "\n"⟩ :: lex text).IsChain NameStands := by
    rw [lex_eq_splitNames]
    exact isChain_splitNames 0 (fun t => wellRead_of_mem_scanModule) _
  obtain ⟨hlt, rfl⟩ := List.getElem?_eq_some_iff.mp ht
  have hstands := hchain.getElem i (by simpa using hlt)
  rcases hstands hkind with hfree | ⟨hquote, hfits⟩
  · exact .inl hfree
  · cases i with
    | zero => cases hquote
    | succ i => exact .inr ⟨List.getElem?_eq_some_iff.mpr ⟨_, hquote⟩, hfits⟩

theorem fitsLiteral_of_mem_lex {text : String} {t : Token} (ht : t ∈ lex text)
    (hkind : t.kind = .name) : FitsLiteral t.text := by
  obtain ⟨i, hi⟩ := List.mem_iff_getElem?.mp ht
  rcases nameToken_of_lex hi hkind with hfree | ⟨-, hfits⟩
  · exact .of_isFreeWord hfree
  · exact hfits

end VbaModules.Lexer

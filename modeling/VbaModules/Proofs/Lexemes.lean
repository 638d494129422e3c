import Mathlib.Data.Option.Defs
import VbaModules.Proofs.Readers

/-!
# The lexemes of a module

The lexer decides how far the next token reaches by looking at the characters ahead. Here its
rules are told the other way round: which texts are cut off as a token of some kind, and what may
stand after such a text so that it is cut off there and nowhere else (`Lexeme`). For most rules the
second part is a condition on the very next character; only after blanks, a number sign and an
ampersand does the lexer look further.

The rules are exact. A row of tokens is what scanning gives exactly if each token is a lexeme in
front of the texts of those after it (`Cuts`, `scan_charsOf_eq_iff`), so facts about scanning need
no longer go through the lengths that the lexer computes. What follows a lexeme may be exchanged for
another text that the rules cannot tell from it (`Lexeme.of_standsFor`).
-/

namespace VbaModules.Lexer

open Text

/-! ### The rules -/

/-- Whether a character stands for itself: no other rule begins with it. -/
def isOther (c : Char) : Bool :=
  !(isBreakChar c || isBlankChar c || c == '"' || c == '\'' || c == '#' || c == '&' || isWordChar c)

/-- Whether what follows lets the word before it introduce a remark. -/
def RemarkMayFollow (rest : List Char) : Prop :=
  NotNext (fun c => !(isBlankChar c || isBreakChar c)) rest

/-- Whether a statement may begin in this state. -/
def LineState.mayBegin (state : LineState) : Bool :=
  state.atStart || state.afterSeparator

/-- The kind of a word that introduces no remark. -/
def wordKind (word : List Char) : Token.Kind :=
  if Keyword.contains (String.ofList word) then .reserved else .name

/-- `Lexeme state kind text rest` says that in the given state **the text is cut off as a token** of
the given kind when `rest` follows it. -/
inductive Lexeme (state : LineState) : Token.Kind → List Char → List Char → Prop where
  | lineBreak {text rest : List Char} (htext : IsBreak text) (hunsplit : Unsplit text rest) :
      Lexeme state .lineBreak text rest
  | blank {c : Char} {cs rest : List Char} (hc : isBlankChar c = true) (hcs : Spacing cs)
      (hends : SpaceEnds rest) (hunsplit : Unsplit cs rest) : Lexeme state .blank (c :: cs) rest
  | literal {isClosed : Bool} {cs rest : List Char} (hcs : LiteralTail isClosed cs)
      (hends : LiteralEnds isClosed rest) : Lexeme state .string ('"' :: cs) rest
  | comment {cs rest : List Char} (hcs : ∀ c ∈ cs, isBreakChar c = false)
      (hends : AtLineEnd rest) : Lexeme state .comment ('\'' :: cs) rest
  | remark {word cs rest : List Char} (hstate : state.mayBegin = true)
      (hword : isIdentifier word = true) (hrem : sameWord (String.ofList word) "rem" = true)
      (hgap : NotNext (!isBlankChar ·) cs) (hcs : ∀ c ∈ cs, isBreakChar c = false)
      (hends : AtLineEnd rest) : Lexeme state .comment (word ++ cs) rest
  | directive {d : Directive} {cs rest : List Char} (hstate : state.atStart = true)
      (hcs : DirectiveText d cs) (hends : NotNext isWordChar rest) :
      Lexeme state (.conditional d) ('#' :: cs) rest
  | numberSign {rest : List Char} (hrest : state.atStart = true → directive? rest = none) :
      Lexeme state .unknown ['#'] rest
  | radix {cs rest : List Char} (hcs : RadixText cs rest) : Lexeme state .unknown ('&' :: cs) rest
  | ampersand {rest : List Char} (hrest : radixLength? rest = none) :
      Lexeme state .unknown ['&'] rest
  | word {cs rest : List Char} (hcs : isIdentifier cs = true) (hends : NotNext isWordChar rest)
      (hremark : ¬(state.mayBegin = true ∧ sameWord (String.ofList cs) "rem" = true ∧
        RemarkMayFollow rest)) : Lexeme state (wordKind cs) cs rest
  | number {c : Char} {cs rest : List Char} (hc : c.isDigit = true ∨ c = '_')
      (hcs : ∀ d ∈ cs, isWordChar d = true) (hends : NotNext isWordChar rest) :
      Lexeme state .unknown (c :: cs) rest
  | other {c : Char} {rest : List Char} (hc : isOther c = true) : Lexeme state .unknown [c] rest

/-! ### The lexer follows the rules -/

section NextToken

variable {state : LineState} {c : Char} {cs rest : List Char}

/-- At a line break, the line break is cut off. -/
theorem nextToken_of_isBreakChar (hc : isBreakChar c = true) :
    nextToken state c cs = (.lineBreak, lineBreakLength (c :: cs) - 1) := by
  rw [nextToken, if_pos hc]

/-- At a blank, all white space is cut off, with the line continuations in it. -/
theorem nextToken_of_isBlankChar (hc : isBlankChar c = true) :
    nextToken state c cs = (.blank, spaceLength cs) := by
  rw [nextToken, if_neg (by simp [isBreakChar_eq_false_of_isBlankChar hc]), if_pos hc]

/-- At a quote, the literal is cut off up to its end or that of the line. -/
theorem nextToken_quote : nextToken state '"' cs = (.string, stringLength cs) := by
  simp [nextToken, isBreakChar, isBlankChar]

/-- At an apostrophe, the rest of the line is cut off. -/
theorem nextToken_apostrophe : nextToken state '\'' cs = (.comment, restOfLine cs) := by
  simp [nextToken, isBreakChar, isBlankChar]

/-- At a number sign that begins a line, a directive is cut off if there is one. -/
theorem nextToken_numberSign_of_some {d : Directive} {n : Nat} (hstate : state.atStart = true)
    (h : directive? cs = some (d, n)) : nextToken state '#' cs = (.conditional d, n) := by
  simp [nextToken, isBreakChar, isBlankChar, hstate, h]

/-- Elsewhere a number sign is cut off by itself. -/
theorem nextToken_numberSign_of_none (h : state.atStart = true → directive? cs = none) :
    nextToken state '#' cs = (.unknown, 0) := by
  cases hstate : state.atStart with
  | false => simp [nextToken, isBreakChar, isBlankChar, hstate]
  | true => simp [nextToken, isBreakChar, isBlankChar, hstate, h hstate]

/-- An ampersand is cut off with the number that it begins, if it begins one. -/
theorem nextToken_ampersand :
    nextToken state '&' cs = (.unknown, (radixLength? cs).getD 0) := by
  simp [nextToken, isBreakChar, isBlankChar]

/-- At a character of a word, a letter begins a word and anything else a number. -/
theorem nextToken_of_isWordChar (hc : isWordChar c = true) :
    nextToken state c cs =
      if c.isAlpha then wordToken state c cs else (.unknown, runLength isWordChar cs) := by
  have hmarks : c ≠ '"' ∧ c ≠ '\'' ∧ c ≠ '#' ∧ c ≠ '&' :=
    ⟨ne_of_class hc (by decide), ne_of_class hc (by decide), ne_of_class hc (by decide),
      ne_of_class hc (by decide)⟩
  have hnumber : c.isAlpha = false → (c.isDigit || c == '_') = true := by
    intro halpha
    simpa [isWordChar, Char.isAlphanum, halpha] using hc
  rw [nextToken, if_neg (by simp [isBreakChar_eq_false_of_isWordChar hc]),
    if_neg (by simp [isBlankChar_eq_false_of_isWordChar hc]), if_neg (by simp [hmarks]),
    if_neg (by simp [hmarks]), if_neg (by simp [hmarks]), if_neg (by simp [hmarks])]
  cases halpha : c.isAlpha with
  | true => rfl
  | false => rw [hnumber halpha]; rfl

/-- Any other character is cut off by itself. -/
theorem nextToken_of_isOther (hc : isOther c = true) :
    nextToken state c cs = (.unknown, 0) := by
  simp only [isOther, Bool.not_eq_true', Bool.or_eq_false_iff] at hc
  obtain ⟨⟨⟨⟨⟨⟨hbreak, hblank⟩, hquote⟩, hapostrophe⟩, hsign⟩, hampersand⟩, hword⟩ := hc
  have hletter : c.isAlpha = false := by
    cases halpha : c.isAlpha
    · rfl
    · rw [isWordChar_of_isAlpha halpha] at hword
      cases hword
  have hnumber : (c.isDigit || c == '_') = false := by
    simpa [isWordChar, Char.isAlphanum, hletter] using hword
  simp [nextToken, hbreak, hblank, hquote, hapostrophe, hsign, hampersand, hletter, hnumber]

/-- A digit or an underscore goes on in words, but begins none. -/
theorem isAlpha_eq_false_of_isDigit (hc : c.isDigit = true ∨ c = '_') :
    c.isAlpha = false ∧ isWordChar c = true := by
  rcases hc with hc | rfl
  · refine ⟨?_, by simp [isWordChar, Char.isAlphanum, hc]⟩
    rw [← Bool.not_eq_true, isAlpha_iff]
    simp only [Char.isDigit, Bool.and_eq_true, decide_eq_true_eq, ge_iff_le,
      UInt32.le_iff_toNat_le] at hc
    simp at hc
    omega
  · decide

theorem remarkMayFollow_iff :
    RemarkMayFollow rest ↔
      (rest.head?.all fun next => isBlankChar next || isBreakChar next) = true := by
  cases rest with
  | nil => simp [RemarkMayFollow]
  | cons c rest => cases hc : isBlankChar c <;> simp [RemarkMayFollow, hc]

/-- A word and what follows it, when the word introduces a remark. -/
theorem wordToken_of_remark {word : List Char} (hstate : state.mayBegin = true)
    (hword : isIdentifier (c :: word) = true)
    (hrem : sameWord (String.ofList (c :: word)) "rem" = true) (hends : NotNext isWordChar rest)
    (hrest : RemarkMayFollow rest) :
    wordToken state c (word ++ rest) = (.comment, restOfLine (word ++ rest)) := by
  have hrun : runLength isWordChar (word ++ rest) = word.length :=
    runLength_append_eq_iff.mpr ⟨(isIdentifier_cons.mp hword).2, hends⟩
  rw [LineState.mayBegin] at hstate
  rw [remarkMayFollow_iff] at hrest
  simp only [wordToken, hrun, List.take_left, List.drop_left]
  rw [if_pos (by rw [hstate, hrem, hrest]; rfl)]

/-- A word and what follows it, when the word introduces no remark. -/
theorem wordToken_of_not_remark {word : List Char} (hword : isIdentifier (c :: word) = true)
    (hends : NotNext isWordChar rest)
    (hremark : ¬(state.mayBegin = true ∧ sameWord (String.ofList (c :: word)) "rem" = true ∧
      RemarkMayFollow rest)) :
    wordToken state c (word ++ rest) = (wordKind (c :: word), word.length) := by
  have hrun : runLength isWordChar (word ++ rest) = word.length :=
    runLength_append_eq_iff.mpr ⟨(isIdentifier_cons.mp hword).2, hends⟩
  rw [LineState.mayBegin, remarkMayFollow_iff, ← Bool.and_eq_true, ← Bool.and_eq_true,
    ← Bool.and_assoc] at hremark
  simp only [wordToken, hrun, List.take_left, List.drop_left, wordKind]
  rw [if_neg hremark]
  split <;> rfl

/-- **The lexer cuts off lexemes.** -/
theorem Lexeme.nextToken_eq {kind : Token.Kind} (h : Lexeme state kind (c :: cs) rest) :
    nextToken state c (cs ++ rest) = (kind, cs.length) := by
  generalize htext : c :: cs = text at h
  cases h with
  | lineBreak hbreak hunsplit =>
    subst htext
    have hlength := lineBreakLength_append hbreak hunsplit
    have hc : isBreakChar c = true := by
      rcases hbreak with h | h | h <;> cases h <;> decide
    rw [nextToken_of_isBreakChar hc, ← List.cons_append, hlength]
    rfl
  | blank hc hcs hends hunsplit =>
    cases htext
    rw [nextToken_of_isBlankChar hc, hcs.spaceLength_append hends hunsplit]
  | literal hcs hends =>
    cases htext
    rw [nextToken_quote, hcs.stringLength_append hends]
  | comment hcs hends =>
    cases htext
    rw [nextToken_apostrophe, restOfLine, runLength_append_eq_iff.mpr ⟨by simpa using hcs, hends⟩]
  | @remark word more _ hstate hword hrem hgap hmore hends =>
    obtain ⟨d, word, rfl⟩ := List.exists_cons_of_ne_nil
      (show word ≠ [] by rintro rfl; simp at hword)
    rw [List.cons_append, List.cons.injEq] at htext
    obtain ⟨rfl, rfl⟩ := htext
    have hletters := (isIdentifier_cons.mp hword).2
    -- what follows the word makes it a remark, and it also ends the word
    have hnext : RemarkMayFollow (more ++ rest) := by
      cases more with
      | nil => exact hends.imp fun x hx => by simp_all
      | cons x more => simp_all [RemarkMayFollow]
    have hwordEnds : NotNext isWordChar (more ++ rest) := by
      refine hnext.imp fun x hx => ?_
      simp [isBlankChar_eq_false_of_isWordChar hx, isBreakChar_eq_false_of_isWordChar hx]
    rw [nextToken_of_isWordChar (isWordChar_of_isAlpha (isIdentifier_cons.mp hword).1),
      if_pos (isIdentifier_cons.mp hword).1, List.append_assoc,
      wordToken_of_remark hstate hword hrem hwordEnds hnext, ← List.append_assoc, restOfLine,
      runLength_append_eq_iff.mpr ⟨?_, hends⟩]
    intro x hx
    rcases List.mem_append.mp hx with hx | hx
    · simp [isBreakChar_eq_false_of_isWordChar (hletters x hx)]
    · simp [hmore x hx]
  | directive hstate hcs hends =>
    cases htext
    exact nextToken_numberSign_of_some hstate (hcs.directive?_append hends)
  | numberSign hrest =>
    cases htext
    exact nextToken_numberSign_of_none hrest
  | radix hcs =>
    cases htext
    rw [nextToken_ampersand, hcs.radixLength?_append]
    rfl
  | ampersand hrest =>
    cases htext
    rw [nextToken_ampersand, List.nil_append, hrest]
    rfl
  | word hcs hends hremark =>
    subst htext
    have halpha := (isIdentifier_cons.mp hcs).1
    rw [nextToken_of_isWordChar (isWordChar_of_isAlpha halpha), if_pos halpha,
      wordToken_of_not_remark hcs hends hremark]
  | number hc hcs hends =>
    cases htext
    obtain ⟨halpha, hword⟩ := isAlpha_eq_false_of_isDigit hc
    rw [nextToken_of_isWordChar hword, if_neg (by simp [halpha]),
      runLength_append_eq_iff.mpr ⟨hcs, hends⟩]
  | other hc =>
    cases htext
    exact nextToken_of_isOther hc

end NextToken

/-- **Every text begins with a lexeme**, whatever the state. -/
theorem exists_lexeme (state : LineState) (c : Char) (cs : List Char) :
    ∃ kind text rest, cs = text ++ rest ∧ Lexeme state kind (c :: text) rest := by
  -- the cases are split in the order in which the lexer tries its rules
  by_cases hbreak : isBreakChar c = true
  · have hlength : lineBreakLength (c :: cs) ≠ 0 := by
      rw [ne_eq, lineBreakLength_eq_zero_iff, notNext_cons, hbreak]
      simp
    obtain ⟨text, rest, htext, -, hisBreak, hunsplit⟩ := exists_lineBreak hlength
    obtain ⟨d, text, rfl⟩ := List.exists_cons_of_ne_nil
      (show text ≠ [] by rintro rfl; simp [IsBreak] at hisBreak)
    rw [List.cons_append, List.cons.injEq] at htext
    obtain ⟨rfl, rfl⟩ := htext
    exact ⟨_, text, rest, rfl, .lineBreak hisBreak hunsplit⟩
  by_cases hblank : isBlankChar c = true
  · obtain ⟨text, rest, rfl, -, htext, hends, hunsplit⟩ := exists_spacing cs
    exact ⟨_, text, rest, rfl, .blank hblank htext hends hunsplit⟩
  by_cases hquote : c = '"'
  · subst hquote
    obtain ⟨isClosed, text, rest, rfl, -, htext, hends⟩ := exists_literalTail cs
    exact ⟨_, text, rest, rfl, .literal htext hends⟩
  by_cases hapostrophe : c = '\''
  · subst hapostrophe
    obtain ⟨text, rest, rfl, -, htext, hends⟩ := exists_run (!isBreakChar ·) cs
    exact ⟨_, text, rest, rfl, .comment (by simpa using htext) hends⟩
  by_cases hsign : c = '#'
  · subst hsign
    by_cases hrest : state.atStart = true → directive? cs = none
    · exact ⟨_, [], cs, rfl, .numberSign hrest⟩
    · obtain ⟨hstate, hsome⟩ := Classical.not_imp.mp hrest
      obtain ⟨⟨d, n⟩, hdirective⟩ := Option.ne_none_iff_exists'.mp hsome
      obtain ⟨text, rest, rfl, -, htext, hends⟩ := exists_directiveText hdirective
      exact ⟨_, text, rest, rfl, .directive hstate htext hends⟩
  by_cases hampersand : c = '&'
  · subst hampersand
    cases hradix : radixLength? cs with
    | none => exact ⟨_, [], cs, rfl, .ampersand hradix⟩
    | some n =>
      obtain ⟨text, rest, rfl, -, htext⟩ := exists_radixText hradix
      exact ⟨_, text, rest, rfl, .radix htext⟩
  by_cases hword : isWordChar c = true
  · obtain ⟨text, rest, rfl, -, htext, hends⟩ := exists_run isWordChar cs
    by_cases halpha : c.isAlpha = true
    · have hidentifier : isIdentifier (c :: text) = true := isIdentifier_cons.mpr ⟨halpha, htext⟩
      by_cases hremark : state.mayBegin = true ∧ sameWord (String.ofList (c :: text)) "rem" = true ∧
        RemarkMayFollow rest
      · obtain ⟨hstate, hrem, hfollow⟩ := hremark
        -- the remark reaches from the word to the end of its line
        obtain ⟨more, rest, rfl, -, hmore, hlineEnds⟩ := exists_run (!isBreakChar ·) rest
        have hplain : ∀ d ∈ more, isBreakChar d = false := by simpa using hmore
        refine ⟨_, text ++ more, rest, by simp, .remark hstate hidentifier hrem ?_ hplain hlineEnds⟩
        cases more with
        | nil => exact notNext_nil _
        | cons d more =>
          have hd := hplain d List.mem_cons_self
          simp_all [RemarkMayFollow]
      · exact ⟨_, text, rest, rfl, .word hidentifier hends hremark⟩
    · have hnumber : c.isDigit = true ∨ c = '_' := by
        simpa [isWordChar, Char.isAlphanum, halpha] using hword
      exact ⟨_, text, rest, rfl, .number hnumber htext hends⟩
  · refine ⟨_, [], cs, rfl, .other ?_⟩
    simp [isOther, hbreak, hblank, hquote, hapostrophe, hsign, hampersand, hword]

/-! ### What is cut off as a token of some kind -/

section Kinds

variable {state : LineState} {text rest : List Char}

/-- A word is of no other kind than a keyword or a name. -/
theorem wordKind_ne {kind : Token.Kind} (hreserved : kind ≠ .reserved) (hname : kind ≠ .name)
    (word : List Char) : kind ≠ wordKind word := by
  rw [wordKind]
  split
  · exact hreserved
  · exact hname

/-- A line break is cut off whole: a line feed goes with the carriage return before it. -/
theorem lexeme_lineBreak_iff :
    Lexeme state .lineBreak text rest ↔ IsBreak text ∧ Unsplit text rest := by
  refine ⟨fun h => ?_, fun h => .lineBreak h.1 h.2⟩
  generalize hkind : Token.Kind.lineBreak = kind at h
  cases h with
  | lineBreak htext hunsplit => exact ⟨htext, hunsplit⟩
  | word => exact absurd hkind (wordKind_ne (by decide) (by decide) _)
  | _ => cases hkind

/-- White space that is cut off begins with a blank and goes as far as it can. -/
theorem Lexeme.exists_spacing_of_blank (h : Lexeme state .blank text rest) :
    ∃ c cs, text = c :: cs ∧ isBlankChar c = true ∧ Spacing cs ∧ SpaceEnds rest ∧
      Unsplit cs rest := by
  generalize hkind : Token.Kind.blank = kind at h
  cases h with
  | blank hc hcs hends hunsplit => exact ⟨_, _, rfl, hc, hcs, hends, hunsplit⟩
  | word => exact absurd hkind (wordKind_ne (by decide) (by decide) _)
  | _ => cases hkind

/-- A literal may lack its closing quote, but no further quote follows it. -/
theorem Lexeme.exists_eq_of_string (h : Lexeme state .string text rest) :
    (∃ cs, text = '"' :: cs) ∧ NotNext (· == '"') rest := by
  generalize hkind : Token.Kind.string = kind at h
  cases h with
  | @literal isClosed cs _ _ hends =>
    refine ⟨⟨cs, rfl⟩, ?_⟩
    cases isClosed with
    | true => exact hends
    | false =>
      have hlineEnd : AtLineEnd rest := hends
      refine hlineEnd.imp fun c hc => ?_
      obtain rfl := eq_of_beq hc
      rfl
  | word => exact absurd hkind (wordKind_ne (by decide) (by decide) _)
  | _ => cases hkind

/-- A name that is cut off is an identifier, and the word ends there. -/
theorem Lexeme.isIdentifier_of_name (h : Lexeme state .name text rest) :
    isIdentifier text = true ∧ NotNext isWordChar rest := by
  generalize hkind : Token.Kind.name = kind at h
  cases h with
  | word hcs hends _ => exact ⟨hcs, hends⟩
  | _ => cases hkind

end Kinds

/-! ### Rows of lexemes -/

/-- The characters of some tokens in a row. -/
def charsOf (ts : List Token) : List Char :=
  ts.flatMap (·.text.toList)

@[simp]
theorem charsOf_nil : charsOf [] = [] :=
  rfl

@[simp]
theorem charsOf_cons (t : Token) (ts : List Token) :
    charsOf (t :: ts) = t.text.toList ++ charsOf ts :=
  List.flatMap_cons

/-- The characters of rows of tokens are joined as the rows are. -/
@[simp]
theorem charsOf_append (ts us : List Token) : charsOf (ts ++ us) = charsOf ts ++ charsOf us :=
  List.flatMap_append

/-- The tokens are **cut off one after the other**, each as a lexeme in front of the texts of those
after it. -/
inductive Cuts : LineState → List Token → Prop where
  | nil (state : LineState) : Cuts state []
  | cons {state : LineState} {t : Token} {ts : List Token}
      (hlexeme : Lexeme state t.kind t.text.toList (charsOf ts)) (hrest : Cuts (state.after t) ts) :
      Cuts state (t :: ts)

/-- Nothing is cut off without a character. -/
theorem Lexeme.text_ne_nil {state : LineState} {kind : Token.Kind} {text rest : List Char}
    (h : Lexeme state kind text rest) : text ≠ [] := by
  rintro rfl
  generalize htext : ([] : List Char) = text at h
  cases h with
  | lineBreak hbreak _ => rcases hbreak with rfl | rfl | rfl <;> cases htext
  | remark _ hword _ _ _ _ =>
    obtain ⟨rfl, -⟩ := List.append_eq_nil_iff.mp htext.symm
    simp at hword
  | word hcs _ _ =>
    subst htext
    simp at hcs
  | _ => cases htext

/-- A lexeme is read as the token it is, and reading goes on behind it. -/
theorem Lexeme.scan_append {state : LineState} {t : Token} {rest : List Char}
    (h : Lexeme state t.kind t.text.toList rest) :
    scan state (t.text.toList ++ rest) = t :: scan (state.after t) rest := by
  obtain ⟨c, cs, htext⟩ := List.exists_cons_of_ne_nil h.text_ne_nil
  rw [htext] at h
  have htoken : (⟨t.kind, String.ofList (c :: cs)⟩ : Token) = t := by
    rw [← htext, String.ofList_toList]
  rw [htext, List.cons_append, scan, h.nextToken_eq]
  simp only [List.take_left, List.drop_left, htoken]

/-- **Reading loses no character.** -/
theorem charsOf_scan (state : LineState) (cs : List Char) : charsOf (scan state cs) = cs := by
  rw [charsOf, ← Token.toList_textOf, textOf_scan]

/-- Scanning gives a row of lexemes. -/
theorem cuts_scan (state : LineState) (cs : List Char) : Cuts state (scan state cs) := by
  fun_induction scan state cs with
  | case1 state => exact .nil state
  | case2 state c cs kind n hnext token ih =>
    obtain ⟨kind', text, rest, rfl, hlexeme⟩ := exists_lexeme state c cs
    rw [hlexeme.nextToken_eq, Prod.mk.injEq] at hnext
    obtain ⟨rfl, rfl⟩ := hnext
    have htext : token.text.toList = c :: text := by
      simp only [token, String.toList_ofList, List.take_left]
    rw [List.drop_left] at ih ⊢
    refine .cons ?_ ih
    rw [charsOf_scan, htext]
    exact hlexeme

/-- Tokens that are cut off one after the other are what is read from their characters. -/
theorem Cuts.scan_eq {state : LineState} {ts : List Token} (h : Cuts state ts) :
    scan state (charsOf ts) = ts := by
  induction h with
  | nil state => rw [charsOf_nil, scan]
  | cons hlexeme _ ih => rw [charsOf_cons, hlexeme.scan_append, ih]

/-- Every token of the row is a lexeme where it stands. -/
theorem Cuts.exists_lexeme {state : LineState} {ts : List Token} (h : Cuts state ts) {t : Token}
    (ht : t ∈ ts) : ∃ state' rest, Lexeme state' t.kind t.text.toList rest := by
  induction h with
  | nil => cases ht
  | cons hlexeme _ ih =>
    rcases List.mem_cons.mp ht with rfl | ht
    · exact ⟨_, _, hlexeme⟩
    · exact ih ht

/-- **What scanning gives**: exactly the rows of tokens that are cut off one after the other. -/
theorem scan_charsOf_eq_iff {state : LineState} {ts : List Token} :
    scan state (charsOf ts) = ts ↔ Cuts state ts :=
  ⟨fun h => h ▸ cuts_scan state (charsOf ts), Cuts.scan_eq⟩

/-! ### The byte order mark -/

/-- The token of a byte order mark. -/
def markToken : Token :=
  ⟨.blank, "\uFEFF"⟩

/-- The tokens of a module before its name literals are taken apart. -/
def scanModule : List Char → List Token
  | '\uFEFF' :: cs => markToken :: scan .start cs
  | cs => scan .start cs

/-- Lexing is scanning a module and taking its name literals apart. -/
theorem lex_eq_splitNames (text : String) : lex text = splitNames 0 (scanModule text.toList) :=
  rfl

/-- Only a literal is taken apart. -/
theorem kind_eq_string_of_due {t : Token} {due : Nat}
    (h : (t.kind == .string && due != 0) = true) : t.kind = .string := by
  rw [Bool.and_eq_true, beq_iff_eq] at h
  exact h.1

/-- A byte order mark at the start of a module is a token of its own. -/
theorem scanModule_mark (cs : List Char) :
    scanModule ('\uFEFF' :: cs) = markToken :: scan .start cs :=
  rfl

/-- Without a mark, a module is read as any other text. -/
theorem scanModule_of_head?_ne {cs : List Char} (h : cs.head? ≠ some '\uFEFF') :
    scanModule cs = scan .start cs := by
  unfold scanModule
  split
  next => simp at h
  next => rfl

/-- The tokens of a module are lexemes, apart from a byte order mark. -/
theorem exists_lexeme_of_mem_scanModule {cs : List Char} {t : Token} (h : t ∈ scanModule cs) :
    t = markToken ∨ ∃ state rest, Lexeme state t.kind t.text.toList rest := by
  unfold scanModule at h
  split at h
  next cs =>
    rcases List.mem_cons.mp h with hmark | hmem
    · exact .inl hmark
    · exact .inr ((cuts_scan .start cs).exists_lexeme hmem)
  next => exact .inr ((cuts_scan .start cs).exists_lexeme h)

/-! ### Exchanging what follows -/

/-- Two characters that may be exchanged for each other after a lexeme: both break the line, or both
are letters. -/
def Alike (c d : Char) : Prop :=
  c = d ∨ (isBreakChar c = true ∧ isBreakChar d = true) ∨ (c.isAlpha = true ∧ d.isAlpha = true)

/-- The text `rest'` **can stand for** `rest` after a lexeme: they begin alike, and it brings no
line continuation and no directive that was not there. -/
structure StandsFor (rest' rest : List Char) : Prop where
  head : Option.Rel Alike rest.head? rest'.head?
  continuation : continuation? rest = none → continuation? rest' = none
  directive : directive? rest = none → directive? rest' = none

/-- It does not matter to a class of characters which of two texts follows, if their first
characters are alike for it. -/
theorem notNext_iff_of_rel {r : Char → Char → Prop} {p : Char → Bool} {rest rest' : List Char}
    (h : Option.Rel r rest.head? rest'.head?) (hp : ∀ c d, r c d → p c = p d) :
    NotNext p rest ↔ NotNext p rest' := by
  rw [NotNext, NotNext]
  generalize rest.head? = next at h
  generalize rest'.head? = next' at h
  cases h with
  | none => rfl
  | some hcd => simp [hp _ _ hcd]

/-- Lines are broken by carriage returns and line feeds. -/
theorem eq_of_isBreakChar {c : Char} (hc : isBreakChar c = true) : c = '\r' ∨ c = '\n' := by
  simpa [isBreakChar] using hc

section StandsFor

variable {rest rest' : List Char}

/-- A text that stands for another begins with a character of the same classes. This is about
classes that hold all letters or none, and both characters of line breaks or none. -/
theorem StandsFor.notNext_iff (h : StandsFor rest' rest) {p : Char → Bool}
    (hbreak : p '\r' = p '\n') (halpha : ∀ c, c.isAlpha = true → p c = p 'a') :
    NotNext p rest ↔ NotNext p rest' := by
  refine notNext_iff_of_rel h.head ?_
  have hfeed : ∀ c, isBreakChar c = true → p c = p '\n' := by
    intro c hc
    rcases eq_of_isBreakChar hc with rfl | rfl
    · exact hbreak
    · rfl
  rintro c d (rfl | ⟨hc, hd⟩ | ⟨hc, hd⟩)
  · rfl
  · rw [hfeed c hc, hfeed d hd]
  · rw [halpha c hc, halpha d hd]

/-- A word ends before a text exactly if it ends before one that stands for it. -/
theorem StandsFor.notNext_isWordChar (h : StandsFor rest' rest) :
    NotNext isWordChar rest ↔ NotNext isWordChar rest' :=
  h.notNext_iff rfl fun c hc => by rw [isWordChar_of_isAlpha hc]; rfl

theorem StandsFor.notNext_isBlankChar (h : StandsFor rest' rest) :
    NotNext isBlankChar rest ↔ NotNext isBlankChar rest' :=
  h.notNext_iff rfl fun c hc => by
    rw [isBlankChar_eq_false_of_isWordChar (isWordChar_of_isAlpha hc)]
    rfl

/-- So does a line. -/
theorem StandsFor.atLineEnd (h : StandsFor rest' rest) : AtLineEnd rest ↔ AtLineEnd rest' :=
  h.notNext_iff rfl fun c hc => by
    rw [isBreakChar_eq_false_of_isWordChar (isWordChar_of_isAlpha hc)]
    rfl

/-- A remark may follow either or none of the two. -/
theorem StandsFor.remarkMayFollow (h : StandsFor rest' rest) :
    RemarkMayFollow rest ↔ RemarkMayFollow rest' :=
  h.notNext_iff rfl fun c hc => by
    have hword := isWordChar_of_isAlpha hc
    rw [isBlankChar_eq_false_of_isWordChar hword, isBreakChar_eq_false_of_isWordChar hword]
    rfl

/-- So it is with the end of a literal. -/
theorem StandsFor.literalEnds (h : StandsFor rest' rest) {isClosed : Bool} :
    LiteralEnds isClosed rest ↔ LiteralEnds isClosed rest' := by
  cases isClosed with
  | false => exact h.atLineEnd
  | true =>
    refine h.notNext_iff rfl fun c hc => ?_
    rw [beq_eq_false_iff_ne.mpr (ne_of_class hc (by decide))]
    rfl

/-- **A lexeme stays one in front of another text** that can stand for the one after it. Two rules
look at more than the class of the next character and ask for it in turn: that of the line breaks,
and that of the literals with a radix. -/
theorem Lexeme.of_standsFor {state : LineState} {kind : Token.Kind} {text : List Char}
    (h : Lexeme state kind text rest) (hrest : StandsFor rest' rest)
    (hunsplit : Unsplit text rest → Unsplit text rest')
    (hradix : text.head? = some '&' →
      (∀ cs, RadixText cs rest → RadixText cs rest') ∧
        (radixLength? rest = none → radixLength? rest' = none)) :
    Lexeme state kind text rest' := by
  cases h with
  | lineBreak htext h => exact .lineBreak htext (hunsplit h)
  | @blank c cs _ hc hcs hends h =>
    have hwhole : Unsplit ([c] ++ cs) rest :=
      (unsplit_of_forall (by simpa using hc) (by decide) _).append h
    exact .blank hc hcs ⟨hrest.notNext_isBlankChar.mp hends.1, hrest.continuation hends.2⟩
      (show Unsplit ([c] ++ cs) rest' from hunsplit hwhole).of_append
  | literal hcs hends => exact .literal hcs (hrest.literalEnds.mp hends)
  | comment hcs hends => exact .comment hcs (hrest.atLineEnd.mp hends)
  | remark hstate hword hrem hgap hcs hends =>
    exact .remark hstate hword hrem hgap hcs (hrest.atLineEnd.mp hends)
  | directive hstate hcs hends => exact .directive hstate hcs (hrest.notNext_isWordChar.mp hends)
  | numberSign hnone => exact .numberSign fun hstate => hrest.directive (hnone hstate)
  | radix hcs => exact .radix ((hradix rfl).1 _ hcs)
  | ampersand hnone => exact .ampersand ((hradix rfl).2 hnone)
  | word hcs hends hremark =>
    refine .word hcs (hrest.notNext_isWordChar.mp hends) fun h => hremark ⟨h.1, h.2.1, ?_⟩
    exact hrest.remarkMayFollow.mpr h.2.2
  | number hc hcs hends => exact .number hc hcs (hrest.notNext_isWordChar.mp hends)
  | other hc => exact .other hc

end StandsFor

end VbaModules.Lexer

import VbaModules.Proofs.LetterCase
import VbaModules.Proofs.Lexemes
import VbaModules.Proofs.WordSections

/-!
# Reading takes no notice of the case of letters

Every rule of the lexer asks for classes of characters that do not tell the case of an ASCII letter,
or compares words in their folded forms. So each reader takes as many characters of a folded text as
of the text itself, and the tokens of a folded text are the folded tokens (`lex_foldCase`).
-/

namespace VbaModules

open Text

/-- The token with its text folded. -/
def Token.fold (t : Token) : Token :=
  { t with text := foldCase t.text }

/-- Folding keeps the kinds of tokens and the words that they spell. -/
theorem keepsWords_fold : KeepsWords Token.fold where
  kind_eq _ := rfl
  foldCase_text t _ _ := foldCase_foldCase t.text

/-- A mark that is no letter is told in the folded text too. -/
theorem Text.foldCase_eq_iff {s mark : String} {c : Char} (hmark : mark.toList = [c])
    (hc : ∀ i < 26, (Char.ofNat (97 + i) == c) = (Char.ofNat (65 + i) == c)) :
    foldCase s = mark ↔ s = mark := by
  have hlower : ∀ d : Char, d.toLower = c ↔ d = c := by
    intro d
    have hbeq := toLower_beq d hc
    rw [← beq_iff_eq, hbeq, beq_iff_eq]
  rw [← String.toList_inj, ← String.toList_inj, toList_foldCase, hmark, List.map_eq_singleton_iff]
  constructor
  · rintro ⟨d, hs, hd⟩
    rw [hs, (hlower d).mp hd]
  · intro hs
    exact ⟨c, hs, (hlower c).mpr rfl⟩

namespace Lexer

/-! ### Classes of characters -/

theorem isBlankChar_toLower (c : Char) : isBlankChar c.toLower = isBlankChar c :=
  toLower_of_letters (by decide) c

theorem isBreakChar_toLower (c : Char) : isBreakChar c.toLower = isBreakChar c :=
  toLower_of_letters (by decide) c

/-- A letter goes on in a word as its small letter does. -/
theorem isWordChar_toLower (c : Char) : isWordChar c.toLower = isWordChar c :=
  toLower_of_letters (by decide) c

/-- A hexadecimal digit is one in either case. -/
theorem isHexDigit_toLower (c : Char) : isHexDigit c.toLower = isHexDigit c :=
  toLower_of_letters (by decide) c

theorem isOctDigit_toLower (c : Char) : isOctDigit c.toLower = isOctDigit c :=
  toLower_of_letters (by decide) c

theorem isAlpha_toLower (c : Char) : c.toLower.isAlpha = c.isAlpha :=
  toLower_of_letters (by decide) c

theorem isDigit_toLower (c : Char) : c.toLower.isDigit = c.isDigit :=
  toLower_of_letters (by decide) c

/-! ### Lengths -/

/-- A run of characters is as long after folding, if folding keeps the class of each of them. -/
theorem runLength_map_toLower {p : Char → Bool} (hp : ∀ c, p c.toLower = p c) (cs : List Char) :
    runLength p (cs.map Char.toLower) = runLength p cs := by
  have hcomp : p ∘ Char.toLower = p := funext hp
  rw [runLength, runLength, List.takeWhile_map, hcomp, List.length_map]

/-- Folding makes no line longer or shorter. -/
theorem restOfLine_map_toLower (cs : List Char) :
    restOfLine (cs.map Char.toLower) = restOfLine cs :=
  runLength_map_toLower (fun c => by rw [isBreakChar_toLower]) cs

/-- The length of a line break by its first character. -/
theorem lineBreakLength_cons (c : Char) (cs : List Char) :
    lineBreakLength (c :: cs) =
      if c == '\r' then (if cs.head? == some '\n' then 2 else 1)
      else if c == '\n' then 1 else 0 := by
  by_cases hreturn : c = '\r'
  · subst hreturn
    cases cs with
    | nil => rfl
    | cons d cs =>
      by_cases hfeed : d = '\n'
      · subst hfeed
        rfl
      · simp [lineBreakLength, hfeed]
  · by_cases hfeed : c = '\n'
    · subst hfeed
      rfl
    · simp [lineBreakLength, hreturn, hfeed]

/-- Folding keeps whether a text begins with a certain character, if this is no letter. -/
theorem head?_map_toLower_beq (cs : List Char) {c : Char}
    (hc : ∀ i < 26, (Char.ofNat (97 + i) == c) = (Char.ofNat (65 + i) == c)) :
    ((cs.map Char.toLower).head? == some c) = (cs.head? == some c) := by
  cases cs with
  | nil => rfl
  | cons d cs => exact toLower_beq d hc

/-- Folding keeps line breaks, since there are no letters in them. -/
theorem lineBreakLength_map_toLower (cs : List Char) :
    lineBreakLength (cs.map Char.toLower) = lineBreakLength cs := by
  cases cs with
  | nil => rfl
  | cons c cs =>
    rw [List.map_cons, lineBreakLength_cons, lineBreakLength_cons,
      head?_map_toLower_beq cs (by decide), toLower_beq c (by decide), toLower_beq c (by decide)]

/-- A line continuation by its first character, with its parts in the order in which they are read.
-/
theorem continuation?_cons (c : Char) (cs : List Char) :
    continuation? (c :: cs) =
      if c == '_' then
        let gap := runLength isBlankChar cs
        let lineBreak := lineBreakLength (cs.drop gap)
        if lineBreak = 0 then none
        else some (1 + gap + lineBreak + runLength isBlankChar (cs.drop (gap + lineBreak)))
      else none := by
  unfold continuation?
  split <;> simp_all

/-- Folding keeps line continuations. -/
theorem continuation?_map_toLower (cs : List Char) :
    continuation? (cs.map Char.toLower) = continuation? cs := by
  cases cs with
  | nil => rfl
  | cons c cs =>
    simp only [List.map_cons, continuation?_cons, toLower_beq (d := '_') c (by decide),
      ← List.map_drop, runLength_map_toLower isBlankChar_toLower, lineBreakLength_map_toLower]

/-- Folding keeps white space, with the line continuations in it. -/
theorem spaceLength_map_toLower (cs : List Char) :
    spaceLength (cs.map Char.toLower) = spaceLength cs := by
  fun_induction spaceLength cs with
  | case1 cs gap hnone =>
    have hnone' : continuation? ((cs.map Char.toLower).drop
        (runLength isBlankChar (cs.map Char.toLower))) = none := by
      rw [runLength_map_toLower isBlankChar_toLower, ← List.map_drop, continuation?_map_toLower]
      exact hnone
    rw [spaceLength_of_none hnone', runLength_map_toLower isBlankChar_toLower]
  | case2 cs gap n hsome ih =>
    have hsome' : continuation? ((cs.map Char.toLower).drop
        (runLength isBlankChar (cs.map Char.toLower))) = some n := by
      rw [runLength_map_toLower isBlankChar_toLower, ← List.map_drop, continuation?_map_toLower]
      exact hsome
    rw [spaceLength_of_some hsome', runLength_map_toLower isBlankChar_toLower, ← List.map_drop, ih]

/-- The length of a string literal behind its first quote, by the next character. -/
theorem stringLength_cons (c : Char) (cs : List Char) :
    stringLength (c :: cs) =
      if c == '"' then (if cs.head? == some '"' then 2 + stringLength cs.tail else 1)
      else if isBreakChar c then 0 else 1 + stringLength cs := by
  rw [stringLength.eq_def]
  split
  next heq => cases heq
  next heq =>
    obtain ⟨rfl, rfl⟩ := List.cons.inj heq
    rfl
  next c' cs' hnot heq =>
    obtain ⟨rfl, rfl⟩ := List.cons.inj heq
    cases hquote : c == '"' with
    | false => rfl
    | true =>
      have hc : c = '"' := eq_of_beq hquote
      have hnext : ¬(cs.head? == some '"') = true := by
        intro hnext
        obtain ⟨rest, hrest⟩ := List.head?_eq_some_iff.mp (eq_of_beq hnext)
        exact hnot rest hc hrest
      rw [if_pos rfl, if_pos rfl, if_neg hnext]

/-- Folding keeps where a string literal ends: the quotes stay where they are. -/
theorem stringLength_map_toLower (cs : List Char) :
    stringLength (cs.map Char.toLower) = stringLength cs := by
  have hstep : ∀ c cs, stringLength (List.map Char.toLower cs) = stringLength cs →
      stringLength (cs.map Char.toLower).tail = stringLength cs.tail →
      stringLength ((c :: cs).map Char.toLower) = stringLength (c :: cs) := by
    intro c cs hrest htail
    rw [List.map_cons, stringLength_cons, stringLength_cons, hrest, htail,
      head?_map_toLower_beq cs (by decide), toLower_beq c (by decide), isBreakChar_toLower]
  -- a doubled quote takes two characters at once, so the claim is proved for the tail along with it
  have hboth : stringLength (cs.map Char.toLower) = stringLength cs ∧
      stringLength (cs.map Char.toLower).tail = stringLength cs.tail := by
    induction cs with
    | nil => exact ⟨rfl, rfl⟩
    | cons c cs ih => exact ⟨hstep c cs ih.1 ih.2, ih.1⟩
  exact hboth.1

/-- A word is as long after folding. -/
theorem wordLength?_map_toLower (cs : List Char) :
    wordLength? (cs.map Char.toLower) = wordLength? cs := by
  cases cs with
  | nil => rfl
  | cons c cs =>
    rw [List.map_cons, wordLength?, wordLength?, isAlpha_toLower,
      runLength_map_toLower isWordChar_toLower]

/-- A number with a radix is as long after folding, since its digits and the letter of the radix may
be written in either case. -/
theorem radixLength?_map_toLower (cs : List Char) :
    radixLength? (cs.map Char.toLower) = radixLength? cs := by
  cases cs with
  | nil => rfl
  | cons c cs =>
    have hclosing : ∀ n, ((cs.map Char.toLower).drop n).head? = some '&' ↔
        (cs.drop n).head? = some '&' := by
      intro n
      rw [← List.map_drop, ← beq_iff_eq, head?_map_toLower_beq _ (by decide), beq_iff_eq]
    simp only [List.map_cons, radixLength?, toLower_toLower, hclosing,
      runLength_map_toLower isHexDigit_toLower, runLength_map_toLower isOctDigit_toLower]

/-! ### Words -/

/-- Folding the characters of a text is folding the text. -/
theorem ofList_map_toLower (cs : List Char) :
    String.ofList (cs.map Char.toLower) = foldCase (String.ofList cs) := by
  rw [foldCase, String.toList_ofList]

theorem sameWord_foldCase_left (s t : String) : sameWord (foldCase s) t = sameWord s t := by
  rw [sameWord, sameWord, foldCase_foldCase]

/-- Whether a word is a keyword does not depend on its case. -/
theorem contains_foldCase (word : String) :
    Keyword.contains (foldCase word) = Keyword.contains word := by
  rw [Keyword.contains, Keyword.contains, Keyword.editorSpelling?, Keyword.editorSpelling?,
    foldCase_foldCase]

theorem directiveWord?_map_toLower (cs : List Char) :
    directiveWord? (cs.map Char.toLower) = directiveWord? cs := by
  simp only [directiveWord?, runLength_map_toLower isBlankChar_toLower, ← List.map_drop,
    ← List.map_take, wordLength?_map_toLower, ofList_map_toLower, foldCase_foldCase]

/-- A directive is told by its word in whatever case. -/
theorem directive?_map_toLower (cs : List Char) :
    directive? (cs.map Char.toLower) = directive? cs := by
  simp only [directive?, ← List.map_drop, directiveWord?_map_toLower]

/-- A word is a remark, a keyword or a name whatever its case. -/
theorem wordToken_map_toLower (state : LineState) (c : Char) (cs : List Char) :
    wordToken state c.toLower (cs.map Char.toLower) = wordToken state c cs := by
  have hremark : ∀ n, ((cs.map Char.toLower).drop n).head?.all
        (fun next => isBlankChar next || isBreakChar next) =
      (cs.drop n).head?.all fun next => isBlankChar next || isBreakChar next := by
    intro n
    rw [← List.map_drop, List.head?_map, Option.all_map]
    simp only [isBlankChar_toLower, isBreakChar_toLower]
  simp only [wordToken, runLength_map_toLower isWordChar_toLower, ← List.map_take,
    ← List.map_cons (f := Char.toLower), ofList_map_toLower, sameWord_foldCase_left,
    contains_foldCase, hremark, restOfLine_map_toLower]

/-! ### Tokens -/

/-- **The next token** has the same kind and length in the folded text. -/
theorem nextToken_map_toLower (state : LineState) (c : Char) (cs : List Char) :
    nextToken state c.toLower (cs.map Char.toLower) = nextToken state c cs := by
  simp (disch := decide) only [nextToken, isBreakChar_toLower, isBlankChar_toLower, toLower_beq,
    isAlpha_toLower, isDigit_toLower, ← List.map_cons (f := Char.toLower),
    lineBreakLength_map_toLower, spaceLength_map_toLower, stringLength_map_toLower,
    restOfLine_map_toLower, directive?_map_toLower, radixLength?_map_toLower,
    wordToken_map_toLower, runLength_map_toLower isWordChar_toLower]

/-- What the lexer remembers of a line after a token does not depend on the case of the token. -/
theorem LineState.after_fold (state : LineState) (t : Token) :
    state.after t.fold = state.after t := by
  have hseparator : (foldCase t.text == ":") = (t.text == ":") := by
    rw [Bool.eq_iff_iff, beq_iff_eq, beq_iff_eq]
    exact foldCase_eq_iff rfl (by decide)
  rw [LineState.after, LineState.after]
  simp only [Token.fold, hseparator]

/-- Folding commutes with reading a text, by induction on what is left of it. -/
theorem scan_map_toLower (state : LineState) (cs : List Char) :
    scan state (cs.map Char.toLower) = (scan state cs).map Token.fold := by
  fun_induction scan state cs with
  | case1 state => simp [scan]
  | case2 state c cs kind n hnext token ih =>
    have htoken : (⟨kind, String.ofList (c.toLower :: (cs.map Char.toLower).take n)⟩ : Token) =
        token.fold := by
      rw [← List.map_take, ← List.map_cons, ofList_map_toLower]
      rfl
    rw [List.map_cons, scan, nextToken_map_toLower, hnext]
    simp only [htoken, LineState.after_fold, ← List.map_drop, ih, List.map_cons]

/-- The same for a module, which may begin with a byte order mark. -/
theorem scanModule_map_toLower (cs : List Char) :
    scanModule (cs.map Char.toLower) = (scanModule cs).map Token.fold := by
  have hmark : (cs.map Char.toLower).head? = some '\uFEFF' ↔ cs.head? = some '\uFEFF' := by
    rw [← beq_iff_eq, head?_map_toLower_beq cs (by decide), beq_iff_eq]
  by_cases h : cs.head? = some '\uFEFF'
  · obtain ⟨cs, rfl⟩ := List.head?_eq_some_iff.mp h
    rw [List.map_cons, show '\uFEFF'.toLower = '\uFEFF' by decide, scanModule_mark,
      scanModule_mark, scan_map_toLower]
    rfl
  · rw [scanModule_of_head?_ne h, scanModule_of_head?_ne (mt hmark.mp h), scan_map_toLower]

/-! ### The name of the module -/

/-- The text in the quotes is folded with them. -/
theorem unquoted?_foldCase (text : String) :
    unquoted? (foldCase text) = (unquoted? text).map foldCase := by
  rw [unquoted?, unquoted?, toList_foldCase]
  cases text.toList with
  | nil => rfl
  | cons c cs =>
    have hquote : ((cs.map Char.toLower).getLast? == some '"') = (cs.getLast? == some '"') := by
      rw [← List.head?_reverse, ← List.map_reverse, head?_map_toLower_beq _ (by decide),
        List.head?_reverse]
    simp only [List.map_cons, List.length_map, hquote, ← List.map_dropLast, ofList_map_toLower]
    split <;> rfl

/-- The line that names the module is found whatever its case. -/
theorem beginsNameLine_map_fold (ts : List Token) :
    beginsNameLine (ts.map Token.fold) = beginsNameLine ts := by
  match ts with
  | [] => rfl
  | [_] => rfl
  | [_, _] => rfl
  | a :: s :: v :: ts =>
    simp only [List.map_cons, beginsNameLine, keepsWords_fold.kind_eq, keepsWords_fold.spells_eq,
      keepsWords_fold.isBlank_eq]

/-- The literal with the name of the module is taken apart at the same places. -/
theorem splitNames_map_fold (due : Nat) (ts : List Token) :
    splitNames due (ts.map Token.fold) = (splitNames due ts).map Token.fold := by
  fun_induction splitNames due ts with
  | case1 due => simp [splitNames]
  | case2 due t ts hbreak ih =>
    rw [List.map_cons, splitNames, if_pos (by rwa [keepsWords_fold.isLineBreak_eq]), ih,
      List.map_cons]
  | case3 due t ts hbreak hstring name hname ih =>
    have hquote : quoteToken.fold = quoteToken := by decide
    rw [List.map_cons, splitNames, if_neg (by rwa [keepsWords_fold.isLineBreak_eq]),
      keepsWords_fold.kind_eq, if_pos hstring]
    simp only [Token.fold, unquoted?_foldCase, hname, Option.map_some]
    rw [ih, List.map_cons, List.map_cons, List.map_cons, hquote]
    rfl
  | case4 due t ts hbreak hstring hname ih =>
    rw [List.map_cons, splitNames, if_neg (by rwa [keepsWords_fold.isLineBreak_eq]),
      keepsWords_fold.kind_eq, if_pos hstring]
    simp only [Token.fold, unquoted?_foldCase, hname, Option.map_none]
    rw [ih, List.map_cons]
    rfl
  | case5 due t ts hbreak hstring hbegins ih =>
    rw [List.map_cons, splitNames, if_neg (by rwa [keepsWords_fold.isLineBreak_eq]),
      keepsWords_fold.kind_eq, if_neg hstring,
      if_pos (by rwa [← List.map_cons, beginsNameLine_map_fold]), ih, List.map_cons]
  | case6 due t ts hbreak hstring hbegins ih =>
    rw [List.map_cons, splitNames, if_neg (by rwa [keepsWords_fold.isLineBreak_eq]),
      keepsWords_fold.kind_eq, if_neg hstring,
      if_neg (by rwa [← List.map_cons, beginsNameLine_map_fold]), ih, List.map_cons]

/-- **The tokens of a folded text are the folded tokens.** -/
theorem lex_foldCase (text : String) : lex (foldCase text) = (lex text).map Token.fold := by
  rw [lex_eq_splitNames, lex_eq_splitNames, toList_foldCase, scanModule_map_toLower,
    splitNames_map_fold]

end Lexer

end VbaModules

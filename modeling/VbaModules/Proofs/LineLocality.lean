import VbaModules.Proofs.Lexemes

/-!
# Lexing is local to lines

A text that ends with a line break can be lexed apart from the text that follows it. The lexer does
look ahead, and it carries a state along, but both come to an end at a line break: no rule looks
past the end of the line (`Lexeme.of_sameLine`), the state after a line break is that at the start
of a module, and a name line waits for its literal no longer than to the end of the line.

Three things have to be excluded, and no more. A line break within a continuation is a part of a
blank, so that the text does not end with a line break as a token. A byte order mark is a blank only
at the very start of a module. And a carriage return at the end of the one text would form one line
break with a line feed at the start of the other.
-/

namespace VbaModules.Lexer

open Text

/-! ### Texts with the same line ahead -/

/-- The two texts agree up to the end of their first line, and if the line of the one ends with a
line break then so does that of the other. -/
structure SameLine (line tail tail' : List Char) : Prop where
  plain : ∀ c ∈ line, isBreakChar c = false
  ends : AtLineEnd tail
  ends' : AtLineEnd tail'
  nil_iff : tail = [] ↔ tail' = []

theorem SameLine.symm {line tail tail' : List Char} (h : SameLine line tail tail') :
    SameLine line tail' tail :=
  ⟨h.plain, h.ends', h.ends, h.nil_iff.symm⟩

/-- The characters of a directive belong to one line. -/
theorem DirectiveText.isBreakChar_eq_false {d : Directive} {text : List Char}
    (h : DirectiveText d text) : ∀ c ∈ text, isBreakChar c = false := by
  have hblanks : ∀ {gap : List Char}, (∀ c ∈ gap, isBlankChar c = true) →
      ∀ c ∈ gap, isBreakChar c = false :=
    fun hgap c hc => isBreakChar_eq_false_of_isBlankChar (hgap c hc)
  have hletters : ∀ {word : List Char}, isIdentifier word = true →
      ∀ c ∈ word, isBreakChar c = false :=
    fun hword c hc =>
      isBreakChar_eq_false_of_isWordChar (forall_isWordChar_of_isIdentifier hword c hc)
  cases h with
  | oneWord hgap hword _ =>
    exact List.forall_mem_append.mpr ⟨hblanks hgap, hletters hword⟩
  | endIf hgap hfirst _ _ hgap' hsecond _ =>
    simp only [List.forall_mem_append]
    exact ⟨hblanks hgap, hletters hfirst, hblanks hgap', hletters hsecond⟩

/-- No digit breaks a line. -/
theorem RadixDigits.eq_false_of_isBreakChar {radix : Char} {p : Char → Bool}
    (h : RadixDigits radix p) {c : Char} (hc : isBreakChar c = true) : p c = false := by
  rcases eq_of_isBreakChar hc with rfl | rfl <;> rcases h with ⟨-, rfl⟩ | ⟨-, rfl⟩ <;> decide

/-- The characters of a literal with a radix belong to one line. -/
theorem RadixText.isBreakChar_eq_false {text rest : List Char} (h : RadixText text rest) :
    ∀ c ∈ text, isBreakChar c = false := by
  have hall : ∀ {radix : Char} {p : Char → Bool} {digits : List Char}, RadixDigits radix p →
      (∀ d ∈ digits, p d = true) → ∀ c ∈ radix :: digits, isBreakChar c = false := by
    intro radix p digits hradix hdigits
    refine List.forall_mem_cons.mpr ⟨?_, fun d hd => ?_⟩
    · exact isBreakChar_eq_false_of_isWordChar (isWordChar_of_isAlpha hradix.isAlpha)
    · exact isBreakChar_eq_false_of_isWordChar (hradix.isWordChar_of_digit (hdigits d hd))
  cases h with
  | plain hradix _ hdigits _ _ => exact hall hradix hdigits
  | closed hradix _ hdigits =>
    rw [← List.cons_append]
    exact List.forall_mem_append.mpr ⟨hall hradix hdigits, by simp [isBreakChar]⟩

section SameLine

variable {line tail tail' : List Char}

/-- What one line holds of a text stands before the end of the line. -/
theorem SameLine.exists_line_eq (h : SameLine line tail tail') {text rest : List Char}
    (heq : line ++ tail = text ++ rest) (htext : ∀ c ∈ text, isBreakChar c = false) :
    ∃ more, line = text ++ more ∧ rest = more ++ tail := by
  rcases List.append_eq_append_iff.mp heq with ⟨more, rfl, htail⟩ | ⟨more, hline, hrest⟩
  · cases more with
    | nil => exact ⟨[], by simp, by simpa using htail.symm⟩
    | cons c more =>
      -- the text would go on with the line break at the start of the tail
      have hbreak := h.ends
      rw [htail, List.cons_append, AtLineEnd, notNext_cons, htext c (by simp)] at hbreak
      cases hbreak
  · exact ⟨more, hline, hrest⟩

/-- A class without line breaks does not tell the two texts apart. -/
theorem SameLine.notNext_append (h : SameLine line tail tail') {p : Char → Bool}
    (hp : ∀ c, isBreakChar c = true → p c = false) {more : List Char}
    (hnext : NotNext p (more ++ tail)) : NotNext p (more ++ tail') := by
  cases more with
  | nil =>
    refine h.ends'.imp fun c hc => ?_
    cases hbreak : isBreakChar c with
    | false => rfl
    | true =>
      rw [hp c hbreak] at hc
      cases hc
  | cons c more => exact hnext

/-- The texts begin with alike characters. -/
theorem SameLine.head_rel (h : SameLine line tail tail') :
    Option.Rel Alike (line ++ tail).head? (line ++ tail').head? := by
  cases line with
  | cons c line => exact .some (.inl rfl)
  | nil =>
    cases tail with
    | nil =>
      rw [h.nil_iff.mp rfl]
      exact .none
    | cons c tail =>
      cases tail' with
      | nil => cases h.nil_iff.mpr rfl
      | cons d tail' =>
        have hc := h.ends
        have hd := h.ends'
        rw [AtLineEnd, notNext_cons, Bool.not_eq_false'] at hc hd
        exact .some (.inr (.inl ⟨hc, hd⟩))

/-- Whether a line continuation follows does not depend on later lines. -/
theorem SameLine.continuation? (h : SameLine line tail tail')
    (hnone : continuation? (line ++ tail) = none) : continuation? (line ++ tail') = none := by
  by_contra hsome
  obtain ⟨n, hn⟩ := Option.ne_none_iff_exists'.mp hsome
  obtain ⟨gap, lineBreak, rest, heq, hgap, hbreak, -, -⟩ := exists_continuation hn
  have hplain : ∀ c ∈ '_' :: gap, isBreakChar c = false :=
    List.forall_mem_cons.mpr
      ⟨by decide, fun c hc => isBreakChar_eq_false_of_isBlankChar (hgap c hc)⟩
  obtain ⟨more, rfl, hmore⟩ := h.symm.exists_line_eq
    (show line ++ tail' = ('_' :: gap) ++ (lineBreak ++ rest) from heq) hplain
  -- the line goes on with the line break, so the line is at its end
  obtain rfl : more = [] := by
    cases more with
    | nil => rfl
    | cons c more =>
      have hc : isBreakChar c = false := h.plain c (by simp)
      rcases hbreak with rfl | rfl | rfl <;> rw [List.cons_append, List.cons_append] at hmore <;>
        rw [← (List.cons.inj hmore).1] at hc <;> exact absurd hc (by decide)
  have htail : lineBreakLength tail ≠ 0 := by
    rw [ne_eq, lineBreakLength_eq_zero_iff]
    intro hnext
    cases tail with
    | nil =>
      rw [h.nil_iff.mp rfl] at hmore
      rcases hbreak with rfl | rfl | rfl <;> cases hmore
    | cons c tail =>
      have hc := h.ends
      rw [AtLineEnd, notNext_cons, notNext_cons.mp hnext] at hc
      cases hc
  obtain ⟨lineBreak', rest', rfl, -, hbreak', hunsplit'⟩ := exists_lineBreak htail
  rw [List.append_nil, List.cons_append, continuation?_append hgap hbreak' hunsplit'] at hnone
  cases hnone

/-- Nor does whether a directive follows. -/
theorem SameLine.directive? (h : SameLine line tail tail')
    (hnone : directive? (line ++ tail) = none) : directive? (line ++ tail') = none := by
  by_contra hsome
  obtain ⟨⟨d, n⟩, hd⟩ := Option.ne_none_iff_exists'.mp hsome
  obtain ⟨text, rest, heq, -, htext, hends⟩ := exists_directiveText hd
  obtain ⟨more, rfl, rfl⟩ := h.symm.exists_line_eq heq htext.isBreakChar_eq_false
  have hword : ∀ c, isBreakChar c = true → isWordChar c = false := by
    intro c hc
    rcases eq_of_isBreakChar hc with rfl | rfl <;> decide
  rw [List.append_assoc, htext.directive?_append (h.symm.notNext_append hword hends)] at hnone
  cases hnone

/-- A literal with a radix stays one. -/
theorem SameLine.radixText (h : SameLine line tail tail') {text : List Char} {more : List Char}
    (htext : RadixText text (more ++ tail)) : RadixText text (more ++ tail') := by
  cases htext with
  | plain hradix hne hdigits hrest hmark =>
    refine .plain hradix hne hdigits (h.notNext_append ?_ hrest) (h.notNext_append ?_ hmark)
    · exact fun c hc => hradix.eq_false_of_isBreakChar hc
    · intro c hc
      rcases eq_of_isBreakChar hc with rfl | rfl <;> rfl
  | closed hradix hne hdigits => exact .closed hradix hne hdigits

/-- Where there is no such literal, there is none before other lines. -/
theorem SameLine.radixLength? (h : SameLine line tail tail')
    (hnone : radixLength? (line ++ tail) = none) : radixLength? (line ++ tail') = none := by
  by_contra hsome
  obtain ⟨n, hn⟩ := Option.ne_none_iff_exists'.mp hsome
  obtain ⟨text, rest, heq, -, htext⟩ := exists_radixText hn
  obtain ⟨more, rfl, rfl⟩ := h.symm.exists_line_eq heq htext.isBreakChar_eq_false
  rw [List.append_assoc, (h.symm.radixText htext).radixLength?_append] at hnone
  cases hnone

/-- **No rule looks past the end of the line**: a text may be exchanged for another one with the
same line ahead. -/
theorem Lexeme.of_sameLine {state : LineState} {kind : Token.Kind} {text : List Char}
    (h : Lexeme state kind text (line ++ tail)) (hline : SameLine line tail tail')
    (hunsplit : Unsplit text (line ++ tail) → Unsplit text (line ++ tail')) :
    Lexeme state kind text (line ++ tail') :=
  h.of_standsFor ⟨hline.head_rel, hline.continuation?, hline.directive?⟩ hunsplit fun _ =>
    ⟨fun _ => hline.radixText, hline.radixLength?⟩

end SameLine

/-! ### Rows of lexemes that end a line -/

/-- Whether the last token is a line break. -/
def endsLine (ts : List Token) : Bool :=
  ts.getLast?.any Token.isLineBreak

theorem endsLine_cons_cons (t u : Token) (us : List Token) :
    endsLine (t :: u :: us) = endsLine (u :: us) := by
  rw [endsLine, endsLine, List.getLast?_cons_cons]

theorem endsLine_cons_of_ne_nil {t : Token} {ts : List Token} (h : ts ≠ []) :
    endsLine (t :: ts) = endsLine ts := by
  obtain ⟨u, us, rfl⟩ := List.exists_cons_of_ne_nil h
  exact endsLine_cons_cons t u us

/-- A row that ends with a line break has a line before it. -/
theorem Cuts.exists_line {state : LineState} {ts : List Token} (h : Cuts state ts)
    (hends : endsLine ts = true) :
    ∃ line c tail, charsOf ts = line ++ c :: tail ∧ (∀ d ∈ line, isBreakChar d = false) ∧
      isBreakChar c = true := by
  have hbreak : ∃ c ∈ charsOf ts, isBreakChar c = true := by
    induction h with
    | nil => cases hends
    | @cons state t ts hlexeme _ ih =>
      rw [charsOf_cons]
      by_cases hnil : ts = []
      · have hkind : t.kind = .lineBreak := by
          simpa [hnil, endsLine, Token.isLineBreak] using hends
        rw [hkind] at hlexeme
        rcases (lexeme_lineBreak_iff.mp hlexeme).1 with htext | htext | htext <;> rw [htext] <;>
          simp [isBreakChar]
      · obtain ⟨c, hc, hbreak⟩ := ih (endsLine_cons_of_ne_nil hnil ▸ hends)
        exact ⟨c, List.mem_append_right _ hc, hbreak⟩
  obtain ⟨line, rest, hrest, -, hplain, hlineEnds⟩ := exists_run (!isBreakChar ·) (charsOf ts)
  cases rest with
  | nil =>
    obtain ⟨c, hc, hbreak⟩ := hbreak
    rw [hrest, List.append_nil] at hc
    simpa [hbreak] using hplain c hc
  | cons c tail =>
    rw [notNext_cons, Bool.not_eq_false'] at hlineEnds
    exact ⟨line, c, tail, hrest, by simpa using hplain, hlineEnds⟩

/-- Behind a line break a line begins. -/
theorem LineState.after_of_isLineBreak {state : LineState} {t : Token}
    (h : t.isLineBreak = true) : state.after t = .start := by
  have hkind : t.kind = .lineBreak := by simpa [Token.isLineBreak] using h
  simp [LineState.after, hkind]

/-- **Rows of lexemes may be put together at a line break.** By induction on the first row: each of
its lexemes but the last has the rest of a line ahead, and the last is a line break. -/
theorem Cuts.append {state : LineState} {ts us : List Token} (hts : Cuts state ts)
    (hends : endsLine ts = true) (hus : Cuts .start us)
    (hunsplit : Unsplit (charsOf ts) (charsOf us)) : Cuts state (ts ++ us) := by
  induction hts with
  | nil => cases hends
  | @cons state t ts hlexeme hrest ih =>
    rw [charsOf_cons] at hunsplit
    by_cases hnil : ts = []
    · subst hnil
      have hbreak : t.isLineBreak = true := by simpa [endsLine] using hends
      have hkind : t.kind = .lineBreak := by simpa [Token.isLineBreak] using hbreak
      rw [charsOf_nil, List.append_nil] at hunsplit
      refine .cons ?_ (LineState.after_of_isLineBreak hbreak ▸ hus)
      rw [hkind] at hlexeme ⊢
      exact .lineBreak (lexeme_lineBreak_iff.mp hlexeme).1 hunsplit
    · have hends' : endsLine ts = true := endsLine_cons_of_ne_nil hnil ▸ hends
      refine .cons ?_ (ih hends' hunsplit.of_append)
      obtain ⟨line, c, tail, hchars, hplain, hc⟩ := hrest.exists_line hends'
      have hsame : SameLine line (c :: tail) (c :: tail ++ charsOf us) :=
        ⟨hplain, notNext_cons.mpr (by simp [hc]), notNext_cons.mpr (by simp [hc]), by simp⟩
      rw [hchars] at hlexeme
      rw [List.append_eq, charsOf_append, hchars, List.append_assoc]
      refine hlexeme.of_sameLine hsame fun h hlast => ?_
      have hnext := h hlast
      cases line with
      | nil => exact hnext
      | cons d line => exact hnext

/-! ### Name lines -/

theorem splitNames_ne_nil {due : Nat} {t : Token} {ts : List Token} :
    splitNames due (t :: ts) ≠ [] := by
  rw [splitNames]
  split
  · simp
  · split
    · split <;> simp
    · split <;> simp

/-- Taking literals apart keeps a line break at the end and brings none there. -/
theorem endsLine_splitNames {due : Nat} {ts : List Token} :
    endsLine (splitNames due ts) = endsLine ts := by
  have hcons : ∀ (t : Token) (due : Nat) (ts : List Token),
      endsLine (splitNames due ts) = endsLine ts →
      endsLine (t :: splitNames due ts) = endsLine (t :: ts) := by
    intro t due ts ih
    cases ts with
    | nil => rfl
    | cons u us =>
      rw [endsLine_cons_of_ne_nil splitNames_ne_nil, endsLine_cons_cons, ih]
  fun_induction splitNames due ts with
  | case1 => rfl
  | case2 due t ts _ ih => exact hcons t 0 ts ih
  | case3 due t ts hbreak _ name _ ih =>
    rw [endsLine_cons_cons, endsLine_cons_cons, hcons quoteToken _ ts ih]
    cases ts with
    | nil =>
      -- neither the literal nor the quote that closes it is a line break
      have hlast : t.isLineBreak = quoteToken.isLineBreak := Bool.eq_false_iff.mpr hbreak
      rw [endsLine, endsLine, List.getLast?_singleton, List.getLast?_singleton, Option.any_some,
        Option.any_some, hlast]
    | cons u us => rw [endsLine_cons_cons, endsLine_cons_cons]
  | case4 due t ts _ _ _ ih => exact hcons t 0 ts ih
  | case5 due t ts _ _ _ ih => exact hcons t (due + 1) ts ih
  | case6 due t ts _ _ _ ih => exact hcons t due ts ih

/-- Whether a name line begins is decided before the end of the line. -/
theorem beginsNameLine_append {t : Token} {ts us : List Token} (hne : ts ≠ [])
    (hends : endsLine ts = true) :
    beginsNameLine (t :: (ts ++ us)) = beginsNameLine (t :: ts) := by
  match ts, hne with
  | [s], _ =>
    have hs : s.isBlank = false := by
      have hkind : s.kind = .lineBreak := by simpa [endsLine, Token.isLineBreak] using hends
      simp [Token.isBlank, hkind]
    cases us with
    | nil => rfl
    | cons v us => simp [beginsNameLine, hs]
  | s :: v :: ts, _ => rfl

/-- No name line waits for its literal past a line break. -/
theorem splitNames_append {due : Nat} {ts us : List Token} (hends : endsLine ts = true) :
    splitNames due (ts ++ us) = splitNames due ts ++ splitNames 0 us := by
  have hrest : ∀ {t : Token} {ts : List Token}, ¬t.isLineBreak = true → endsLine (t :: ts) = true →
      ts ≠ [] ∧ endsLine ts = true := by
    intro t ts hbreak hends
    cases ts with
    | nil => exact absurd (by simpa [endsLine] using hends) hbreak
    | cons u us => exact ⟨by simp, endsLine_cons_cons t u us ▸ hends⟩
  -- all cases but the line break need that the rest of the tokens ends a line too
  fun_induction splitNames due ts with
  | case1 => cases hends
  | case2 due t ts hbreak ih =>
    rw [List.cons_append, splitNames, if_pos hbreak, List.cons_append]
    cases ts with
    | nil => simp [splitNames]
    | cons u ts => rw [ih (endsLine_cons_cons t u ts ▸ hends)]
  | case3 due t ts hbreak hliteral name hname ih =>
    obtain ⟨-, hends'⟩ := hrest hbreak hends
    rw [List.cons_append, splitNames, if_neg hbreak, if_pos hliteral, hname, ih hends']
    rfl
  | case4 due t ts hbreak hliteral hname ih =>
    obtain ⟨-, hends'⟩ := hrest hbreak hends
    rw [List.cons_append, splitNames, if_neg hbreak, if_pos hliteral, hname, ih hends']
    rfl
  | case5 due t ts hbreak hliteral hbegins ih =>
    obtain ⟨hne, hends'⟩ := hrest hbreak hends
    rw [List.cons_append, splitNames, if_neg hbreak, if_neg hliteral,
      if_pos (by rwa [beginsNameLine_append hne hends']), ih hends']
    rfl
  | case6 due t ts hbreak hliteral hbegins ih =>
    obtain ⟨hne, hends'⟩ := hrest hbreak hends
    rw [List.cons_append, splitNames, if_neg hbreak, if_neg hliteral,
      if_neg (by rwa [beginsNameLine_append hne hends']), ih hends']
    rfl

/-! ### Texts one after the other -/

/-- **Texts are scanned one after the other** if the first ends a line and no line ending is split.
-/
theorem scan_append {state : LineState} {as bs : List Char}
    (hends : endsLine (scan state as) = true) (hunsplit : Unsplit as bs) :
    scan state (as ++ bs) = scan state as ++ scan .start bs := by
  have hcuts := (cuts_scan state as).append hends (cuts_scan .start bs)
    (by rwa [charsOf_scan, charsOf_scan])
  have hscan := hcuts.scan_eq
  rwa [charsOf_append, charsOf_scan, charsOf_scan] at hscan

/-- The same for modules, where the first text may begin with a byte order mark. -/
theorem scanModule_append {as bs : List Char} (hends : endsLine (scanModule as) = true)
    (hmark : bs.head? ≠ some '\uFEFF') (hunsplit : Unsplit as bs) :
    scanModule (as ++ bs) = scanModule as ++ scanModule bs := by
  rw [scanModule_of_head?_ne hmark]
  by_cases hhead : as.head? = some '\uFEFF'
  · obtain ⟨cs, rfl⟩ := List.head?_eq_some_iff.mp hhead
    have hne : scan .start cs ≠ [] := by
      intro hnil
      rw [scanModule_mark, hnil] at hends
      cases hends
    rw [scanModule_mark, endsLine_cons_of_ne_nil hne] at hends
    have hrest : Unsplit cs bs := (show Unsplit (['\uFEFF'] ++ cs) bs from hunsplit).of_append
    rw [List.cons_append, scanModule_mark, scanModule_mark, scan_append hends hrest,
      List.cons_append]
  · rw [scanModule_of_head?_ne hhead] at hends ⊢
    have hhead' : (as ++ bs).head? ≠ some '\uFEFF' := by
      cases as with
      | nil =>
        rw [scan] at hends
        cases hends
      | cons c cs => exact hhead
    rw [scanModule_of_head?_ne hhead', scan_append hends hunsplit]

/-- **Lexing is local to lines**: if the first text ends with a line break as a token, the second
one does not begin with a byte order mark, and the cut does not divide a line break, then the tokens
of the two texts in a row are those of the one and then those of the other. -/
theorem lex_append {a b : String} (hends : (lex a).getLast?.any Token.isLineBreak = true)
    (hmark : b.toList.head? ≠ some '\uFEFF')
    (hcut : ¬(a.toList.getLast? = some '\r' ∧ b.toList.head? = some '\n')) :
    lex (a ++ b) = lex a ++ lex b := by
  have hends' : endsLine (scanModule a.toList) = true := by
    rw [← endsLine_splitNames, ← lex_eq_splitNames]
    exact hends
  have hunsplit : Unsplit a.toList b.toList := by
    intro hlast c hc
    refine beq_eq_false_iff_ne.mpr ?_
    rintro rfl
    exact hcut ⟨hlast, hc⟩
  rw [lex_eq_splitNames, lex_eq_splitNames, lex_eq_splitNames, String.toList_append,
    scanModule_append hends' hmark hunsplit, splitNames_append hends']

/-- A name line that lacks its literal does not take the one of the next line, and a carriage return
is a line break by itself. -/
theorem lex_nameLine_append_literal :
    lex ("Attribute VB_Name =\r" ++ "Rem \"Grid\"") =
      lex "Attribute VB_Name =\r" ++ lex "Rem \"Grid\"" :=
  lex_append (by decide +kernel) (by decide) (by decide)

end VbaModules.Lexer

import VbaModules.Proofs.Lexemes

/-!
# Looking ahead at texts with exchanged words

If some names of a module are exchanged for others, the text ahead of a token changes. As far as the
lexer looks, it then differs from the text before in some whole words, none of which is reserved
(`Reworded`). A line continuation or a directive does not come up in this way: a continuation has no
letters, and the words of a directive are reserved, so they must have been there before. Hence such
a text can stand for the one before (`Reworded.standsFor`).
-/

namespace VbaModules.Lexer

open Text

/-! ### Texts with some words exchanged -/

/-- Whether the lexer stops looking ahead at a character: it is neither a blank nor part of a
word. -/
def stopsLook (c : Char) : Bool :=
  !isBlankChar c && !isWordChar c

theorem stopsLook_iff {c : Char} :
    stopsLook c = true ↔ isBlankChar c = false ∧ isWordChar c = false := by
  simp [stopsLook]

/-- As far as the lexer looks ahead, the two texts **differ in whole names only**. The flag tells
whether the character before is part of a word, so that no name can begin. -/
inductive Reworded : Bool → List Char → List Char → Prop where
  | nil {inWord : Bool} : Reworded inWord [] []
  | stop {inWord : Bool} {c : Char} {cs cs' : List Char} (hc : stopsLook c = true) :
      Reworded inWord (c :: cs) (c :: cs')
  | keep {inWord : Bool} {c : Char} {cs cs' : List Char} (hcs : Reworded (isWordChar c) cs cs') :
      Reworded inWord (c :: cs) (c :: cs')
  | name {name name' cs cs' : List Char} (hname : isIdentifier name = true)
      (hname' : isIdentifier name' = true)
      (hfree : Keyword.contains (String.ofList name') = false) (hends : NotNext isWordChar cs)
      (hends' : NotNext isWordChar cs') (hcs : Reworded true cs cs') :
      Reworded false (name ++ cs) (name' ++ cs')

section Reworded

variable {inWord : Bool} {cs cs' : List Char}

theorem exists_cons_of_isIdentifier {word : List Char} (h : isIdentifier word = true) :
    ∃ c letters, word = c :: letters ∧ c.isAlpha = true ∧ ∀ d ∈ letters, isWordChar d = true := by
  obtain ⟨c, letters, rfl⟩ := List.exists_cons_of_ne_nil (show word ≠ [] by rintro rfl; simp at h)
  exact ⟨c, letters, rfl, isIdentifier_cons.mp h⟩

/-- The first characters are the same or both letters. -/
theorem Reworded.head_rel (h : Reworded inWord cs cs') :
    Option.Rel (fun c d => c = d ∨ (c.isAlpha = true ∧ d.isAlpha = true)) cs.head? cs'.head? := by
  cases h with
  | nil => exact .none
  | stop => exact .some (.inl rfl)
  | keep => exact .some (.inl rfl)
  | name hname hname' =>
    obtain ⟨c, letters, rfl, hc, -⟩ := exists_cons_of_isIdentifier hname
    obtain ⟨d, letters', rfl, hd, -⟩ := exists_cons_of_isIdentifier hname'
    exact .some (.inr ⟨hc, hd⟩)

/-- Where no word begins, it does not matter what stands before. -/
theorem Reworded.of_notNext (h : Reworded inWord cs cs') (hnext : NotNext isWordChar cs)
    (inWord' : Bool) : Reworded inWord' cs cs' := by
  cases h with
  | nil => exact .nil
  | stop hc => exact .stop hc
  | keep hcs => exact .keep hcs
  | name hname =>
    obtain ⟨c, letters, rfl, hc, -⟩ := exists_cons_of_isIdentifier hname
    rw [List.cons_append, notNext_cons, isWordChar_of_isAlpha hc] at hnext
    cases hnext

/-- The blanks at the start are the same. -/
theorem Reworded.exists_blanks (h : Reworded inWord cs cs') :
    ∃ gap rest rest' inWord', cs = gap ++ rest ∧ cs' = gap ++ rest' ∧
      (∀ c ∈ gap, isBlankChar c = true) ∧ NotNext isBlankChar rest ∧ NotNext isBlankChar rest' ∧
      Reworded inWord' rest rest' ∧ (inWord = false → inWord' = false) := by
  -- where neither text begins with a blank, the common blanks are none
  have hstart : ∀ {inWord : Bool} {cs cs' : List Char}, Reworded inWord cs cs' →
      NotNext isBlankChar cs → NotNext isBlankChar cs' →
      ∃ gap rest rest' inWord', cs = gap ++ rest ∧ cs' = gap ++ rest' ∧
        (∀ c ∈ gap, isBlankChar c = true) ∧ NotNext isBlankChar rest ∧ NotNext isBlankChar rest' ∧
        Reworded inWord' rest rest' ∧ (inWord = false → inWord' = false) :=
    fun h hcs hcs' => ⟨[], _, _, _, rfl, rfl, by simp, hcs, hcs', h, id⟩
  induction h with
  | nil => exact hstart .nil (notNext_nil _) (notNext_nil _)
  | stop hc =>
    have hblank := (stopsLook_iff.mp hc).1
    exact hstart (.stop hc) (notNext_cons.mpr hblank) (notNext_cons.mpr hblank)
  | @keep inWord c cs cs' hcs ih =>
    cases hc : isBlankChar c with
    | false => exact hstart (.keep hcs) (notNext_cons.mpr hc) (notNext_cons.mpr hc)
    | true =>
      obtain ⟨gap, rest, rest', inWord', rfl, rfl, hgap, hrest, hrest', hreworded, hflag⟩ := ih
      exact ⟨c :: gap, rest, rest', inWord', rfl, rfl, List.forall_mem_cons.mpr ⟨hc, hgap⟩, hrest,
        hrest', hreworded, fun _ => hflag (isWordChar_eq_false_of_isBlankChar hc)⟩
  | name hname hname' hfree hends hends' hcs =>
    obtain ⟨c, letters, rfl, hc, -⟩ := exists_cons_of_isIdentifier hname
    obtain ⟨d, letters', rfl, hd, -⟩ := exists_cons_of_isIdentifier hname'
    refine hstart (.name hname hname' hfree hends hends' hcs) (notNext_cons.mpr ?_)
      (notNext_cons.mpr ?_)
    · exact isBlankChar_eq_false_of_isWordChar (isWordChar_of_isAlpha hc)
    · exact isBlankChar_eq_false_of_isWordChar (isWordChar_of_isAlpha hd)

/-- A word that has begun goes on with the same characters. -/
theorem Reworded.exists_letters (h : Reworded inWord cs cs') (hflag : inWord = true) :
    ∃ letters rest rest', cs = letters ++ rest ∧ cs' = letters ++ rest' ∧
      (∀ c ∈ letters, isWordChar c = true) ∧ NotNext isWordChar rest ∧ NotNext isWordChar rest' ∧
      Reworded false rest rest' := by
  induction h with
  | nil => exact ⟨[], [], [], rfl, rfl, by simp, notNext_nil _, notNext_nil _, .nil⟩
  | @stop _ c cs cs' hc =>
    have hword := (stopsLook_iff.mp hc).2
    exact ⟨[], c :: cs, c :: cs', rfl, rfl, by simp, notNext_cons.mpr hword,
      notNext_cons.mpr hword, .stop hc⟩
  | @keep _ c cs cs' hcs ih =>
    cases hc : isWordChar c with
    | false =>
      exact ⟨[], c :: cs, c :: cs', rfl, rfl, by simp, notNext_cons.mpr hc, notNext_cons.mpr hc,
        .keep hcs⟩
    | true =>
      obtain ⟨letters, rest, rest', rfl, rfl, hletters, hrest, hrest', hreworded⟩ := ih hc
      exact ⟨c :: letters, rest, rest', rfl, rfl, List.forall_mem_cons.mpr ⟨hc, hletters⟩, hrest,
        hrest', hreworded⟩
  | name => cases hflag

/-- **A reserved word ahead was there before**, after the same blanks. -/
theorem Reworded.exists_reserved (h : Reworded false cs cs') {gap word rest' : List Char}
    (hcs' : cs' = gap ++ (word ++ rest')) (hgap : ∀ c ∈ gap, isBlankChar c = true)
    (hword : isIdentifier word = true) (hreserved : Keyword.contains (String.ofList word) = true)
    (hrest' : NotNext isWordChar rest') :
    ∃ rest, cs = gap ++ (word ++ rest) ∧ NotNext isWordChar rest ∧ Reworded false rest rest' := by
  obtain ⟨c, letters, rfl, hc, hletters⟩ := exists_cons_of_isIdentifier hword
  have hcWord := isWordChar_of_isAlpha hc
  obtain ⟨blanks, tail, tail', inWord, rfl, hblanksEq, hblanks, -, htail', htail, hflag⟩ :=
    h.exists_blanks
  rw [hblanksEq] at hcs'
  obtain ⟨rfl, rfl⟩ := run_unique hcs' hblanks htail' hgap
    (notNext_cons.mpr (isBlankChar_eq_false_of_isWordChar hcWord))
  obtain rfl := hflag rfl
  generalize hword' : c :: letters ++ rest' = text' at htail
  cases htail with
  | nil => cases hword'
  | stop hstop =>
    obtain ⟨rfl, -⟩ := List.cons.inj hword'
    rw [(stopsLook_iff.mp hstop).2] at hcWord
    cases hcWord
  | keep hcs =>
    -- the first letter was there before, and the word goes on as it did
    obtain ⟨rfl, hrest⟩ := List.cons.inj hword'
    obtain ⟨more, rest, rest'', rfl, rfl, hmore, hrestEnds, hrestEnds', hreworded⟩ :=
      hcs.exists_letters hcWord
    obtain ⟨rfl, rfl⟩ := run_unique hrest hletters hrest' hmore hrestEnds'
    exact ⟨rest, rfl, hrestEnds, hreworded⟩
  | name _ hname' hfree _ hends' _ =>
    -- a new name is not reserved
    obtain ⟨rfl, rfl⟩ := run_unique hword' (forall_isWordChar_of_isIdentifier hword) hrest'
      (forall_isWordChar_of_isIdentifier hname') hends'
    rw [hreserved] at hfree
    cases hfree

/-! ### Looking ahead at exchanged words -/

/-- A word is reserved if it is one of the reserved words, ignoring ASCII case. -/
theorem contains_of_mem {word keyword : String} (hkeyword : keyword ∈ Keyword.all)
    (h : foldCase word = foldCase keyword) : Keyword.contains word = true := by
  have hkey : foldCase word ∈ Keyword.byFolded.map Prod.fst := by
    rw [Keyword.byFolded, List.map_map, h]
    exact List.mem_map.mpr ⟨keyword, hkeyword, rfl⟩
  rw [Keyword.contains, Keyword.editorSpelling?, Option.isSome_iff_ne_none, ne_eq,
    List.lookup_eq_none_iff]
  obtain ⟨pair, hpair, hfst⟩ := List.mem_map.mp hkey
  intro hnone
  exact absurd hfst.symm (by simpa using hnone pair hpair)

/-- The words of directives are reserved. -/
theorem contains_of_directiveNamed? {word : String} {d : Directive}
    (h : directiveNamed? (foldCase word) = some d) : Keyword.contains word = true := by
  unfold directiveNamed? at h
  split at h
  next hword => exact contains_of_mem (show "If" ∈ Keyword.all by decide) hword
  next hword => exact contains_of_mem (show "ElseIf" ∈ Keyword.all by decide) hword
  next hword => exact contains_of_mem (show "Else" ∈ Keyword.all by decide) hword
  next hword => exact contains_of_mem (show "EndIf" ∈ Keyword.all by decide) hword
  next => cases h

/-- No directive comes up. -/
theorem Reworded.directive? (h : Reworded false cs cs') (hnone : directive? cs = none) :
    directive? cs' = none := by
  by_contra hsome
  obtain ⟨⟨d, n⟩, hd⟩ := Option.ne_none_iff_exists'.mp hsome
  obtain ⟨text, rest', rfl, -, htext, hends⟩ := exists_directiveText hd
  -- the words of the directive are reserved, so they were there before
  cases htext with
  | @oneWord _ gap word hgap hword hnamed =>
    obtain ⟨rest, rfl, hrest, -⟩ := h.exists_reserved (by simp) hgap hword
      (contains_of_directiveNamed? hnamed) hends
    rw [← List.append_assoc,
      (DirectiveText.oneWord hgap hword hnamed).directive?_append hrest] at hnone
    cases hnone
  | @endIf gap first gap' second hgap hfirst hend hne hgap' hsecond hif =>
    have hfirstReserved : Keyword.contains (String.ofList first) = true :=
      contains_of_mem (show "End" ∈ Keyword.all by decide) hend
    have hsecondReserved : Keyword.contains (String.ofList second) = true :=
      contains_of_mem (show "If" ∈ Keyword.all by decide) hif
    obtain ⟨tail, rfl, -, htail⟩ := h.exists_reserved (by simp) hgap hfirst hfirstReserved
      (notNext_isWordChar_of_blanks hne hgap' (second ++ rest'))
    obtain ⟨rest, rfl, hrest, -⟩ := htail.exists_reserved rfl hgap' hsecond hsecondReserved hends
    have htext := DirectiveText.endIf hgap hfirst hend hne hgap' hsecond hif
    have hassoc : gap ++ (first ++ (gap' ++ (second ++ rest))) =
        gap ++ (first ++ (gap' ++ second)) ++ rest := by
      simp only [List.append_assoc]
    rw [hassoc, htext.directive?_append hrest] at hnone
    cases hnone

/-- No line continuation comes up. -/
theorem Reworded.continuation? (h : Reworded inWord cs cs') (hnone : continuation? cs = none) :
    continuation? cs' = none := by
  by_contra hsome
  obtain ⟨n, hn⟩ := Option.ne_none_iff_exists'.mp hsome
  obtain ⟨gap, lineBreak, rest', hcs', hgap, hbreak, -, -⟩ := exists_continuation hn
  have hbreakNext : ∃ c, (lineBreak ++ rest').head? = some c ∧ isBreakChar c = true := by
    rcases hbreak with rfl | rfl | rfl
    · exact ⟨'\n', rfl, rfl⟩
    · exact ⟨'\r', rfl, rfl⟩
    · exact ⟨'\r', rfl, rfl⟩
  obtain ⟨c, hhead, hc⟩ := hbreakNext
  have hblank : NotNext isBlankChar (lineBreak ++ rest') := by
    intro d hd
    rw [hhead] at hd
    obtain rfl := Option.some.inj hd
    rcases eq_of_isBreakChar hc with rfl | rfl <;> decide
  cases h with
  | nil => cases hcs'
  | stop hstop =>
    obtain ⟨rfl, -⟩ := List.cons.inj hcs'
    exact absurd hstop (by decide)
  | keep hrest =>
    obtain ⟨rfl, htail⟩ := List.cons.inj hcs'
    obtain ⟨blanks, tail, tail', _, rfl, rfl, hblanks, -, htail', hreworded, -⟩ :=
      hrest.exists_blanks
    obtain ⟨rfl, rfl⟩ := run_unique htail hblanks htail' hgap hblank
    -- what stands after the blanks is a line break on both sides
    have hbreakBefore : ¬NotNext isBreakChar tail := by
      rw [notNext_iff_of_rel hreworded.head_rel]
      · intro hnext
        rw [hnext c hhead] at hc
        cases hc
      · rintro x y (rfl | ⟨hx, hy⟩)
        · rfl
        · rw [isBreakChar_eq_false_of_isWordChar (isWordChar_of_isAlpha hx),
            isBreakChar_eq_false_of_isWordChar (isWordChar_of_isAlpha hy)]
    rw [← lineBreakLength_eq_zero_iff] at hbreakBefore
    obtain ⟨lineBreak', rest, rfl, -, hbreak', hunsplit⟩ := exists_lineBreak hbreakBefore
    rw [continuation?_append hblanks hbreak' hunsplit] at hnone
    cases hnone
  | name _ hname' =>
    obtain ⟨d, letters, rfl, hd, -⟩ := exists_cons_of_isIdentifier hname'
    obtain ⟨rfl, -⟩ := List.cons.inj hcs'
    exact absurd hd (by decide)

/-- **A text with some words exchanged can stand for the one before.** -/
theorem Reworded.standsFor (h : Reworded false cs cs') : StandsFor cs' cs := by
  refine ⟨?_, h.continuation?, h.directive?⟩
  have hhead := h.head_rel
  generalize cs.head? = next at hhead
  generalize cs'.head? = next' at hhead
  cases hhead with
  | none => exact .none
  | some hcd => exact .some (hcd.imp id .inr)

end Reworded

end VbaModules.Lexer

import VbaModules.Proofs.OpenBlocks
import VbaModules.Proofs.TrimmedBlocks

/-!
# What a written block tells

A block of a merged module is cut out of the tokens of a module, and its text is written without the
white space around it. Read again, its lines tell about the blocks of the module what they told
before (`SeamAt.cuesOf_slice`).

That needs tokens that are read back from their texts, and clean cuts. At a *seam* the line ends, or
nothing is left of it but fillers (`Closes`), which then belong to the next block. Fillers are read
at the start of a line as they are read after code. If there are comments among them, the token
before the cut must be one that ends a procedure, a type or a conditional block: then it is clear
that no word goes on and no remark begins where the line is broken off.
-/

namespace VbaModules.Lexer

open Token Text

/-! ### White space in a row -/

section Rows

variable {state : LineState} {row : List Token}

/-- White space at the start of a row consists of blanks and line breaks. -/
theorem Cuts.blank_or_break (h : Cuts state row) (htrimmed : CodeTrimmed row)
    {lead rest : List Char} (heq : charsOf row = lead ++ rest)
    (hwhite : ∀ c ∈ lead, isWhite c = true) :
    ∀ c ∈ lead, isBlankChar c = true ∨ isBreakChar c = true := by
  induction h generalizing lead with
  | nil =>
    obtain ⟨rfl, -⟩ := List.append_eq_nil_iff.mp heq.symm
    simp
  | @cons state t ts hlexeme hrest ih =>
    obtain ⟨ht, hts⟩ := List.forall_mem_cons.mp htrimmed
    obtain ⟨first, more, htext⟩ := List.exists_cons_of_ne_nil hlexeme.text_ne_nil
    cases lead with
    | nil => simp
    | cons c lead =>
      rw [charsOf_cons] at heq
      have hfirst : c = first := by
        rw [htext] at heq
        exact (List.cons.inj heq).1.symm
      have hchars := (hlexeme.blank_or_break ht fun d hd => by
        rw [htext, List.head?_cons, Option.mem_some] at hd
        rw [← hd, ← hfirst]
        exact hwhite c List.mem_cons_self).2
      intro d hd
      -- the white space reaches behind the first token, or ends within it
      rcases List.append_eq_append_iff.mp heq with ⟨more', hlead, hmore⟩ | ⟨more', hlong, -⟩
      · rw [hlead] at hd hwhite
        obtain ⟨-, hmore'⟩ := List.forall_mem_append.mp hwhite
        rcases List.mem_append.mp hd with hd' | hd'
        · exact hchars d hd' (hwhite d hd)
        · exact ih hts hmore hmore' d hd'
      · refine hchars d ?_ (hwhite d hd)
        rw [hlong]
        exact List.mem_append_left _ hd

/-- Without carriage returns, it consists of blanks and line feeds. -/
theorem Cuts.blank_or_feed (h : Cuts state row) (htrimmed : CodeTrimmed row)
    (hreturns : '\r' ∉ charsOf row) {lead rest : List Char} (heq : charsOf row = lead ++ rest)
    (hwhite : ∀ c ∈ lead, isWhite c = true) : ∀ c ∈ lead, isBlankChar c = true ∨ c = '\n' := by
  intro c hc
  refine (h.blank_or_break htrimmed heq hwhite c hc).imp_right fun hbreak => ?_
  refine (eq_of_isBreakChar hbreak).resolve_left (ne_of_mem_of_not_mem ?_ hreturns)
  rw [heq]
  exact List.mem_append_left _ hc

/-- A row without code has nothing but fillers. -/
theorem Cuts.isFiller_of_isWhite (h : Cuts state row) (htrimmed : CodeTrimmed row)
    (hwhite : ∀ c ∈ charsOf row, isWhite c = true) : ∀ t ∈ row, t.isFiller = true := by
  intro t ht
  obtain ⟨state', rest, hlexeme⟩ := h.exists_lexeme ht
  refine (hlexeme.blank_or_break (htrimmed t ht) fun c hc => ?_).1
  exact hwhite c (List.mem_flatMap.mpr ⟨t, ht, List.mem_of_head? hc⟩)

/-- The token within which, or after which, a row is divided. -/
theorem exists_of_charsOf_eq {before after : List Char} (h : charsOf row = before ++ after)
    (hne : before ≠ []) :
    ∃ ts t us text more, row = ts ++ t :: us ∧ t.text.toList = text ++ more ∧ text ≠ [] ∧
      before = charsOf ts ++ text ∧ after = more ++ charsOf us := by
  induction row generalizing before with
  | nil =>
    rw [charsOf_nil] at h
    exact absurd (List.append_eq_nil_iff.mp h.symm).1 hne
  | cons t row ih =>
    rw [charsOf_cons] at h
    rcases List.append_eq_append_iff.mp h with ⟨later, rfl, hlater⟩ | ⟨more, htext, rfl⟩
    · by_cases hnil : later = []
      · subst hnil
        refine ⟨[], t, row, t.text.toList, [], rfl, by simp, by simpa using hne, by simp, ?_⟩
        simpa using hlater.symm
      · obtain ⟨ts, u, us, text, more, rfl, htext, hne', rfl, rfl⟩ := ih hlater hnil
        exact ⟨t :: ts, u, us, text, more, rfl, htext, hne', by simp, rfl⟩
    · exact ⟨[], t, row, before, more, rfl, htext, hne, by simp, rfl⟩

end Rows

/-! ### Tokens that close a block -/

/-- The token is one that **closes a block**: a closing directive, or a word that ends a procedure
or type. -/
def ClosesBlock (t : Token) : Prop :=
  t.kind = .conditional .closing ∨ ∃ keyword ∈ blockKeywords, sameWord t.text keyword = true

section ClosesBlock

variable {state : LineState} {t : Token} {rest : List Char}

/-- The keywords of blocks are words, and none opens a remark. -/
theorem isIdentifier_of_mem_blockKeywords {keyword : String} (h : keyword ∈ blockKeywords) :
    isIdentifier keyword.toList = true ∧ opensNoRemark keyword.toList = true := by
  have hall : ∀ keyword ∈ blockKeywords,
      isIdentifier keyword.toList = true ∧ opensNoRemark keyword.toList = true := by decide
  exact hall keyword h

/-- A token that closes a block is a directive or a word, and not the word of a remark. -/
theorem Lexeme.of_closesBlock (h : Lexeme state t.kind t.text.toList rest) (ht : ClosesBlock t) :
    t.isFiller = false ∧ NotNext isWordChar rest ∧ t.text.toList ≠ ['_'] ∧
      sameWord t.text "rem" = false := by
  have hnoRemark : ∀ {text : List Char}, opensNoRemark text = true →
      sameWord (String.ofList text) "rem" = false := by
    intro text hopens
    by_contra hrem
    rw [Bool.not_eq_false] at hrem
    cases text with
    | nil => cases hrem
    | cons c cs =>
      have hhead := toLower_eq_of_sameWord rfl hrem
      rw [opensNoRemark, List.head?_cons, Option.all_some, ← Option.some.inj hhead] at hopens
      cases hopens
  rw [← String.ofList_toList (s := t.text), String.toList_ofList]
  -- a closing directive, or one of the keywords of blocks
  rcases ht with hkind | ⟨keyword, hkeyword, hsame⟩
  · refine ⟨by rw [isFiller, hkind]; rfl, ?_⟩
    rw [hkind] at h
    generalize t.text.toList = text at h
    generalize hclosing : Token.Kind.conditional .closing = kind at h
    cases h with
    | directive _ _ hends => exact ⟨hends, by simp, hnoRemark rfl⟩
    | word => exact absurd hclosing (wordKind_ne (by decide) (by decide) _)
    | _ => cases hclosing
  · rw [← String.ofList_toList (s := t.text)] at hsame
    obtain ⟨hidentifier, hremark⟩ := isIdentifier_of_mem_blockKeywords hkeyword
    have hword := isIdentifier_of_sameWord hsame hidentifier
    have hopens := opensNoRemark_of_sameWord hsame hremark
    obtain ⟨hkind, hends⟩ := h.legible.word_of_isIdentifier hword hopens
    refine ⟨?_, hends, ?_, hnoRemark hopens⟩
    · rcases hkind with hkind | hkind <;> simp [isFiller, hkind]
    · intro hunderscore
      rw [hunderscore] at hword
      cases hword

end ClosesBlock

/-! ### Where blocks are broken off -/

/-- No word has white space in it. -/
theorem isWordChar_eq_false_of_isWhite {c : Char} (h : isWhite c = true) :
    isWordChar c = false := by
  by_contra hword
  rw [Bool.not_eq_false] at hword
  rw [isWhite_eq_false_of_isWordChar hword] at h
  cases h

theorem notNext_of_forall_isWhite {cs : List Char} (h : ∀ c ∈ cs, isWhite c = true) :
    NotNext isWordChar cs := by
  cases cs with
  | nil => exact notNext_nil _
  | cons c cs => exact notNext_cons.mpr (isWordChar_eq_false_of_isWhite (h c List.mem_cons_self))

/-- An underscore continues its line if only blanks stand before the end of the line. -/
theorem continuation?_ne_none {cs : List Char} (h : ∀ c ∈ cs, isBlankChar c = true ∨ c = '\n')
    (hfeed : '\n' ∈ cs) : continuation? ('_' :: cs) ≠ none := by
  obtain ⟨gap, rest, rfl, hnot⟩ := List.eq_append_cons_of_mem hfeed
  have hgap : ∀ c ∈ gap, isBlankChar c = true := fun c hc =>
    (h c (List.mem_append_left _ hc)).resolve_right (ne_of_mem_of_not_mem hc hnot)
  have hsome := @continuation?_append gap ['\n'] rest hgap (.inl rfl) nofun
  rw [List.singleton_append] at hsome
  rw [hsome]
  exact Option.some_ne_none _

section BreaksOff

variable {ts us : List Token} {t : Token} {text more : List Char}

/-- What a text without white space at its end keeps if white space is cut away. -/
theorem Trimmed.eq_nil_of_isWhite (h : Trimmed (text ++ more))
    (hwhite : ∀ c ∈ more, isWhite c = true) : more = [] := by
  rcases List.eq_nil_or_concat' more with hnil | ⟨most, last, rfl⟩
  · exact hnil
  · have hnot := h.last last (by rw [← List.append_assoc, List.getLast?_concat]; rfl)
    rw [hwhite last (by simp)] at hnot
    cases hnot

theorem not_isBlankChar_of_not_isWhite {c : Char} (h : isWhite c = false) :
    isBlankChar c = false ∧ isBreakChar c = false := by
  constructor
  · by_contra hblank
    rw [isWhite_of_isBlankChar (by simpa using hblank)] at h
    cases h
  · by_contra hbreak
    rw [isWhite_of_isBreakChar (by simpa using hbreak)] at h
    cases h

/-- No filler begins with an underscore. -/
theorem Lexeme.isFiller_eq_false {state : LineState} {rest : List Char}
    (h : Lexeme state t.kind t.text.toList rest) (htext : t.text.toList = '_' :: more) :
    t.isFiller = false := by
  by_contra hfiller
  rw [Bool.not_eq_false] at hfiller
  obtain ⟨kind, whole⟩ := t
  simp only at h htext
  rcases kind with _ | _ | _ | _ | _ | _ | _ | _
  case comment =>
    obtain ⟨c, cs, heq, -, hc⟩ := exists_head_of_comment h
    obtain ⟨rfl, -⟩ := List.cons.inj (htext.symm.trans heq)
    revert hc
    decide
  case blank =>
    obtain ⟨c, cs, heq, hc, -⟩ := h.exists_spacing_of_blank
    obtain ⟨rfl, -⟩ := List.cons.inj (htext.symm.trans heq)
    cases hc
  case lineBreak =>
    rcases (lexeme_lineBreak_iff.mp h).1 with heq | heq | heq <;> rw [htext] at heq <;>
      cases (List.cons.inj heq).1
  all_goals cases hfiller

/-- Code in a row of whole lines has a line feed after it. -/
theorem Cuts.feed_mem {state : LineState} (h : Cuts state (t :: us))
    (hends : endsLine (t :: us) = true) (ht : t.isFiller = false) (hreturns : '\r' ∉ charsOf us) :
    '\n' ∈ charsOf us := by
  rcases List.eq_nil_or_concat' us with rfl | ⟨most, last, rfl⟩
  · have hkind : t.kind = .lineBreak := by simpa [endsLine, isLineBreak] using hends
    rw [isFiller, hkind] at ht
    cases ht
  · rw [← List.cons_append, endsLine, List.getLast?_concat] at hends
    have hkind : last.kind = .lineBreak := by simpa [isLineBreak] using hends
    obtain ⟨state', rest, hlexeme⟩ := @Cuts.exists_lexeme _ _ h last (by simp)
    rw [hkind] at hlexeme
    rw [charsOf_append, charsOf_cons, charsOf_nil, List.append_nil, List.mem_append] at hreturns ⊢
    rcases (lexeme_lineBreak_iff.mp hlexeme).1 with heq | heq | heq <;> rw [heq] at hreturns ⊢ <;>
      simp at hreturns ⊢

/-- Whole lines may be broken off where only white space is left. -/
theorem Cuts.breaksOff (h : Cuts .start (ts ++ t :: us)) (htrimmed : CodeTrimmed (ts ++ t :: us))
    (hends : endsLine (ts ++ t :: us) = true) (hreturns : '\r' ∉ charsOf us)
    (htext : t.text.toList = text ++ more) (hlast : ∃ c, text.getLast? = some c ∧ isWhite c = false)
    (hwhite : ∀ c ∈ more ++ charsOf us, isWhite c = true) : BreaksOff t text more us := by
  have hdrop := h.drop
  obtain ⟨hmore, hus⟩ := List.forall_mem_append.mp hwhite
  obtain ⟨-, htrimmed⟩ := List.forall_mem_append.mp htrimmed
  obtain ⟨ht, htrimmed⟩ := List.forall_mem_cons.mp htrimmed
  have hends' : endsLine (t :: us) = true := by
    rwa [endsLine, List.getLast?_append_of_ne_nil _ (by simp)] at hends
  obtain ⟨last, hlast, hcode⟩ := hlast
  have hnil : t.isFiller = false → more = [] := fun hfiller => by
    have htrim := ht hfiller
    rw [htext] at htrim
    exact htrim.eq_nil_of_isWhite hmore
  cases hdrop with
  | cons hlexeme hrest =>
    have hblank := hrest.blank_or_feed htrimmed hreturns (List.append_nil _).symm hus
    refine ⟨htext, ⟨?_, ?_, notNext_of_forall_isWhite hwhite, ?_⟩, hmore,
      hrest.isFiller_of_isWhite htrimmed hus, hnil, fun hfiller _ => ?_⟩
    · rintro rfl
      cases hlast
    · intro c hc
      obtain rfl := Option.some.inj (hlast.symm.trans hc)
      exact not_isBlankChar_of_not_isWhite hcode
    · rintro rfl
      have hfiller := hlexeme.isFiller_eq_false htext
      rw [hnil hfiller, List.nil_append]
      -- an underscore at the end of a line would continue it
      exact continuation?_ne_none hblank (h.drop.feed_mem hends' hfiller hreturns)
    · cases hchars : charsOf us with
      | nil => exact notNext_nil _
      | cons c cs =>
        refine notNext_cons.mpr ?_
        rcases hblank c (hchars ▸ List.mem_cons_self) with hc | rfl
        · simp [hc]
        · rfl

/-- A row may be broken off after a token that closes a block, if it has fillers after it. -/
theorem Cuts.breaksOff_of_closesBlock (h : Cuts .start (ts ++ t :: us))
    (htrimmed : CodeTrimmed (ts ++ t :: us)) (ht : ClosesBlock t)
    (hus : ∀ u ∈ us, u.isFiller = true) : BreaksOff t t.text.toList [] us := by
  have hdrop := h.drop
  cases hdrop with
  | cons hlexeme _ =>
    obtain ⟨hfiller, hword, hunderscore, hremark⟩ := hlexeme.of_closesBlock ht
    have htrim := htrimmed t (by simp) hfiller
    refine ⟨(List.append_nil _).symm, ⟨hlexeme.text_ne_nil, fun c hc => ?_, hword, fun heq => ?_⟩,
      by simp, hus, fun _ => rfl, fun _ hrem => ?_⟩
    · exact not_isBlankChar_of_not_isWhite (htrim.last c hc)
    · exact absurd heq hunderscore
    · rw [hremark] at hrem
      cases hrem

end BreaksOff

/-! ### Blocks -/

/-- The tokens are **read back** if they are what the lexer makes of their texts, at the start of a
line. -/
def ReadsBack (ts : List Token) : Prop :=
  splitNames 0 (scan .start (charsOf ts)) = ts

/-- The tokens of a text have its characters. -/
theorem charsOf_splitNames_scan (state : LineState) (due : Nat) (cs : List Char) :
    charsOf (splitNames due (scan state cs)) = cs := by
  have htext := @textOf_splitNames due (scan state cs) fun t ht => grounded_of_mem_scan ht
  rw [← String.toList_inj, toList_textOf, toList_textOf] at htext
  exact htext.trans (charsOf_scan state cs)

/-- Tokens that read back are those of a row of lexemes. -/
theorem readsBack_iff {ts : List Token} :
    ReadsBack ts ↔ ∃ row, Cuts .start row ∧ splitNames 0 row = ts := by
  constructor
  · exact fun h => ⟨_, cuts_scan _ _, h⟩
  · rintro ⟨row, hcuts, rfl⟩
    rw [ReadsBack, ← hcuts.scan_eq, charsOf_splitNames_scan]

section Blocks

variable {us gs : List Token}

/-- The tokens end their line after **closing fillers**: they are white space, or else they stand
after a token that closes a block. -/
structure Closes (us gs : List Token) : Prop where
  whole : wholeLines (us ++ gs) = true
  fillers : ∀ g ∈ gs, g.isFiller = true
  white_or : (∀ c ∈ charsOf gs, isWhite c = true) ∨
    ∃ last, us.getLast? = some last ∧ ClosesBlock last

/-- Whole lines tell the same without the white space after them. -/
theorem Cuts.cuesOf_of_isWhite {row : List Token} (h : Cuts .start row) (htrimmed : CodeTrimmed row)
    (hends : endsLine row = true) (hreturns : '\r' ∉ charsOf row) {before after : List Char}
    (hchars : charsOf row = before ++ after)
    (hlast : ∃ c, before.getLast? = some c ∧ isWhite c = false)
    (hwhite : ∀ c ∈ after, isWhite c = true) :
    cuesOf (before ++ ['\n', '\n']) = cues true (splitNames 0 row) := by
  have hne : before ≠ [] := by
    rintro rfl
    simp at hlast
  obtain ⟨ts, t, us, text, more, rfl, htext, htext', rfl, rfl⟩ := exists_of_charsOf_eq hchars hne
  rw [List.getLast?_append_of_ne_nil _ htext'] at hlast
  have hreturns' : '\r' ∉ charsOf us := fun hmem => hreturns (by simp [hmem])
  rw [List.append_assoc]
  exact cuesOf_of_breaksOff h (h.breaksOff htrimmed hends hreturns' htext hlast hwhite)

/-- A token that closes a block is not taken apart. -/
theorem exists_of_splitNames_closesBlock {row : List Token} {last : Token}
    (h : splitNames 0 row = us ++ gs) (hgs : ∀ g ∈ gs, g.isFiller = true)
    (hlast : us.getLast? = some last) (hcloses : ClosesBlock last) :
    ∃ ts, row = ts ++ last :: gs := by
  obtain ⟨vs, rfl, rfl⟩ := exists_of_splitNames_eq_fillers h hgs
  rcases List.eq_nil_or_concat' vs with rfl | ⟨most, final, rfl⟩
  · rw [splitNames] at hlast
    cases hlast
  · rcases @getLast?_splitNames 0 _ final List.getLast?_concat with hsame | ⟨-, hquote⟩
    · obtain rfl := Option.some.inj (hsame.symm.trans hlast)
      exact ⟨most, by simp⟩
    · obtain rfl := Option.some.inj (hquote.symm.trans hlast)
      rcases hcloses with hkind | ⟨keyword, hkeyword, hsame⟩
      · cases hkind
      · have hnone : ∀ keyword ∈ blockKeywords, sameWord quoteToken.text keyword = false := by
          decide
        rw [hnone keyword hkeyword] at hsame
        cases hsame

/-- Whole lines tell the same without the white space before and after their code. -/
theorem Cuts.cuesOf_of_trimmed {row : List Token} (h : Cuts .start row) (htrimmed : CodeTrimmed row)
    (hends : endsLine row = true) (hreturns : '\r' ∉ charsOf row) {lead core trail : List Char}
    (hchars : charsOf row = lead ++ (core ++ trail)) (hlead : ∀ c ∈ lead, isWhite c = true)
    (hcore : Trimmed core) (htrail : ∀ c ∈ trail, isWhite c = true) :
    cuesOf (core ++ ['\n', '\n']) = cues true (splitNames 0 row) := by
  rcases List.eq_nil_or_concat' core with rfl | ⟨most, c, rfl⟩
  · -- there is no code at all
    have hall : ∀ c ∈ charsOf row, isWhite c = true := by
      rw [hchars, List.nil_append]
      exact List.forall_mem_append.mpr ⟨hlead, htrail⟩
    have hnone := @Cuts.cues_append_of_isFiller [] row h (h.isFiller_of_isWhite htrimmed hall)
    rw [List.nil_append, cuesOf_feed, cuesOf_feed, cuesOf_nil]
    exact hnone.symm
  · rw [← cuesOf_append_of_white (h.blank_or_feed htrimmed hreturns hchars hlead),
      ← List.append_assoc]
    rw [← List.append_assoc] at hchars
    refine h.cuesOf_of_isWhite htrimmed hends hreturns hchars ⟨c, ?_, ?_⟩ htrail
    · rw [← List.append_assoc, List.getLast?_concat]
    · exact hcore.last c List.getLast?_concat

/-- Tokens up to one that closes a block tell the same without the fillers after it. That token has
no white space at its end, so there is no `trail` to speak of. -/
theorem Cuts.cuesOf_of_closesBlock {ts : List Token} {last : Token}
    (h : Cuts .start (ts ++ last :: gs)) (htrimmed : CodeTrimmed (ts ++ last :: gs))
    (hblock : ClosesBlock last) (hgs : ∀ g ∈ gs, g.isFiller = true) {core trail : List Char}
    (htext : charsOf ts ++ last.text.toList = core ++ trail)
    (htrail : ∀ c ∈ trail, isWhite c = true) :
    cuesOf (core ++ ['\n', '\n']) = cues true (splitNames 0 (ts ++ last :: gs)) := by
  have hbreaks := h.breaksOff_of_closesBlock htrimmed hblock hgs
  have hmem : last ∈ ts ++ last :: gs := by simp
  obtain ⟨state, rest, hlexeme⟩ := h.exists_lexeme hmem
  have hlast := (htrimmed last hmem (hlexeme.of_closesBlock hblock).1).last
  have hnil : trail = [] := by
    rcases List.eq_nil_or_concat' trail with hnil | ⟨most, c, rfl⟩
    · exact hnil
    · have hc : last.text.toList.getLast? = some c := by
        rw [← List.getLast?_append_of_ne_nil (charsOf ts) hbreaks.givesWay.ne_nil, htext,
          ← List.append_assoc, List.getLast?_concat]
      have hnot := hlast c hc
      rw [htrail c (by simp)] at hnot
      cases hnot
  rw [hnil, List.append_nil] at htext
  rw [← htext, List.append_assoc]
  exact cuesOf_of_breaksOff h hbreaks

/-- **A written block tells what its tokens tell.** -/
theorem cuesOf_trim (hne : us ≠ []) (hback : ReadsBack (us ++ gs)) (hcloses : Closes us gs)
    (htrimmed : CodeTrimmed (us ++ gs)) (hreturns : '\r' ∉ charsOf (us ++ gs)) :
    cuesOf ((trim (textOf us)).toList ++ ['\n', '\n']) = cues true us := by
  obtain ⟨row, hcuts, hsplit⟩ := readsBack_iff.mp hback
  have hchars : charsOf row = charsOf us ++ charsOf gs := by
    rw [← charsOf_append, ← hsplit, ← hcuts.scan_eq, charsOf_splitNames_scan, charsOf_scan]
  have hcode : CodeTrimmed row := hcuts.codeTrimmed (hsplit ▸ htrimmed)
  obtain ⟨vs, hrow, -⟩ := exists_of_splitNames_eq_fillers hsplit hcloses.fillers
  have hcues : cues true (splitNames 0 row) = cues true us := by
    rw [hsplit]
    refine cues_append_of_idle (fun g hg => ?_) true us
    exact hcuts.isIdle_of_isFiller (hrow ▸ List.mem_append_right _ hg) (hcloses.fillers g hg)
  have hreturns' : '\r' ∉ charsOf row := by rwa [hchars, ← charsOf_append]
  obtain ⟨lead, trail, heq, hlead, htrail, htrim⟩ := exists_trim (textOf us)
  generalize (trim (textOf us)).toList = core at heq htrim ⊢
  rw [toList_textOf] at heq
  have hwhole : charsOf row = lead ++ (core ++ (trail ++ charsOf gs)) := by
    rw [hchars, ← List.append_assoc core, ← List.append_assoc lead, ← heq]
    rfl
  rw [← hcues]
  -- what is cut away behind the code is white space, or else comes after the end of a block
  rcases hcloses.white_or with hwhite | ⟨last, hlast, hblock⟩
  · have hends : endsLine row = true := by
      rw [← @endsLine_splitNames 0, hsplit]
      exact endsLine_of_wholeLines hcloses.whole (by simp [hne])
    exact hcuts.cuesOf_of_trimmed hcode hends hreturns' hwhole hlead htrim
      (List.forall_mem_append.mpr ⟨htrail, hwhite⟩)
  · obtain ⟨ts, rfl⟩ := exists_of_splitNames_closesBlock hsplit hcloses.fillers hlast hblock
    have htext : charsOf ts ++ last.text.toList = lead ++ core ++ trail := by
      rw [charsOf_append, charsOf_cons, ← List.append_assoc, List.append_left_inj] at hchars
      rw [hchars, List.append_assoc]
      exact heq
    rw [← cuesOf_append_of_white (hcuts.blank_or_feed hcode hreturns' hwhole hlead),
      ← List.append_assoc]
    exact hcuts.cuesOf_of_closesBlock hcode hblock hcloses.fillers htext htrail

end Blocks

/-! ### Seams -/

/-- A **seam**: the tokens before it end their line after closing fillers, which are the first of
those behind it. -/
def Seam (us vs : List Token) : Prop :=
  ∃ gs rest, vs = gs ++ rest ∧ Closes us gs

section Seam

variable {us vs ws : List Token}

/-- Lines are read back from lines. -/
theorem ReadsBack.exists_lines (h : ReadsBack (us ++ vs)) (hends : endsLine us = true) :
    ∃ lines later, Cuts .start (lines ++ later) ∧ endsLine lines = true ∧
      splitNames 0 lines = us ∧ splitNames 0 later = vs := by
  obtain ⟨row, hcuts, hsplit⟩ := readsBack_iff.mp h
  obtain ⟨lines, later, rfl, hlines, hlater⟩ := exists_of_splitNames_eq_lines hsplit hends
  rw [splitNames_append hlines, hlater, List.append_left_inj] at hsplit
  exact ⟨lines, later, hcuts, hlines, hsplit, hlater⟩

/-- Lines at the start of tokens that read back do so too. -/
theorem ReadsBack.of_lines (h : ReadsBack (us ++ vs)) (hends : endsLine us = true) :
    ReadsBack us := by
  obtain ⟨lines, later, hcuts, hlines, hsplit, -⟩ := h.exists_lines hends
  exact readsBack_iff.mpr ⟨lines, hcuts.of_lines hlines, hsplit⟩

/-- Behind a seam, tokens are read back as from the start of a line, and the fillers there tell
nothing. -/
theorem ReadsBack.of_closes {gs rest : List Token} (h : ReadsBack (us ++ (gs ++ rest)))
    (hcloses : Closes us gs) : ReadsBack (gs ++ rest) ∧ ∀ g ∈ gs, g.isIdle = true := by
  by_cases hnil : us ++ gs = []
  · obtain ⟨rfl, rfl⟩ := List.append_eq_nil_iff.mp hnil
    exact ⟨h, by simp⟩
  · have hends := endsLine_of_wholeLines hcloses.whole hnil
    rw [← List.append_assoc] at h
    obtain ⟨lines, later, hcuts, hlines, hsplit, hlater⟩ := h.exists_lines hends
    obtain ⟨before, rfl, -⟩ := exists_of_splitNames_eq_fillers hsplit hcloses.fillers
    rw [List.append_assoc] at hcuts
    have hidle : ∀ g ∈ gs, g.isIdle = true := fun g hg =>
      hcuts.isIdle_of_isFiller (by simp [hg]) (hcloses.fillers g hg)
    refine ⟨readsBack_iff.mpr ⟨gs ++ later, ?_, ?_⟩, hidle⟩
    · have hdrop := hcuts.drop
      rcases List.eq_nil_or_concat' gs with rfl | ⟨most, last, rfl⟩
      · rw [List.append_nil] at hlines
        rwa [foldl_after_of_endsLine hlines] at hdrop
      · refine hdrop.start_of_isFiller hcloses.fillers ?_
        rw [← List.append_assoc, endsLine, List.getLast?_concat] at hends
        rwa [endsLine, List.getLast?_concat]
    · rw [splitNames_append_of_isIdle hidle, hlater]

/-- Behind tokens that end a line a line begins. -/
theorem foldl_lineStartAfter {ts : List Token} (h : endsLine ts = true) (atLineStart : Bool) :
    ts.foldl lineStartAfter atLineStart = true := by
  rcases List.eq_nil_or_concat' ts with rfl | ⟨most, last, rfl⟩
  · cases h
  · have hkind : last.kind = .lineBreak := by simpa [endsLine, isLineBreak] using h
    rw [List.foldl_concat, lineStartAfter]
    simp [isBlank, isLineBreak, hkind]

/-- The fillers at a seam end their line. -/
theorem Closes.whole_right {gs : List Token} (h : Closes us gs) : wholeLines gs = true := by
  rcases List.eq_nil_or_concat' gs with rfl | ⟨most, last, rfl⟩
  · rfl
  · have hwhole := h.whole
    rw [← List.append_assoc, wholeLines, List.getLast?_concat] at hwhole
    rwa [wholeLines, List.getLast?_concat]

/-- What stands far before a seam has no part in it. -/
theorem Closes.of_append {xs gs : List Token} (h : Closes (xs ++ us) gs) (hne : us ≠ []) :
    Closes us gs where
  whole := by
    have hwhole := h.whole
    rwa [List.append_assoc, wholeLines, List.getLast?_append_of_ne_nil _ (by simp [hne])] at hwhole
  fillers := h.fillers
  white_or := by
    have hwhite := h.white_or
    rwa [List.getLast?_append_of_ne_nil _ hne] at hwhite

/-- **The cues on both sides of a seam** are those of the whole. -/
theorem cues_append_of_seam (h : ReadsBack (us ++ vs)) (hseam : Seam us vs) :
    cues true (us ++ vs) = cues true us ++ cues true vs := by
  obtain ⟨gs, rest, rfl, hcloses⟩ := hseam
  obtain ⟨-, hidle⟩ := h.of_closes hcloses
  rw [← List.append_assoc, cues_lines_append hcloses.whole, cues_append_of_idle hidle,
    cues_of_idle hidle, foldl_lineStartAfter_of_wholeLines hcloses.whole_right]

end Seam

/-! ### The blocks of a module -/

section Slices

variable {tokens : List Token} {a b : Nat}

/-- A seam of the tokens of a module, with its last line ended. -/
def SeamAt (tokens : List Token) (i : Nat) : Prop :=
  Seam (tokens.take i) (tokens.drop i ++ [feedToken])

/-- A line feed at the end tells nothing. -/
theorem cues_append_feed (atLineStart : Bool) (ts : List Token) :
    cues atLineStart (ts ++ [feedToken]) = cues atLineStart ts :=
  cues_append_of_idle (List.forall_mem_singleton.mpr (isIdle_of_isLineBreak rfl)) atLineStart ts

/-- Behind a seam tokens tell what they tell in the module. -/
theorem SeamAt.cues_drop (ha : SeamAt tokens a) (h : ReadsBack (tokens ++ [feedToken])) :
    cues true (tokens.drop a) = cuesIn tokens a tokens.length := by
  obtain ⟨gs, rest, heq, hcloses⟩ := ha
  rw [← List.take_append_drop a tokens, List.append_assoc, heq] at h
  obtain ⟨-, hidle⟩ := h.of_closes hcloses
  rw [← VbaModules.cues_drop, ← cues_append_feed, ← cues_append_feed (beginsLine tokens a), heq,
    cues_of_idle hidle, cues_of_idle hidle]
  by_cases hnil : gs = []
  · subst hnil
    have hwhole := hcloses.whole
    rw [List.append_nil] at hwhole
    rw [beginsLine, foldl_lineStartAfter_of_wholeLines hwhole]
  · have hends := endsLine_of_wholeLines hcloses.whole_right hnil
    rw [foldl_lineStartAfter hends, foldl_lineStartAfter hends]

theorem take_eq_take_append_slice (tokens : List Token) (hab : a ≤ b) :
    tokens.take b = tokens.take a ++ slice tokens a b :=
  (@slice_append_slice tokens 0 a b (Nat.zero_le a) hab).symm

theorem drop_eq_slice_append_drop (hab : a ≤ b) (hle : b ≤ tokens.length) :
    tokens.drop a = slice tokens a b ++ tokens.drop b := by
  have hparts := @slice_append_slice tokens a b tokens.length hab hle
  have hrest : ∀ i, slice tokens i tokens.length = tokens.drop i := fun i => by
    rw [slice, List.take_length]
  rw [hrest, hrest] at hparts
  exact hparts.symm

theorem slice_ne_nil (hab : a < b) (hle : b ≤ tokens.length) : slice tokens a b ≠ [] := by
  intro hnil
  have hlength := @length_slice tokens a b hle
  rw [hnil, List.length_nil] at hlength
  omega

section

variable (ha : SeamAt tokens a) (hb : SeamAt tokens b) (hab : a < b) (hle : b ≤ tokens.length)
  (h : ReadsBack (tokens ++ [feedToken]))
include ha hb hab hle h

/-- Between two seams, the tokens are read back. -/
theorem SeamAt.exists_closes :
    ∃ gs rest, tokens.drop b ++ [feedToken] = gs ++ rest ∧ Closes (slice tokens a b) gs ∧
      ReadsBack (slice tokens a b ++ (gs ++ rest)) := by
  obtain ⟨gs, rest, heq, hcloses⟩ := hb
  refine ⟨gs, rest, heq, ?_, ?_⟩
  · rw [take_eq_take_append_slice tokens hab.le] at hcloses
    exact hcloses.of_append (slice_ne_nil hab hle)
  · obtain ⟨fs, later, hfs, hcloses'⟩ := ha
    rw [← List.take_append_drop a tokens, List.append_assoc, hfs] at h
    obtain ⟨hback, -⟩ := h.of_closes hcloses'
    rwa [← hfs, drop_eq_slice_append_drop hab.le hle, List.append_assoc, heq] at hback

/-- The cues between two seams are those of the tokens between them. -/
theorem SeamAt.cues_slice : cues true (slice tokens a b) = cuesIn tokens a b := by
  obtain ⟨gs, rest, heq, hcloses, hback⟩ := ha.exists_closes hb hab hle h
  have hcues := cues_append_of_seam hback ⟨gs, rest, rfl, hcloses⟩
  rw [← heq, ← List.append_assoc, ← drop_eq_slice_append_drop hab.le hle, cues_append_feed,
    cues_append_feed, ha.cues_drop h, hb.cues_drop h, ← cuesIn_append hab.le hle,
    List.append_left_inj] at hcues
  exact hcues.symm

/-- **A written block tells what is told between its seams.** -/
theorem SeamAt.cuesOf_slice (htrimmed : CodeTrimmed tokens) (hreturns : '\r' ∉ charsOf tokens) :
    cuesOf ((trim (textOf (slice tokens a b))).toList ++ ['\n', '\n']) = cuesIn tokens a b := by
  obtain ⟨gs, rest, heq, hcloses, hback⟩ := ha.exists_closes hb hab hle h
  have hne := slice_ne_nil hab hle
  have hslice : ∀ t ∈ slice tokens a b, t ∈ tokens := fun t ht =>
    List.mem_of_mem_take (List.mem_of_mem_drop ht)
  have hgs : ∀ g ∈ gs, g ∈ tokens ∨ g = feedToken := by
    intro g hg
    have hmem : g ∈ tokens.drop b ++ [feedToken] := heq ▸ List.mem_append_left _ hg
    rw [List.mem_append, List.mem_singleton] at hmem
    exact hmem.imp_left List.mem_of_mem_drop
  rw [← List.append_assoc] at hback
  have hends := endsLine_of_wholeLines hcloses.whole (by simp [hne])
  rw [← ha.cues_slice hb hab hle h]
  -- the fillers behind the block are those of the module, or the line feed at its end
  refine cuesOf_trim hne (hback.of_lines hends) hcloses ?_ ?_
  · refine List.forall_mem_append.mpr ⟨fun t ht => htrimmed t (hslice t ht), fun g hg hcode => ?_⟩
    rw [hcloses.fillers g hg] at hcode
    cases hcode
  · intro hmem
    obtain ⟨t, ht, hc⟩ := List.mem_flatMap.mp hmem
    have hnot : ∀ t ∈ tokens, '\r' ∉ t.text.toList := fun t ht hc =>
      hreturns (List.mem_flatMap.mpr ⟨t, ht, hc⟩)
    rcases List.mem_append.mp ht with ht | ht
    · exact hnot t (hslice t ht) hc
    · rcases hgs t ht with hin | rfl
      · exact hnot t hin hc
      · revert hc
        decide

end

end Slices

end VbaModules.Lexer

import VbaModules.Proofs.KeptLines

/-!
# Where a text introduces a name

A line that gives a module its name begins with two words, with space between them. If a search
finds such a line in a text, then the characters of the text show it: at the start of a line stand
these two words, blanks aside (`exists_introduces_of_isMatch`). The converse direction is about
tokens that need not be those of the text. If they are legible and their text introduces a name at
the start of a line, then two of them do so (`AllLegible.introduceName_after`).

That needs no agreement about the rest of the text. A line that starts where a line break ends, or
within a blank after a continuation, is read there by both from the beginning; so it does not matter
that one of them may take for a literal or a comment what the other does not.
-/

namespace VbaModules

open Lexer Text

namespace Lexer

/-! ### The words that introduce a name -/

/-- Letter case does not decide what is an identifier. -/
theorem isIdentifier_map_toLower (word : List Char) :
    isIdentifier (word.map Char.toLower) = isIdentifier word := by
  simp only [isIdentifier, List.head?_map, Option.any_map, isAlpha_toLower, List.all_map,
    Function.comp_def, isWordChar_toLower]

/-- The same word as an identifier is one too. -/
theorem isIdentifier_of_sameWord {word : List Char} {text : String}
    (h : sameWord (String.ofList word) text = true) (htext : isIdentifier text.toList = true) :
    isIdentifier word = true := by
  rw [sameWord_iff, ← String.toList_inj, toList_foldCase, toList_foldCase,
    String.toList_ofList] at h
  rw [← isIdentifier_map_toLower, h, isIdentifier_map_toLower, htext]

/-- The parts of a text that **introduces a name**: two words with space between them, of which the
second is neither longer nor followed by a dot. -/
structure Introduces (first gap second rest : List Char) : Prop where
  first : sameWord (String.ofList first) "attribute" = true
  head_gap : ∃ c cs, gap = c :: cs ∧ isBlankChar c = true
  gap : Spacing gap
  second : sameWord (String.ofList second) "vb_name" = true
  rest : NotNext (fun c => isWordChar c || c == '.') rest

/-- Whether a word begins with a letter that begins no remark. -/
def opensNoRemark (word : List Char) : Bool :=
  word.head?.all (·.toLower != 'r')

/-- Nor does it decide what opens a remark. -/
theorem opensNoRemark_of_sameWord {word : List Char} {text : String}
    (h : sameWord (String.ofList word) text = true) (htext : opensNoRemark text.toList = true) :
    opensNoRemark word = true := by
  cases word with
  | nil => rfl
  | cons c cs =>
    have hhead := toLower_eq_of_sameWord rfl h
    rw [opensNoRemark] at htext ⊢
    cases hfirst : text.toList.head? with
    | none => rw [hfirst] at hhead; cases hhead
    | some d =>
      rw [hfirst, Option.map_some, Option.some.injEq] at hhead
      rw [hfirst] at htext
      simpa [← hhead] using htext

/-- Spacing is cut off in one way only. -/
theorem Spacing.unique {gap gap' rest rest' : List Char} (heq : gap ++ rest = gap' ++ rest')
    (h : Spacing gap) (hends : SpaceEnds rest) (hcut : Unsplit gap rest) (h' : Spacing gap')
    (hends' : SpaceEnds rest') (hcut' : Unsplit gap' rest') : gap = gap' ∧ rest = rest' := by
  have hlength : gap.length = gap'.length := by
    rw [← h.spaceLength_append hends hcut, heq, h'.spaceLength_append hends' hcut']
  exact List.append_inj heq hlength

theorem isBlankChar_eq_false_of_isBreakChar {c : Char} (h : isBreakChar c = true) :
    isBlankChar c = false := by
  rcases eq_of_isBreakChar h with rfl | rfl <;> rfl

/-- After the line break of a continuation the spacing goes on. -/
theorem Spacing.after_break {cs before more : List Char} {c : Char} (h : Spacing cs)
    (heq : cs = before ++ c :: more) (hc : isBreakChar c = true) :
    more.head? = some '\n' ∨ Spacing more := by
  induction h generalizing before with
  | nil => simp at heq
  | @blank d cs hd _ ih =>
    cases before with
    | nil =>
      obtain ⟨rfl, -⟩ := List.cons.inj heq
      rw [isBreakChar_eq_false_of_isBlankChar hd] at hc
      cases hc
    | cons b before => exact ih (List.cons.inj heq).2
  | @continuation gap lineBreak cs hgap hbreak hcs ih =>
    -- the line break is part of the continuation, or comes later
    have hline : ∀ x, lineBreak ++ cs = x ++ c :: more →
        more.head? = some '\n' ∨ Spacing more := by
      intro x hx
      rcases hbreak with rfl | rfl | rfl
      · match x, hx with
        | [], hx => exact .inr ((List.cons.inj hx).2 ▸ hcs)
        | _ :: x, hx => exact ih (List.cons.inj hx).2
      · match x, hx with
        | [], hx => exact .inl ((List.cons.inj hx).2 ▸ rfl)
        | [_], hx => exact .inr ((List.cons.inj (List.cons.inj hx).2).2 ▸ hcs)
        | _ :: _ :: x, hx => exact ih (List.cons.inj (List.cons.inj hx).2).2
      · match x, hx with
        | [], hx => exact .inr ((List.cons.inj hx).2 ▸ hcs)
        | _ :: x, hx => exact ih (List.cons.inj hx).2
    cases before with
    | nil =>
      obtain ⟨rfl, -⟩ := List.cons.inj heq
      cases hc
    | cons b before =>
      rcases List.append_eq_append_iff.mp (List.cons.inj heq).2 with ⟨x, -, hx⟩ | ⟨x, rfl, hx⟩
      · exact hline x hx
      · cases x with
        | nil => exact hline [] hx.symm
        | cons d x =>
          have hd := hgap d (by simp)
          rw [← (List.cons.inj hx).1, isBlankChar_eq_false_of_isBreakChar hc] at hd
          cases hd

section Legible

variable {t : Token} {rest tail : List Char} (h : Legible t rest)
include h

/-- A reader who comes upon a word has a token before them that is this word. -/
theorem Legible.eq_word {word : List Char} (heq : t.text.toList ++ rest = word ++ tail)
    (hword : isIdentifier word = true) (hremark : opensNoRemark word = true)
    (htail : NotNext (fun c => isWordChar c || c == '.') tail) :
    (t.kind = .name ∨ t.kind = .reserved) ∧ t.text.toList = word ∧ rest = tail := by
  obtain ⟨c, cs, rfl, hc, hcs⟩ := exists_cons_of_isIdentifier hword
  have hends : NotNext isWordChar tail := htail.imp fun d hd => by simp [hd]
  have hletters := forall_isWordChar_of_isIdentifier hword
  have hwordChar := isWordChar_of_isAlpha hc
  -- any other token would begin with another character, or go on after the word
  cases h with
  | lineBreak _ htext =>
    have hbreak := isBreakChar_eq_false_of_isWordChar hwordChar
    rcases htext with htext | htext | htext <;> rw [htext] at heq <;>
      rw [← (List.cons.inj heq).1] at hbreak <;> cases hbreak
  | blank _ htext hblank =>
    rw [htext] at heq
    rw [(List.cons.inj heq).1, isBlankChar_eq_false_of_isWordChar hwordChar] at hblank
    cases hblank
  | word hkind htext hrest =>
    exact ⟨hkind, run_unique heq (forall_isWordChar_of_isIdentifier htext) hrest hletters hends⟩
  | dotted _ htext hword' _ =>
    rw [htext, List.append_assoc] at heq
    obtain ⟨-, rfl⟩ := run_unique heq (forall_isWordChar_of_isIdentifier hword')
      (notNext_cons.mpr (by decide)) hletters hends
    rw [List.cons_append, notNext_cons] at htail
    cases htail
  | other _ _ htext _ hletter _ =>
    rw [htext] at heq
    obtain ⟨rfl, -⟩ := List.cons.inj heq
    rw [opensNoRemark, List.head?_cons, Option.all_some, hletter hc] at hremark
    cases hremark

omit tail in
/-- What is a word by its text is one by its kind, and ends as a word. -/
theorem Legible.word_of_isIdentifier (htext : isIdentifier t.text.toList = true)
    (hremark : opensNoRemark t.text.toList = true) :
    (t.kind = .name ∨ t.kind = .reserved) ∧ NotNext isWordChar rest := by
  have hletters := forall_isWordChar_of_isIdentifier htext
  cases h with
  | lineBreak _ hbreak => rcases hbreak with hbreak | hbreak | hbreak <;> simp_all [isIdentifier]
  | blank _ hblank hc =>
    have hc' := hletters _ (hblank ▸ List.mem_cons_self)
    rw [isWordChar_eq_false_of_isBlankChar hc] at hc'
    cases hc'
  | word hkind _ hends => exact ⟨hkind, hends⟩
  | dotted _ hdotted =>
    have hdot := hletters '.' (by simp [hdotted])
    cases hdot
  | other _ _ hother _ hletter =>
    rw [hother] at htext hremark
    rw [opensNoRemark, List.head?_cons, Option.all_some,
      hletter (isIdentifier_cons.mp htext).1] at hremark
    cases hremark

/-- A reader who comes upon a blank has a blank token before them. -/
theorem Legible.eq_blank {gap : List Char} (heq : t.text.toList ++ rest = gap ++ tail)
    (hhead : ∃ c cs, gap = c :: cs ∧ isBlankChar c = true) (hgap : Spacing gap)
    (hends : SpaceEnds tail) (hcut : Unsplit gap tail) : t.isBlank = true ∧ rest = tail := by
  obtain ⟨c, cs, rfl, hc⟩ := hhead
  cases h with
  | lineBreak _ htext =>
    have hbreak := isBreakChar_eq_false_of_isBlankChar hc
    rcases htext with htext | htext | htext <;> rw [htext] at heq <;>
      rw [← (List.cons.inj heq).1] at hbreak <;> cases hbreak
  | blank hkind htext hc' hcs hends' hcut' =>
    rw [htext] at heq
    have hcut'' : Unsplit ([_] ++ _) rest :=
      (unsplit_of_forall (List.forall_mem_singleton.mpr hc') (by decide) _).append hcut'
    obtain ⟨-, hrest⟩ := Spacing.unique heq (.blank hc' hcs) hends' hcut'' hgap hends hcut
    exact ⟨by simp [Token.isBlank, hkind], hrest⟩
  | word _ htext _ =>
    obtain ⟨d, ds, htext, hd, -⟩ := exists_cons_of_isIdentifier htext
    rw [htext] at heq
    rw [← (List.cons.inj heq).1,
      isBlankChar_eq_false_of_isWordChar (isWordChar_of_isAlpha hd)] at hc
    cases hc
  | dotted _ htext hword _ =>
    obtain ⟨d, ds, rfl, hd, -⟩ := exists_cons_of_isIdentifier hword
    rw [htext] at heq
    rw [← (List.cons.inj heq).1,
      isBlankChar_eq_false_of_isWordChar (isWordChar_of_isAlpha hd)] at hc
    cases hc
  | other _ _ htext hblank _ _ =>
    rw [htext] at heq
    rw [← (List.cons.inj heq).1, hblank] at hc
    cases hc

/-- A reader who comes to a line break inside of a token is at its end, or in a blank of which some
spacing is left. -/
theorem Legible.after_break {before more : List Char} {c : Char}
    (heq : t.text.toList = before ++ c :: more) (hc : isBreakChar c = true) :
    more = [] ∨ more.head? = some '\n' ∨
      Spacing more ∧ SpaceEnds rest ∧ Unsplit more rest := by
  have hplain : (∀ d ∈ t.text.toList, isBreakChar d = false) → False := by
    intro hplain
    rw [hplain c (by simp [heq])] at hc
    cases hc
  -- only a line break or a blank can have a line break in it
  cases h with
  | lineBreak _ htext =>
    rw [heq] at htext
    match before, htext with
    | [], .inl htext => exact .inl (List.cons.inj htext).2
    | [], .inr (.inl htext) => exact .inr (.inl ((List.cons.inj htext).2 ▸ rfl))
    | [], .inr (.inr htext) => exact .inl (List.cons.inj htext).2
    | [_], .inr (.inl htext) => exact .inl (List.cons.inj (List.cons.inj htext).2).2
    | _ :: _, .inl htext => simp at htext
    | _ :: _, .inr (.inr htext) => simp at htext
    | _ :: _ :: _, .inr (.inl htext) => simp at htext
  | blank _ htext hblank hcs hends hcut =>
    rw [htext] at heq
    rcases (Spacing.blank hblank hcs).after_break heq hc with hfeed | hmore
    · exact .inr (.inl hfeed)
    · refine .inr (.inr ⟨hmore, hends, ?_⟩)
      have hwhole : Unsplit ([_] ++ _) rest :=
        (unsplit_of_forall (List.forall_mem_singleton.mpr hblank) (by decide) _).append hcut
      rw [List.singleton_append, heq, List.append_cons] at hwhole
      exact hwhole.of_append
  | word _ htext _ =>
    exact (hplain fun d hd => isBreakChar_eq_false_of_isWordChar
      (forall_isWordChar_of_isIdentifier htext d hd)).elim
  | dotted _ htext hword hcs =>
    refine (hplain ?_).elim
    rw [htext, List.forall_mem_append, List.forall_mem_cons]
    exact ⟨fun d hd => isBreakChar_eq_false_of_isWordChar
      (forall_isWordChar_of_isIdentifier hword d hd), by decide, hcs⟩
  | other _ _ htext _ _ hcs => exact (hplain (htext ▸ hcs)).elim

end Legible

/-- Spacing ends where a word begins. -/
theorem spaceEnds_of_isIdentifier {word : List Char} (h : isIdentifier word = true)
    (rest : List Char) : SpaceEnds (word ++ rest) := by
  obtain ⟨c, cs, rfl, hc, -⟩ := exists_cons_of_isIdentifier h
  have hword := isWordChar_of_isAlpha hc
  refine ⟨notNext_cons.mpr (isBlankChar_eq_false_of_isWordChar hword), ?_⟩
  rw [List.cons_append, continuation?]
  rintro ds heq
  rw [(List.cons.inj heq).1] at hc
  cases hc

/-- No line ending is split in front of a word. -/
theorem unsplit_of_isIdentifier (text : List Char) {word : List Char}
    (h : isIdentifier word = true) (rest : List Char) : Unsplit text (word ++ rest) := by
  obtain ⟨c, cs, rfl, hc, -⟩ := exists_cons_of_isIdentifier h
  exact fun _ => notNext_cons.mpr (beq_eq_false_iff_ne.mpr (ne_of_class hc (by decide)))

/-! ### Where legible tokens introduce a name -/

/-- A name or keyword spells what its text spells. -/
theorem spells_of_toList_eq {t : Token} {word : List Char} {text : String}
    (hkind : t.kind = .name ∨ t.kind = .reserved) (htext : t.text.toList = word)
    (hword : sameWord (String.ofList word) text = true) : t.spells text = true := by
  rw [← htext, String.ofList_toList] at hword
  rcases hkind with hkind | hkind <;> simp [Token.spells, hkind, hword]

section AllLegible

variable {first gap second rest : List Char} (hintro : Introduces first gap second rest)
include hintro

theorem Introduces.isIdentifier_first : isIdentifier first = true :=
  isIdentifier_of_sameWord hintro.first (by decide)

theorem Introduces.isIdentifier_second : isIdentifier second = true :=
  isIdentifier_of_sameWord hintro.second (by decide)

/-- No line feed stands where the words that introduce a name begin. -/
theorem Introduces.head?_ne_feed {indent : List Char}
    (hhead : ∀ c ∈ indent.head?, isBlankChar c = true) (rest' : List Char) :
    (indent ++ (first ++ rest')).head? ≠ some '\n' := by
  obtain ⟨c, cs, rfl, hc, -⟩ := exists_cons_of_isIdentifier hintro.isIdentifier_first
  cases indent with
  | nil =>
    rw [List.nil_append, List.cons_append, List.head?_cons, ne_eq, Option.some.injEq]
    exact ne_of_class hc (by decide)
  | cons d indent =>
    rw [List.cons_append, List.head?_cons, ne_eq, Option.some.injEq]
    exact ne_of_class (hhead d rfl) (by decide)

/-- Legible tokens whose text begins by introducing a name introduce one too. -/
theorem AllLegible.introduceName {ts : List Token} (h : AllLegible ts)
    (heq : charsOf ts = first ++ (gap ++ (second ++ rest))) : Token.IntroduceName ts := by
  have hfirst := hintro.isIdentifier_first
  have hsecond := hintro.isIdentifier_second
  have hgapHead : NotNext (fun c => isWordChar c || c == '.') (gap ++ (second ++ rest)) := by
    obtain ⟨c, cs, rfl, hc⟩ := hintro.head_gap
    rw [List.cons_append, notNext_cons, isWordChar_eq_false_of_isBlankChar hc, Bool.false_or,
      beq_eq_false_iff_ne]
    exact ne_of_class hc (by decide)
  -- the first word, the gap and the second word are one token each
  match ts with
  | [] =>
    obtain ⟨c, cs, rfl, -⟩ := exists_cons_of_isIdentifier hfirst
    cases heq
  | a :: ts =>
    obtain ⟨ha, h⟩ := allLegible_cons.mp h
    obtain ⟨hakind, hatext, heq⟩ := ha.eq_word heq hfirst
      (opensNoRemark_of_sameWord hintro.first (by decide)) hgapHead
    match ts with
    | [] =>
      obtain ⟨c, cs, rfl, -⟩ := hintro.head_gap
      cases heq
    | s :: ts =>
      obtain ⟨hs, h⟩ := allLegible_cons.mp h
      obtain ⟨hblank, heq⟩ := hs.eq_blank heq hintro.head_gap hintro.gap
        (spaceEnds_of_isIdentifier hsecond rest) (unsplit_of_isIdentifier gap hsecond rest)
      match ts with
      | [] =>
        obtain ⟨c, cs, rfl, -⟩ := exists_cons_of_isIdentifier hsecond
        cases heq
      | v :: ts =>
        obtain ⟨hv, -⟩ := allLegible_cons.mp h
        obtain ⟨hvkind, hvtext, -⟩ := hv.eq_word heq hsecond
          (opensNoRemark_of_sameWord hintro.second (by decide)) hintro.rest
        exact ⟨[], a, s, v, ts, rfl, spells_of_toList_eq hakind hatext hintro.first, hblank,
          spells_of_toList_eq hvkind hvtext hintro.second⟩

/-- **Where the text of legible tokens introduces a name at the start of a line**, there are tokens
that do so. A line may start within a blank, after a continuation. -/
theorem AllLegible.introduceName_after {ts : List Token} (h : AllLegible ts)
    {before indent : List Char}
    (heq : charsOf ts = before ++ (indent ++ (first ++ (gap ++ (second ++ rest)))))
    (hbefore : ∀ c ∈ before.getLast?, isBreakChar c = true) (hindent : Spacing indent)
    (hhead : ∀ c ∈ indent.head?, isBlankChar c = true) : Token.IntroduceName ts := by
  have hfirst := hintro.isIdentifier_first
  have hends := spaceEnds_of_isIdentifier hfirst (gap ++ (second ++ rest))
  have hcut := unsplit_of_isIdentifier indent hfirst (gap ++ (second ++ rest))
  have hfeed := hintro.head?_ne_feed hhead (gap ++ (second ++ rest))
  induction ts generalizing before with
  | nil =>
    obtain ⟨c, cs, rfl, -⟩ := exists_cons_of_isIdentifier hfirst
    simp at heq
  | cons t ts ih =>
    obtain ⟨ht, hts⟩ := allLegible_cons.mp h
    rw [charsOf_cons] at heq
    rcases List.eq_nil_or_concat' before with rfl | ⟨most, c, rfl⟩
    · -- the line starts here
      cases indent with
      | nil => exact h.introduceName hintro heq
      | cons d indent =>
        rw [List.nil_append] at heq
        have htail := (ht.eq_blank heq ⟨d, indent, rfl, hhead d rfl⟩ hindent hends hcut).2
        exact (hts.introduceName hintro htail).cons t
    · have hc : isBreakChar c = true := hbefore c (by simp)
      rcases List.append_eq_append_iff.mp heq with ⟨more, hmore, hrest⟩ | ⟨more, hmore, hrest⟩
      · refine (ih hts hrest fun d hd => hbefore d ?_).cons t
        rw [Option.mem_def] at hd ⊢
        rw [hmore, List.getLast?_append, hd]
        rfl
      · -- the line starts within the token or at its end
        rw [← List.append_cons] at hmore
        rcases ht.after_break hmore hc with rfl | hnext | ⟨hspacing, hspaceEnds, hunsplit⟩
        · have hline : charsOf ts = [] ++ (indent ++ (first ++ (gap ++ (second ++ rest)))) :=
            hrest.symm
          exact (ih hts hline (by simp)).cons t
        · rw [hrest, List.head?_append, hnext] at hfeed
          exact absurd rfl hfeed
        · have htail :=
            (Spacing.unique hrest.symm hspacing hspaceEnds hunsplit hindent hends hcut).2
          exact (hts.introduceName hintro htail).cons t

end AllLegible

/-! ### Where a match introduces a name -/

/-- What precedes the first quote of a split is as scanned. -/
theorem exists_of_splitNames_eq_append {due : Nat} {ts xs ys : List Token}
    (h : splitNames due ts = xs ++ ys) (hxs : ∀ t ∈ xs, t ≠ quoteToken) :
    ∃ ys', ts = xs ++ ys' := by
  fun_induction splitNames due ts generalizing xs with
  | case1 =>
    obtain ⟨rfl, -⟩ := List.append_eq_nil_iff.mp h.symm
    exact ⟨[], rfl⟩
  | case3 due t ts _ _ name _ ih =>
    cases xs with
    | nil => exact ⟨_, rfl⟩
    | cons x xs =>
      obtain ⟨rfl, -⟩ := List.cons.inj h
      exact absurd rfl (hxs _ List.mem_cons_self)
  | _ =>
    rename_i ih
    cases xs with
    | nil => exact ⟨_, rfl⟩
    | cons x xs =>
      obtain ⟨rfl, hrest⟩ := List.cons.inj h
      obtain ⟨ys', rfl⟩ := ih hrest fun t ht => hxs t (List.mem_cons_of_mem _ ht)
      exact ⟨ys', rfl⟩

theorem endsLine_of_cons {t : Token} {ts : List Token} (ht : ¬t.isLineBreak = true)
    (h : endsLine (t :: ts) = true) : endsLine ts = true := by
  cases ts with
  | nil => exact absurd (by simpa [endsLine] using h) ht
  | cons u us => rwa [endsLine_cons_cons] at h

theorem endsLine_cons {t : Token} {ts : List Token} (h : endsLine ts = true) :
    endsLine (t :: ts) = true := by
  cases ts with
  | nil => cases h
  | cons u us => rwa [endsLine_cons_cons]

/-- Whole lines were whole lines before their literals were taken apart. -/
theorem exists_of_splitNames_eq_lines {due : Nat} {ts xs ys : List Token}
    (h : splitNames due ts = xs ++ ys) (hxs : endsLine xs = true) :
    ∃ us vs, ts = us ++ vs ∧ endsLine us = true ∧ splitNames 0 vs = ys := by
  have hquote : ¬quoteToken.isLineBreak = true := by simp [quoteToken, Token.isLineBreak]
  fun_induction splitNames due ts generalizing xs with
  | case1 =>
    obtain ⟨rfl, -⟩ := List.append_eq_nil_iff.mp h.symm
    cases hxs
  | case2 due t ts hbreak ih =>
    rcases xs with _ | ⟨x, _ | ⟨x', xs⟩⟩
    · cases hxs
    · obtain ⟨rfl, hrest⟩ := List.cons.inj h
      exact ⟨[t], ts, rfl, hxs, hrest⟩
    · obtain ⟨us, vs, rfl, hus, hvs⟩ := ih (List.cons.inj h).2 (endsLine_cons_cons x x' xs ▸ hxs)
      exact ⟨t :: us, vs, rfl, endsLine_cons hus, hvs⟩
  -- a literal became three tokens, none of which ends a line
  | case3 due t ts _ _ name _ ih =>
    rcases xs with _ | ⟨x, _ | ⟨y, _ | ⟨z, xs⟩⟩⟩
    · cases hxs
    · obtain ⟨rfl, -⟩ := List.cons.inj h
      exact absurd (by simpa [endsLine] using hxs) hquote
    · obtain ⟨rfl, -⟩ := List.cons.inj (List.cons.inj h).2
      cases hxs
    · obtain ⟨rfl, hrest⟩ := List.cons.inj (List.cons.inj (List.cons.inj h).2).2
      rw [endsLine_cons_cons, endsLine_cons_cons] at hxs
      obtain ⟨us, vs, rfl, hus, hvs⟩ := ih hrest (endsLine_of_cons hquote hxs)
      exact ⟨t :: us, vs, rfl, endsLine_cons hus, hvs⟩
  | case4 due t ts hbreak _ _ ih | case5 due t ts hbreak _ _ ih | case6 due t ts hbreak _ _ ih =>
    cases xs with
    | nil => cases hxs
    | cons x xs =>
      obtain ⟨rfl, hrest⟩ := List.cons.inj h
      obtain ⟨us, vs, rfl, hus, hvs⟩ := ih hrest (endsLine_of_cons hbreak hxs)
      exact ⟨t :: us, vs, rfl, endsLine_cons hus, hvs⟩

/-- The end of a row is a row, in the state that its beginning leaves. -/
theorem Cuts.of_append {state : LineState} {ts us : List Token} (h : Cuts state (ts ++ us)) :
    ∃ state', Cuts state' us := by
  induction ts generalizing state with
  | nil => exact ⟨state, h⟩
  | cons t ts ih =>
    cases h with
    | cons _ hrest => exact ih hrest

theorem Spacing.append {cs ds : List Char} (h : Spacing cs) (h' : Spacing ds) :
    Spacing (cs ++ ds) := by
  induction h with
  | nil => exact h'
  | blank hc _ ih => exact .blank hc ih
  | continuation hgap hbreak _ ih =>
    rw [List.cons_append, List.append_assoc, List.append_assoc]
    exact .continuation hgap hbreak ih

/-- Blank tokens in a row are spacing that begins with a blank. -/
theorem Cuts.spacing_of_blank {state : LineState} {gap ts : List Token}
    (h : Cuts state (gap ++ ts)) (hgap : ∀ t ∈ gap, t.isBlank = true) :
    Spacing (charsOf gap) ∧ ∀ c ∈ (charsOf gap).head?, isBlankChar c = true := by
  induction gap generalizing state with
  | nil => exact ⟨.nil, by simp⟩
  | cons t gap ih =>
    obtain ⟨ht, hgap⟩ := List.forall_mem_cons.mp hgap
    rw [Token.isBlank, beq_iff_eq] at ht
    cases h with
    | cons hlexeme hrest =>
      rw [ht] at hlexeme
      obtain ⟨c, cs, htext, hc, hcs, -⟩ := hlexeme.exists_spacing_of_blank
      rw [charsOf_cons, htext]
      refine ⟨.append (.blank hc hcs) (ih hrest hgap).1, fun d hd => ?_⟩
      obtain rfl : c = d := by simpa using hd
      exact hc

end Lexer

/-! ### Naming lines in a text -/

/-- The tokens that a match of a naming line begins with. -/
theorem exists_of_align_nameLine {ts : List Token} {n : Nat}
    (h : Pattern.align nameLine.elements ts = some n) :
    ∃ indent a gap v gap' e us, ts = indent ++ a :: (gap ++ v :: (gap' ++ e :: us)) ∧
      (∀ t ∈ indent, t.isBlank = true) ∧ sameWord a.text "attribute" = true ∧
      (∀ t ∈ gap, t.isBlank = true) ∧ sameWord v.text "vb_name" = true ∧
      (∀ t ∈ gap', t.isBlank = true) ∧ sameWord e.text "=" = true := by
  obtain ⟨indent, a, us, _, rfl, hindent, -, ha, hrest⟩ := Pattern.exists_of_align_cons h rfl
  obtain ⟨gap, v, us, _, rfl, hgap, -, hv, hrest'⟩ := Pattern.exists_of_align_cons hrest rfl
  obtain ⟨gap', e, us, -, rfl, hgap', -, he, -⟩ := Pattern.exists_of_align_cons hrest' rfl
  exact ⟨indent, a, gap, v, gap', e, us, rfl, hindent, sameWord_of_accepts_words ha, hgap,
    sameWord_of_accepts_words hv, hgap', sameWord_of_accepts_words he⟩

/-- Legible tokens that end a line end with a character of a line break. -/
theorem Lexer.getLast?_charsOf {ts us : List Token} (h : AllLegible (ts ++ us))
    (hends : endsLine ts = true) : ∀ c ∈ (charsOf ts).getLast?, isBreakChar c = true := by
  rcases List.eq_nil_or_concat' ts with rfl | ⟨most, t, rfl⟩
  · simp
  · have hbreak : t.isLineBreak = true := by simpa [endsLine] using hends
    have htext := (h most t us (by simp)).isBreak hbreak
    intro c hc
    rw [charsOf_append, charsOf_cons, charsOf_nil, List.append_nil, List.getLast?_append] at hc
    rcases htext with htext | htext | htext <;> rw [htext] at hc <;>
      simp only [List.getLast?_cons_cons, List.getLast?_singleton, Option.some_or,
        Option.mem_some] at hc <;> rw [← hc] <;> rfl

/-- An equals sign is one character, which lowers to it. -/
theorem exists_of_sameWord_equalsSign {text : String} (h : sameWord text "=" = true) :
    ∃ c, text.toList = [c] ∧ c.toLower = '=' := by
  rw [sameWord_iff, ← String.toList_inj, toList_foldCase, toList_foldCase] at h
  obtain ⟨c, hc, hlower⟩ := List.map_eq_singleton_iff.mp (h.trans (by decide : _ = ['=']))
  exact ⟨c, hc, hlower⟩

/-- The tokens that introduce a name do so by their text. -/
theorem Lexer.Cuts.introduces {state : LineState} {a v e : Token} {gap gap' us : List Token}
    (h : Cuts state (a :: (gap ++ v :: (gap' ++ e :: us))))
    (ha : sameWord a.text "attribute" = true) (hgap : ∀ t ∈ gap, t.isBlank = true)
    (hv : sameWord v.text "vb_name" = true) (hgap' : ∀ t ∈ gap', t.isBlank = true)
    (he : sameWord e.text "=" = true) :
    Introduces a.text.toList (charsOf gap) v.text.toList (charsOf (gap' ++ e :: us)) := by
  rw [← @String.ofList_toList a.text] at ha
  rw [← @String.ofList_toList v.text] at hv
  cases h with
  | cons hlexeme hrest =>
    obtain ⟨hspacing, hhead⟩ := hrest.spacing_of_blank hgap
    refine ⟨ha, ?_, hspacing, hv, ?_⟩
    · -- without a gap the two words would be one
      cases hchars : charsOf gap with
      | cons c cs => exact ⟨c, cs, rfl, hhead c (by rw [hchars]; rfl)⟩
      | nil =>
        obtain ⟨-, hnext⟩ := hlexeme.legible.word_of_isIdentifier
          (isIdentifier_of_sameWord ha (by decide)) (opensNoRemark_of_sameWord ha (by decide))
        obtain ⟨c, cs, htext, hc, -⟩ :=
          exists_cons_of_isIdentifier (isIdentifier_of_sameWord hv (by decide))
        rw [charsOf_append, hchars, charsOf_cons, htext, List.nil_append, List.cons_append,
          notNext_cons, isWordChar_of_isAlpha hc] at hnext
        cases hnext
    · rw [List.append_cons] at hrest
      obtain ⟨_, hrest'⟩ := hrest.of_append
      obtain ⟨-, hhead'⟩ := hrest'.spacing_of_blank hgap'
      rw [charsOf_append, charsOf_cons]
      cases hchars : charsOf gap' with
      | cons c cs =>
        have hc := hhead' c (by rw [hchars]; rfl)
        rw [List.cons_append, notNext_cons, isWordChar_eq_false_of_isBlankChar hc, Bool.false_or,
          beq_eq_false_iff_ne]
        exact ne_of_class hc (by decide)
      | nil =>
        obtain ⟨c, htext, hc⟩ := exists_of_sameWord_equalsSign he
        rw [List.nil_append, htext, List.cons_append, notNext_cons, ← isWordChar_toLower, hc]
        refine Bool.or_eq_false_iff.mpr ⟨by decide, beq_eq_false_iff_ne.mpr ?_⟩
        rintro rfl
        revert hc
        decide

/-- Whole lines of a text were lines before their literals were taken apart. -/
theorem Lexer.exists_of_splitNames_eq_wholeLines {cs : List Char} {lines rest : List Token}
    (h : splitNames 0 (scan .start cs) = lines ++ rest) (hlines : Token.wholeLines lines = true) :
    ∃ before row, scan .start cs = before ++ row ∧
      (∀ c ∈ (charsOf before).getLast?, isBreakChar c = true) ∧ splitNames 0 row = rest := by
  by_cases hnil : lines = []
  · subst hnil
    exact ⟨[], _, rfl, by simp, h⟩
  · obtain ⟨before, row, hrow, hbefore, hsplit⟩ :=
      exists_of_splitNames_eq_lines h (Token.endsLine_of_wholeLines hlines hnil)
    have hlegible := (cuts_scan .start cs).allLegible
    exact ⟨before, row, hrow, getLast?_charsOf (hrow ▸ hlegible) hbefore, hsplit⟩

/-- No literal stands before the sign of a naming line, so what stands there is as scanned. -/
theorem exists_of_splitNames_eq_naming {row indent gap gap' us : List Token} {a v e : Token}
    (h : splitNames 0 row = indent ++ a :: (gap ++ v :: (gap' ++ e :: us)))
    (hindent : ∀ t ∈ indent, t.isBlank = true) (ha : sameWord a.text "attribute" = true)
    (hgap : ∀ t ∈ gap, t.isBlank = true) (hv : sameWord v.text "vb_name" = true)
    (hgap' : ∀ t ∈ gap', t.isBlank = true) (he : sameWord e.text "=" = true) :
    ∃ us', row = indent ++ a :: (gap ++ v :: (gap' ++ e :: us')) := by
  have hblank : ∀ t : Token, t.isBlank = true → t ≠ quoteToken := by
    rintro t ht rfl
    cases ht
  have hword : ∀ (t : Token) (word : String), sameWord t.text word = true →
      sameWord quoteToken.text word = false → t ≠ quoteToken := by
    rintro t word ht hquote rfl
    rw [hquote] at ht
    cases ht
  have hnoquote : ∀ t ∈ indent ++ a :: (gap ++ v :: (gap' ++ [e])), t ≠ quoteToken := by
    simp only [List.forall_mem_append, List.forall_mem_cons]
    exact ⟨fun t ht => hblank t (hindent t ht), hword a _ ha (by decide),
      fun t ht => hblank t (hgap t ht), hword v _ hv (by decide),
      fun t ht => hblank t (hgap' t ht), hword e _ he (by decide), by simp⟩
  obtain ⟨us', rfl⟩ := exists_of_splitNames_eq_append
    (show splitNames 0 row = (indent ++ a :: (gap ++ v :: (gap' ++ [e]))) ++ us by
      rw [h]; simp) hnoquote
  exact ⟨us', by simp⟩

/-- **A naming line in a text introduces a name** at the start of a line. -/
theorem exists_introduces_of_isMatch {cs : List Char} {m : Match}
    (h : nameLine.IsMatch true (splitNames 0 (scan .start cs)) m) :
    ∃ before indent first gap second rest,
      cs = before ++ (indent ++ (first ++ (gap ++ (second ++ rest)))) ∧
      (∀ c ∈ before.getLast?, isBreakChar c = true) ∧ Spacing indent ∧
      (∀ c ∈ indent.head?, isBlankChar c = true) ∧ Introduces first gap second rest := by
  obtain ⟨lines, indent, htake, hlines, hindent⟩ :=
    Token.exists_wholeLines_of_beginsLine (h.beginsLine rfl)
  obtain ⟨indent', a, gap, v, gap', e, us, hdrop, hindent', ha, hgap, hv, hgap', he⟩ :=
    exists_of_align_nameLine h.align_eq
  have htokens : splitNames 0 (scan .start cs) =
      lines ++ ((indent ++ indent') ++ a :: (gap ++ v :: (gap' ++ e :: us))) := by
    rw [← List.take_append_drop m.start (splitNames 0 (scan .start cs)), htake, hdrop]
    simp only [List.append_assoc]
  -- the same tokens stand in the row before its literals are taken apart
  obtain ⟨before, row, hrow, hbefore, hsplit⟩ := exists_of_splitNames_eq_wholeLines htokens hlines
  have hspace : ∀ t ∈ indent ++ indent', t.isBlank = true :=
    List.forall_mem_append.mpr ⟨hindent, hindent'⟩
  obtain ⟨us', rfl⟩ := exists_of_splitNames_eq_naming hsplit hspace ha hgap hv hgap' he
  have hcuts := cuts_scan .start cs
  rw [hrow] at hcuts
  obtain ⟨state, hcuts⟩ := hcuts.of_append
  obtain ⟨hindentSpacing, hindentHead⟩ := hcuts.spacing_of_blank hspace
  obtain ⟨state', hcuts⟩ := hcuts.of_append
  refine ⟨charsOf before, charsOf (indent ++ indent'), _, _, _, _, ?_, hbefore, hindentSpacing,
    hindentHead, hcuts.introduces ha hgap hv hgap' he⟩
  rw [← charsOf_scan .start cs, hrow]
  simp only [charsOf_append, charsOf_cons]

end VbaModules

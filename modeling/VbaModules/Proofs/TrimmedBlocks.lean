import VbaModules.Proofs.Fillers
import VbaModules.Proofs.Seams

/-!
# White space around a text

A block of a merged module is written without the white space around it and with two line feeds
after it. What its lines tell about the blocks of the module (`cuesOf`) must not depend on that.

* At the start, blanks and line feeds tell nothing (`cuesOf_append_of_white`). If they are part of a
  line continuation, dropping them leaves an underscore on a line of its own.
* At the end, a row of tokens may be broken off within its last token or before the fillers after it
  (`cuesOf_of_breaksOff`). The tokens before stay the same lexemes with a line feed in the place of
  what was cut away, as long as nothing in it goes on with a word (`GivesWay.lexeme`). The one token
  that may look at what is cut away is an underscore, which continues its line.
-/

namespace VbaModules.Lexer

open Token Text

/-! ### White space at the start -/

/-- The cues of a text that is read from the start of a line. -/
def cuesOf (cs : List Char) : List Cue :=
  cues true (splitNames 0 (scan .start cs))

@[simp]
theorem cuesOf_nil : cuesOf [] = [] := by
  rw [cuesOf, scan]
  rfl

/-- Idle tokens at the start have no part in taking literals apart. -/
theorem splitNames_append_of_isIdle {fs : List Token} (hfs : ∀ t ∈ fs, t.isIdle = true)
    (ts : List Token) : splitNames 0 (fs ++ ts) = fs ++ splitNames 0 ts := by
  induction fs with
  | nil => rfl
  | cons t fs ih =>
    obtain ⟨ht, hfs⟩ := List.forall_mem_cons.mp hfs
    rw [List.cons_append, splitNames_cons_of_isFiller (isFiller_of_isIdle ht), ite_self, ih hfs]
    rfl

/-- Fillers that bring back to the start of a line tell nothing. -/
theorem cues_splitNames_of_isIdle {fs : List Token} (hfs : ∀ t ∈ fs, t.isIdle = true)
    (hstart : fs.foldl lineStartAfter true = true) (ts : List Token) :
    cues true (splitNames 0 (fs ++ ts)) = cues true (splitNames 0 ts) := by
  rw [splitNames_append_of_isIdle hfs, cues_of_idle hfs, hstart]

/-- The token of a line feed. -/
def feedToken : Token :=
  ⟨.lineBreak, "\n"⟩

theorem lexeme_feedToken (state : LineState) (rest : List Char) :
    Lexeme state feedToken.kind feedToken.text.toList rest :=
  .lineBreak (.inl rfl) fun hlast => by cases hlast

/-- A line feed at the start tells nothing. -/
theorem cuesOf_feed (cs : List Char) : cuesOf ('\n' :: cs) = cuesOf cs := by
  have hscan : scan .start ('\n' :: cs) = [feedToken] ++ scan .start cs :=
    (lexeme_feedToken .start cs).scan_append
  rw [cuesOf, hscan, cues_splitNames_of_isIdle (by decide) rfl]
  rfl

/-- A lexeme is read as a token with its text. -/
theorem Lexeme.scan_ofList {state : LineState} {kind : Token.Kind} {text rest : List Char}
    (h : Lexeme state kind text rest) :
    scan state (text ++ rest) =
      ⟨kind, String.ofList text⟩ :: scan (state.after ⟨kind, String.ofList text⟩) rest := by
  have hscan := @Lexeme.scan_append state ⟨kind, String.ofList text⟩ rest
    (by rwa [String.toList_ofList])
  rwa [String.toList_ofList] at hscan

/-- Blanks and a line break are fillers, whatever stands before them. -/
theorem exists_scan_eq_of_blanks {gap lineBreak rest : List Char}
    (hgap : ∀ c ∈ gap, isBlankChar c = true) (hbreak : IsBreak lineBreak)
    (hunsplit : Unsplit lineBreak rest) (state : LineState) :
    ∃ fs, scan state (gap ++ (lineBreak ++ rest)) = fs ++ scan .start rest ∧
      (∀ t ∈ fs, t.isIdle = true) ∧ fs.foldl lineStartAfter false = true := by
  have hscan : ∀ state, scan state (lineBreak ++ rest) =
      ⟨.lineBreak, String.ofList lineBreak⟩ :: scan .start rest := fun state =>
    (Lexeme.lineBreak hbreak hunsplit).scan_ofList
  have hidle : Token.isIdle ⟨.lineBreak, String.ofList lineBreak⟩ = true :=
    isIdle_of_isLineBreak rfl
  cases gap with
  | nil => exact ⟨[_], hscan state, by simpa using hidle, rfl⟩
  | cons c gap =>
    obtain ⟨hc, hgap⟩ := List.forall_mem_cons.mp hgap
    have hspacing : Spacing gap := by simpa using Spacing.blanks_append hgap .nil
    have hends : SpaceEnds (lineBreak ++ rest) := by
      rcases hbreak with rfl | rfl | rfl <;> exact ⟨notNext_cons.mpr (by decide), rfl⟩
    have hblank : Lexeme state .blank (c :: gap) (lineBreak ++ rest) :=
      .blank hc hspacing hends (unsplit_of_forall hgap (by decide) _)
    refine ⟨[⟨.blank, String.ofList (c :: gap)⟩, ⟨.lineBreak, String.ofList lineBreak⟩], ?_, ?_,
      rfl⟩
    · rw [hblank.scan_ofList, hscan]
      rfl
    · simpa using ⟨isIdle_of_isBlank rfl, hidle⟩

/-- The first line of a text tells nothing if it has nothing but the underscore of a line
continuation. -/
theorem cuesOf_underscore {gap lineBreak rest : List Char}
    (hgap : ∀ c ∈ gap, isBlankChar c = true) (hbreak : IsBreak lineBreak)
    (hunsplit : Unsplit lineBreak rest) :
    cuesOf ('_' :: (gap ++ (lineBreak ++ rest))) = cuesOf rest := by
  -- at the start of a line the underscore is no part of a blank
  have hlexeme : Lexeme .start .unknown ['_'] (gap ++ (lineBreak ++ rest)) := by
    refine .number (.inr rfl) (by simp) ?_
    cases gap with
    | nil => rcases hbreak with rfl | rfl | rfl <;> exact notNext_cons.mpr (by decide)
    | cons c gap => exact notNext_cons.mpr (isWordChar_eq_false_of_isBlankChar (hgap c (by simp)))
  obtain ⟨fs, hscan, hfs, hstart⟩ := exists_scan_eq_of_blanks hgap hbreak hunsplit ⟨false, false⟩
  have hwhole : scan .start ('_' :: (gap ++ (lineBreak ++ rest))) =
      ⟨.unknown, "_"⟩ :: (fs ++ scan .start rest) :=
    hlexeme.scan_ofList.trans (congrArg _ hscan)
  have hsplit : splitNames 0 (⟨.unknown, "_"⟩ :: (fs ++ scan .start rest)) =
      ⟨.unknown, "_"⟩ :: (fs ++ splitNames 0 (scan .start rest)) := by
    have hbegins : ∀ ts, beginsNameLine (⟨.unknown, "_"⟩ :: ts) = false := by
      rintro (_ | ⟨_, _ | ⟨_, _⟩⟩) <;> rfl
    rw [splitNames, hbegins, splitNames_append_of_isIdle hfs]
    rfl
  have hnone := cue?_of_isNoCueWord (t := ⟨.unknown, "_"⟩) (by decide) rfl (by simp)
    (fs ++ splitNames 0 (scan .start rest))
  rw [cuesOf, hwhole, hsplit, cues, hnone]
  change cues false (fs ++ _) = _
  rw [cues_of_idle hfs, hstart]
  rfl

/-- Spacing at the start of a text tells nothing. -/
theorem cuesOf_spacing {cs rest : List Char} (h : Spacing cs) (hends : SpaceEnds rest)
    (hunsplit : Unsplit cs rest) : cuesOf (cs ++ rest) = cuesOf rest := by
  induction h with
  | nil => rfl
  | @blank c cs hc hcs ih =>
    have hcut : Unsplit ([c] ++ cs) rest := hunsplit
    have hscan : scan .start ((c :: cs) ++ rest) =
        [⟨.blank, String.ofList (c :: cs)⟩] ++ scan .start rest :=
      (Lexeme.blank hc hcs hends hcut.of_append).scan_ofList
    rw [cuesOf, hscan, cues_splitNames_of_isIdle (by simp [isIdle_of_isBlank, isBlank]) rfl]
    rfl
  | @continuation gap lineBreak cs hgap hbreak hcs ih =>
    have hcut : Unsplit cs rest := by
      have hassoc : '_' :: (gap ++ (lineBreak ++ cs)) = ('_' :: (gap ++ lineBreak)) ++ cs := by
        simp
      rw [hassoc] at hunsplit
      exact hunsplit.of_append
    have hline : Unsplit lineBreak (cs ++ rest) := by
      intro hlast
      refine hcs.notNext_feed fun hnil => hunsplit ?_
      rw [hnil, List.append_nil, ← List.cons_append, List.getLast?_append, hlast]
      rfl
    have hassoc : '_' :: (gap ++ (lineBreak ++ cs)) ++ rest =
        '_' :: (gap ++ (lineBreak ++ (cs ++ rest))) := by simp
    rw [hassoc, cuesOf_underscore hgap hbreak hline, ih hcut]

/-- **A blank at the start of a text tells nothing.** If the blank belongs to a line continuation,
the underscore is left on a line of its own. -/
theorem cuesOf_blank {c : Char} (hc : isBlankChar c = true) (cs : List Char) :
    cuesOf (c :: cs) = cuesOf cs := by
  obtain ⟨text, rest, rfl, -, htext, hends, hunsplit⟩ := exists_spacing cs
  have hwhole : Unsplit ([c] ++ text) rest :=
    (unsplit_of_forall (by simpa using hc) (by decide) _).append hunsplit
  rw [cuesOf_spacing htext hends hunsplit, ← cuesOf_spacing (.blank hc htext) hends hwhole]
  rfl

/-- **White space at the start tells nothing**, if it is made of blanks and line feeds. -/
theorem cuesOf_append_of_white {lead : List Char}
    (h : ∀ c ∈ lead, isBlankChar c = true ∨ c = '\n') (cs : List Char) :
    cuesOf (lead ++ cs) = cuesOf cs := by
  induction lead with
  | nil => rfl
  | cons c lead ih =>
    obtain ⟨hc, hlead⟩ := List.forall_mem_cons.mp h
    rw [List.cons_append, ← ih hlead]
    rcases hc with hc | rfl
    · exact cuesOf_blank hc _
    · exact cuesOf_feed _

/-! ### White space at the end -/

/-- What may be exchanged for a line feed after the text `m`: it does not go on with a word, and if
the text is an underscore it makes a line continuation of it, as the line feed does. -/
structure GivesWay (m rest : List Char) : Prop where
  ne_nil : m ≠ []
  last : ∀ c ∈ m.getLast?, isBlankChar c = false ∧ isBreakChar c = false
  word : NotNext isWordChar rest
  continuation : m = ['_'] → continuation? ('_' :: rest) ≠ none

section GivesWay

variable {m rest tail : List Char}

/-- For a class without the line feed, a line feed may stand in place of a text that begins with no
character of the class. -/
theorem notNext_append_feed_iff {p : Char → Bool} (hp : p '\n' = false)
    (hrest : NotNext p rest) {more : List Char} :
    NotNext p (more ++ '\n' :: tail) ↔ NotNext p (more ++ rest) := by
  cases more with
  | nil => simpa [hp] using hrest
  | cons c more => simp

variable (h : GivesWay m rest)
include h

/-- No line continuation begins where a text gives way to a line feed. -/
theorem GivesWay.continuation?_eq_none (hnone : continuation? (m ++ rest) = none) :
    continuation? (m ++ '\n' :: tail) = none := by
  by_contra hsome
  obtain ⟨n, hn⟩ := Option.ne_none_iff_exists'.mp hsome
  obtain ⟨gap, lineBreak, after, heq, hgap, hbreak, -, -⟩ := exists_continuation hn
  obtain ⟨c, m, rfl⟩ := List.exists_cons_of_ne_nil h.ne_nil
  obtain ⟨rfl, htail⟩ := List.cons.inj heq
  rcases List.append_eq_append_iff.mp htail with ⟨more, rfl, -⟩ | ⟨more, rfl, hmore⟩
  · -- the text is an underscore and blanks, so it is the underscore
    cases m with
    | nil => exact h.continuation rfl hnone
    | cons d m =>
      obtain ⟨last, hlast⟩ : ∃ last, (d :: m).getLast? = some last :=
        Option.isSome_iff_exists.mp (by simp)
      have hblank := hgap last (List.mem_append_left _ (List.mem_of_getLast? hlast))
      rw [(h.last last (by rw [List.getLast?_cons_cons, hlast]; rfl)).1] at hblank
      cases hblank
  · cases more with
    | nil =>
      -- as before, and there are no blanks
      cases gap with
      | nil => exact h.continuation rfl hnone
      | cons d gap =>
        obtain ⟨last, hlast⟩ : ∃ last, (d :: gap).getLast? = some last :=
          Option.isSome_iff_exists.mp (by simp)
        have hblank := hgap last (List.mem_of_getLast? hlast)
        rw [List.append_nil] at h
        rw [(h.last last (by rw [List.getLast?_cons_cons, hlast]; rfl)).1] at hblank
        cases hblank
    | cons d more =>
      -- the line break of the continuation belongs to the text
      have hd : isBreakChar d = true := by
        rcases hbreak with rfl | rfl | rfl <;> rw [(List.cons.inj hmore).1.symm] <;> rfl
      have hlength : lineBreakLength ((d :: more) ++ rest) ≠ 0 := by
        rw [ne_eq, lineBreakLength_eq_zero_iff, List.cons_append, notNext_cons, hd]
        exact Bool.true_eq_false_eq_False
      obtain ⟨lineBreak', after', heq', -, hbreak', hunsplit'⟩ := exists_lineBreak hlength
      rw [List.cons_append, List.append_assoc, heq',
        continuation?_append hgap hbreak' hunsplit'] at hnone
      cases hnone

/-- No directive comes about there. -/
theorem GivesWay.directive?_eq_none (hnone : directive? (m ++ rest) = none) :
    directive? (m ++ '\n' :: tail) = none := by
  by_contra hsome
  obtain ⟨⟨d, n⟩, hd⟩ := Option.ne_none_iff_exists'.mp hsome
  obtain ⟨text, after, heq, -, htext, hends⟩ := exists_directiveText hd
  -- a directive has no line breaks, so it is part of the text
  obtain ⟨more, rfl, rfl⟩ : ∃ more, m = text ++ more ∧ after = more ++ '\n' :: tail := by
    rcases List.append_eq_append_iff.mp heq with ⟨more, rfl, hmore⟩ | ⟨more, rfl, hmore⟩
    · cases more with
      | nil => exact ⟨[], by simp, by simpa using hmore.symm⟩
      | cons c more =>
        have hc := htext.isBreakChar_eq_false c (by simp)
        rw [← (List.cons.inj hmore).1] at hc
        cases hc
    · exact ⟨more, rfl, hmore⟩
  have hword : NotNext isWordChar (more ++ rest) :=
    (notNext_append_feed_iff (by decide) h.word).mp hends
  rw [List.append_assoc, htext.directive?_append hword] at hnone
  cases hnone

/-- A line feed stands for the text that gives way to it. -/
theorem GivesWay.standsFor : StandsFor (m ++ '\n' :: tail) (m ++ rest) where
  head := by
    obtain ⟨c, m, rfl⟩ := List.exists_cons_of_ne_nil h.ne_nil
    exact .some (.inl rfl)
  continuation := h.continuation?_eq_none
  directive := h.directive?_eq_none

/-- **A lexeme stays one** if the line is ended somewhere after it. -/
theorem GivesWay.lexeme {state : LineState} {kind : Token.Kind} {text : List Char}
    (hlexeme : Lexeme state kind text (m ++ rest)) :
    Lexeme state kind text (m ++ '\n' :: tail) := by
  obtain ⟨c, more, rfl⟩ := List.exists_cons_of_ne_nil h.ne_nil
  refine hlexeme.of_standsFor h.standsFor id fun _ => ⟨fun cs hcs => ?_, fun hnone => ?_⟩
  · cases hcs with
    | plain hradix hne hdigits hrest hmark => exact .plain hradix hne hdigits hrest hmark
    | closed hradix hne hdigits => exact .closed hradix hne hdigits
  · rw [radixLength?_eq_none_iff] at hnone ⊢
    intro radix p ys hys hradix
    obtain ⟨rfl, rfl⟩ := List.cons.inj hys
    have hnext := hnone c p (more ++ rest) rfl hradix
    have hfeed : p '\n' = false := by
      cases hp : p '\n' with
      | false => rfl
      | true => cases hradix.isWordChar_of_digit hp
    refine (notNext_append_feed_iff hfeed ?_).mpr hnext
    exact h.word.imp fun d hd => hradix.isWordChar_of_digit hd

end GivesWay

/-- It does so behind any other text. -/
theorem GivesWay.append {m rest : List Char} (h : GivesWay m rest) (before : List Char) :
    GivesWay (before ++ m) rest where
  ne_nil := by simp [h.ne_nil]
  last := by
    rw [List.getLast?_append_of_ne_nil _ h.ne_nil]
    exact h.last
  word := h.word
  continuation heq := by
    refine h.continuation ?_
    rcases List.append_eq_singleton_iff.mp heq with ⟨-, hm⟩ | ⟨-, hm⟩
    · exact hm
    · exact absurd hm h.ne_nil

/-- The lexemes of a row stay if the line is ended after them. -/
theorem Cuts.of_givesWay {state : LineState} {ts us vs : List Token} {m rest tail : List Char}
    (h : Cuts state (ts ++ us)) (hus : charsOf us = m ++ rest) (hway : GivesWay m rest)
    (hcuts : Cuts (ts.foldl LineState.after state) vs) (hvs : charsOf vs = m ++ '\n' :: tail) :
    Cuts state (ts ++ vs) := by
  induction ts generalizing state with
  | nil => exact hcuts
  | cons t ts ih =>
    cases h with
    | cons hlexeme hrest =>
      refine .cons ?_ (ih hrest hcuts)
      rw [List.append_eq, charsOf_append, hus, ← List.append_assoc] at hlexeme
      rw [List.append_eq, charsOf_append, hvs, ← List.append_assoc]
      exact (hway.append (charsOf ts)).lexeme hlexeme

/-- A token with code may end its line. -/
theorem Lexeme.before_feed {state : LineState} {t : Token} {rest tail : List Char}
    (h : Lexeme state t.kind t.text.toList rest) (hfiller : t.isFiller = false)
    (hremark : sameWord t.text "rem" = true → RemarkMayFollow rest) :
    Lexeme state t.kind t.text.toList ('\n' :: tail) := by
  rw [← String.ofList_toList (s := t.text)] at hremark
  rw [isFiller] at hfiller
  generalize t.kind = kind at h hfiller
  generalize t.text.toList = text at h hremark
  have hnext : ∀ {p : Char → Bool}, p '\n' = false → NotNext p ('\n' :: tail) := fun hp =>
    notNext_cons.mpr hp
  -- each kind of code ends before a line feed
  cases h with
  | lineBreak => cases hfiller
  | blank => cases hfiller
  | comment => cases hfiller
  | remark => cases hfiller
  | @literal isClosed cs _ hcs _ =>
    refine .literal hcs ?_
    cases isClosed with
    | true => exact hnext (p := (· == '"')) rfl
    | false => exact hnext (p := (!isBreakChar ·)) rfl
  | directive hstate hcs _ => exact .directive hstate hcs (hnext rfl)
  | numberSign => exact .numberSign fun _ => rfl
  | radix hcs =>
    cases hcs with
    | plain hradix hne hdigits _ _ =>
      refine .radix (.plain hradix hne hdigits (hnext ?_) (hnext rfl))
      by_contra hdigit
      rw [Bool.not_eq_false] at hdigit
      cases hradix.isWordChar_of_digit hdigit
    | closed hradix hne hdigits => exact .radix (.closed hradix hne hdigits)
  | ampersand => exact .ampersand rfl
  | word hcs _ hnone =>
    refine .word hcs (hnext rfl) fun hrem => hnone ⟨hrem.1, hrem.2.1, hremark hrem.2.1⟩
  | number hc hcs _ => exact .number hc hcs (hnext rfl)
  | other hc => exact .other hc

/-- A comment may end without the white space at its end. -/
theorem Lexeme.trim_comment {state : LineState} {text white rest tail : List Char}
    (h : Lexeme state .comment (text ++ white) rest) (hne : text ≠ [])
    (hwhite : ∀ c ∈ white, isWhite c = true) : Lexeme state .comment text ('\n' :: tail) := by
  have hfeed : AtLineEnd ('\n' :: tail) := notNext_cons.mpr rfl
  generalize hkind : Token.Kind.comment = kind at h
  generalize hwhole : text ++ white = whole at h
  cases h with
  | @comment cs _ hcs _ =>
    obtain ⟨c, text, rfl⟩ := List.exists_cons_of_ne_nil hne
    obtain ⟨rfl, rfl⟩ := List.cons.inj hwhole
    exact .comment (fun c hc => hcs c (List.mem_append_left _ hc)) hfeed
  | @remark word cs _ hstate hword hrem hgap hcs _ =>
    rcases List.append_eq_append_iff.mp hwhole with ⟨more, rfl, rfl⟩ | ⟨more, rfl, rfl⟩
    · cases more with
      | nil =>
        rw [List.append_nil] at hword hrem
        have hremark := @Lexeme.remark state text [] ('\n' :: tail) hstate hword hrem
          (notNext_nil _) (by simp) hfeed
        rwa [List.append_nil] at hremark
      | cons c more =>
        -- the word has no white space
        have hc := hwhite c (by simp)
        rw [isWhite_eq_false_of_isWordChar
          (forall_isWordChar_of_isIdentifier hword c (by simp))] at hc
        cases hc
    · refine .remark hstate hword hrem ?_ (fun c hc => hcs c (List.mem_append_left _ hc)) hfeed
      cases more with
      | nil => exact notNext_nil _
      | cons c more => exact notNext_cons.mpr (notNext_cons.mp hgap)
  | word => exact absurd hkind (wordKind_ne (by decide) (by decide) _)
  | _ => cases hkind

/-- Where spacing has an underscore, the line feed of its continuation may follow at once. -/
theorem Spacing.feed {text more : List Char} (h : Spacing (text ++ more)) (hne : text ≠ [])
    (hlast : ∀ c ∈ text.getLast?, isBlankChar c = false ∧ isBreakChar c = false) :
    Spacing (text ++ ['\n']) := by
  generalize hwhole : text ++ more = whole at h
  induction h generalizing text with
  | nil => exact absurd (List.append_eq_nil_iff.mp hwhole).1 hne
  | @blank c cs hc hcs ih =>
    obtain ⟨d, text, rfl⟩ := List.exists_cons_of_ne_nil hne
    obtain ⟨rfl, htail⟩ := List.cons.inj hwhole
    cases text with
    | nil =>
      rw [(hlast d rfl).1] at hc
      cases hc
    | cons e text =>
      exact .blank hc (ih (by simp) (by rwa [List.getLast?_cons_cons] at hlast) htail)
  | @continuation gap lineBreak cs hgap hbreak hcs ih =>
    obtain ⟨d, text, rfl⟩ := List.exists_cons_of_ne_nil hne
    obtain ⟨rfl, htail⟩ := List.cons.inj hwhole
    cases text with
    | nil => exact @Spacing.continuation [] ['\n'] [] (by simp) (.inl rfl) .nil
    | cons e text =>
      rw [List.getLast?_cons_cons] at hlast
      have hout : ∀ c ∈ (e :: text).getLast?, c ∉ gap ++ lineBreak := by
        intro c hc hin
        obtain ⟨hblank, hnotBreak⟩ := hlast c hc
        rcases List.mem_append.mp hin with hin | hin
        · rw [hgap c hin] at hblank
          cases hblank
        · rcases hbreak with rfl | rfl | rfl <;> simp at hin <;> simp_all [isBreakChar]
      obtain ⟨last, hmem⟩ : ∃ last, (e :: text).getLast? = some last :=
        Option.isSome_iff_exists.mp (by simp)
      rw [← List.append_assoc] at htail
      -- the text goes on beyond the line break of the first continuation
      rcases List.append_eq_append_iff.mp htail with ⟨more', heq, -⟩ | ⟨more', heq, hcs'⟩
      · exact absurd (heq ▸ List.mem_append_left _ (List.mem_of_getLast? hmem)) (hout last hmem)
      · cases more' with
        | nil =>
          rw [List.append_nil] at heq
          exact absurd (heq ▸ List.mem_of_getLast? hmem) (hout last hmem)
        | cons f more' =>
          have hrest : Spacing ((f :: more') ++ ['\n']) := by
            refine ih (by simp) ?_ hcs'.symm
            rwa [heq, List.getLast?_append_of_ne_nil _ (by simp)] at hlast
          rw [heq, List.cons_append, List.append_assoc, List.append_assoc]
          exact .continuation hgap hbreak hrest

/-- A blank may end with the underscore of a line continuation and a line feed. -/
theorem Lexeme.trim_blank {state : LineState} {text more rest tail : List Char}
    (h : Lexeme state .blank (text ++ more) rest) (hne : text ≠ [])
    (hlast : ∀ c ∈ text.getLast?, isBlankChar c = false ∧ isBreakChar c = false) :
    Lexeme state .blank (text ++ ['\n']) ('\n' :: tail) := by
  obtain ⟨c, cs, heq, hc, hcs, -, -⟩ := h.exists_spacing_of_blank
  obtain ⟨d, text, rfl⟩ := List.exists_cons_of_ne_nil hne
  obtain ⟨rfl, rfl⟩ := List.cons.inj heq
  cases text with
  | nil =>
    rw [(hlast d rfl).1] at hc
    cases hc
  | cons e text =>
    rw [List.getLast?_cons_cons] at hlast
    refine .blank hc (hcs.feed (by simp) hlast) ⟨notNext_cons.mpr rfl, rfl⟩ fun hreturn => ?_
    rw [List.append_eq, List.getLast?_concat] at hreturn
    cases hreturn

/-- Where a row may be **broken off**: after a part `text` of the token `t`, of which only white
space is left, and with fillers after the token. -/
structure BreaksOff (t : Token) (text white : List Char) (fs : List Token) : Prop where
  eq : t.text.toList = text ++ white
  givesWay : GivesWay text (white ++ charsOf fs)
  isWhite_of_mem : ∀ c ∈ white, isWhite c = true
  fillers : ∀ u ∈ fs, u.isFiller = true
  white_eq_nil : t.isFiller = false → white = []
  remark : t.isFiller = false → sameWord t.text "rem" = true → RemarkMayFollow (charsOf fs)

section BreaksOff

variable {ts fs : List Token} {t : Token} {text white tail : List Char}

/-- What is read where a row is broken off: the same token if it has code, and fillers. -/
theorem BreaksOff.exists_cuts {state : LineState} (h : BreaksOff t text white fs)
    (hlexeme : Lexeme state t.kind t.text.toList (charsOf fs)) :
    ∃ us, Cuts state us ∧ charsOf us = text ++ ['\n', '\n'] ∧
      (t.isFiller = false → ∃ us', us = t :: us' ∧ ∀ u ∈ us', u.isFiller = true) ∧
      (t.isFiller = true → ∀ u ∈ us, u.isFiller = true) := by
  have hfeeds : ∀ state, Cuts state [feedToken, feedToken] := fun state =>
    .cons (lexeme_feedToken _ _) (.cons (lexeme_feedToken _ _) (.nil _))
  have hchars : charsOf [feedToken, feedToken] = ['\n', '\n'] := rfl
  cases hfiller : t.isFiller with
  | false =>
    refine ⟨[t, feedToken, feedToken], .cons ?_ (hfeeds _), ?_, fun _ => ⟨_, rfl, by decide⟩, nofun⟩
    · exact hlexeme.before_feed hfiller (h.remark hfiller)
    · rw [charsOf_cons, hchars, h.eq, h.white_eq_nil hfiller, List.append_nil]
  | true =>
    have hne := h.givesWay.ne_nil
    have hlast := h.givesWay.last
    rw [h.eq] at hlexeme
    obtain ⟨kind, whole⟩ := t
    simp only at hlexeme
    rcases kind with _ | _ | _ | _ | _ | _ | _ | _
    case comment =>
      refine ⟨[⟨.comment, String.ofList text⟩, feedToken, feedToken], .cons ?_ (hfeeds _), ?_,
        nofun, fun _ => by simp [isFiller, feedToken]⟩
      · rw [String.toList_ofList, hchars]
        exact hlexeme.trim_comment hne h.isWhite_of_mem
      · rw [charsOf_cons, hchars, String.toList_ofList]
    case blank =>
      refine ⟨[⟨.blank, String.ofList (text ++ ['\n'])⟩, feedToken],
        .cons ?_ (.cons (lexeme_feedToken _ _) (.nil _)), ?_, nofun,
        fun _ => by simp [isFiller, feedToken]⟩
      · rw [String.toList_ofList]
        exact hlexeme.trim_blank hne hlast
      · rw [charsOf_cons, String.toList_ofList, List.append_assoc]
        rfl
    case lineBreak =>
      -- all characters of a line break are such that do not stand last
      obtain ⟨last, hmem⟩ : ∃ last, text.getLast? = some last :=
        Option.isSome_iff_exists.mp (by simp [hne])
      have hin : last ∈ text ++ white := List.mem_append_left _ (List.mem_of_getLast? hmem)
      have hnot := (hlast last hmem).2
      rcases (lexeme_lineBreak_iff.mp hlexeme).1 with heq | heq | heq <;> rw [heq] at hin <;>
        simp at hin <;> simp_all [isBreakChar]
    all_goals cases hfiller

/-- Fillers at the end of a row tell nothing. -/
theorem Cuts.cues_append_of_isFiller (hcuts : Cuts .start (ts ++ fs))
    (hfs : ∀ u ∈ fs, u.isFiller = true) :
    cues true (splitNames 0 (ts ++ fs)) = cues true (splitNames 0 ts) := by
  rw [splitNames_append_of_isFiller 0 ts hfs]
  refine cues_append_of_idle (fun u hu => ?_) true _
  exact hcuts.isIdle_of_isFiller (List.mem_append_right _ hu) (hfs u hu)

/-- **A row that is broken off tells the same.** -/
theorem cuesOf_of_breaksOff (hcuts : Cuts .start (ts ++ t :: fs)) (h : BreaksOff t text white fs) :
    cuesOf (charsOf ts ++ (text ++ ['\n', '\n'])) = cues true (splitNames 0 (ts ++ t :: fs)) := by
  obtain ⟨us, hus, hchars, hcode, hfiller⟩ := h.exists_cuts (by cases hcuts.drop; assumption)
  have hrow : Cuts .start (ts ++ us) := by
    refine hcuts.of_givesWay ?_ h.givesWay hus hchars
    rw [charsOf_cons, h.eq, List.append_assoc]
  have hscan : scan .start (charsOf ts ++ (text ++ ['\n', '\n'])) = ts ++ us := by
    rw [← hchars, ← charsOf_append, hrow.scan_eq]
  rw [cuesOf, hscan]
  cases ht : t.isFiller with
  | true =>
    rw [hrow.cues_append_of_isFiller (hfiller ht),
      hcuts.cues_append_of_isFiller (List.forall_mem_cons.mpr ⟨ht, h.fillers⟩)]
  | false =>
    obtain ⟨us', rfl, hus'⟩ := hcode ht
    rw [List.append_cons] at hrow hcuts
    rw [List.append_cons ts t us', List.append_cons ts t fs, hrow.cues_append_of_isFiller hus',
      hcuts.cues_append_of_isFiller h.fillers]

end BreaksOff

/-! ### White space in a row -/

/-- Blanks are white space. -/
theorem isWhite_of_isBlankChar {c : Char} (h : isBlankChar c = true) : isWhite c = true := by
  rw [isBlankChar, Bool.or_eq_true, beq_iff_eq, beq_iff_eq] at h
  rcases h with rfl | rfl <;> decide

/-- So are the characters of line breaks. -/
theorem isWhite_of_isBreakChar {c : Char} (h : isBreakChar c = true) : isWhite c = true := by
  rcases eq_of_isBreakChar h with rfl | rfl <;> decide

/-- The text has no white space at its start and at its end. -/
structure Trimmed (text : List Char) : Prop where
  head : ∀ c ∈ text.head?, isWhite c = false
  last : ∀ c ∈ text.getLast?, isWhite c = false

/-- What trimming leaves of a text, and what it takes away. -/
theorem exists_trim (text : String) :
    ∃ lead trail, text.toList = lead ++ ((trim text).toList ++ trail) ∧
      (∀ c ∈ lead, isWhite c = true) ∧ (∀ c ∈ trail, isWhite c = true) ∧
      Trimmed (trim text).toList := by
  have hcore : (trim text).toList =
      ((text.toList.dropWhile isWhite).reverse.dropWhile isWhite).reverse := by
    rw [trim, trimEnd, trimStart, String.toList_ofList, String.toList_ofList]
  have hstart : text.toList.dropWhile isWhite = (trim text).toList ++
      ((text.toList.dropWhile isWhite).reverse.takeWhile isWhite).reverse := by
    rw [hcore, ← List.reverse_append, List.takeWhile_append_dropWhile, List.reverse_reverse]
  refine ⟨_, _, (List.takeWhile_append_dropWhile (p := isWhite)).symm.trans (congrArg _ hstart),
    fun c hc => List.mem_takeWhile_imp hc,
    fun c hc => List.mem_takeWhile_imp (List.mem_reverse.mp hc), fun c hc => ?_, fun c hc => ?_⟩
  · have hnot := List.head?_dropWhile_not isWhite text.toList
    have hhead : (text.toList.dropWhile isWhite).head? = some c := by
      rw [hstart, List.head?_append, hc]
      rfl
    rw [hhead] at hnot
    exact hnot
  · rw [hcore, List.getLast?_reverse] at hc
    have hnot := List.head?_dropWhile_not isWhite (text.toList.dropWhile isWhite).reverse
    rw [hc] at hnot
    exact hnot

/-- A text that trimming leaves alone has no white space at its ends. -/
theorem trimmed_of_trim_eq {text : String} (h : trim text = text) : Trimmed text.toList := by
  obtain ⟨-, -, -, -, -, htrimmed⟩ := exists_trim text
  rwa [h] at htrimmed

/-- The tokens with code have no white space at their starts and ends. -/
def CodeTrimmed (ts : List Token) : Prop :=
  ∀ t ∈ ts, t.isFiller = false → Trimmed t.text.toList

/-- A token stays when literals are taken apart, unless it is a literal with a name in it. -/
theorem mem_splitNames_or {due : Nat} {ts : List Token} {t : Token} (h : t ∈ ts) :
    t ∈ splitNames due ts ∨ t.kind = .string ∧ ∃ name, unquoted? t.text = some name := by
  fun_induction splitNames due ts with
  | case1 => cases h
  | case3 due u ts hbreak hstring name hname ih =>
    rcases List.mem_cons.mp h with rfl | h
    · exact .inr ⟨kind_eq_string_of_due hstring, name, hname⟩
    · rcases ih h with hmem | hliteral
      · exact .inl (by simp [hmem])
      · exact .inr hliteral
  | _ =>
    rename_i ih
    rcases List.mem_cons.mp h with rfl | h
    · exact .inl List.mem_cons_self
    · rcases ih h with hmem | hliteral
      · exact .inl (List.mem_cons_of_mem _ hmem)
      · exact .inr hliteral

/-- A literal that is taken apart begins and ends with a quote. -/
theorem Cuts.codeTrimmed {state : LineState} {row : List Token} (h : Cuts state row)
    (htrimmed : CodeTrimmed (splitNames 0 row)) : CodeTrimmed row := by
  intro t ht hfiller
  rcases @mem_splitNames_or 0 row t ht with hmem | ⟨hkind, name, hname⟩
  · exact htrimmed t hmem hfiller
  · have hgrounded : Grounded t := grounded_of_mem_scan (h.scan_eq ▸ ht)
    rw [← toList_unquoted hgrounded hkind hname]
    have hquote : isWhite '"' = false := by decide
    refine ⟨fun c hc => ?_, fun c hc => ?_⟩
    · rw [List.cons_append, List.head?_cons, Option.mem_some] at hc
      rwa [← hc]
    · rw [List.getLast?_concat, Option.mem_some] at hc
      rwa [← hc]

/-- White space in the spacing of a line is made of blanks and line breaks. -/
theorem Spacing.blank_or_break {cs : List Char} (h : Spacing cs) :
    ∀ c ∈ cs, isWhite c = true → isBlankChar c = true ∨ isBreakChar c = true := by
  have hunderscore : isWhite '_' = false := by decide
  induction h with
  | nil => simp
  | blank hc _ ih => exact List.forall_mem_cons.mpr ⟨fun _ => .inl hc, ih⟩
  | continuation hgap hbreak _ ih =>
    refine List.forall_mem_cons.mpr ⟨fun h => ?_, List.forall_mem_append.mpr
      ⟨fun c hc _ => .inl (hgap c hc), List.forall_mem_append.mpr ⟨fun c hc _ => .inr ?_, ih⟩⟩⟩
    · rw [hunderscore] at h
      cases h
    · rcases hbreak with rfl | rfl | rfl <;> simp at hc <;> simp_all [isBreakChar]

/-- The white space of a token that begins with white space is blank. -/
theorem Lexeme.blank_or_break {state : LineState} {t : Token} {rest : List Char}
    (h : Lexeme state t.kind t.text.toList rest)
    (htrimmed : t.isFiller = false → Trimmed t.text.toList)
    (hhead : ∀ c ∈ t.text.toList.head?, isWhite c = true) :
    t.isFiller = true ∧
      ∀ c ∈ t.text.toList, isWhite c = true → isBlankChar c = true ∨ isBreakChar c = true := by
  obtain ⟨first, more, htext⟩ := List.exists_cons_of_ne_nil h.text_ne_nil
  have hfirst := hhead first (by rw [htext]; rfl)
  have hfiller : t.isFiller = true := by
    by_contra hcode
    have hnot := (htrimmed (by simpa using hcode)).head first (by rw [htext]; rfl)
    rw [hfirst] at hnot
    cases hnot
  refine ⟨hfiller, ?_⟩
  obtain ⟨kind, text⟩ := t
  simp only at h htext ⊢
  -- of the fillers a comment does not begin with white space
  rcases kind with _ | _ | _ | _ | _ | _ | _ | _
  case comment =>
    obtain ⟨c, cs, heq, hc, -⟩ := exists_head_of_comment h
    obtain ⟨rfl, -⟩ := List.cons.inj (htext.symm.trans heq)
    rw [hc] at hfirst
    cases hfirst
  case blank =>
    obtain ⟨c, cs, heq, hc, hcs, -⟩ := h.exists_spacing_of_blank
    rw [heq]
    exact (Spacing.blank hc hcs).blank_or_break
  case lineBreak =>
    intro c hc _
    refine .inr ?_
    rcases (lexeme_lineBreak_iff.mp h).1 with heq | heq | heq <;> rw [heq] at hc <;>
      simp at hc <;> simp_all [isBreakChar]
  all_goals cases hfiller

end VbaModules.Lexer

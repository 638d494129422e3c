import VbaModules.Proofs.AliasClauses
import VbaModules.Proofs.Cues
import VbaModules.Proofs.IntrinsicKinds

/-!
# What is open at a position

The lines of a module are read by their first words (`cue?`), the searches for its sections look for
patterns. Here the two are brought together: what reading finds open at a position is what the
searches find to reach beyond it.

A line has a cue where a search has a match (`cueAt?_of_header`, `cueAt?_of_closer`,
`cueAt?_of_option`), and conversely. So the conditional blocks that are open are those that reach
beyond the position (`conditionals_readingAt_ne_zero`), and if all blocks are closed in the end no
others are (`conditionals_readingAt_eq_zero`). The same holds for procedures and types
(`block_readingAt_ne_none`, `block_readingAt_of_apart`).
-/

namespace VbaModules

open Token Text Candidate

/-! ### Cues by position -/

/-- The cue of the line whose code begins at the position. -/
def cueAt? (tokens : List Token) (i : Nat) : Option Cue :=
  if beginsLine tokens i && tokens[i]?.any (!·.isBlank) then cue? (tokens.drop i) else none

/-- The cues of the lines whose code begins at `a` or later, but before `b`. -/
def cuesIn (tokens : List Token) (a b : Nat) : List Cue :=
  (List.range' a (b - a)).filterMap (cueAt? tokens)

/-- What is open at the position. -/
def readingAt (tokens : List Token) (i : Nat) : Reading :=
  Reading.outside.after (cuesIn tokens 0 i)

section Positions

variable {tokens : List Token} {a b c i : Nat}

/-- Cues between positions are joined where the positions meet. -/
theorem cuesIn_append (hab : a ≤ b) (hbc : b ≤ c) :
    cuesIn tokens a b ++ cuesIn tokens b c = cuesIn tokens a c := by
  have hrange : List.range' a (b - a) ++ List.range' (a + (b - a)) (c - b) =
      List.range' a (b - a + (c - b)) := List.range'_append_1
  rw [Nat.add_sub_cancel' hab, show b - a + (c - b) = c - a by omega] at hrange
  rw [cuesIn, cuesIn, cuesIn, ← List.filterMap_append, hrange]

theorem cuesIn_succ (hle : a ≤ b) :
    cuesIn tokens a (b + 1) = cuesIn tokens a b ++ (cueAt? tokens b).toList := by
  rw [← cuesIn_append hle (Nat.le_succ b)]
  congr 1
  rw [cuesIn, show b.succ - b = 1 by omega, List.range'_one, List.filterMap_cons,
    List.filterMap_nil]
  cases cueAt? tokens b <;> rfl

/-- Reading on from a position leads to what is open at a later one. -/
theorem readingAt_after (hle : a ≤ b) :
    (readingAt tokens a).after (cuesIn tokens a b) = readingAt tokens b := by
  rw [readingAt, readingAt, ← cuesIn_append (Nat.zero_le a) hle, Reading.after_append]

/-- Reading one token changes what is open as its cue says. -/
theorem readingAt_succ (tokens : List Token) (i : Nat) :
    readingAt tokens (i + 1) = (readingAt tokens i).after (cueAt? tokens i).toList := by
  rw [readingAt, cuesIn_succ (Nat.zero_le i), Reading.after_append]
  rfl

/-- The cues of the rest of the tokens. -/
theorem cues_drop (tokens : List Token) (i : Nat) :
    cues (beginsLine tokens i) (tokens.drop i) = cuesIn tokens i tokens.length := by
  induction hn : tokens.length - i generalizing i with
  | zero =>
    rw [List.drop_of_length_le (by omega), cuesIn, hn]
    rfl
  | succ n ih =>
    have hlt : i < tokens.length := by omega
    have hget : tokens[i]? = some tokens[i] := List.getElem?_eq_getElem hlt
    have hnext : lineStartAfter (beginsLine tokens i) tokens[i] = beginsLine tokens (i + 1) := by
      rw [beginsLine, beginsLine, List.take_add_one, hget, List.foldl_append]
      rfl
    rw [← cuesIn_append (Nat.le_succ i) hlt, cuesIn_succ le_rfl, List.drop_eq_getElem_cons hlt,
      cues, hnext, ih (i + 1) (by omega), cueAt?, hget, List.drop_eq_getElem_cons hlt]
    congr 1
    have hnone : cuesIn tokens i i = [] := by simp [cuesIn]
    rw [hnone, List.nil_append, Option.any_some]
    cases beginsLine tokens i && !tokens[i].isBlank <;> rfl

/-- A cue is told at the first token of a line that is not blank. -/
theorem cueAt?_eq_some_iff {cue : Cue} :
    cueAt? tokens i = some cue ↔ beginsLine tokens i = true ∧
      (∃ t, tokens[i]? = some t ∧ t.isBlank = false) ∧ cue? (tokens.drop i) = some cue := by
  rw [cueAt?]
  cases beginsLine tokens i <;> cases tokens[i]? <;> simp

end Positions

/-! ### Matches and cues -/

section Matches

variable {tokens : List Token} {p : Pattern} {m : Match} {i : Nat} {word : String}

/-- What a match ends with is the head word of the tokens from its start on. -/
theorem Pattern.IsMatch.headWord? (h : p.IsMatch true tokens m) :
    p.headWord? (tokens.drop m.start) = some (lastWord tokens m) := by
  have hlt := h.start_lt_stop
  have hlength : p.matchLength? (tokens.drop m.start) = some (m.stop - m.start) :=
    matchLength?_eq_some_iff.mpr ⟨h.align_eq, Nat.sub_pos_of_lt hlt⟩
  have hindex : m.start + (m.stop - m.start - 1) = m.stop - 1 := by omega
  rw [Pattern.headWord?, hlength, Option.map_some, lastWord, lastWord, lastToken?, lastToken?,
    List.getElem?_drop, hindex]

/-- A head word at the start of a line is the end of a match. -/
theorem Pattern.exists_isMatch_of_headWord? (hline : beginsLine tokens i = true)
    (hfirst : ∃ t, tokens[i]? = some t ∧ t.isBlank = false)
    (h : p.headWord? (tokens.drop i) = some word) :
    ∃ m, p.IsMatch true tokens m ∧ m.start = i ∧ lastWord tokens m = word := by
  obtain ⟨n, hn, -⟩ := Option.map_eq_some_iff.mp h
  obtain ⟨halign, hpos⟩ := matchLength?_eq_some_iff.mp hn
  have hmatch : p.IsMatch true tokens ⟨i, i + n⟩ :=
    ⟨by simp only; omega, hfirst, fun _ => hline, by simpa using halign⟩
  exact ⟨_, hmatch, rfl, Option.some.inj (hmatch.headWord?.symm.trans h)⟩

end Matches

/-- An element that asks for words accepts just these words, in any case. -/
theorem Element.accepts_words_iff {words : List String} {t : Token} :
    (Element.words words).accepts t = true ↔
      t.isLineBreak = false ∧ ∃ word ∈ words, foldCase t.text = foldCase word := by
  simp only [Element.words, Element.accepts, Alternative.accepts, List.any_map, List.any_eq_true,
    Function.comp_apply, Bool.and_eq_true, Bool.not_eq_true', sameWord_iff]
  constructor
  · rintro ⟨word, hword, hbreak, hsame⟩
    exact ⟨hbreak, word, hword, hsame⟩
  · rintro ⟨hbreak, word, hword, hsame⟩
    exact ⟨word, hword, hbreak, hsame⟩

/-- The last of the elements, if it must take a token, takes the last token. -/
theorem Pattern.align_concat_iff {es : List Element} {e : Element} (he : e.optional = false)
    {ts : List Token} {n : Nat} :
    align (es ++ [e]) ts = some n ↔
      ∃ k t, align es ts = some k ∧ ((ts.drop k).dropWhile isBlank).head? = some t ∧
        e.accepts t = true ∧ n = k + (((ts.drop k).takeWhile isBlank).length + 1) := by
  -- an element that must take a token takes the first that is not blank
  have hone : ∀ {us : List Token} {j : Nat}, align [e] us = some j ↔
      ∃ t, (us.dropWhile isBlank).head? = some t ∧ e.accepts t = true ∧
        j = (us.takeWhile isBlank).length + 1 := by
    intro us j
    have hnil : ∀ us : List Token, align [] us = some 0 := fun _ => rfl
    rw [align, he, hnil, Option.map_some, Nat.add_zero]
    cases (us.dropWhile isBlank).head? with
    | none => simp
    | some t =>
      rw [Option.any_some]
      constructor
      · intro h
        split at h
        next hacc => exact ⟨t, rfl, hacc, (Option.some.inj h).symm⟩
        next => cases h
      · rintro ⟨t', ht', hacc, rfl⟩
        obtain rfl := Option.some.inj ht'
        rw [if_pos hacc]
  rw [Pattern.align_append, Option.bind_eq_some_iff]
  simp only [Option.map_eq_some_iff, hone]
  constructor
  · rintro ⟨k, hk, j, ⟨t, ht, hacc, rfl⟩, rfl⟩
    exact ⟨k, t, hk, ht, hacc, rfl⟩
  · rintro ⟨k, t, hk, ht, hacc, rfl⟩
    exact ⟨k, hk, _, ⟨t, ht, hacc, rfl⟩, rfl⟩

section LastWord

variable {tokens : List Token} {es : List Element} {words : List String} {m : Match}

/-- The last word of a match is a token that the last element accepts, and another element that
accepts it could stand in its place. -/
theorem Pattern.lastWord_of_align_concat {e : Element} (he : e.optional = false)
    (hlt : m.start < m.stop)
    (h : align (es ++ [e]) (tokens.drop m.start) = some (m.stop - m.start)) :
    ∃ t, e.accepts t = true ∧ lastWord tokens m = foldCase t.text ∧
      ∀ e' : Element, e'.optional = false → e'.accepts t = true →
        align (es ++ [e']) (tokens.drop m.start) = some (m.stop - m.start) := by
  obtain ⟨k, t, hk, ht, hacc, hn⟩ := (align_concat_iff he).mp h
  refine ⟨t, hacc, ?_, fun e' he' hacc' => (align_concat_iff he').mpr ⟨k, t, hk, ht, hacc', hn⟩⟩
  rw [← Token.getElem?_length_takeWhile, List.drop_drop, List.getElem?_drop] at ht
  have hindex : m.stop - 1 =
      m.start + k + ((tokens.drop (m.start + k)).takeWhile isBlank).length := by
    rw [List.drop_drop] at hn
    omega
  rw [lastWord, lastToken?, hindex, ht]
  rfl

/-- The last word of a match that must end with one of some words is one of them. -/
theorem Pattern.isMatch_concat_words_iff :
    (Pattern.mk (es ++ [.words words])).IsMatch true tokens m ↔
      ∃ word ∈ words, (Pattern.mk (es ++ [.words [word]])).IsMatch true tokens m ∧
        lastWord tokens m = foldCase word := by
  constructor
  · intro h
    obtain ⟨t, hacc, hlast, halign⟩ := lastWord_of_align_concat rfl h.start_lt_stop h.align_eq
    obtain ⟨hbreak, word, hword, hsame⟩ := Element.accepts_words_iff.mp hacc
    refine ⟨word, hword, ⟨h.start_lt_stop, h.exists_first, h.beginsLine, halign _ rfl ?_⟩,
      hlast.trans hsame⟩
    exact Element.accepts_words_iff.mpr ⟨hbreak, word, List.mem_singleton_self word, hsame⟩
  · rintro ⟨word, hword, h, -⟩
    obtain ⟨t, hacc, -, halign⟩ := lastWord_of_align_concat rfl h.start_lt_stop h.align_eq
    obtain ⟨hbreak, word', hword', hsame⟩ := Element.accepts_words_iff.mp hacc
    refine ⟨h.start_lt_stop, h.exists_first, h.beginsLine, halign _ rfl ?_⟩
    obtain rfl := List.mem_singleton.mp hword'
    exact Element.accepts_words_iff.mpr ⟨hbreak, word', hword, hsame⟩

end LastWord

/-- The keywords of blocks are given in small letters. -/
theorem foldCase_of_mem_blockKeywords {keyword : String} (h : keyword ∈ blockKeywords) :
    foldCase keyword = keyword := by
  have hall : blockKeywords.all (fun keyword => foldCase keyword == keyword) = true := by decide
  simpa using List.all_eq_true.mp hall keyword h

section BlockWords

variable {tokens : List Token} {m : Match}

/-- The header of a block ends with one of these keywords. -/
theorem lastWord_mem_of_header (h : blockHeader.IsMatch true tokens m) :
    lastWord tokens m ∈ blockKeywords := by
  obtain ⟨word, hword, -, hlast⟩ := Pattern.isMatch_concat_words_iff.mp
    (show (Pattern.mk ([.maybe ["private", "public", "friend"], .maybe ["static"]] ++
      [.words blockKeywords])).IsMatch true tokens m from h)
  rw [hlast, foldCase_of_mem_blockKeywords hword]
  exact hword

/-- A line ends a block with some keyword if it ends the block of this keyword. -/
theorem isMatch_blockEnd_iff {keyword : String} (hkeyword : keyword ∈ blockKeywords) :
    blockEnd.IsMatch true tokens m ∧ lastWord tokens m = keyword ↔
      (blockCloser keyword).IsMatch true tokens m := by
  have hiff := @Pattern.isMatch_concat_words_iff tokens [.words ["end"]] blockKeywords m
  constructor
  · rintro ⟨hmatch, rfl⟩
    obtain ⟨word, hword, hcloser, hlast⟩ := hiff.mp hmatch
    rw [foldCase_of_mem_blockKeywords hword] at hlast
    exact hlast ▸ hcloser
  · intro hcloser
    obtain ⟨word, hword, -, hlast⟩ :=
      (@Pattern.isMatch_concat_words_iff tokens [.words ["end"]] [keyword] m).mp hcloser
    obtain rfl := List.mem_singleton.mp hword
    refine ⟨hiff.mpr ⟨word, hkeyword, hcloser, hlast⟩, ?_⟩
    rw [hlast, foldCase_of_mem_blockKeywords hkeyword]

end BlockWords

/-! ### Which cue a line has -/

section WordCue

variable {ts : List Token} {keyword : String}

/-- A line opens a block exactly if it begins with a header. -/
theorem wordCue?_eq_opensBlock_iff :
    wordCue? ts = some (.opensBlock keyword) ↔ blockHeader.headWord? ts = some keyword := by
  rw [wordCue?]
  cases blockHeader.headWord? ts <;> cases blockEnd.headWord? ts <;> simp

/-- A line closes a block exactly if it begins with an end and not with a header. -/
theorem wordCue?_eq_closesBlock_iff :
    wordCue? ts = some (.closesBlock keyword) ↔
      blockHeader.headWord? ts = none ∧ blockEnd.headWord? ts = some keyword := by
  rw [wordCue?]
  cases blockHeader.headWord? ts <;> cases blockEnd.headWord? ts <;> simp

/-- A line states an option exactly if it begins with an option statement, and with neither a header
nor an end. -/
theorem wordCue?_eq_states_iff {option : String} :
    wordCue? ts = some (.states option) ↔
      blockHeader.headWord? ts = none ∧ blockEnd.headWord? ts = none ∧
        declarationStart.headWord? ts = some "option" ∧
        OptionStatement.normalForm (ts.takeWhile (!·.isLineBreak)) = option := by
  rw [wordCue?]
  cases blockHeader.headWord? ts <;> cases blockEnd.headWord? ts <;> simp

/-- Words neither open nor close conditional blocks. -/
theorem wordCue?_ne_conditional {cue : Cue} (h : wordCue? ts = some cue) :
    cue ≠ .opensConditional ∧ cue ≠ .closesConditional := by
  rw [wordCue?] at h
  split at h
  · cases h; simp
  · cases h; simp
  · split at h
    · cases h; simp
    · cases h

/-- A line that begins with a directive has the cue of the directive, any other that of its
words. -/
theorem cue?_cons_cases (t : Token) (ts : List Token) :
    (t.kind = .conditional .opening ∧ cue? (t :: ts) = some .opensConditional) ∨
      (t.kind = .conditional .closing ∧ cue? (t :: ts) = some .closesConditional) ∨
      (t.kind ≠ .conditional .opening ∧ t.kind ≠ .conditional .closing ∧
        cue? (t :: ts) = wordCue? (t :: ts)) := by
  obtain ⟨kind, text⟩ := t
  rcases kind with _ | _ | _ | _ | _ | _ | (_ | _ | _ | _) | _ <;> simp [cue?]

end WordCue

section CueAt

variable {tokens : List Token} {i : Nat} {m : Match}

theorem exists_cons_of_getElem? {t : Token} (ht : tokens[i]? = some t) :
    tokens.drop i = t :: tokens.drop (i + 1) := by
  obtain ⟨hlt, hget⟩ := List.getElem?_eq_some_iff.mp ht
  rw [List.drop_eq_getElem_cons hlt, hget]

/-- A cue that is not that of a directive is that of the words of the line. -/
theorem exists_of_cueAt? {cue : Cue} (h : cueAt? tokens i = some cue) :
    beginsLine tokens i = true ∧ ∃ t, tokens[i]? = some t ∧ t.isBlank = false ∧
      (t.kind = .conditional .opening ∧ cue = .opensConditional ∨
        t.kind = .conditional .closing ∧ cue = .closesConditional ∨
        wordCue? (tokens.drop i) = some cue) := by
  obtain ⟨hline, ⟨t, ht, hblank⟩, hcue⟩ := cueAt?_eq_some_iff.mp h
  refine ⟨hline, t, ht, hblank, ?_⟩
  rw [exists_cons_of_getElem? ht] at hcue ⊢
  rcases cue?_cons_cases t (tokens.drop (i + 1)) with ⟨hkind, heq⟩ | ⟨hkind, heq⟩ | ⟨-, -, heq⟩
  · exact .inl ⟨hkind, Option.some.inj (hcue.symm.trans heq)⟩
  · exact .inr (.inl ⟨hkind, Option.some.inj (hcue.symm.trans heq)⟩)
  · exact .inr (.inr (heq ▸ hcue))

/-- Where a block is opened, there is a header. -/
theorem exists_header_of_cueAt? {keyword : String}
    (h : cueAt? tokens i = some (.opensBlock keyword)) :
    ∃ m, blockHeader.IsMatch true tokens m ∧ m.start = i ∧ lastWord tokens m = keyword := by
  obtain ⟨hline, t, ht, hblank, ⟨-, hcue⟩ | ⟨-, hcue⟩ | hword⟩ := exists_of_cueAt? h
  · cases hcue
  · cases hcue
  · exact Pattern.exists_isMatch_of_headWord? hline ⟨t, ht, hblank⟩
      (wordCue?_eq_opensBlock_iff.mp hword)

/-- Where a block is closed, there is an end with its keyword. -/
theorem exists_closer_of_cueAt? {keyword : String} (hkeyword : keyword ∈ blockKeywords)
    (h : cueAt? tokens i = some (.closesBlock keyword)) :
    ∃ m, (blockCloser keyword).IsMatch true tokens m ∧ m.start = i := by
  obtain ⟨hline, t, ht, hblank, ⟨-, hcue⟩ | ⟨-, hcue⟩ | hword⟩ := exists_of_cueAt? h
  · cases hcue
  · cases hcue
  · obtain ⟨m, hm, hstart, hlast⟩ := Pattern.exists_isMatch_of_headWord? hline ⟨t, ht, hblank⟩
      (wordCue?_eq_closesBlock_iff.mp hword).2
    exact ⟨m, (isMatch_blockEnd_iff hkeyword).mp ⟨hm, hlast⟩, hstart⟩

/-- Where an option is stated, there is an option statement. -/
theorem exists_option_of_cueAt? {option : String} (h : cueAt? tokens i = some (.states option)) :
    ∃ m, declarationStart.IsMatch true tokens m ∧ m.start = i ∧ lastWord tokens m = "option" ∧
      OptionStatement.normalForm ((tokens.drop i).takeWhile (!·.isLineBreak)) = option := by
  obtain ⟨hline, t, ht, hblank, ⟨-, hcue⟩ | ⟨-, hcue⟩ | hword⟩ := exists_of_cueAt? h
  · cases hcue
  · cases hcue
  · obtain ⟨-, -, hoption, hform⟩ := wordCue?_eq_states_iff.mp hword
    obtain ⟨m, hm, hstart, hlast⟩ :=
      Pattern.exists_isMatch_of_headWord? hline ⟨t, ht, hblank⟩ hoption
    exact ⟨m, hm, hstart, hlast, hform⟩

/-! ### Cues of matches -/

variable (hlead : Lexer.DirectivesLead true tokens)
include hlead

omit hlead in
/-- The patterns of cues exclude each other. -/
theorem headWord?_eq_none_of_excludes {p p' : Pattern} (h : p.IsMatch true tokens m)
    (hends : Pattern.endsTaking p.elements = true) (hends' : Pattern.endsTaking p'.elements = true)
    (hexcludes : p'.excludes p = true) : p'.headWord? (tokens.drop m.start) = none := by
  by_contra hsome
  obtain ⟨word, hword⟩ := Option.ne_none_iff_exists'.mp hsome
  have hline := h.beginsLine rfl
  obtain ⟨m', hm', hstart, -⟩ := Pattern.exists_isMatch_of_headWord? hline h.exists_first hword
  exact hm'.start_ne h hends' hends hexcludes hstart

/-- A match that does not begin with a number sign begins with no directive. -/
theorem cueAt?_of_isMatch {p : Pattern} (havoids : p.avoidsNumberSign = true)
    (h : p.IsMatch true tokens m) : cueAt? tokens m.start = wordCue? (tokens.drop m.start) := by
  obtain ⟨t, ht, hblank⟩ := h.exists_first
  have hkind : ∀ d, t.kind ≠ .conditional d := fun d hd =>
    h.head?_text_ne havoids ht (hlead.of_getElem? ht hd).2
  rw [cueAt?, h.beginsLine rfl, ht, Option.any_some, hblank, exists_cons_of_getElem? ht]
  rcases cue?_cons_cases t (tokens.drop (m.start + 1)) with ⟨hd, -⟩ | ⟨hd, -⟩ | ⟨-, -, heq⟩
  · exact absurd hd (hkind _)
  · exact absurd hd (hkind _)
  · exact heq

/-- A header opens a block. -/
theorem cueAt?_of_header (h : blockHeader.IsMatch true tokens m) :
    cueAt? tokens m.start = some (.opensBlock (lastWord tokens m)) := by
  rw [cueAt?_of_isMatch hlead (avoidsNumberSign_of_mem (by simp)) h]
  exact wordCue?_eq_opensBlock_iff.mpr h.headWord?

/-- An end closes a block. -/
theorem cueAt?_of_closer {keyword : String} (hkeyword : keyword ∈ blockKeywords)
    (h : (blockCloser keyword).IsMatch true tokens m) :
    cueAt? tokens m.start = some (.closesBlock keyword) := by
  obtain ⟨hend, hlast⟩ := (isMatch_blockEnd_iff hkeyword).mpr h
  rw [cueAt?_of_isMatch hlead (by decide) hend]
  refine wordCue?_eq_closesBlock_iff.mpr ⟨?_, by rw [hend.headWord?, hlast]⟩
  exact headWord?_eq_none_of_excludes hend (by decide) (by decide) (by decide)

/-- An option statement states its option, in normal form. -/
theorem cueAt?_of_option (h : declarationStart.IsMatch true tokens m)
    (hlast : lastWord tokens m = "option") :
    cueAt? tokens m.start = some (.states (OptionStatement.normalForm
      ((tokens.drop m.start).takeWhile (!·.isLineBreak)))) := by
  rw [cueAt?_of_isMatch hlead (avoidsNumberSign_of_mem (by simp)) h]
  refine wordCue?_eq_states_iff.mpr ⟨?_, ?_, by rw [h.headWord?, hlast], rfl⟩
  · exact headWord?_eq_none_of_excludes h (by decide) (by decide) excludes_declarationStart
  · exact headWord?_eq_none_of_excludes h (by decide) (by decide) (by decide)

/-- A directive has its cue where it stands. -/
theorem cueAt?_of_opening {t : Token} (ht : tokens[i]? = some t)
    (hkind : t.kind = .conditional .opening) : cueAt? tokens i = some .opensConditional := by
  refine cueAt?_eq_some_iff.mpr ⟨(hlead.of_getElem? ht hkind).1, ⟨t, ht, ?_⟩, ?_⟩
  · simp [isBlank, hkind]
  · rw [exists_cons_of_getElem? ht, cue?]
    simp [hkind]

/-- A closing directive closes a conditional block. -/
theorem cueAt?_of_closing {t : Token} (ht : tokens[i]? = some t)
    (hkind : t.kind = .conditional .closing) : cueAt? tokens i = some .closesConditional := by
  refine cueAt?_eq_some_iff.mpr ⟨(hlead.of_getElem? ht hkind).1, ⟨t, ht, ?_⟩, ?_⟩
  · simp [isBlank, hkind]
  · rw [exists_cons_of_getElem? ht, cue?]
    simp [hkind]

end CueAt

/-! ### Conditional blocks -/

/-- How many conditional blocks are open, by the state of the search for them. -/
def openDepth : Option (Nat × Nat) → Nat
  | none => 0
  | some (_, inner) => inner + 1

/-- The search for conditional blocks goes on behind the first tokens with what they left open. -/
theorem openedAfter_append (position : Nat) (opened : Option (Nat × Nat)) (ts us : List Token) :
    openedAfter position opened (ts ++ us) =
      openedAfter (position + ts.length) (openedAfter position opened ts) us := by
  induction ts generalizing position opened with
  | nil => rfl
  | cons t ts ih =>
    rw [List.cons_append, openedAfter, openedAfter, ih, List.length_cons]
    congr 1
    omega

/-- What a token does to the number of open blocks. -/
theorem openDepth_conditionalStep (position : Nat) (opened : Option (Nat × Nat)) (t : Token) :
    openDepth (conditionalStep position opened t).2 =
      if t.kind = .conditional .opening then openDepth opened + 1
      else if t.kind = .conditional .closing then openDepth opened - 1
      else openDepth opened := by
  obtain ⟨kind, text⟩ := t
  rcases opened with _ | ⟨start, _ | inner⟩ <;>
    rcases kind with _ | _ | _ | _ | _ | _ | (_ | _ | _ | _) | _ <;> rfl

/-- A block that is open at first, but not at the end, is found. -/
theorem exists_mem_conditionalsFrom_of_closed {position start inner : Nat} {ts : List Token}
    (h : openedAfter position (some (start, inner)) ts = none) :
    ∃ s ∈ (conditionalsFrom position (some (start, inner)) ts).1, s.start = start := by
  induction ts generalizing position inner with
  | nil => cases h
  | cons t ts ih =>
    rw [openedAfter] at h
    rw [conditionalsFrom_cons]
    rcases conditionalStep_cases position (some (start, inner)) t with
      ⟨hnone, -⟩ | ⟨hnone, -⟩ | ⟨start', inner', hopened, ⟨inner'', hstep⟩ | hstep⟩
    · cases hnone
    · cases hnone
    · obtain ⟨rfl, rfl⟩ : start = start' ∧ inner = inner' := by simpa using hopened
      rw [hstep] at h ⊢
      exact ih h
    · obtain ⟨rfl, rfl⟩ : start = start' ∧ inner = inner' := by simpa using hopened
      rw [hstep]
      exact ⟨_, List.mem_cons_self, rfl⟩

section Conditionals

variable {tokens : List Token} {i : Nat}

/-- Only the cues of conditional blocks change how many of them are open. -/
theorem Reading.conditionals_step {cue : Cue} (hopens : cue ≠ .opensConditional)
    (hcloses : cue ≠ .closesConditional) (r : Reading) :
    (r.step cue).conditionals = r.conditionals := by
  cases cue <;> first | rfl | contradiction

/-- **Reading counts the conditional blocks** as the search for them does. -/
theorem conditionals_readingAt (hlead : Lexer.DirectivesLead true tokens)
    (hi : i ≤ tokens.length) :
    (readingAt tokens i).conditionals = openDepth (openedAfter 0 none (tokens.take i)) := by
  induction i with
  | zero => rfl
  | succ i ih =>
    have hget : tokens[i]? = some tokens[i] := List.getElem?_eq_getElem hi
    have hopened : openedAfter 0 none (tokens.take (i + 1)) =
        (conditionalStep (0 + (tokens.take i).length) (openedAfter 0 none (tokens.take i))
          tokens[i]).2 := by
      rw [List.take_add_one, hget, openedAfter_append]
      rfl
    rw [readingAt_succ, hopened, openDepth_conditionalStep, ← ih (by omega)]
    split
    next hkind => rw [cueAt?_of_opening hlead hget hkind]; rfl
    next hopening =>
      split
      next hkind => rw [cueAt?_of_closing hlead hget hkind]; rfl
      next hclosing =>
        cases hcue : cueAt? tokens i with
        | none => rfl
        | some cue =>
          obtain ⟨-, t, ht, -, ⟨hkind, -⟩ | ⟨hkind, -⟩ | hword⟩ := exists_of_cueAt? hcue
          · exact absurd (Option.some.inj (hget.symm.trans ht) ▸ hkind) hopening
          · exact absurd (Option.some.inj (hget.symm.trans ht) ▸ hkind) hclosing
          · obtain ⟨hopens, hcloses⟩ := wordCue?_ne_conditional hword
            exact Reading.conditionals_step hopens hcloses _

/-- Where a conditional block reaches beyond a position, it is open there. -/
theorem conditionals_readingAt_ne_zero (hlead : Lexer.DirectivesLead true tokens) {s : Span}
    (hs : s ∈ conditionals tokens) (hstart : s.start < i) (hstop : i < s.stop)
    (hi : i ≤ tokens.length) : (readingAt tokens i).conditionals ≠ 0 := by
  intro hzero
  rw [conditionals_readingAt hlead hi] at hzero
  have hopened : openedAfter 0 none (tokens.take i) = none := by
    cases hcase : openedAfter 0 none (tokens.take i) with
    | none => rfl
    | some o => rw [hcase] at hzero; cases hzero
  have hlength : (tokens.take i).length = i := List.length_take_of_le hi
  rw [conditionals, ← List.take_append_drop i tokens, conditionalsFrom_append, hopened,
    hlength, List.mem_append] at hs
  rcases hs with hbefore | hafter
  · have hle := (proposal_of_mem_conditionalsFrom (by simp) hbefore).stop_le
    omega
  · obtain ⟨o, ho, -⟩ | ⟨j, t, hj, -⟩ := start_of_mem_conditionalsFrom hafter
    · cases ho
    · omega

/-- If no conditional block is open later on, those are open at a position that reach beyond it. -/
theorem conditionals_readingAt_eq_zero (hlead : Lexer.DirectivesLead true tokens) {later : Nat}
    (hclosed : (readingAt tokens later).conditionals = 0)
    (hapart : ∀ s ∈ conditionals tokens, s.start < i → s.stop ≤ i) (hi : i ≤ later)
    (hlater : later ≤ tokens.length) : (readingAt tokens i).conditionals = 0 := by
  have hlength : (tokens.take i).length = i := List.length_take_of_le (by omega)
  have hsplit : tokens.take later = tokens.take i ++ (tokens.take later).drop i := by
    have htake : (tokens.take later).take i = tokens.take i := by
      rw [List.take_take, min_eq_left hi]
    rw [← htake, List.take_append_drop]
  rw [conditionals_readingAt hlead (by omega)]
  cases hopened : openedAfter 0 none (tokens.take i) with
  | none => rfl
  | some o =>
    obtain ⟨start, inner⟩ := o
    have hstart : start < i := by
      have hearlier := @openedAfter_lt 0 none (tokens.take i) (by simp)
      rw [hlength] at hearlier
      simpa using hearlier _ hopened
    have hend : openedAfter i (some (start, inner)) ((tokens.take later).drop i) = none := by
      rw [conditionals_readingAt hlead hlater, hsplit, openedAfter_append, hopened, hlength,
        Nat.zero_add] at hclosed
      cases hcase : openedAfter i (some (start, inner)) ((tokens.take later).drop i) with
      | none => rfl
      | some o => rw [hcase] at hclosed; cases hclosed
    -- what is open at `i` and closed later is a block that goes over `i`
    obtain ⟨s, hs, rfl⟩ := exists_mem_conditionalsFrom_of_closed hend
    have hmem : s ∈ conditionals tokens := by
      rw [conditionals, ← List.take_append_drop later tokens, hsplit, List.append_assoc,
        conditionalsFrom_append, hopened, hlength, Nat.zero_add, conditionalsFrom_append]
      exact List.mem_append_right _ (List.mem_append_left _ hs)
    have hle := hapart s hmem hstart
    have hgt := lt_stop_of_mem_conditionalsFrom hs
    omega

end Conditionals

/-! ### Procedures and types -/

section Blocks

variable {tokens : List Token} {a b i : Nat} {keyword : String}

/-- If no procedure or type is open, none is behind a line that opens none. -/
theorem block_readingAt_succ_eq_none (h : (readingAt tokens i).block = none)
    (hcue : ∀ keyword, cueAt? tokens i ≠ some (.opensBlock keyword)) :
    (readingAt tokens (i + 1)).block = none := by
  rw [readingAt_succ]
  cases hc : cueAt? tokens i with
  | none => exact h
  | some cue =>
    cases cue with
    | opensBlock keyword => exact absurd hc (hcue keyword)
    | closesBlock keyword =>
      change (readingAt tokens i).block.filter _ = none
      rw [h, Option.filter_none]
    | _ => exact h

/-- An open procedure or type stays open behind a line that does not close it. -/
theorem block_readingAt_succ_eq_some (h : (readingAt tokens i).block = some keyword)
    (hcue : cueAt? tokens i ≠ some (.closesBlock keyword)) :
    (readingAt tokens (i + 1)).block = some keyword := by
  rw [readingAt_succ]
  cases hc : cueAt? tokens i with
  | none => exact h
  | some cue =>
    cases cue with
    | opensBlock keyword' =>
      change (readingAt tokens i).block.or _ = some keyword
      rw [h, Option.some_or]
    | closesBlock keyword' =>
      change (readingAt tokens i).block.filter _ = some keyword
      have hne : keyword ≠ keyword' := fun heq => hcue (heq ▸ hc)
      rw [h, Option.filter_some, if_pos (by simpa using hne)]
    | _ => exact h

/-- The same for many lines. -/
theorem block_readingAt_eq_none (hab : a ≤ b) (h : (readingAt tokens a).block = none)
    (hcue : ∀ i, a ≤ i → i < b → ∀ keyword, cueAt? tokens i ≠ some (.opensBlock keyword)) :
    (readingAt tokens b).block = none := by
  induction b, hab using Nat.le_induction with
  | base => exact h
  | succ b hab ih =>
    exact block_readingAt_succ_eq_none (ih fun i hai hib => hcue i hai (by omega))
      (hcue b hab (Nat.lt_succ_self b))

/-- It stays open as long as no line closes it. -/
theorem block_readingAt_eq_some (hab : a ≤ b) (h : (readingAt tokens a).block = some keyword)
    (hcue : ∀ i, a ≤ i → i < b → cueAt? tokens i ≠ some (.closesBlock keyword)) :
    (readingAt tokens b).block = some keyword := by
  induction b, hab using Nat.le_induction with
  | base => exact h
  | succ b hab ih =>
    exact block_readingAt_succ_eq_some (ih fun i hai hib => hcue i hai (by omega))
      (hcue b hab (Nat.lt_succ_self b))

/-- Within a match no line begins. -/
theorem Pattern.IsMatch.beginsLine_eq_false {p : Pattern} {m : Match} (h : p.IsMatch true tokens m)
    (hstays : p.staysInLine = true) (hstart : m.start < i) (hstop : i ≤ m.stop) :
    Token.beginsLine tokens i = false := by
  by_contra hline
  rw [Bool.not_eq_false] at hline
  obtain ⟨k, -, hk, hki, -⟩ := h.exists_isLineBreak hstays hstart hline
  omega

/-- Within a line no cue is told. -/
theorem cueAt?_eq_none_of_beginsLine (h : beginsLine tokens i = false) :
    cueAt? tokens i = none := by
  rw [cueAt?, h]
  rfl

theorem staysInLine_blockCloser (keyword : String) : (blockCloser keyword).staysInLine = true :=
  rfl

variable {position : Nat} {header closer : Match}

/-- Up to the next header nothing is opened. -/
theorem block_readingAt_of_le_header (hnone : (readingAt tokens position).block = none)
    (hheader : blockHeader.next? true tokens position = some header) (hle : position ≤ i)
    (hi : i ≤ header.start) : (readingAt tokens i).block = none := by
  obtain ⟨-, -, hleast⟩ := Pattern.next?_eq_some_iff.mp hheader
  refine block_readingAt_eq_none hle hnone fun j hj hji keyword hcue => ?_
  obtain ⟨m, hm, rfl, -⟩ := exists_header_of_cueAt? hcue
  have hfirst := hleast m hm hj
  omega

/-- From a header on its block is open, as long as the block has no end. -/
theorem block_readingAt_of_header (hlead : Lexer.DirectivesLead true tokens)
    (hmatch : blockHeader.IsMatch true tokens header)
    (hnone : (readingAt tokens header.start).block = none) (hlt : header.start < i)
    (hopen : ∀ m, (blockCloser (lastWord tokens header)).IsMatch true tokens m →
      header.stop ≤ m.start → i ≤ m.start) :
    (readingAt tokens i).block = some (lastWord tokens header) := by
  have hfirst : (readingAt tokens (header.start + 1)).block = some (lastWord tokens header) := by
    rw [readingAt_succ, cueAt?_of_header hlead hmatch]
    change (readingAt tokens header.start).block.or _ = _
    rw [hnone, Option.none_or]
  refine block_readingAt_eq_some hlt hfirst fun j hj hji hcue => ?_
  obtain ⟨m, hm, rfl⟩ := exists_closer_of_cueAt? (lastWord_mem_of_header hmatch) hcue
  rcases Nat.lt_or_ge m.start header.stop with hinside | hafter
  · have hline := hmatch.beginsLine_eq_false rfl hj hinside.le
    rw [hm.beginsLine rfl] at hline
    cases hline
  · have hlater := hopen m hm hafter
    omega

/-- After its end the block is not open. -/
theorem block_readingAt_of_closer (hlead : Lexer.DirectivesLead true tokens)
    {keyword : String} (hkeyword : keyword ∈ blockKeywords)
    (hmatch : (blockCloser keyword).IsMatch true tokens closer)
    (hopen : (readingAt tokens closer.start).block = some keyword) :
    (readingAt tokens closer.stop).block = none := by
  have hfirst : (readingAt tokens (closer.start + 1)).block = none := by
    rw [readingAt_succ, cueAt?_of_closer hlead hkeyword hmatch]
    change (readingAt tokens closer.start).block.filter _ = none
    rw [hopen, Option.filter_some, if_neg (by simp)]
  refine block_readingAt_eq_none hmatch.start_lt_stop hfirst fun j hj hstop keyword' => ?_
  rw [cueAt?_eq_none_of_beginsLine
    (hmatch.beginsLine_eq_false (staysInLine_blockCloser keyword) hj hstop.le)]
  exact nofun

/-- Between the header and the end that the search finds the block is open, and after the end it is
not. -/
theorem block_readingAt_of_block (hlead : Lexer.DirectivesLead true tokens)
    (hnone : (readingAt tokens position).block = none)
    (hheader : blockHeader.next? true tokens position = some header)
    (hcloser : (blockCloser (lastWord tokens header)).next? true tokens header.stop =
      some closer) :
    (∀ i, header.start < i → i ≤ closer.start →
      (readingAt tokens i).block = some (lastWord tokens header)) ∧
        (readingAt tokens closer.stop).block = none := by
  obtain ⟨hle, hmatch, -⟩ := Pattern.next?_eq_some_iff.mp hheader
  obtain ⟨hafter, hclose, hleast⟩ := Pattern.next?_eq_some_iff.mp hcloser
  have hstart := block_readingAt_of_le_header hnone hheader hle le_rfl
  have hopen : ∀ i, header.start < i → i ≤ closer.start →
      (readingAt tokens i).block = some (lastWord tokens header) := fun i hlt hi =>
    block_readingAt_of_header hlead hmatch hstart hlt fun m hm hm' => hi.trans (hleast m hm hm')
  have hlt := hmatch.start_lt_stop
  exact ⟨hopen, block_readingAt_of_closer hlead (lastWord_mem_of_header hmatch) hclose
    (hopen closer.start (by omega) le_rfl)⟩

/-- Where a procedure or type reaches beyond the start of a line, it is open there. -/
theorem block_readingAt_ne_none (hlead : Lexer.DirectivesLead true tokens)
    (hnone : (readingAt tokens position).block = none) {s : Span}
    (hs : s ∈ blocksFrom tokens position) (hstart : s.start < i) (hstop : i < s.stop)
    (hline : beginsLine tokens i = true) : (readingAt tokens i).block ≠ none := by
  fun_induction blocksFrom tokens position with
  | case1 => cases hs
  | case2 => cases hs
  | case3 position header hheader keyword closer hcloser ih =>
    obtain ⟨hopen, hclosed⟩ := block_readingAt_of_block hlead hnone hheader hcloser
    rcases List.mem_cons.mp hs with rfl | hrest
    · rcases Nat.lt_or_ge closer.start i with hlt | hge
      · obtain ⟨-, hclose, -⟩ := Pattern.next?_eq_some_iff.mp hcloser
        rw [hclose.beginsLine_eq_false (staysInLine_blockCloser _) hlt
          (Nat.le_of_lt hstop)] at hline
        cases hline
      · rw [hopen i hstart hge]
        exact Option.some_ne_none _
    · exact ih hclosed hrest

/-- If no procedure or type is open later on, those are open at a position that reach beyond it. -/
theorem block_readingAt_of_apart (hlead : Lexer.DirectivesLead true tokens) {later : Nat}
    (hclosed : (readingAt tokens later).block = none)
    (hnone : (readingAt tokens position).block = none) (hle : position ≤ i) (hi : i ≤ later)
    (hapart : ∀ s ∈ blocksFrom tokens position, s.start < i → s.stop ≤ i) :
    (readingAt tokens i).block = none := by
  fun_induction blocksFrom tokens position with
  | case1 position hheader =>
    refine block_readingAt_eq_none hle hnone fun j hj hji keyword hcue => ?_
    obtain ⟨m, hm, rfl, -⟩ := exists_header_of_cueAt? hcue
    obtain ⟨m', hm', -⟩ := Pattern.exists_next? hm hj
    rw [hheader] at hm'
    cases hm'
  | case2 position header hheader keyword hcloser =>
    obtain ⟨hposition, hmatch, -⟩ := Pattern.next?_eq_some_iff.mp hheader
    rcases Nat.lt_or_ge header.start later with hlt | hge
    · -- the block would still be open later on
      have hopen := block_readingAt_of_header hlead hmatch
        (block_readingAt_of_le_header hnone hheader hposition le_rfl) hlt fun m hm hm' => by
          obtain ⟨m', hnext, -⟩ := Pattern.exists_next? hm hm'
          rw [hcloser] at hnext
          cases hnext
      rw [hclosed] at hopen
      cases hopen
    · exact block_readingAt_of_le_header hnone hheader hle (hi.trans hge)
  | case3 position header hheader keyword closer hcloser ih =>
    -- the next block is over at `i`, or begins no earlier
    rcases Nat.lt_or_ge header.start i with hlt | hge
    · have hstop : closer.stop ≤ i := hapart _ List.mem_cons_self hlt
      refine ih (block_readingAt_of_block hlead hnone hheader hcloser).2 hstop fun s hs => ?_
      exact hapart s (List.mem_cons_of_mem _ hs)
    · exact block_readingAt_of_le_header hnone hheader hle hge

end Blocks

end VbaModules

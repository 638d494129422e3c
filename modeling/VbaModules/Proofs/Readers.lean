import Mathlib.Data.List.Basic
import VbaModules.Token.Lexer

/-!
# What the readers of the lexer read

Each reader of the lexer computes how many characters belong to a piece of a token: a run, a line
break, blanks with line continuations, the rest of a string literal, a directive, a literal with a
radix. Here each of them gets a description of the texts it reads and of what has to follow them,
together with two facts: in front of such a rest the reader takes the text as a whole
(`..._append`), and whatever a reader takes is such a text with such a rest (`exists_...`).

Most of the conditions on the rest are about its first character (`NotNext`). A carriage return at
the end of a text must not be divided from a line feed after it (`Unsplit`).
-/

namespace VbaModules.Lexer

open Text

/-! ### What stands next -/

/-- The next character, if there is one, does not satisfy `p`. -/
def NotNext (p : Char → Bool) (cs : List Char) : Prop :=
  ∀ c ∈ cs.head?, p c = false

/-- Nothing stands between here and the end of the line. -/
def AtLineEnd (cs : List Char) : Prop :=
  NotNext (!isBreakChar ·) cs

/-- The cut between the two texts does not divide a carriage return from its line feed. -/
def Unsplit (text rest : List Char) : Prop :=
  text.getLast? = some '\r' → NotNext (· == '\n') rest

@[simp]
theorem notNext_nil (p : Char → Bool) : NotNext p [] := by
  simp [NotNext]

@[simp]
theorem notNext_cons {p : Char → Bool} {c : Char} {cs : List Char} :
    NotNext p (c :: cs) ↔ p c = false := by
  simp [NotNext]

/-- What no character of a class follows, no character of a smaller class follows. -/
theorem NotNext.imp {p q : Char → Bool} {cs : List Char} (h : NotNext p cs)
    (hpq : ∀ c, q c = true → p c = true) : NotNext q cs := by
  intro c hc
  have hp := h c hc
  cases hq : q c
  · rfl
  · rw [hpq c hq] at hp
    cases hp

/-- Characters of different classes are different. -/
theorem ne_of_class {p : Char → Bool} {c d : Char} (hc : p c = true) (hd : p d = false) :
    c ≠ d := by
  rintro rfl
  rw [hc] at hd
  cases hd

/-- The letters by their codes. -/
theorem isAlpha_iff {c : Char} :
    c.isAlpha = true ↔ 65 ≤ c.toNat ∧ c.toNat ≤ 90 ∨ 97 ≤ c.toNat ∧ c.toNat ≤ 122 := by
  unfold Char.isAlpha Char.isUpper Char.isLower
  simp only [Bool.or_eq_true, Bool.and_eq_true, decide_eq_true_eq, ge_iff_le,
    UInt32.le_iff_toNat_le]
  rfl

/-- Letters go on in words. -/
theorem isWordChar_of_isAlpha {c : Char} (h : c.isAlpha = true) : isWordChar c = true := by
  simp [isWordChar, Char.isAlphanum, h]

/-- No character of a word is blank. -/
theorem isBlankChar_eq_false_of_isWordChar {c : Char} (h : isWordChar c = true) :
    isBlankChar c = false := by
  simp [isBlankChar, ne_of_class h (show isWordChar ' ' = false by decide),
    ne_of_class h (show isWordChar '\t' = false by decide)]

/-- No character of a word breaks lines. -/
theorem isBreakChar_eq_false_of_isWordChar {c : Char} (h : isWordChar c = true) :
    isBreakChar c = false := by
  simp [isBreakChar, ne_of_class h (show isWordChar '\r' = false by decide),
    ne_of_class h (show isWordChar '\n' = false by decide)]

/-- A word ends before a blank. -/
theorem isWordChar_eq_false_of_isBlankChar {c : Char} (h : isBlankChar c = true) :
    isWordChar c = false := by
  cases hc : isWordChar c with
  | false => rfl
  | true =>
    rw [isBlankChar_eq_false_of_isWordChar hc] at h
    cases h

/-- A blank breaks no line. -/
theorem isBreakChar_eq_false_of_isBlankChar {c : Char} (h : isBlankChar c = true) :
    isBreakChar c = false := by
  simp [isBreakChar, ne_of_class h (show isBlankChar '\r' = false by decide),
    ne_of_class h (show isBlankChar '\n' = false by decide)]

/-! ### Runs -/

theorem runLength_cons (p : Char → Bool) (c : Char) (cs : List Char) :
    runLength p (c :: cs) = if p c then runLength p cs + 1 else 0 := by
  rw [runLength, List.takeWhile_cons]
  split
  · rfl
  · rfl

/-- A run ends where the class of its characters does. -/
theorem runLength_append_eq_iff {p : Char → Bool} {cs rest : List Char} :
    runLength p (cs ++ rest) = cs.length ↔ (∀ c ∈ cs, p c = true) ∧ NotNext p rest := by
  induction cs with
  | nil =>
    cases rest with
    | nil => simp [runLength]
    | cons c rest => simp [runLength_cons]
  | cons c cs ih =>
    rw [List.cons_append, runLength_cons, List.forall_mem_cons, List.length_cons]
    cases hc : p c with
    | false => simp
    | true => simpa using ih

/-- A run is empty exactly where no character of its class stands next. -/
theorem runLength_eq_zero_iff {p : Char → Bool} {cs : List Char} :
    runLength p cs = 0 ↔ NotNext p cs := by
  cases cs with
  | nil => simp [runLength]
  | cons c cs => cases hc : p c <;> simp [runLength_cons, hc]

/-- A run cut off from what follows it. -/
theorem exists_run (p : Char → Bool) (cs : List Char) :
    ∃ run rest, cs = run ++ rest ∧ run.length = runLength p cs ∧ (∀ c ∈ run, p c = true) ∧
      NotNext p rest := by
  have hsplit : cs = cs.takeWhile p ++ cs.dropWhile p := List.takeWhile_append_dropWhile.symm
  have hlength : runLength p (cs.takeWhile p ++ cs.dropWhile p) = (cs.takeWhile p).length := by
    rw [← hsplit]
    rfl
  exact ⟨_, _, hsplit, rfl, runLength_append_eq_iff.mp hlength⟩

/-- A run is cut off in one way only. -/
theorem run_unique {p : Char → Bool} {run run' rest rest' : List Char}
    (heq : run ++ rest = run' ++ rest') (hrun : ∀ c ∈ run, p c = true) (hrest : NotNext p rest)
    (hrun' : ∀ c ∈ run', p c = true) (hrest' : NotNext p rest') : run = run' ∧ rest = rest' := by
  have hlength : run.length = run'.length := by
    rw [← runLength_append_eq_iff.mpr ⟨hrun, hrest⟩, heq,
      runLength_append_eq_iff.mpr ⟨hrun', hrest'⟩]
  exact List.append_inj heq hlength

/-! ### Line breaks -/

/-- The characters of one line break. -/
def IsBreak (text : List Char) : Prop :=
  text = ['\n'] ∨ text = ['\r', '\n'] ∨ text = ['\r']

/-- There is no line break exactly where no character of one stands next. -/
theorem lineBreakLength_eq_zero_iff {cs : List Char} :
    lineBreakLength cs = 0 ↔ NotNext isBreakChar cs := by
  unfold lineBreakLength
  split
  next => simp [isBreakChar]
  next => simp [isBreakChar]
  next => simp [isBreakChar]
  next hreturn hfeed =>
    cases cs with
    | nil => simp
    | cons c cs => simp_all [isBreakChar]

/-- A line break is as long as its text, if no line feed follows a carriage return there. -/
theorem lineBreakLength_append {text rest : List Char} (h : IsBreak text)
    (hrest : Unsplit text rest) : lineBreakLength (text ++ rest) = text.length := by
  rcases h with rfl | rfl | rfl
  · rfl
  · rfl
  · have hnext := hrest rfl
    cases rest with
    | nil => rfl
    | cons c rest =>
      rw [notNext_cons, beq_eq_false_iff_ne] at hnext
      simp [lineBreakLength, hnext]

/-- A line break cut off from what follows it. -/
theorem exists_lineBreak {cs : List Char} (h : lineBreakLength cs ≠ 0) :
    ∃ text rest, cs = text ++ rest ∧ lineBreakLength cs = text.length ∧ IsBreak text ∧
      Unsplit text rest := by
  unfold lineBreakLength at h ⊢
  split at h
  next rest => exact ⟨['\r', '\n'], rest, rfl, rfl, .inr (.inl rfl), fun hlast => by simp at hlast⟩
  next rest hfeed =>
    refine ⟨['\r'], rest, rfl, rfl, .inr (.inr rfl), fun _ => ?_⟩
    cases rest with
    | nil => simp
    | cons c rest => simp_all
  next rest => exact ⟨['\n'], rest, rfl, rfl, .inl rfl, fun hlast => by simp at hlast⟩
  next => exact absurd rfl h

/-! ### Blanks and line continuations -/

/-- Blanks and line continuations. After the line break of a continuation the indentation of the
next line counts as blanks. -/
inductive Spacing : List Char → Prop where
  | nil : Spacing []
  | blank {c : Char} {cs : List Char} (hc : isBlankChar c = true) (hcs : Spacing cs) :
      Spacing (c :: cs)
  | continuation {gap lineBreak cs : List Char} (hgap : ∀ c ∈ gap, isBlankChar c = true)
      (hbreak : IsBreak lineBreak) (hcs : Spacing cs) : Spacing ('_' :: (gap ++ (lineBreak ++ cs)))

/-- No blank and no line continuation stands next. -/
def SpaceEnds (rest : List Char) : Prop :=
  NotNext isBlankChar rest ∧ continuation? rest = none

/-- Blanks before white space are white space. -/
theorem Spacing.blanks_append {gap cs : List Char} (hgap : ∀ c ∈ gap, isBlankChar c = true)
    (hcs : Spacing cs) : Spacing (gap ++ cs) := by
  induction gap with
  | nil => exact hcs
  | cons c gap ih =>
    obtain ⟨hc, hgap⟩ := List.forall_mem_cons.mp hgap
    exact .blank hc (ih hgap)

/-- Spacing never begins with a line feed, so it divides no line break from what is before it. -/
theorem Spacing.notNext_feed {cs rest : List Char} (h : Spacing cs)
    (hrest : cs = [] → NotNext (· == '\n') rest) : NotNext (· == '\n') (cs ++ rest) := by
  cases h with
  | nil => exact hrest rfl
  | blank hc _ =>
    rw [List.cons_append, notNext_cons, beq_eq_false_iff_ne]
    exact ne_of_class hc (by decide)
  | continuation _ _ _ => simp

/-- A run goes on in what follows it. -/
theorem runLength_append_of_forall {p : Char → Bool} {run : List Char}
    (h : ∀ c ∈ run, p c = true) (rest : List Char) :
    runLength p (run ++ rest) = run.length + runLength p rest := by
  rw [runLength, runLength, List.takeWhile_append_of_pos h, List.length_append]

/-- A line continuation, cut off with the indentation of the next line. -/
theorem continuation?_append {gap lineBreak rest : List Char}
    (hgap : ∀ c ∈ gap, isBlankChar c = true) (hbreak : IsBreak lineBreak)
    (hrest : Unsplit lineBreak rest) :
    continuation? ('_' :: (gap ++ (lineBreak ++ rest))) =
      some (1 + gap.length + lineBreak.length + runLength isBlankChar rest) := by
  have hblanks : runLength isBlankChar (lineBreak ++ rest) = 0 := by
    rcases hbreak with rfl | rfl | rfl <;> rfl
  have hne : lineBreak.length ≠ 0 := by
    rcases hbreak with rfl | rfl | rfl <;> simp
  simp [continuation?, runLength_append_of_forall hgap, hblanks,
    lineBreakLength_append hbreak hrest, hne, ← List.drop_drop]

/-- What a line continuation consists of. -/
theorem exists_continuation {cs : List Char} {n : Nat} (h : continuation? cs = some n) :
    ∃ gap lineBreak rest, cs = '_' :: (gap ++ (lineBreak ++ rest)) ∧
      (∀ c ∈ gap, isBlankChar c = true) ∧ IsBreak lineBreak ∧ Unsplit lineBreak rest ∧
      n = 1 + gap.length + lineBreak.length + runLength isBlankChar rest := by
  unfold continuation? at h
  split at h
  next cs =>
    obtain ⟨gap, tail, rfl, hlength, hgap, -⟩ := exists_run isBlankChar cs
    rw [← hlength] at h
    simp only [List.drop_left, ← List.drop_drop, Option.ite_none_left_eq_some] at h
    obtain ⟨lineBreak, rest, rfl, hbreakLength, hbreak, hrest⟩ := exists_lineBreak h.1
    refine ⟨gap, lineBreak, rest, rfl, hgap, hbreak, hrest, ?_⟩
    rw [hbreakLength, List.drop_left] at h
    exact (Option.some.inj h.2).symm
  next => cases h

/-- White space ends with its blanks where no line continuation follows them. -/
theorem spaceLength_of_none {cs : List Char}
    (h : continuation? (cs.drop (runLength isBlankChar cs)) = none) :
    spaceLength cs = runLength isBlankChar cs := by
  rw [spaceLength]
  split
  next => rfl
  next n hn =>
    rw [h] at hn
    cases hn

/-- White space goes on behind a line continuation. -/
theorem spaceLength_of_some {cs : List Char} {n : Nat}
    (h : continuation? (cs.drop (runLength isBlankChar cs)) = some n) :
    spaceLength cs = runLength isBlankChar cs + n +
      spaceLength (cs.drop (runLength isBlankChar cs + n)) := by
  conv_lhs => rw [spaceLength]
  split
  next hnone =>
    rw [h] at hnone
    cases hnone
  next m hm =>
    rw [h] at hm
    cases hm
    rfl

/-- A blank before white space makes it longer by one. -/
theorem spaceLength_cons_blank {c : Char} (hc : isBlankChar c = true) (cs : List Char) :
    spaceLength (c :: cs) = 1 + spaceLength cs := by
  have hrun : runLength isBlankChar (c :: cs) = runLength isBlankChar cs + 1 := by
    rw [runLength_cons, if_pos hc]
  cases hnext : continuation? (cs.drop (runLength isBlankChar cs)) with
  | none =>
    rw [spaceLength_of_none hnext, spaceLength_of_none (by rwa [hrun]), hrun]
    omega
  | some n =>
    rw [spaceLength_of_some hnext, spaceLength_of_some (n := n) (by rwa [hrun]), hrun,
      Nat.add_right_comm _ 1 n, List.drop_succ_cons]
    omega

/-- The same for many blanks. -/
theorem spaceLength_blanks_append {gap : List Char} (hgap : ∀ c ∈ gap, isBlankChar c = true)
    (cs : List Char) : spaceLength (gap ++ cs) = gap.length + spaceLength cs := by
  induction gap with
  | nil => simp
  | cons c gap ih =>
    obtain ⟨hc, hgap⟩ := List.forall_mem_cons.mp hgap
    rw [List.cons_append, spaceLength_cons_blank hc, ih hgap, List.length_cons]
    omega

/-- Only the end of a text can tear a line break apart. -/
theorem Unsplit.of_append {before text rest : List Char} (h : Unsplit (before ++ text) rest) :
    Unsplit text rest := by
  intro hlast
  refine h ?_
  rw [List.getLast?_append, hlast]
  rfl

/-- No line break is torn apart at the end of two texts, if none is at the ends of both. -/
theorem Unsplit.append {text text' rest : List Char} (h : Unsplit text (text' ++ rest))
    (h' : Unsplit text' rest) : Unsplit (text ++ text') rest := by
  intro hlast
  rw [List.getLast?_append] at hlast
  cases hlast' : text'.getLast? with
  | none =>
    obtain rfl := List.getLast?_eq_none_iff.mp hlast'
    exact h hlast
  | some c =>
    rw [hlast', Option.some_or] at hlast
    exact h' (hlast ▸ hlast')

/-- Only a carriage return can be divided from a line feed. -/
theorem unsplit_of_forall {p : Char → Bool} {text : List Char} (h : ∀ c ∈ text, p c = true)
    (hp : p '\r' = false) (rest : List Char) : Unsplit text rest :=
  fun hlast => absurd rfl (ne_of_class (h _ (List.mem_of_getLast? hlast)) hp)

/-- A line continuation belongs to the blanks around it. -/
theorem spaceLength_continuation {gap lineBreak rest : List Char}
    (hgap : ∀ c ∈ gap, isBlankChar c = true) (hbreak : IsBreak lineBreak)
    (hrest : Unsplit lineBreak rest) :
    spaceLength ('_' :: (gap ++ (lineBreak ++ rest))) =
      1 + gap.length + lineBreak.length + spaceLength rest := by
  -- the lexer takes the indentation of the next line together with the continuation
  obtain ⟨indent, tail, rfl, hindentLength, hindent, -⟩ := exists_run isBlankChar rest
  have hnext := continuation?_append hgap hbreak hrest
  rw [← hindentLength] at hnext
  have hrun : ∀ xs, runLength isBlankChar ('_' :: xs) = 0 := fun xs => by rw [runLength_cons]; rfl
  have hdrop : ('_' :: (gap ++ (lineBreak ++ (indent ++ tail)))).drop
      (1 + gap.length + lineBreak.length + indent.length) = tail := by
    rw [show '_' :: (gap ++ (lineBreak ++ (indent ++ tail))) =
      ('_' :: gap ++ lineBreak ++ indent) ++ tail by simp]
    exact List.drop_left' (by simp; omega)
  rw [spaceLength_of_some (by rw [hrun]; exact hnext), hrun, Nat.zero_add, hdrop,
    spaceLength_blanks_append hindent]
  omega

/-- **Spacing is cut off as a whole** where no more of it follows. -/
theorem Spacing.spaceLength_append {cs rest : List Char} (h : Spacing cs)
    (hends : SpaceEnds rest) (hunsplit : Unsplit cs rest) :
    spaceLength (cs ++ rest) = cs.length := by
  induction h with
  | nil =>
    have hrun : runLength isBlankChar rest = 0 := runLength_eq_zero_iff.mpr hends.1
    rw [List.nil_append, spaceLength_of_none (by rw [hrun]; exact hends.2), hrun]
    rfl
  | @blank c cs hc _ ih =>
    have hrest : Unsplit cs rest := (show Unsplit ([c] ++ cs) rest from hunsplit).of_append
    rw [List.cons_append, spaceLength_cons_blank hc, ih hrest, List.length_cons]
    omega
  | @continuation gap lineBreak cs hgap hbreak hcs ih =>
    have hwhole : '_' :: (gap ++ (lineBreak ++ cs)) = ('_' :: gap ++ lineBreak) ++ cs := by simp
    -- the line break is not split, whether spacing follows it or the rest
    have hbreakRest : Unsplit lineBreak (cs ++ rest) := by
      refine fun hlast => hcs.notNext_feed fun hnil => hunsplit ?_
      rw [hwhole, hnil, List.append_nil, List.getLast?_append, hlast]
      rfl
    rw [hwhole] at hunsplit
    rw [List.cons_append, List.append_assoc, List.append_assoc,
      spaceLength_continuation hgap hbreak hbreakRest, ih hunsplit.of_append]
    simp only [List.length_cons, List.length_append]
    omega

/-- Whatever follows it, spacing is cut off at least as a whole. -/
theorem Spacing.length_le_spaceLength_append {cs : List Char} (h : Spacing cs)
    (rest : List Char) : cs.length ≤ spaceLength (cs ++ rest) := by
  induction h with
  | nil => simp
  | blank hc _ ih =>
    rw [List.cons_append, spaceLength_cons_blank hc, List.length_cons]
    omega
  | @continuation gap lineBreak cs hgap hbreak hcs ih =>
    rw [List.cons_append, List.append_assoc, List.append_assoc]
    simp only [List.length_cons, List.length_append]
    by_cases hunsplit : Unsplit lineBreak (cs ++ rest)
    · rw [spaceLength_continuation hgap hbreak hunsplit]
      omega
    · -- the line feed after a last carriage return is taken as well
      rw [Unsplit, Classical.not_imp] at hunsplit
      obtain ⟨hlast, hfeed⟩ := hunsplit
      obtain rfl : lineBreak = ['\r'] := by
        rcases hbreak with rfl | rfl | rfl
        · cases hlast
        · cases hlast
        · rfl
      obtain rfl : cs = [] := by
        by_contra hne
        exact hfeed (hcs.notNext_feed fun hnil => absurd hnil hne)
      obtain ⟨rest, rfl⟩ : ∃ tail, rest = '\n' :: tail := by
        cases rest with
        | nil => exact absurd (notNext_nil _) hfeed
        | cons c rest =>
          obtain rfl : c = '\n' := by simpa using hfeed
          exact ⟨rest, rfl⟩
      have hlength := @spaceLength_continuation gap ['\r', '\n'] rest hgap (.inr (.inl rfl))
        fun hlast => by cases hlast
      rw [List.nil_append, show ['\r'] ++ '\n' :: rest = ['\r', '\n'] ++ rest from rfl, hlength]
      simp only [List.length_cons, List.length_nil]
      omega

/-- The blanks and continuations at the start, cut off from what follows them. -/
theorem exists_spacing (cs : List Char) :
    ∃ text rest, cs = text ++ rest ∧ spaceLength cs = text.length ∧ Spacing text ∧
      SpaceEnds rest ∧ Unsplit text rest := by
  fun_induction spaceLength cs with
  | case1 cs gap hnone =>
    obtain ⟨run, rest, rfl, hlength, hrun, hrest⟩ := exists_run isBlankChar cs
    refine ⟨run, rest, rfl, hlength.symm, ?_, ⟨hrest, ?_⟩, unsplit_of_forall hrun (by decide) _⟩
    · simpa using Spacing.nil.blanks_append hrun
    · rwa [show gap = run.length from hlength.symm, List.drop_left] at hnone
  | case2 cs gap n hsome ih =>
    obtain ⟨run, tail, rfl, hlength, hrun, -⟩ := exists_run isBlankChar cs
    have hgap : gap = run.length := hlength.symm
    rw [hgap, List.drop_left] at hsome
    obtain ⟨blanks, lineBreak, rest, rfl, hblanks, hbreak, hunsplit, hn⟩ :=
      exists_continuation hsome
    obtain ⟨indent, rest, rfl, hindentLength, hindent, -⟩ := exists_run isBlankChar rest
    rw [← hindentLength] at hn
    have hdrop : (run ++ '_' :: (blanks ++ (lineBreak ++ (indent ++ rest)))).drop (gap + n) =
        rest := by
      rw [show run ++ '_' :: (blanks ++ (lineBreak ++ (indent ++ rest))) =
        (run ++ '_' :: (blanks ++ (lineBreak ++ indent))) ++ rest by simp]
      exact List.drop_left' (by simp; omega)
    rw [hdrop] at ih ⊢
    -- the spacing after the indentation comes from the recursion
    obtain ⟨text, rest, rfl, htextLength, htext, hends, htextUnsplit⟩ := ih
    refine ⟨run ++ '_' :: (blanks ++ (lineBreak ++ (indent ++ text))), rest, by simp, ?_, ?_, hends,
      ?_⟩
    · rw [htextLength, hgap]
      simp
      omega
    · exact (Spacing.continuation hblanks hbreak (htext.blanks_append hindent)).blanks_append hrun
    · have hmark : Unsplit ['_'] (blanks ++ (lineBreak ++ (indent ++ (text ++ rest)))) :=
        fun hlast => by simp at hlast
      have hline : Unsplit (lineBreak ++ (indent ++ text)) rest :=
        Unsplit.append (by simpa using hunsplit)
          ((unsplit_of_forall hindent (by decide) _).append htextUnsplit)
      exact (unsplit_of_forall hrun (by decide) _).append
        (@Unsplit.append ['_'] _ _ (by simpa using hmark)
          ((unsplit_of_forall hblanks (by decide) _).append hline))

/-! ### String literals -/

/-- What a string literal has after its opening quote. The flag tells whether the literal is
closed. -/
inductive LiteralTail : Bool → List Char → Prop where
  | unclosed : LiteralTail false []
  | closed : LiteralTail true ['"']
  | pair {isClosed : Bool} {cs : List Char} (hcs : LiteralTail isClosed cs) :
      LiteralTail isClosed ('"' :: '"' :: cs)
  | char {isClosed : Bool} {c : Char} {cs : List Char} (hquote : c ≠ '"')
      (hbreak : isBreakChar c = false) (hcs : LiteralTail isClosed cs) :
      LiteralTail isClosed (c :: cs)

/-- What may follow a literal: no third quote if it is closed, the end of the line if not. -/
def LiteralEnds (isClosed : Bool) (rest : List Char) : Prop :=
  if isClosed then NotNext (· == '"') rest else AtLineEnd rest

/-- What has neither quotes nor line breaks in it can be closed by a quote. -/
theorem LiteralTail.of_forall {cs : List Char}
    (h : ∀ c ∈ cs, c ≠ '"' ∧ isBreakChar c = false) : LiteralTail true (cs ++ ['"']) := by
  induction cs with
  | nil => exact .closed
  | cons c cs ih =>
    obtain ⟨⟨hquote, hbreak⟩, hrest⟩ := List.forall_mem_cons.mp h
    exact .char hquote hbreak (ih hrest)

/-- The rest of a literal is read to its end, and no further. -/
theorem LiteralTail.stringLength_append {isClosed : Bool} {cs rest : List Char}
    (h : LiteralTail isClosed cs) (hends : LiteralEnds isClosed rest) :
    stringLength (cs ++ rest) = cs.length := by
  induction h with
  | unclosed =>
    cases rest with
    | nil => rfl
    | cons c rest =>
      have hbreak : isBreakChar c = true := by simpa [LiteralEnds, AtLineEnd] using hends
      have hquote : c ≠ '"' := ne_of_class hbreak (by decide)
      rw [List.nil_append, stringLength]
      · simp [hquote, hbreak]
      · rintro cs rfl
        exact absurd rfl hquote
  | closed =>
    cases rest with
    | nil => rfl
    | cons c rest =>
      have hquote : c ≠ '"' := by simpa [LiteralEnds] using hends
      rw [List.singleton_append, stringLength]
      · simp
      · rintro cs - hc
        exact hquote (List.cons.inj hc).1
  | pair _ ih =>
    rw [List.cons_append, List.cons_append, stringLength, ih hends]
    simp
    omega
  | char hquote hbreak _ ih =>
    rw [List.cons_append, stringLength]
    · simp [hquote, hbreak, ih hends]
      omega
    · rintro cs rfl
      exact absurd rfl hquote

/-- The rest of a literal, cut off from what follows it. -/
theorem exists_literalTail (cs : List Char) :
    ∃ isClosed text rest, cs = text ++ rest ∧ stringLength cs = text.length ∧
      LiteralTail isClosed text ∧ LiteralEnds isClosed rest := by
  fun_induction stringLength cs with
  | case1 => exact ⟨false, [], [], rfl, rfl, .unclosed, notNext_nil _⟩
  | case2 cs ih =>
    obtain ⟨isClosed, text, rest, rfl, hlength, htext, hends⟩ := ih
    refine ⟨isClosed, '"' :: '"' :: text, rest, rfl, ?_, .pair htext, hends⟩
    rw [hlength, List.length_cons, List.length_cons]
    omega
  | case3 c cs hpair hquote =>
    obtain rfl := eq_of_beq hquote
    refine ⟨true, ['"'], cs, rfl, rfl, .closed, ?_⟩
    cases cs with
    | nil => exact notNext_nil _
    | cons d cs =>
      refine notNext_cons.mpr (beq_eq_false_iff_ne.mpr ?_)
      rintro rfl
      exact hpair cs rfl rfl
  | case4 c cs _ hquote hbreak =>
    exact ⟨false, [], c :: cs, rfl, rfl, .unclosed, notNext_cons.mpr (by simpa using hbreak)⟩
  | case5 c cs _ hquote hbreak ih =>
    obtain ⟨isClosed, text, rest, rfl, hlength, htext, hends⟩ := ih
    refine ⟨isClosed, c :: text, rest, rfl, ?_,
      .char (by simpa using hquote) (by simpa using hbreak) htext, hends⟩
    rw [hlength, List.length_cons]
    omega

/-! ### Identifiers and directives -/

/-- Whether the characters are those of an identifier: a letter, then word characters. -/
def isIdentifier (cs : List Char) : Bool :=
  cs.head?.any Char.isAlpha && cs.all isWordChar

@[simp]
theorem isIdentifier_nil : isIdentifier [] = false :=
  rfl

/-- An identifier is a letter and characters of a word after it. -/
theorem isIdentifier_cons {c : Char} {cs : List Char} :
    isIdentifier (c :: cs) = true ↔ c.isAlpha = true ∧ ∀ d ∈ cs, isWordChar d = true := by
  simp only [isIdentifier, List.head?_cons, Option.any_some, List.all_cons, Bool.and_eq_true,
    List.all_eq_true]
  exact ⟨fun h => ⟨h.1, h.2.2⟩, fun h => ⟨h.1, isWordChar_of_isAlpha h.1, h.2⟩⟩

/-- An identifier has only characters of a word in it. -/
theorem forall_isWordChar_of_isIdentifier {cs : List Char} (h : isIdentifier cs = true) :
    ∀ c ∈ cs, isWordChar c = true := by
  rw [isIdentifier, Bool.and_eq_true] at h
  exact List.all_eq_true.mp h.2

/-- An identifier and a quote close a literal that is open. -/
theorem literalTail_of_isIdentifier {name : List Char} (h : isIdentifier name = true) :
    LiteralTail true (name ++ ['"']) :=
  .of_forall fun c hc =>
    have hword := forall_isWordChar_of_isIdentifier h c hc
    ⟨ne_of_class hword (by decide), isBreakChar_eq_false_of_isWordChar hword⟩

/-- The word of a directive is read behind blanks, in small letters. -/
theorem directiveWord?_append {gap word rest : List Char}
    (hgap : ∀ c ∈ gap, isBlankChar c = true) (hword : isIdentifier word = true)
    (hrest : NotNext isWordChar rest) :
    directiveWord? (gap ++ (word ++ rest)) =
      some (foldCase (String.ofList word), gap.length + word.length) := by
  cases word with
  | nil => simp at hword
  | cons c cs =>
    obtain ⟨hc, hcs⟩ := isIdentifier_cons.mp hword
    have hblanks : runLength isBlankChar (c :: cs ++ rest) = 0 :=
      runLength_eq_zero_iff.mpr (notNext_cons.mpr
        (isBlankChar_eq_false_of_isWordChar (isWordChar_of_isAlpha hc)))
    have hletters : runLength isWordChar (cs ++ rest) = cs.length :=
      runLength_append_eq_iff.mpr ⟨hcs, hrest⟩
    rw [directiveWord?, runLength_append_of_forall hgap, hblanks, Nat.add_zero, List.drop_left]
    simp [wordLength?, hc, hletters, Nat.add_comm 1]

/-- What the word of a directive consists of. -/
theorem exists_directiveWord {cs : List Char} {word : String} {n : Nat}
    (h : directiveWord? cs = some (word, n)) :
    ∃ gap letters rest, cs = gap ++ (letters ++ rest) ∧ (∀ c ∈ gap, isBlankChar c = true) ∧
      isIdentifier letters = true ∧ NotNext isWordChar rest ∧
      word = foldCase (String.ofList letters) ∧ n = gap.length + letters.length := by
  obtain ⟨gap, tail, rfl, hlength, hgap, -⟩ := exists_run isBlankChar cs
  rw [directiveWord?, ← hlength, List.drop_left] at h
  cases tail with
  | nil => simp [wordLength?] at h
  | cons c cs =>
    by_cases hc : c.isAlpha = true
    · obtain ⟨letters, rest, rfl, hletters, hall, hrest⟩ := exists_run isWordChar cs
      simp only [wordLength?, hc, if_true, ← hletters, Option.map_some, Option.some.injEq,
        Prod.mk.injEq] at h
      refine ⟨gap, c :: letters, rest, rfl, hgap, isIdentifier_cons.mpr ⟨hc, hall⟩, hrest, ?_, ?_⟩
      · rw [← h.1, Nat.add_comm 1, List.take_succ_cons, List.take_left]
      · rw [← h.2, List.length_cons]
        omega
    · simp [wordLength?, hc] at h

/-- The directive that a single word after the number sign gives. -/
def directiveNamed? : String → Option Directive
  | "if" => some .opening
  | "elseif" => some .elseIf
  | "else" => some .otherwise
  | "endif" => some .closing
  | _ => none

/-- The text of a directive after its number sign. -/
inductive DirectiveText : Directive → List Char → Prop where
  | oneWord {directive : Directive} {gap word : List Char}
      (hgap : ∀ c ∈ gap, isBlankChar c = true) (hword : isIdentifier word = true)
      (hnamed : directiveNamed? (foldCase (String.ofList word)) = some directive) :
      DirectiveText directive (gap ++ word)
  | endIf {gap first gap' second : List Char} (hgap : ∀ c ∈ gap, isBlankChar c = true)
      (hfirst : isIdentifier first = true) (hend : foldCase (String.ofList first) = "end")
      (hne : gap' ≠ []) (hgap' : ∀ c ∈ gap', isBlankChar c = true)
      (hsecond : isIdentifier second = true) (hif : foldCase (String.ofList second) = "if") :
      DirectiveText .closing (gap ++ (first ++ (gap' ++ second)))

/-- A directive is read where its word is the name of one. -/
theorem directive?_of_named {cs : List Char} {word : String} {n : Nat} {directive : Directive}
    (hword : directiveWord? cs = some (word, n)) (hnamed : directiveNamed? word = some directive) :
    directive? cs = some (directive, n) := by
  unfold directiveNamed? at hnamed
  split at hnamed
  all_goals simp_all [directive?]

/-- A word ends before blanks. -/
theorem notNext_isWordChar_of_blanks {gap : List Char} (hne : gap ≠ [])
    (hgap : ∀ c ∈ gap, isBlankChar c = true) (rest : List Char) :
    NotNext isWordChar (gap ++ rest) := by
  obtain ⟨c, gap, rfl⟩ := List.exists_cons_of_ne_nil hne
  rw [List.cons_append, notNext_cons]
  exact isWordChar_eq_false_of_isBlankChar (hgap c List.mem_cons_self)

/-- The text of a directive is read as the directive, up to the end of its last word. -/
theorem DirectiveText.directive?_append {directive : Directive} {text rest : List Char}
    (h : DirectiveText directive text) (hrest : NotNext isWordChar rest) :
    directive? (text ++ rest) = some (directive, text.length) := by
  cases h with
  | oneWord hgap hword hnamed =>
    rw [List.append_assoc, List.length_append]
    exact directive?_of_named (directiveWord?_append hgap hword hrest) hnamed
  | @endIf gap first gap' second hgap hfirst hend hne hgap' hsecond hif =>
    have hfirstWord : directiveWord? (gap ++ (first ++ (gap' ++ (second ++ rest)))) =
        some ("end", gap.length + first.length) := by
      rw [directiveWord?_append hgap hfirst (notNext_isWordChar_of_blanks hne hgap' _), hend]
    have hsecondWord : directiveWord? (gap' ++ (second ++ rest)) =
        some ("if", gap'.length + second.length) := by
      rw [directiveWord?_append hgap' hsecond hrest, hif]
    have hdrop : (gap ++ (first ++ (gap' ++ (second ++ rest)))).drop (gap.length + first.length) =
        gap' ++ (second ++ rest) := by
      rw [← List.drop_drop, List.drop_left, List.drop_left]
    have hassoc : gap ++ (first ++ (gap' ++ second)) ++ rest =
        gap ++ (first ++ (gap' ++ (second ++ rest))) := by
      simp only [List.append_assoc]
    rw [hassoc, directive?, hfirstWord]
    simp only [hdrop, hsecondWord, List.length_append]
    rw [Nat.add_assoc]

/-- What a directive consists of. -/
theorem exists_directiveText {cs : List Char} {directive : Directive} {n : Nat}
    (h : directive? cs = some (directive, n)) :
    ∃ text rest, cs = text ++ rest ∧ n = text.length ∧ DirectiveText directive text ∧
      NotNext isWordChar rest := by
  have hone : ∀ {word : String}, directiveWord? cs = some (word, n) →
      directiveNamed? word = some directive →
      ∃ text rest, cs = text ++ rest ∧ n = text.length ∧ DirectiveText directive text ∧
        NotNext isWordChar rest := by
    intro word hword hnamed
    obtain ⟨gap, letters, rest, rfl, hgap, hletters, hrest, rfl, rfl⟩ := exists_directiveWord hword
    exact ⟨gap ++ letters, rest, by simp, by simp, .oneWord hgap hletters hnamed, hrest⟩
  -- all directives are one word, but for `End If`
  unfold directive? at h
  split at h
  next m hword => cases h; exact hone hword rfl
  next m hword => cases h; exact hone hword rfl
  next m hword => cases h; exact hone hword rfl
  next m hword => cases h; exact hone hword rfl
  next m hword =>
    split at h
    next k hword' =>
      cases h
      obtain ⟨gap, first, tail, rfl, hgap, hfirst, htail, hend, rfl⟩ := exists_directiveWord hword
      rw [← List.drop_drop, List.drop_left, List.drop_left] at hword'
      obtain ⟨gap', second, rest, rfl, hgap', hsecond, hrest, hif, rfl⟩ :=
        exists_directiveWord hword'
      have hne : gap' ≠ [] := by
        rintro rfl
        obtain ⟨c, cs, rfl⟩ := List.exists_cons_of_ne_nil
          (show second ≠ [] by rintro rfl; simp at hsecond)
        rw [List.nil_append, List.cons_append, notNext_cons,
          isWordChar_of_isAlpha (isIdentifier_cons.mp hsecond).1] at htail
        cases htail
      refine ⟨gap ++ (first ++ (gap' ++ second)), rest, by simp, by simp; omega, ?_, hrest⟩
      exact .endIf hgap hfirst hend.symm hne hgap' hsecond hif.symm
    next => cases h
  next => cases h

/-! ### Literals with a radix -/

/-- The radix letter `radix` calls for digits of the class `p`. -/
def RadixDigits (radix : Char) (p : Char → Bool) : Prop :=
  (radix.toLower = 'h' ∧ p = isHexDigit) ∨ (radix.toLower = 'o' ∧ p = isOctDigit)

/-- Digits of any radix go on in words. -/
theorem RadixDigits.isWordChar_of_digit {radix : Char} {p : Char → Bool} (h : RadixDigits radix p)
    {c : Char} (hc : p c = true) : isWordChar c = true := by
  rcases h with ⟨-, rfl⟩ | ⟨-, rfl⟩
  · simp only [isHexDigit, Char.isDigit, Bool.or_eq_true, Bool.and_eq_true, decide_eq_true_eq,
      Char.le_def, ge_iff_le, UInt32.le_iff_toNat_le] at hc
    simp only [isWordChar, Char.isAlphanum, isAlpha_iff, Char.isDigit, Bool.or_eq_true,
      Bool.and_eq_true, decide_eq_true_eq, ge_iff_le, UInt32.le_iff_toNat_le]
    simp at hc ⊢
    omega
  · simp only [isOctDigit, Bool.and_eq_true, decide_eq_true_eq, Char.le_def,
      UInt32.le_iff_toNat_le] at hc
    simp only [isWordChar, Char.isAlphanum, Char.isDigit, Bool.or_eq_true, Bool.and_eq_true,
      decide_eq_true_eq, ge_iff_le, UInt32.le_iff_toNat_le]
    simp at hc ⊢
    omega

/-- A radix is given by a letter. -/
theorem RadixDigits.isAlpha {radix : Char} {p : Char → Bool} (h : RadixDigits radix p) :
    radix.isAlpha = true := by
  have hlower : ∀ d : Char, d.isAlpha = true → radix.toLower = d → radix.isAlpha = true := by
    intro d hd hradix
    unfold Char.toLower at hradix
    split at hradix
    next hupper => exact isAlpha_iff.mpr (.inl hupper)
    next => rwa [hradix]
  rcases h with ⟨h, -⟩ | ⟨h, -⟩
  · exact hlower 'h' (by decide) h
  · exact hlower 'o' (by decide) h

/-- The text of a literal after its ampersand. A second ampersand closes it whatever follows. -/
inductive RadixText : List Char → List Char → Prop where
  | plain {radix : Char} {p : Char → Bool} {digits rest : List Char}
      (hradix : RadixDigits radix p) (hne : digits ≠ []) (hdigits : ∀ d ∈ digits, p d = true)
      (hrest : NotNext p rest) (hmark : NotNext (· == '&') rest) : RadixText (radix :: digits) rest
  | closed {radix : Char} {p : Char → Bool} {digits rest : List Char}
      (hradix : RadixDigits radix p) (hne : digits ≠ []) (hdigits : ∀ d ∈ digits, p d = true) :
      RadixText (radix :: (digits ++ ['&'])) rest

/-- A number with a radix by its parts: the radix, at least one digit, and an ampersand if there is
one. -/
theorem radixLength?_cons {radix : Char} {p : Char → Bool} (h : RadixDigits radix p)
    (cs : List Char) :
    radixLength? (radix :: cs) =
      if runLength p cs = 0 then none
      else
        some (1 + runLength p cs +
          if (cs.drop (runLength p cs)).head? = some '&' then 1 else 0) := by
  rcases h with ⟨hradix, rfl⟩ | ⟨hradix, rfl⟩
  · simp [radixLength?, hradix]
  · simp [radixLength?, hradix]

/-- The text of a number with a radix is read to its end, and no further. -/
theorem RadixText.radixLength?_append {text rest : List Char} (h : RadixText text rest) :
    radixLength? (text ++ rest) = some text.length := by
  cases h with
  | @plain radix p digits _ hradix hne hdigits hrest hmark =>
    have hrun : runLength p (digits ++ rest) = digits.length :=
      runLength_append_eq_iff.mpr ⟨hdigits, hrest⟩
    have hnext : rest.head? ≠ some '&' := fun hhead => by simpa using hmark _ hhead
    simp [radixLength?_cons hradix, hrun, hne, hnext, Nat.add_comm 1]
  | @closed radix p digits _ hradix hne hdigits =>
    have hmark : p '&' = false := by
      rcases hradix with ⟨-, rfl⟩ | ⟨-, rfl⟩ <;> decide
    have hrun : runLength p (digits ++ '&' :: rest) = digits.length :=
      runLength_append_eq_iff.mpr ⟨hdigits, notNext_cons.mpr hmark⟩
    simp [radixLength?_cons hradix, hrun, hne, Nat.add_comm 1]

/-- What a literal with a radix consists of. -/
theorem exists_radixText {cs : List Char} {n : Nat} (h : radixLength? cs = some n) :
    ∃ text rest, cs = text ++ rest ∧ n = text.length ∧ RadixText text rest := by
  cases cs with
  | nil => simp [radixLength?] at h
  | cons radix cs =>
    obtain ⟨p, hradix⟩ : ∃ p, RadixDigits radix p := by
      by_cases hh : radix.toLower = 'h'
      · exact ⟨_, .inl ⟨hh, rfl⟩⟩
      · by_cases ho : radix.toLower = 'o'
        · exact ⟨_, .inr ⟨ho, rfl⟩⟩
        · simp [radixLength?, hh, ho] at h
    obtain ⟨digits, rest, rfl, hlength, hdigits, hrest⟩ := exists_run p cs
    rw [radixLength?_cons hradix, ← hlength, List.drop_left, Option.ite_none_left_eq_some,
      Option.some.injEq] at h
    obtain ⟨hne, rfl⟩ := h
    rw [List.length_eq_zero_iff] at hne
    -- an ampersand after the digits closes the literal
    split
    next hhead =>
      obtain ⟨tail, rfl⟩ : ∃ tail, rest = '&' :: tail := List.head?_eq_some_iff.mp hhead
      exact ⟨radix :: (digits ++ ['&']), tail, by simp, by simp; omega,
        .closed hradix hne hdigits⟩
    next hhead =>
      refine ⟨radix :: digits, rest, rfl, by simp; omega,
        .plain hradix hne hdigits hrest fun c hc => ?_⟩
      refine beq_eq_false_iff_ne.mpr ?_
      rintro rfl
      exact hhead hc

/-- An ampersand begins no literal exactly if no digit follows a radix letter after it. -/
theorem radixLength?_eq_none_iff {cs : List Char} :
    radixLength? cs = none ↔
      ∀ radix p ys, cs = radix :: ys → RadixDigits radix p → NotNext p ys := by
  constructor
  · rintro hnone radix p ys rfl hradix
    rw [radixLength?_cons hradix] at hnone
    rw [← runLength_eq_zero_iff]
    by_contra hrun
    rw [if_neg hrun] at hnone
    cases hnone
  · intro hdigits
    by_contra hsome
    obtain ⟨n, hn⟩ := Option.ne_none_iff_exists'.mp hsome
    obtain ⟨text, rest, rfl, -, htext⟩ := exists_radixText hn
    have hcontra : ∀ {radix : Char} {p : Char → Bool} {digits more : List Char},
        RadixDigits radix p → digits ≠ [] → (∀ d ∈ digits, p d = true) →
        text ++ rest = radix :: (digits ++ more) → False := by
      intro radix p digits more hradix hne hall heq
      obtain ⟨d, digits, rfl⟩ := List.exists_cons_of_ne_nil hne
      have hnext := hdigits radix p _ heq hradix
      rw [List.cons_append, notNext_cons, hall d List.mem_cons_self] at hnext
      cases hnext
    cases htext with
    | plain hradix hne hall _ _ => exact hcontra hradix hne hall rfl
    | closed hradix hne hall =>
      exact hcontra hradix hne hall (by rw [List.cons_append, List.append_assoc])

end VbaModules.Lexer

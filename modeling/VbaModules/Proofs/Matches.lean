import Mathlib.Data.List.TakeWhile
import VbaModules.Proofs.SectionPartition
import VbaModules.Proofs.WordSections

/-!
# What a search finds

A match is told without the search: the pattern can be laid along the tokens from its start on, the
token there is not blank, and an anchored match begins a line (`Pattern.IsMatch`). A search finds
the first match at or after a position (`Pattern.next?_eq_some_iff`). If the pattern stays in its
line, a line has at most one anchored match, so the anchored matches that follow each other are all
there are (`Pattern.mem_lineMatches_iff`).
-/

namespace VbaModules

open Token

theorem Token.isBlank_of_lt_length_takeWhile {ts : List Token} {i : Nat} {t : Token}
    (h : i < (ts.takeWhile isBlank).length) (ht : ts[i]? = some t) : t.isBlank = true := by
  have hget : (ts.takeWhile isBlank)[i]? = some t := by
    rw [← ht]
    conv_rhs => rw [← List.takeWhile_append_dropWhile (p := isBlank) (l := ts)]
    rw [List.getElem?_append_left h]
  exact List.mem_takeWhile_imp (List.mem_of_getElem? hget)

theorem sameWord_of_accepts_words {word : String} {t : Token}
    (h : (Element.words [word]).accepts t = true) : Text.sameWord t.text word = true := by
  simp only [Element.words, Element.accepts, List.map_cons, List.map_nil, List.any_cons,
    List.any_nil, Bool.or_false, Alternative.accepts, Bool.and_eq_true] at h
  exact h.2

namespace Pattern

/-! ### Laying elements along tokens -/

/-- A row of elements is laid along the tokens one part after the other. -/
theorem align_append (es fs : List Element) (ts : List Token) :
    align (es ++ fs) ts = (align es ts).bind fun k => (align fs (ts.drop k)).map (k + ·) := by
  induction es generalizing ts with
  | nil => simp [align]
  | cons e es ih =>
    rw [List.cons_append, align, align]
    split
    · rw [ih, Option.map_bind, Option.bind_map]
      congr 1
      funext k
      simp [Nat.add_assoc, Function.comp_def]
    · split
      · rw [ih]
      · rfl

/-- Elements one of which must take a token take at least one. -/
theorem pos_of_align {es : List Element} {ts : List Token} {n : Nat}
    (h : align es ts = some n) (hmust : es.any (!·.optional) = true) : 0 < n := by
  induction es generalizing ts n with
  | nil => cases hmust
  | cons e es ih =>
    rw [align] at h
    split at h
    next =>
      obtain ⟨m, -, rfl⟩ := Option.map_eq_some_iff.mp h
      omega
    next =>
      split at h
      next hoptional =>
        rw [List.any_cons, hoptional, Bool.not_true, Bool.false_or] at hmust
        exact ih h hmust
      next => cases h

theorem align_anything {ts : List Token} {n : Nat} (h : align [.anything] ts = some n) :
    n = (ts.takeWhile isBlank).length + 1 := by
  rw [align] at h
  split at h
  · simpa [align, eq_comm] using h
  · cases h

/-- An element that must take a token takes the first one that is not blank. -/
theorem exists_of_align_cons {e : Element} {es : List Element} {ts : List Token} {n : Nat}
    (h : align (e :: es) ts = some n) (he : e.optional = false) :
    ∃ gap t us m, ts = gap ++ t :: us ∧ (∀ g ∈ gap, g.isBlank = true) ∧ t.isBlank = false ∧
      e.accepts t = true ∧ align es us = some m := by
  rw [align] at h
  split at h
  next hacc =>
    obtain ⟨t, ht, hacc⟩ := (Option.any_eq_true _ _).mp hacc
    obtain ⟨us, hus⟩ := List.head?_eq_some_iff.mp ht
    obtain ⟨m, hm, -⟩ := Option.map_eq_some_iff.mp h
    have hts : ts = ts.takeWhile isBlank ++ t :: us := by
      rw [← hus, List.takeWhile_append_dropWhile]
    have hdrop : ts.drop ((ts.takeWhile isBlank).length + 1) = us := by
      refine (congrArg (List.drop _) hts).trans ?_
      rw [List.append_cons]
      exact List.drop_left' (by simp)
    have hblank : t.isBlank = false := by
      simpa [ht] using List.head?_dropWhile_not isBlank ts
    exact ⟨_, t, us, m, hts, fun g hg => List.mem_takeWhile_imp hg, hblank, hacc, hdrop ▸ hm⟩
  next => simp [he] at h

/-- What elements are laid along is blank, or some element accepts it. -/
theorem accepts_of_mem_take_of_align {es : List Element} {ts : List Token} {n : Nat}
    (h : align es ts = some n) {t : Token} (ht : t ∈ ts.take n) (hblank : t.isBlank = false) :
    ∃ e ∈ es, e.accepts t = true := by
  induction es generalizing ts n with
  | nil =>
    obtain rfl : 0 = n := by simpa [align] using h
    simp at ht
  | cons e es ih =>
    rw [align] at h
    split at h
    next hacc =>
      obtain ⟨m, hm, rfl⟩ := Option.map_eq_some_iff.mp h
      rw [List.take_add, List.mem_append] at ht
      rcases ht with hgap | hlater
      · -- up to the token that the element takes there are only blanks
        have hsplit : ts.take ((ts.takeWhile isBlank).length + 1) =
            (ts.takeWhile isBlank ++ ts.dropWhile isBlank).take
              ((ts.takeWhile isBlank).length + 1) := by
          rw [List.takeWhile_append_dropWhile]
        rw [hsplit, List.take_length_add_append, List.mem_append] at hgap
        rcases hgap with hgap | hnext
        · have hspace := List.mem_takeWhile_imp hgap
          rw [hblank] at hspace
          cases hspace
        · refine ⟨e, List.mem_cons_self, ?_⟩
          rw [List.take_one] at hnext
          rw [Option.mem_toList.mp hnext] at hacc
          exact hacc
      · obtain ⟨e', he', hacc'⟩ := ih hm hlater
        exact ⟨e', List.mem_cons_of_mem _ he', hacc'⟩
    next =>
      split at h
      · obtain ⟨e', he', hacc'⟩ := ih h ht
        exact ⟨e', List.mem_cons_of_mem _ he', hacc'⟩
      · cases h

/-! ### Matches -/

/-- A stretch of tokens that **matches** the pattern: its first token is not blank and begins a
line if the match is to be anchored, and the pattern can be laid along it. -/
structure IsMatch (p : Pattern) (anchored : Bool) (tokens : List Token) (m : Match) : Prop where
  start_lt_stop : m.start < m.stop
  exists_first : ∃ t, tokens[m.start]? = some t ∧ t.isBlank = false
  beginsLine : anchored = true → beginsLine tokens m.start = true
  align_eq : align p.elements (tokens.drop m.start) = some (m.stop - m.start)

variable {p : Pattern} {anchored : Bool} {tokens : List Token}

theorem IsMatch.stop_le {m : Match} (h : p.IsMatch anchored tokens m) :
    m.stop ≤ tokens.length := by
  have hle := align_le_length h.align_eq
  have hlt := h.start_lt_stop
  rw [List.length_drop] at hle
  omega

/-- The start of a match decides where it stops. -/
theorem IsMatch.eq_of_start_eq {m m' : Match} (h : p.IsMatch anchored tokens m)
    (h' : p.IsMatch anchored tokens m') (hstart : m.start = m'.start) : m = m' := by
  have hlength : m.stop - m.start = m'.stop - m'.start := by
    have heq := h.align_eq
    rw [hstart, h'.align_eq, Option.some.injEq] at heq
    rw [hstart, heq]
  have hlt := h.start_lt_stop
  have hlt' := h'.start_lt_stop
  obtain ⟨start, stop⟩ := m
  obtain ⟨start', stop'⟩ := m'
  simp only at hstart hlength hlt hlt'
  simp only [Match.mk.injEq]
  omega

/-- What a search along a list knows of a match there: the tokens before it, its length, and
whether the list begins at the start of a line. -/
def matchesAt (p : Pattern) (anchored atLineStart : Bool) (ts : List Token) (k n : Nat) : Prop :=
  (∃ t, ts[k]? = some t ∧ t.isBlank = false) ∧
    (anchored = true → (ts.take k).foldl lineStartAfter atLineStart = true) ∧
    p.matchLength? (ts.drop k) = some n

/-- Whether the first token of a list begins a match. -/
theorem matchesAt_zero_iff {atLineStart : Bool} {t : Token} {ts : List Token} {n : Nat} :
    p.matchesAt anchored atLineStart (t :: ts) 0 n ↔
      (if t.isBlank || (anchored && !atLineStart) then none else p.matchLength? (t :: ts)) =
        some n := by
  cases hblank : t.isBlank <;> cases anchored <;> cases atLineStart <;> simp [matchesAt, hblank]

theorem matchesAt_succ_iff {atLineStart : Bool} {t : Token} {ts : List Token} {k n : Nat} :
    p.matchesAt anchored atLineStart (t :: ts) (k + 1) n ↔
      p.matchesAt anchored (lineStartAfter atLineStart t) ts k n :=
  Iff.rfl

theorem first?_eq_some_iff {atLineStart : Bool} {ts : List Token} {k n : Nat} :
    p.first? anchored atLineStart ts = some (k, n) ↔
      p.matchesAt anchored atLineStart ts k n ∧
        ∀ j < k, ∀ l, ¬p.matchesAt anchored atLineStart ts j l := by
  induction ts generalizing atLineStart k with
  | nil => simp [first?, matchesAt]
  | cons t ts ih =>
    rw [first?]
    split
    next l hl =>
      rw [← matchesAt_zero_iff] at hl
      constructor
      · rintro ⟨⟩
        exact ⟨hl, fun j hj => absurd hj (Nat.not_lt_zero j)⟩
      · rintro ⟨hmatch, hnone⟩
        obtain rfl : k = 0 := by
          by_contra hk
          exact hnone 0 (Nat.pos_of_ne_zero hk) l hl
        rw [matchesAt_zero_iff] at hl hmatch
        rw [hl, Option.some.injEq] at hmatch
        rw [hmatch]
    next hnone =>
      -- no match is here, so the first one is that of the later tokens
      have hnone' : ∀ l, ¬p.matchesAt anchored atLineStart (t :: ts) 0 l := by
        intro l hl
        rw [matchesAt_zero_iff, hnone] at hl
        cases hl
      cases k with
      | zero =>
        refine iff_of_false ?_ fun h => hnone' n h.1
        intro h
        obtain ⟨⟨k, l⟩, -, heq⟩ := Option.map_eq_some_iff.mp h
        simp at heq
      | succ k =>
        have hmap : ∀ later : Option (Nat × Nat),
            (∃ e, later = some e ∧ (e.1 + 1, e.2) = (k + 1, n)) ↔ later = some (k, n) := by
          intro later
          simp
        refine (Option.map_eq_some_iff.trans (hmap _)).trans ?_
        rw [ih, matchesAt_succ_iff]
        refine and_congr_right fun _ => ⟨fun h j hj l => ?_, fun h j hj l => ?_⟩
        · cases j with
          | zero => exact hnone' l
          | succ j => exact h j (Nat.lt_of_succ_lt_succ hj) l
        · exact h (j + 1) (Nat.succ_lt_succ hj) l

theorem foldl_lineStartAfter_drop (tokens : List Token) (position k : Nat) :
    ((tokens.drop position).take k).foldl lineStartAfter (Token.beginsLine tokens position) =
      Token.beginsLine tokens (position + k) := by
  rw [Token.beginsLine, Token.beginsLine, ← List.foldl_append, List.take_add]

/-- Matches in the rest of the tokens are matches of the tokens. -/
theorem matchesAt_drop_iff {position k n : Nat} :
    p.matchesAt anchored (Token.beginsLine tokens position) (tokens.drop position) k n ↔
      p.IsMatch anchored tokens ⟨position + k, position + k + n⟩ := by
  rw [matchesAt, foldl_lineStartAfter_drop, matchLength?_eq_some_iff, List.getElem?_drop,
    List.drop_drop]
  constructor
  · rintro ⟨hfirst, hline, halign, hpos⟩
    exact ⟨by simp only; omega, hfirst, hline, by simpa using halign⟩
  · rintro ⟨hlt, hfirst, hline, halign⟩
    simp only at hlt
    exact ⟨hfirst, hline, by simpa using halign, by omega⟩

theorem IsMatch.matchesAt {m : Match} (h : p.IsMatch anchored tokens m) {position : Nat}
    (hle : position ≤ m.start) :
    p.matchesAt anchored (Token.beginsLine tokens position) (tokens.drop position)
      (m.start - position) (m.stop - m.start) := by
  have hlt := h.start_lt_stop
  have hm : (⟨position + (m.start - position),
      position + (m.start - position) + (m.stop - m.start)⟩ : Match) = m := by
    obtain ⟨start, stop⟩ := m
    simp only at hle hlt
    simp only [Match.mk.injEq]
    omega
  rw [matchesAt_drop_iff, hm]
  exact h

/-- **A search finds the first match** at or after the position where it begins. -/
theorem next?_eq_some_iff {position : Nat} {m : Match} :
    p.next? anchored tokens position = some m ↔
      position ≤ m.start ∧ p.IsMatch anchored tokens m ∧
        ∀ m', p.IsMatch anchored tokens m' → position ≤ m'.start → m.start ≤ m'.start := by
  constructor
  · intro h
    obtain ⟨⟨k, n⟩, hfirst, rfl⟩ := Option.map_eq_some_iff.mp h
    obtain ⟨hmatch, hnone⟩ := first?_eq_some_iff.mp hfirst
    refine ⟨Nat.le_add_right _ _, matchesAt_drop_iff.mp hmatch, fun m' hm' hle => ?_⟩
    by_contra hlt
    have hearlier : m'.start - position < k := by
      simp only at hlt
      omega
    exact hnone _ hearlier _ (hm'.matchesAt hle)
  · rintro ⟨hle, hmatch, hfirst⟩
    have hsearch : p.first? anchored (Token.beginsLine tokens position) (tokens.drop position) =
        some (m.start - position, m.stop - m.start) := by
      refine first?_eq_some_iff.mpr ⟨hmatch.matchesAt hle, fun j hj l hl => ?_⟩
      have hle' := hfirst _ (matchesAt_drop_iff.mp hl) (Nat.le_add_right _ _)
      simp only at hle'
      omega
    have hlt := hmatch.start_lt_stop
    rw [next?, hsearch, Option.map_some, Option.some.injEq]
    obtain ⟨start, stop⟩ := m
    simp only at hle hlt
    simp only [Match.mk.injEq]
    omega

/-- The matches of a pattern decide what a search finds. -/
theorem lineMatches_congr {us : List Token}
    (h : ∀ m, p.IsMatch true tokens m ↔ p.IsMatch true us m) :
    p.lineMatches tokens = p.lineMatches us := by
  refine matchesFrom_congr (fun position => Option.ext fun m => ?_) 0
  simp only [next?_eq_some_iff, h]

/-- A search finds nothing only if there is no match. -/
theorem exists_next? {position : Nat} {m : Match} (h : p.IsMatch anchored tokens m)
    (hle : position ≤ m.start) :
    ∃ m', p.next? anchored tokens position = some m' ∧ m'.start ≤ m.start := by
  cases hnext : p.next? anchored tokens position with
  | some m' => exact ⟨m', rfl, (next?_eq_some_iff.mp hnext).2.2 m h hle⟩
  | none =>
    exfalso
    have hnone : p.first? anchored (Token.beginsLine tokens position) (tokens.drop position) =
        none := Option.map_eq_none_iff.mp hnext
    -- the match is not found although it is there, so neither is any before it
    have hall : ∀ k n, ¬p.matchesAt anchored (Token.beginsLine tokens position)
        (tokens.drop position) k n := by
      intro k
      induction k using Nat.strongRecOn with
      | ind k ih =>
        intro n hn
        have hsome := first?_eq_some_iff.mpr ⟨hn, ih⟩
        rw [hnone] at hsome
        cases hsome
    exact hall _ _ (h.matchesAt hle)

/-! ### Matches that follow each other -/

theorem isMatch_of_mem_matchesFrom {position : Nat} {m : Match}
    (h : m ∈ p.matchesFrom anchored tokens position) : p.IsMatch anchored tokens m := by
  fun_induction matchesFrom p anchored tokens position with
  | case1 => cases h
  | case2 position first hfirst ih =>
    rcases List.mem_cons.mp h with rfl | hrest
    · exact (next?_eq_some_iff.mp hfirst).2.1
    · exact ih hrest

theorem pairwise_matchesFrom (p : Pattern) (anchored : Bool) (tokens : List Token)
    (position : Nat) :
    (p.matchesFrom anchored tokens position).Pairwise fun a b => a.start < b.start := by
  fun_induction matchesFrom p anchored tokens position with
  | case1 => exact .nil
  | case2 position first hfirst ih =>
    refine List.pairwise_cons.mpr ⟨fun m hm => ?_, ih⟩
    have hbounds := next?_bounds hfirst
    have hlater := bounds_of_mem_matchesFrom hm
    omega

end Pattern

/-- Between a token that is not blank and a later start of a line stands a line break. -/
theorem Token.exists_isLineBreak_of_beginsLine {tokens : List Token} {i j : Nat} {t : Token}
    (ht : tokens[i]? = some t) (hblank : t.isBlank = false) (hlt : i < j)
    (hline : beginsLine tokens j = true) :
    ∃ k u, i ≤ k ∧ k < j ∧ tokens[k]? = some u ∧ u.isLineBreak = true := by
  induction j, hlt using Nat.le_induction with
  | base =>
    refine ⟨i, t, le_rfl, Nat.lt_succ_self i, ht, ?_⟩
    rw [beginsLine, List.take_add_one, ht, List.foldl_append] at hline
    simpa [lineStartAfter, hblank] using hline
  | succ j hij ih =>
    rw [beginsLine, List.take_add_one, List.foldl_append] at hline
    have hearlier : beginsLine tokens j = true → ∃ k u, i ≤ k ∧ k < j + 1 ∧
        tokens[k]? = some u ∧ u.isLineBreak = true := by
      intro h
      obtain ⟨k, u, hik, hkj, hu⟩ := ih h
      exact ⟨k, u, hik, Nat.lt_succ_of_lt hkj, hu⟩
    cases hu : tokens[j]? with
    | none => exact hearlier (by simpa [hu, beginsLine] using hline)
    | some u =>
      cases hspace : u.isBlank with
      | true => exact hearlier (by simpa [hu, beginsLine, lineStartAfter, hspace] using hline)
      | false =>
        have hbreak : u.isLineBreak = true := by simpa [hu, lineStartAfter, hspace] using hline
        exact ⟨j, u, Nat.le_of_succ_le hij, Nat.lt_succ_self j, hu, hbreak⟩

namespace Pattern

variable {p : Pattern} {tokens : List Token}

/-- No line break is within a match of a pattern that stays in its line. -/
theorem IsMatch.isLineBreak_eq_false {anchored : Bool} {m : Match}
    (h : p.IsMatch anchored tokens m) (hstays : p.staysInLine = true) {i : Nat} {t : Token}
    (hstart : m.start ≤ i) (hstop : i < m.stop) (ht : tokens[i]? = some t) :
    t.isLineBreak = false := by
  have hmem : t ∈ (tokens.drop m.start).take (m.stop - m.start) := by
    refine List.mem_of_getElem? (i := i - m.start) ?_
    rw [List.getElem?_take_of_lt (by omega), List.getElem?_drop, Nat.add_sub_cancel' hstart, ht]
  cases hblank : t.isBlank with
  | true =>
    rw [isBlank, beq_iff_eq] at hblank
    rw [isLineBreak, hblank]
    rfl
  | false =>
    obtain ⟨e, he, hacc⟩ := accepts_of_mem_take_of_align h.align_eq hmem hblank
    exact isLineBreak_eq_false_of_accepts hstays he hacc

/-- A line that begins after the start of such a match begins after a line break behind it. -/
theorem IsMatch.exists_isLineBreak {anchored : Bool} {m : Match}
    (h : p.IsMatch anchored tokens m) (hstays : p.staysInLine = true) {i : Nat} (hlt : m.start < i)
    (hline : Token.beginsLine tokens i = true) :
    ∃ k u, m.stop ≤ k ∧ k < i ∧ tokens[k]? = some u ∧ u.isLineBreak = true := by
  obtain ⟨t, ht, hblank⟩ := h.exists_first
  obtain ⟨k, u, hk, hki, hu, hbreak⟩ := exists_isLineBreak_of_beginsLine ht hblank hlt hline
  refine ⟨k, u, ?_, hki, hu, hbreak⟩
  by_contra hinside
  rw [h.isLineBreak_eq_false hstays hk (Nat.lt_of_not_le hinside) hu] at hbreak
  cases hbreak

/-- A line has at most one anchored match of a pattern that stays in its line. -/
theorem IsMatch.stop_le_start {m m' : Match} (h : p.IsMatch true tokens m)
    (h' : p.IsMatch true tokens m') (hstays : p.staysInLine = true) (hlt : m.start < m'.start) :
    m.stop ≤ m'.start := by
  obtain ⟨k, -, hstop, hk, -⟩ := h.exists_isLineBreak hstays hlt (h'.beginsLine rfl)
  exact hstop.trans hk.le

theorem mem_matchesFrom_iff (hstays : p.staysInLine = true) {position : Nat} {m : Match} :
    m ∈ p.matchesFrom true tokens position ↔ position ≤ m.start ∧ p.IsMatch true tokens m := by
  constructor
  · intro h
    exact ⟨(bounds_of_mem_matchesFrom h).1, isMatch_of_mem_matchesFrom h⟩
  · rintro ⟨hle, hmatch⟩
    fun_induction matchesFrom p true tokens position with
    | case1 position hnone =>
      obtain ⟨m', hm', -⟩ := exists_next? hmatch hle
      rw [hnone] at hm'
      cases hm'
    | case2 position first hfirst ih =>
      obtain ⟨-, hisMatch, hleast⟩ := next?_eq_some_iff.mp hfirst
      rcases Nat.lt_or_ge first.start m.start with hlt | hge
      · exact List.mem_cons_of_mem _ (ih (hisMatch.stop_le_start hmatch hstays hlt))
      · have hstart := Nat.le_antisymm (hleast m hmatch hle) hge
        rw [hisMatch.eq_of_start_eq hmatch hstart]
        exact List.mem_cons_self

/-- **The anchored matches** of a pattern that stays in its line are all found. -/
theorem mem_lineMatches_iff (hstays : p.staysInLine = true) {m : Match} :
    m ∈ p.lineMatches tokens ↔ p.IsMatch true tokens m := by
  rw [lineMatches, mem_matchesFrom_iff hstays]
  exact and_iff_right (Nat.zero_le _)

end Pattern

end VbaModules

import VbaModules.Pattern.Basic

/-!
# Finding patterns in token lists

`Pattern.endAt?` tries a pattern at one position, going through its elements from left to right;
an optional element takes a token whenever it can. `Pattern.matchesFrom` lists the matches that
follow each other from a position on, each starting as early as possible and none overlapping the
one before. An anchored search only considers the first token of each line that is not blank.
-/

namespace VbaModules

/-- A stretch of token positions, `stop` not included. -/
structure Match where
  start : Nat
  stop : Nat
deriving DecidableEq, Repr

namespace Pattern

open Token

/-! ### Matching at the head of a list -/

/-- Lays the elements along the tokens and counts the tokens up to the last one taken: zero when
every element is optional and none takes a token, `none` when an element that must take one cannot.
-/
def align : List Element → List Token → Option Nat
  | [], _ => some 0
  | e :: es, ts =>
    let gap := (ts.takeWhile isBlank).length
    if (ts.dropWhile isBlank).head?.any e.accepts then
      (align es (ts.drop (gap + 1))).map (gap + 1 + ·)
    else if e.optional then align es ts
    else none

/-- The number of tokens in the match at the head of the list. A match takes at least one token. -/
def matchLength? (p : Pattern) (ts : List Token) : Option Nat :=
  (align p.elements ts).filter (0 < ·)

/-- The position just past the match that starts at `start`, leading blanks aside. -/
def endAt? (p : Pattern) (tokens : List Token) (start : Nat) : Option Nat :=
  (p.matchLength? (tokens.drop start)).map (start + ·)

theorem align_le_length {es : List Element} {ts : List Token} {n : Nat}
    (h : align es ts = some n) : n ≤ ts.length := by
  induction es generalizing ts n with
  | nil => simp only [align, Option.some.injEq] at h; omega
  | cons e es ih =>
    rw [align] at h
    split at h
    next hacc =>
      obtain ⟨m, hm, rfl⟩ := Option.map_eq_some_iff.mp h
      have hlen := ih hm
      have hne : ts.dropWhile isBlank ≠ [] := by
        intro hnil
        simp [hnil] at hacc
      have hsum : (ts.takeWhile isBlank).length + (ts.dropWhile isBlank).length = ts.length := by
        rw [← List.length_append, List.takeWhile_append_dropWhile]
      have := List.length_pos_iff.mpr hne
      rw [List.length_drop] at hlen
      omega
    next => split at h <;> simp_all

theorem matchLength?_eq_some_iff {p : Pattern} {ts : List Token} {n : Nat} :
    p.matchLength? ts = some n ↔ align p.elements ts = some n ∧ 0 < n := by
  simp [matchLength?, Option.filter_eq_some_iff]

/-! ### Searching -/

/-- The first match in the list: how many tokens stand before it, and how many it has. The flag
tells whether the list begins at the start of a line, which matters to an anchored search only. -/
def first? (p : Pattern) (anchored : Bool) (atLineStart : Bool) : List Token → Option (Nat × Nat)
  | [] => none
  | t :: ts =>
    let here :=
      if t.isBlank || (anchored && !atLineStart) then none else p.matchLength? (t :: ts)
    match here with
    | some n => some (0, n)
    | none =>
      (first? p anchored (lineStartAfter atLineStart t) ts).map fun (skipped, n) => (skipped + 1, n)

/-- The first match that starts at `position` or later. -/
def next? (p : Pattern) (anchored : Bool) (tokens : List Token) (position : Nat) : Option Match :=
  (p.first? anchored (beginsLine tokens position) (tokens.drop position)).map fun (skipped, n) =>
    ⟨position + skipped, position + skipped + n⟩

theorem first?_bounds {p : Pattern} {anchored atLineStart : Bool} {ts : List Token} {k n : Nat}
    (h : p.first? anchored atLineStart ts = some (k, n)) : 0 < n ∧ k + n ≤ ts.length := by
  induction ts generalizing atLineStart k with
  | nil => simp [first?] at h
  | cons t ts ih =>
    rw [first?] at h
    split at h
    next m hm =>
      simp only [Option.some.injEq, Prod.mk.injEq] at h
      obtain ⟨rfl, rfl⟩ := h
      split at hm
      · simp at hm
      · obtain ⟨halign, hpos⟩ := matchLength?_eq_some_iff.mp hm
        exact ⟨hpos, by simpa using align_le_length halign⟩
    next =>
      obtain ⟨⟨k', n'⟩, hk, heq⟩ := Option.map_eq_some_iff.mp h
      simp only [Prod.mk.injEq] at heq
      obtain ⟨rfl, rfl⟩ := heq
      obtain ⟨hpos, hle⟩ := ih hk
      exact ⟨hpos, by rw [List.length_cons]; omega⟩

/-- A match lies within the tokens, at or after the position where the search began. -/
theorem next?_bounds {p : Pattern} {anchored : Bool} {tokens : List Token} {position : Nat}
    {m : Match} (h : p.next? anchored tokens position = some m) :
    position ≤ m.start ∧ m.start < m.stop ∧ m.stop ≤ tokens.length := by
  obtain ⟨⟨k, n⟩, hfirst, rfl⟩ := Option.map_eq_some_iff.mp h
  obtain ⟨hpos, hle⟩ := first?_bounds hfirst
  rw [List.length_drop] at hle
  refine ⟨?_, ?_, ?_⟩ <;> simp only <;> omega

/-- The matches from `position` on, in order; each search goes on where the match before ends. -/
def matchesFrom (p : Pattern) (anchored : Bool) (tokens : List Token) (position : Nat) :
    List Match :=
  match _h : p.next? anchored tokens position with
  | none => []
  | some m => m :: matchesFrom p anchored tokens m.stop
termination_by tokens.length - position
decreasing_by
  have := next?_bounds _h
  omega

/-- All matches that start on the first token of a line. -/
def lineMatches (p : Pattern) (tokens : List Token) : List Match :=
  p.matchesFrom true tokens 0

end Pattern

end VbaModules

import VbaModules.Proofs.Matches

/-!
# Searching a slice of a module

A slice that begins at the start of a line is searched like the module it is cut from. A pattern
whose last element must take a token does not look beyond its match, so the anchored matches of the
slice are those of the module that lie within it (`Pattern.isMatch_slice_iff`). A search in the
slice finds what it finds in the module, if that lies within (`Pattern.next?_slice`), and a line
that stops within the slice stops there in the same place (`Token.lineEnd_slice`).
-/

namespace VbaModules

open Token

/-! ### Slices -/

namespace Token

variable {tokens : List Token} {a b i : Nat}

theorem getElem?_slice (h : a + i < b) : (slice tokens a b)[i]? = tokens[a + i]? := by
  rw [slice, List.getElem?_drop, List.getElem?_take_of_lt h]

theorem length_slice (hb : b ≤ tokens.length) : (slice tokens a b).length = b - a := by
  rw [slice, List.length_drop, List.length_take, Nat.min_eq_left hb]

theorem drop_slice (tokens : List Token) (a b i : Nat) :
    (slice tokens a b).drop i = (tokens.drop (a + i)).take (b - (a + i)) := by
  rw [slice, List.drop_drop, List.drop_take]

/-- A slice from the start of a line on has its lines where the module has them. -/
theorem beginsLine_slice (hline : beginsLine tokens a = true) (h : a + i ≤ b) :
    beginsLine (slice tokens a b) i = beginsLine tokens (a + i) := by
  have htake : (slice tokens a b).take i = (tokens.drop a).take i := by
    rw [slice, List.drop_take, List.take_take, Nat.min_eq_left (by omega)]
  rw [← Pattern.foldl_lineStartAfter_drop, hline, ← htake]
  rfl

/-- A line that stops within the slice stops there in the same place. -/
theorem lineEnd_slice (hb : b ≤ tokens.length) (hi : a + i ≤ b)
    (h : lineEnd tokens (a + i) ≤ b) :
    a + lineEnd (slice tokens a b) i = lineEnd tokens (a + i) := by
  rw [lineEnd, drop_slice, List.findIdx?_take]
  rw [lineEnd] at h ⊢
  cases hbreak : (tokens.drop (a + i)).findIdx? isLineBreak with
  | none =>
    rw [hbreak] at h
    simp only at h
    simp only [Option.bind_none, length_slice hb]
    omega
  | some offset =>
    rw [hbreak] at h
    simp only at h
    have hwithin : offset < b - (a + i) := by omega
    simp only [Option.bind_some, Option.guard, hwithin, decide_true, if_true]
    omega

end Token

/-! ### Laying elements along a part of the tokens -/

namespace Pattern

/-- Up to a token that is not blank, a part of the tokens begins like the whole. -/
theorem takeWhile_isBlank_take {ts : List Token} {l : Nat}
    (h : (ts.takeWhile isBlank).length < l) :
    (ts.take l).takeWhile isBlank = ts.takeWhile isBlank ∧
      ((ts.take l).dropWhile isBlank).head? = (ts.dropWhile isBlank).head? := by
  induction ts generalizing l with
  | nil => simp
  | cons t ts ih =>
    obtain ⟨l, rfl⟩ : ∃ k, l = k + 1 := ⟨l - 1, by omega⟩
    cases hblank : t.isBlank with
    | false => simp [hblank]
    | true =>
      rw [List.takeWhile_cons_of_pos hblank, List.length_cons] at h
      obtain ⟨htake, hhead⟩ := ih (Nat.lt_of_succ_lt_succ h)
      simp only [List.take_succ_cons, List.takeWhile_cons_of_pos hblank,
        List.dropWhile_cons_of_pos hblank, htake, hhead, and_self]

theorem dropWhile_isBlank_take {ts : List Token} {l : Nat}
    (h : l ≤ (ts.takeWhile isBlank).length) : (ts.take l).dropWhile isBlank = [] := by
  rw [List.dropWhile_eq_nil_iff]
  intro t ht
  have hsplit : ts.take l = (ts.takeWhile isBlank).take l := by
    conv_lhs => rw [← List.takeWhile_append_dropWhile (p := isBlank) (l := ts)]
    exact List.take_append_of_le_length h
  rw [hsplit] at ht
  exact List.mem_takeWhile_imp (List.mem_of_mem_take ht)

/-- Elements one of which must take a token cannot be laid along blanks. -/
theorem align_eq_none_of_blank {es : List Element} {ts : List Token}
    (hblank : ts.dropWhile isBlank = []) (hmust : es.any (!·.optional) = true) :
    align es ts = none := by
  induction es with
  | nil => cases hmust
  | cons e es ih =>
    rw [align, hblank]
    simp only [List.head?_nil, Option.any_none, Bool.false_eq_true, if_false]
    split
    next hoptional =>
      rw [List.any_cons, hoptional, Bool.not_true, Bool.false_or] at hmust
      exact ih hmust
    next => rfl

/-- Whether the last of the elements must take a token. -/
def endsTaking (es : List Element) : Bool :=
  es.getLast?.all (!·.optional)

theorem endsTaking_of_cons {e : Element} {es : List Element} (h : endsTaking (e :: es) = true) :
    endsTaking es = true := by
  cases es with
  | nil => rfl
  | cons e' es => rwa [endsTaking, List.getLast?_cons_cons] at h

theorem any_not_optional_of_endsTaking {e : Element} {es : List Element}
    (h : endsTaking (e :: es) = true) : (e :: es).any (!·.optional) = true := by
  obtain ⟨last, hlast⟩ : ∃ last, (e :: es).getLast? = some last :=
    Option.isSome_iff_exists.mp (by simp)
  rw [endsTaking, hlast, Option.all_some] at h
  exact List.any_eq_true.mpr ⟨last, List.mem_of_getLast? hlast, h⟩

/-- **Elements look no further than they reach**: if the last of them must take a token, they are
laid along a part of the tokens as along the whole, as far as the part goes. -/
theorem align_take_iff {es : List Element} (hends : endsTaking es = true) {ts : List Token}
    {l n : Nat} : align es (ts.take l) = some n ↔ align es ts = some n ∧ n ≤ l := by
  induction es generalizing ts l n with
  | nil =>
    simp only [align, Option.some.injEq]
    omega
  | cons e es ih =>
    have hends' := endsTaking_of_cons hends
    rcases Nat.lt_or_ge (ts.takeWhile isBlank).length l with hlt | hge
    · obtain ⟨htake, hhead⟩ := takeWhile_isBlank_take hlt
      rw [align, align, htake, hhead]
      split
      · rw [List.drop_take]
        simp only [Option.map_eq_some_iff, ih hends']
        constructor
        · rintro ⟨m, ⟨hm, hle⟩, rfl⟩
          exact ⟨⟨m, hm, rfl⟩, by omega⟩
        · rintro ⟨⟨m, hm, rfl⟩, hle⟩
          exact ⟨m, ⟨hm, by omega⟩, rfl⟩
      · split
        · exact ih hends'
        · simp
    · -- the part is blank, so nothing can be laid along it
      have hany := any_not_optional_of_endsTaking hends
      rw [align_eq_none_of_blank (dropWhile_isBlank_take hge) hany]
      refine iff_of_false (by simp) ?_
      rintro ⟨halign, hle⟩
      have hpos := pos_of_align halign hany
      obtain ⟨t, -, ht, hblank, -⟩ := exists_last_of_align halign hpos
      rw [isBlank_of_lt_length_takeWhile (by omega) ht] at hblank
      cases hblank

end Pattern

/-! ### Matches within a slice -/

/-- The stretch with its positions counted from `a` positions earlier on. -/
def Match.shift (a : Nat) (m : Match) : Match :=
  ⟨a + m.start, a + m.stop⟩

theorem Match.exists_shift {a : Nat} {m : Match} (hstart : a ≤ m.start) (hstop : a ≤ m.stop) :
    ∃ m' : Match, m = m'.shift a := by
  refine ⟨⟨m.start - a, m.stop - a⟩, ?_⟩
  rw [shift, Nat.add_sub_cancel' hstart, Nat.add_sub_cancel' hstop]

namespace Pattern

variable {p : Pattern} {tokens : List Token} {a b : Nat}

/-- **The anchored matches of a slice** are those of the module that lie within it. -/
theorem isMatch_slice_iff (hends : endsTaking p.elements = true)
    (hline : beginsLine tokens a = true) {m : Match} :
    p.IsMatch true (slice tokens a b) m ↔
      p.IsMatch true tokens (m.shift a) ∧ a + m.stop ≤ b := by
  -- whether the elements fit does not depend on what is behind the slice
  have halign : m.start < m.stop →
      (align p.elements ((slice tokens a b).drop m.start) = some (m.stop - m.start) ↔
        align p.elements (tokens.drop (a + m.start)) = some (m.stop - m.start) ∧
          a + m.stop ≤ b) := by
    intro hlt
    rw [drop_slice, align_take_iff hends]
    refine and_congr_right fun _ => ?_
    omega
  have hlength : a + m.stop - (a + m.start) = m.stop - m.start := by omega
  constructor
  · intro h
    have hlt := h.start_lt_stop
    obtain ⟨hwhole, hstop⟩ := (halign hlt).mp h.align_eq
    refine ⟨⟨?_, ?_, fun _ => ?_, ?_⟩, hstop⟩
    · exact Nat.add_lt_add_left hlt a
    · have hfirst := h.exists_first
      rwa [getElem?_slice (by omega)] at hfirst
    · have hbegins := h.beginsLine rfl
      rwa [beginsLine_slice hline (by omega)] at hbegins
    · rw [Match.shift, hlength]
      exact hwhole
  · rintro ⟨h, hstop⟩
    have hlt : m.start < m.stop := Nat.lt_of_add_lt_add_left h.start_lt_stop
    have hwhole := h.align_eq
    rw [Match.shift, hlength] at hwhole
    refine ⟨hlt, ?_, fun _ => ?_, (halign hlt).mpr ⟨hwhole, hstop⟩⟩
    · rw [getElem?_slice (by omega)]
      exact h.exists_first
    · rw [beginsLine_slice hline (by omega)]
      exact h.beginsLine rfl

/-- A search in a slice finds what it finds in the module, if that lies within the slice. -/
theorem next?_slice (hends : endsTaking p.elements = true) (hline : beginsLine tokens a = true)
    {position : Nat} {m : Match} (h : p.next? true tokens (a + position) = some (m.shift a))
    (hstop : a + m.stop ≤ b) : p.next? true (slice tokens a b) position = some m := by
  obtain ⟨hle, hmatch, hleast⟩ := next?_eq_some_iff.mp h
  refine next?_eq_some_iff.mpr
    ⟨Nat.le_of_add_le_add_left hle, (isMatch_slice_iff hends hline).mpr ⟨hmatch, hstop⟩, ?_⟩
  intro m' hm' hle'
  obtain ⟨hmatch', -⟩ := (isMatch_slice_iff hends hline).mp hm'
  exact Nat.le_of_add_le_add_left (hleast _ hmatch' (Nat.add_le_add_left hle' a))

end Pattern

end VbaModules

import Mathlib.Data.List.Perm.Basic
import Mathlib.Data.List.Sort
import VbaModules.Proofs.SlicedMatches
import VbaModules.Symbol.Public

/-!
# Names are found line by line

A search that looks at the starts of lines and stays within them can be made for the first lines of
a module and for the rest apart: the matches of the whole are those of the two parts
(`Pattern.lineMatches_append`). So are the names at the ends of the matches, although they are
listed in the order of their positions over all patterns together (`namesAt_lastPositions_append`).
-/

namespace VbaModules

open Token

/-- Whether the tokens are whole lines: the last one is a line break, if there is one. -/
def Token.wholeLines (tokens : List Token) : Bool :=
  tokens.getLast?.all isLineBreak

/-- Behind whole lines a line begins. -/
theorem Token.beginsLine_of_wholeLines {as : List Token} (h : wholeLines as = true)
    (bs : List Token) : beginsLine (as ++ bs) as.length = true := by
  rw [beginsLine, List.take_left]
  rcases List.eq_nil_or_concat' as with rfl | ⟨most, last, rfl⟩
  · rfl
  · have hlast : last.isLineBreak = true := by simpa [wholeLines] using h
    have hblank : last.isBlank = false := by
      rw [isLineBreak, beq_iff_eq] at hlast
      simp [isBlank, hlast]
    rw [List.foldl_concat, lineStartAfter, hblank, if_neg Bool.false_ne_true, hlast]

/-- Blanks do not change whether a line begins. -/
theorem Token.foldl_lineStartAfter_of_isBlank {gap : List Token} (h : ∀ t ∈ gap, t.isBlank = true)
    {atLineStart : Bool} : gap.foldl lineStartAfter atLineStart = atLineStart := by
  induction gap with
  | nil => rfl
  | cons t gap ih =>
    obtain ⟨ht, hgap⟩ := List.forall_mem_cons.mp h
    rw [List.foldl_cons, lineStartAfter, if_pos ht, ih hgap]

/-! ### The ends of lines -/

theorem take_findIdx? {α : Type} (p : α → Bool) (xs : List α) :
    xs.take ((xs.findIdx? p).elim xs.length (· + 1)) =
      xs.takeWhile (!p ·) ++ (xs.dropWhile (!p ·)).take 1 := by
  induction xs with
  | nil => rfl
  | cons x xs ih =>
    cases hx : p x with
    | true => simp [List.findIdx?_cons, hx]
    | false =>
      rw [List.findIdx?_cons, hx, List.takeWhile_cons_of_pos (by simp [hx]),
        List.dropWhile_cons_of_pos (by simp [hx]), List.cons_append, ← ih]
      cases xs.findIdx? p <;> simp

/-- A line is its tokens up to the line break, and the line break if there is one. -/
theorem Token.slice_lineEnd (tokens : List Token) (i : Nat) :
    slice tokens i (lineEnd tokens i) =
      (tokens.drop i).takeWhile (!·.isLineBreak) ++
        ((tokens.drop i).dropWhile (!·.isLineBreak)).take 1 := by
  have hlength : lineEnd tokens i - i =
      ((tokens.drop i).findIdx? isLineBreak).elim (tokens.drop i).length (· + 1) := by
    rw [lineEnd]
    cases (tokens.drop i).findIdx? isLineBreak with
    | none => rw [Option.elim_none, List.length_drop]
    | some offset => rw [Option.elim_some]; simp only; omega
  rw [slice, List.drop_take, hlength, take_findIdx?]

/-- The line that begins at a later token does not depend on earlier ones. -/
theorem Token.slice_lineEnd_append_right (as bs : List Token) (i : Nat) :
    slice (as ++ bs) (as.length + i) (lineEnd (as ++ bs) (as.length + i)) =
      slice bs i (lineEnd bs i) := by
  have hdrop : (as ++ bs).drop (as.length + i) = bs.drop i := by
    rw [← List.drop_drop, List.drop_left]
  rw [slice_lineEnd, slice_lineEnd, hdrop]

/-- A line of the first lines does not reach into the rest. -/
theorem Token.slice_lineEnd_append_left {as : List Token} (h : wholeLines as = true) {i : Nat}
    (hi : i < as.length) (bs : List Token) :
    slice (as ++ bs) i (lineEnd (as ++ bs) i) = slice as i (lineEnd as i) := by
  have hlast : ∃ t ∈ as.drop i, t.isLineBreak = true := by
    have hne : as.drop i ≠ [] := by simpa using hi
    refine ⟨(as.drop i).getLast hne, List.getLast_mem hne, ?_⟩
    rw [wholeLines, List.getLast?_eq_some_getLast (List.ne_nil_of_length_pos (by omega))] at h
    rw [List.getLast_drop]
    exact h
  -- the line has its break before the first lines end
  have hbreak : (as.drop i).dropWhile (!·.isLineBreak) ≠ [] := by
    obtain ⟨t, ht, hbreak⟩ := hlast
    intro hnil
    simpa [hbreak] using List.dropWhile_eq_nil_iff.mp hnil t ht
  have hlength : ((as.drop i).takeWhile (!·.isLineBreak)).length ≠ (as.drop i).length := by
    intro hlength
    have hsplit := congrArg List.length
      (List.takeWhile_append_dropWhile (p := (!·.isLineBreak)) (l := as.drop i))
    rw [List.length_append, hlength] at hsplit
    exact hbreak (List.eq_nil_of_length_eq_zero (by omega))
  obtain ⟨u, us, hdrop⟩ := List.exists_cons_of_ne_nil hbreak
  rw [slice_lineEnd, slice_lineEnd, List.drop_append_of_le_length hi.le, List.takeWhile_append,
    if_neg hlength, List.dropWhile_append, hdrop]
  rfl

/-! ### Matches -/

namespace Pattern

variable {p : Pattern} {as bs : List Token}

/-- Matches in the first lines are those of the whole that end in them. -/
theorem isMatch_left_iff (hends : endsTaking p.elements = true) {m : Match} :
    p.IsMatch true as m ↔ p.IsMatch true (as ++ bs) m ∧ m.stop ≤ as.length := by
  have hslice : slice (as ++ bs) 0 as.length = as := by simp [slice]
  have hiff : p.IsMatch true (slice (as ++ bs) 0 as.length) m ↔
      p.IsMatch true (as ++ bs) (m.shift 0) ∧ 0 + m.stop ≤ as.length :=
    isMatch_slice_iff hends rfl
  simpa only [hslice, Match.shift, Nat.zero_add] using hiff

/-- Matches in later lines are those of the whole, further on. -/
theorem isMatch_right_iff (hends : endsTaking p.elements = true) (h : wholeLines as = true)
    {m : Match} : p.IsMatch true bs m ↔ p.IsMatch true (as ++ bs) (m.shift as.length) := by
  have hslice : slice (as ++ bs) as.length (as ++ bs).length = bs := by
    rw [slice, List.take_length, List.drop_left]
  have hiff : p.IsMatch true (slice (as ++ bs) as.length (as ++ bs).length) m ↔
      p.IsMatch true (as ++ bs) (m.shift as.length) ∧
        as.length + m.stop ≤ (as ++ bs).length :=
    isMatch_slice_iff hends (beginsLine_of_wholeLines h bs)
  rw [hslice] at hiff
  exact ⟨fun hm => (hiff.mp hm).1, fun hm => hiff.mpr ⟨hm, hm.stop_le⟩⟩

/-- No match reaches from the first lines into the rest. -/
theorem IsMatch.stop_le_of_lt (hstays : p.staysInLine = true) (h : wholeLines as = true)
    {m : Match} (hm : p.IsMatch true (as ++ bs) m) (hlt : m.start < as.length) :
    m.stop ≤ as.length := by
  by_contra hover
  rcases List.eq_nil_or_concat' as with rfl | ⟨most, last, rfl⟩
  · exact absurd hlt (Nat.not_lt_zero _)
  · -- the last line break of the first lines would belong to the match
    have hlast : last.isLineBreak = true := by simpa [wholeLines] using h
    have hget : (most ++ [last] ++ bs)[most.length]? = some last := by simp
    rw [List.length_append, List.length_singleton] at hlt hover
    rw [hm.isLineBreak_eq_false hstays (by omega) (by omega) hget] at hlast
    cases hlast

/-- **A match lies in the first lines or in the rest.** -/
theorem isMatch_append_iff (hstays : p.staysInLine = true) (hends : endsTaking p.elements = true)
    (h : wholeLines as = true) {m : Match} :
    p.IsMatch true (as ++ bs) m ↔
      p.IsMatch true as m ∨ ∃ m', p.IsMatch true bs m' ∧ m'.shift as.length = m := by
  constructor
  · intro hm
    rcases Nat.lt_or_ge m.start as.length with hlt | hge
    · exact .inl ((isMatch_left_iff hends).mpr ⟨hm, hm.stop_le_of_lt hstays h hlt⟩)
    · obtain ⟨m', rfl⟩ := Match.exists_shift hge (hge.trans hm.start_lt_stop.le)
      exact .inr ⟨m', (isMatch_right_iff hends h).mpr hm, rfl⟩
  · rintro (hm | ⟨m', hm', rfl⟩)
    · exact ((isMatch_left_iff hends).mp hm).1
    · exact (isMatch_right_iff hends h).mp hm'

/-- **A search goes line by line**: the matches in the first lines come first, then those in the
rest. -/
theorem lineMatches_append (hstays : p.staysInLine = true) (hends : endsTaking p.elements = true)
    (h : wholeLines as = true) (bs : List Token) :
    p.lineMatches (as ++ bs) =
      p.lineMatches as ++ (p.lineMatches bs).map (Match.shift as.length) := by
  have : Std.Irrefl fun m m' : Match => m.start < m'.start := ⟨fun m => Nat.lt_irrefl m.start⟩
  have : Std.Antisymm fun m m' : Match => m.start < m'.start :=
    ⟨fun m m' hlt hgt => absurd hgt (Nat.lt_asymm hlt)⟩
  have hright : ((p.lineMatches bs).map (Match.shift as.length)).Pairwise
      fun m m' => m.start < m'.start :=
    List.pairwise_map.mpr ((pairwise_matchesFrom p true bs 0).imp fun hlt =>
      Nat.add_lt_add_left hlt _)
  have hboth : (p.lineMatches as ++ (p.lineMatches bs).map (Match.shift as.length)).Pairwise
      fun m m' => m.start < m'.start := by
    refine List.pairwise_append.mpr ⟨pairwise_matchesFrom p true as 0, hright, ?_⟩
    intro m hm m' hm'
    obtain ⟨m'', -, rfl⟩ := List.mem_map.mp hm'
    have hmatch := isMatch_of_mem_matchesFrom hm
    exact (hmatch.start_lt_stop.trans_le hmatch.stop_le).trans_le (Nat.le_add_right _ _)
  refine (pairwise_matchesFrom p true (as ++ bs) 0).eq_of_mem_iff hboth fun m => ?_
  change m ∈ p.lineMatches (as ++ bs) ↔ _
  simp only [List.mem_append, List.mem_map, mem_lineMatches_iff hstays,
    isMatch_append_iff hstays hends h]

end Pattern

/-! ### Names at the ends of matches -/

section Names

variable {as bs : List Token}

theorem nameAt?_append_left {i : Nat} (h : i < as.length) (bs : List Token) :
    nameAt? (as ++ bs) i = nameAt? as i := by
  rw [nameAt?, nameAt?, List.getElem?_append_left h]

theorem nameAt?_append_right (as bs : List Token) (i : Nat) :
    nameAt? (as ++ bs) (as.length + i) = nameAt? bs i := by
  rw [nameAt?, nameAt?, List.getElem?_append_right (Nat.le_add_right _ _), Nat.add_sub_cancel_left]

/-- At positions in order names are read one by one. -/
theorem namesAt_of_pairwise (tokens : List Token) {positions : List Nat}
    (h : positions.Pairwise (· ≤ ·)) :
    namesAt tokens positions = positions.filterMap (nameAt? tokens) := by
  rw [namesAt, List.mergeSort_eq_self (· ≤ ·) h]

theorem namesAt_nil (tokens : List Token) : namesAt tokens [] = [] :=
  namesAt_of_pairwise tokens .nil

/-- Names are listed by position, so those at earlier positions come first. -/
theorem namesAt_append {positions left right : List Nat}
    (hperm : positions.Perm (left ++ right.map (as.length + ·)))
    (hleft : ∀ i ∈ left, i < as.length) :
    namesAt (as ++ bs) positions = namesAt as left ++ namesAt bs right := by
  have hsort : positions.mergeSort (· ≤ ·) =
      left.mergeSort (· ≤ ·) ++ (right.mergeSort (· ≤ ·)).map (as.length + ·) := by
    refine List.Perm.eq_of_sortedLE List.sortedLE_mergeSort ?_ ?_
    · refine List.Pairwise.sortedLE (List.pairwise_append.mpr ⟨?_, ?_, ?_⟩)
      · exact List.sortedLE_mergeSort.pairwise
      · exact List.pairwise_map.mpr
          (List.sortedLE_mergeSort.pairwise.imp fun hle => Nat.add_le_add_left hle _)
      · intro i hi j hj
        obtain ⟨k, -, rfl⟩ := List.mem_map.mp hj
        exact (hleft i (List.mem_mergeSort.mp hi)).le.trans (Nat.le_add_right _ _)
    · refine (List.mergeSort_perm _ _).trans (hperm.trans ?_)
      exact ((List.mergeSort_perm _ _).symm).append ((List.mergeSort_perm _ _).symm.map _)
  rw [namesAt, hsort, List.filterMap_append, List.filterMap_map, namesAt, namesAt]
  congr 1
  · exact List.filterMap_congr fun i hi =>
      nameAt?_append_left (hleft i (List.mem_mergeSort.mp hi)) bs
  · exact List.filterMap_congr fun i _ => nameAt?_append_right as bs i

/-- Matches end in the tokens. -/
theorem lt_length_of_mem_lastPositions {patterns : List Pattern} {tokens : List Token} {i : Nat}
    (h : i ∈ lastPositions patterns tokens) : i < tokens.length := by
  obtain ⟨p, -, hi⟩ := List.mem_flatMap.mp h
  obtain ⟨m, hm, rfl⟩ := List.mem_map.mp hi
  have hmatch := Pattern.isMatch_of_mem_matchesFrom hm
  have hlt := hmatch.start_lt_stop
  have hle := hmatch.stop_le
  omega

/-- The positions in the first lines and those in the rest are all positions, but over several
patterns they are in another order. -/
theorem lastPositions_append_perm {patterns : List Pattern}
    (hstays : patterns.all Pattern.staysInLine = true)
    (hends : patterns.all (Pattern.endsTaking ·.elements) = true) (h : wholeLines as = true) :
    (lastPositions patterns (as ++ bs)).Perm
      (lastPositions patterns as ++ (lastPositions patterns bs).map (as.length + ·)) := by
  have hpattern : ∀ p ∈ patterns, ((p.lineMatches (as ++ bs)).map fun m => m.stop - 1) =
      ((p.lineMatches as).map fun m => m.stop - 1) ++
        ((p.lineMatches bs).map fun m => m.stop - 1).map (as.length + ·) := by
    intro p hp
    rw [p.lineMatches_append (List.all_eq_true.mp hstays p hp) (List.all_eq_true.mp hends p hp) h,
      List.map_append, List.map_map, List.map_map]
    congr 1
    refine List.map_congr_left fun m hm => ?_
    have hpos := (Pattern.isMatch_of_mem_matchesFrom hm).start_lt_stop
    simp only [Function.comp_apply, Match.shift]
    omega
  rw [lastPositions, lastPositions, lastPositions, List.map_flatMap,
    List.flatMap_congr hpattern]
  exact (List.flatMap_append_perm _ _ _).symm

/-- **Defined names are found line by line.** -/
theorem namesAt_lastPositions_append {patterns : List Pattern}
    (hstays : patterns.all Pattern.staysInLine = true)
    (hends : patterns.all (Pattern.endsTaking ·.elements) = true) (h : wholeLines as = true) :
    namesAt (as ++ bs) (lastPositions patterns (as ++ bs)) =
      namesAt as (lastPositions patterns as) ++ namesAt bs (lastPositions patterns bs) :=
  namesAt_append (lastPositions_append_perm hstays hends h)
    fun _ => lt_length_of_mem_lastPositions

theorem publicNames_nil : publicNames [] = [] := by
  have hnone : lastPositions publicDefinitions [] = [] :=
    List.eq_nil_iff_forall_not_mem.mpr fun i hi =>
      Nat.not_lt_zero i (lt_length_of_mem_lastPositions hi)
  rw [publicNames, hnone, namesAt_nil]

/-- **Public names are found line by line.** -/
theorem publicNames_append (h : wholeLines as = true) (bs : List Token) :
    publicNames (as ++ bs) = publicNames as ++ publicNames bs :=
  namesAt_lastPositions_append (by decide) (by decide) h

end Names

end VbaModules

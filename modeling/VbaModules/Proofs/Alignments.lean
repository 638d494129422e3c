import Mathlib.Data.List.ReduceOption
import Mathlib.Order.Bounds.Defs
import VbaModules.Proofs.Matches

/-!
# Matching a pattern is finding its longest alignment

What it means that a pattern describes some tokens can be told without the matcher. An alignment
gives some of the elements a place, at least one and every one that must have one. The places
increase with the elements, each element accepts the token at its place, and what is passed over on
the way is blank (`Pattern.Lays`, `Pattern.AlignsTo`).

The matcher goes along the tokens once, and an optional element takes a token whenever it can. What
it finds is an alignment. That it finds one whenever there is one, and then the longest, depends on
the tokens: none of them may be accepted by an optional element and by a later one as well
(`Pattern.TellsApart`). Then a token that an optional element takes is of no use to the elements
after it, and taking it loses nothing (`Pattern.endAt?_eq_longest`).
-/

namespace VbaModules

open Token

/-! ### The first token of code -/

/-- The token at the position is the first one from `start` on that is not blank. -/
structure Token.FirstCode (tokens : List Token) (start i : Nat) (t : Token) : Prop where
  start_le : start ≤ i
  getElem?_eq : tokens[i]? = some t
  isBlank_eq : t.isBlank = false
  isBlank_of_lt : ∀ j u, start ≤ j → j < i → tokens[j]? = some u → u.isBlank = true

namespace Token

variable {tokens : List Token} {start i j : Nat} {t u : Token}

theorem FirstCode.unique (h : FirstCode tokens start i t) (h' : FirstCode tokens start j u) :
    i = j ∧ t = u := by
  have hij : i = j := by
    rcases Nat.lt_trichotomy i j with hlt | heq | hlt
    · have hblank := h'.isBlank_of_lt i t h.start_le hlt h.getElem?_eq
      rw [h.isBlank_eq] at hblank
      cases hblank
    · exact heq
    · have hblank := h.isBlank_of_lt j u h'.start_le hlt h'.getElem?_eq
      rw [h'.isBlank_eq] at hblank
      cases hblank
  have hget := h.getElem?_eq
  rw [hij, h'.getElem?_eq] at hget
  exact ⟨hij, (Option.some.inj hget).symm⟩

/-- The first token of code is the one that a list begins with after its blanks. -/
theorem firstCode_of_head?_dropWhile (h : ((tokens.drop start).dropWhile isBlank).head? = some t) :
    FirstCode tokens start (start + ((tokens.drop start).takeWhile isBlank).length) t where
  start_le := Nat.le_add_right _ _
  getElem?_eq := by rw [← List.getElem?_drop, getElem?_length_takeWhile, h]
  isBlank_eq := isBlank_eq_false_of_head?_dropWhile h
  isBlank_of_lt j u hj hlt hu := by
    have hget : (tokens.drop start)[j - start]? = some u := by
      rw [List.getElem?_drop, Nat.add_sub_cancel' hj, hu]
    exact isBlank_of_lt_length_takeWhile (by omega) hget

theorem FirstCode.head?_dropWhile (h : FirstCode tokens start i t) :
    ((tokens.drop start).dropWhile isBlank).head? = some t ∧
      start + ((tokens.drop start).takeWhile isBlank).length = i := by
  cases hhead : ((tokens.drop start).dropWhile isBlank).head? with
  | none =>
    -- there would be blanks only
    have hblank : t.isBlank = true := by
      refine List.dropWhile_eq_nil_iff.mp (List.head?_eq_none_iff.mp hhead) t ?_
      refine List.mem_of_getElem? (i := i - start) ?_
      rw [List.getElem?_drop, Nat.add_sub_cancel' h.start_le, h.getElem?_eq]
    rw [h.isBlank_eq] at hblank
    cases hblank
  | some u =>
    obtain ⟨hi, rfl⟩ := h.unique (firstCode_of_head?_dropWhile hhead)
    exact ⟨rfl, hi.symm⟩

end Token

/-! ### Alignments -/

/-- The element is **laid** on a token that is not blank and that it accepts. Only an optional
element may be laid on none. -/
def Element.LaidAt (tokens : List Token) (e : Element) : Option Nat → Prop
  | some i => ∃ t, tokens[i]? = some t ∧ t.isBlank = false ∧ e.accepts t = true
  | none => e.optional = true

namespace Pattern

/-- The elements are **laid along** the tokens from `start` on, each at its place if it has one: the
places increase, and from `start` to the last of them all other tokens are blank. -/
structure Lays (tokens : List Token) (start : Nat) (es : List Element)
    (places : List (Option Nat)) : Prop where
  laidAt : List.Forall₂ (Element.LaidAt tokens) es places
  increasing : places.reduceOption.Pairwise (· < ·)
  start_le : ∀ i, some i ∈ places → start ≤ i
  isBlank_of_lt : ∀ i j t, start ≤ i → i < j → some j ∈ places → some i ∉ places →
    tokens[i]? = some t → t.isBlank = true

/-- The position just past the last place, if there is one. -/
def stopOf? (places : List (Option Nat)) : Option Nat :=
  places.reduceOption.getLast?.map (· + 1)

/-- The pattern has an **alignment** that begins at `start` or later and stops at `stop`. -/
def AlignsTo (p : Pattern) (tokens : List Token) (start stop : Nat) : Prop :=
  ∃ places, Lays tokens start p.elements places ∧ stopOf? places = some stop

/-- No token is accepted by an optional element and by a later one. -/
def TellsApart (p : Pattern) (tokens : List Token) : Prop :=
  p.elements.Pairwise fun e e' => e.optional = true →
    ∀ t ∈ tokens, ¬(e.accepts t = true ∧ e'.accepts t = true)

instance (p : Pattern) (tokens : List Token) : Decidable (p.TellsApart tokens) :=
  inferInstanceAs (Decidable (p.elements.Pairwise _))

/-- Where the elements reach to: just past the last place, or to the start if there is none. -/
def reach (start : Nat) (places : List (Option Nat)) : Nat :=
  (stopOf? places).getD start

section Places

variable {tokens : List Token} {start stop i : Nat} {e : Element} {es : List Element}
  {places : List (Option Nat)}

theorem reach_cons_none (start : Nat) (places : List (Option Nat)) :
    reach start (none :: places) = reach start places := by
  rw [reach, reach, stopOf?, stopOf?, List.reduceOption_cons_of_none]

theorem reach_cons_some (start i : Nat) (places : List (Option Nat)) :
    reach start (some i :: places) = reach (i + 1) places := by
  rw [reach, reach, stopOf?, stopOf?, List.reduceOption_cons_of_some, List.getLast?_cons]
  cases places.reduceOption.getLast? <;> rfl

theorem lays_nil (tokens : List Token) (start : Nat) : Lays tokens start [] [] where
  laidAt := .nil
  increasing := .nil
  start_le := by simp
  isBlank_of_lt := by simp

theorem lays_cons_none_iff :
    Lays tokens start (e :: es) (none :: places) ↔
      e.optional = true ∧ Lays tokens start es places := by
  have hmem : ∀ i, some i ∈ none :: places ↔ some i ∈ places := by simp
  constructor
  · intro h
    obtain ⟨he, hes⟩ := List.forall₂_cons.mp h.laidAt
    have hincreasing := h.increasing
    rw [List.reduceOption_cons_of_none] at hincreasing
    exact ⟨he, hes, hincreasing, by simpa only [hmem] using h.start_le,
      by simpa only [hmem] using h.isBlank_of_lt⟩
  · rintro ⟨he, h⟩
    refine ⟨.cons he h.laidAt, ?_, by simpa only [hmem] using h.start_le,
      by simpa only [hmem] using h.isBlank_of_lt⟩
    rw [List.reduceOption_cons_of_none]
    exact h.increasing

/-- The first element that has a place takes the first token of code. -/
theorem lays_cons_some_iff :
    Lays tokens start (e :: es) (some i :: places) ↔
      ∃ t, FirstCode tokens start i t ∧ e.accepts t = true ∧ Lays tokens (i + 1) es places := by
  have hmem : ∀ j, some j ∈ some i :: places ↔ j = i ∨ some j ∈ places := by simp
  constructor
  · intro h
    obtain ⟨⟨t, ht, hblank, hacc⟩, hes⟩ := List.forall₂_cons.mp h.laidAt
    have hincreasing := h.increasing
    rw [List.reduceOption_cons_of_some, List.pairwise_cons] at hincreasing
    -- the other places come later, so nothing before the first is taken
    have hlater : ∀ j, some j ∈ places → i < j := fun j hj =>
      hincreasing.1 j (List.reduceOption_mem_iff.mpr hj)
    have hstart := h.start_le i ((hmem i).mpr (.inl rfl))
    refine ⟨t, ⟨hstart, ht, hblank, fun j u hj hji hu => ?_⟩, hacc,
      hes, hincreasing.2, hlater, fun j k u hj hjk hk hnot hu => ?_⟩
    · refine h.isBlank_of_lt j i u hj hji ((hmem i).mpr (.inl rfl)) ?_ hu
      rw [hmem, not_or]
      exact ⟨hji.ne, fun hin => (hlater j hin).not_gt hji⟩
    · refine h.isBlank_of_lt j k u (by omega) hjk ((hmem k).mpr (.inr hk)) ?_ hu
      rw [hmem, not_or]
      exact ⟨by omega, hnot⟩
  · rintro ⟨t, hfirst, hacc, h⟩
    refine ⟨.cons ⟨t, hfirst.getElem?_eq, hfirst.isBlank_eq, hacc⟩ h.laidAt, ?_, fun j hj => ?_,
      fun j k u hj hjk hk hnot hu => ?_⟩
    · rw [List.reduceOption_cons_of_some, List.pairwise_cons]
      exact ⟨fun j hj => h.start_le j (List.reduceOption_mem_iff.mp hj), h.increasing⟩
    · rcases (hmem j).mp hj with rfl | hin
      · exact hfirst.start_le
      · exact hfirst.start_le.trans (Nat.le_of_succ_le (h.start_le j hin))
    · rw [hmem, not_or] at hnot
      rcases Nat.lt_or_ge j i with hji | hij
      · exact hfirst.isBlank_of_lt j u hj hji hu
      · have hin : some k ∈ places := ((hmem k).mp hk).resolve_left (by omega)
        exact h.isBlank_of_lt j k u (by omega) hjk hin hnot.2 hu

/-- If some element has a place, the elements reach beyond the start. -/
theorem Lays.stopOf?_eq_some_iff (h : Lays tokens start es places) :
    stopOf? places = some stop ↔ reach start places = stop ∧ start < stop := by
  rw [reach, stopOf?]
  cases hlast : places.reduceOption.getLast? with
  | none =>
    simp only [Option.map_none, Option.getD_none, reduceCtorEq, false_iff]
    omega
  | some last =>
    have hle := h.start_le last
      (List.reduceOption_mem_iff.mp (List.mem_of_getLast? hlast))
    simp only [Option.map_some, Option.getD_some, Option.some.injEq]
    omega

end Places

/-! ### What the matcher finds -/

section Matcher

variable {p : Pattern} {tokens : List Token} {start stop i n : Nat} {t : Token} {e : Element}
  {es : List Element} {places : List (Option Nat)}

theorem align_cons_of_firstCode (h : FirstCode tokens start i t) :
    align (e :: es) (tokens.drop start) =
      if e.accepts t then (align es (tokens.drop (i + 1))).map (i + 1 - start + ·)
      else if e.optional then align es (tokens.drop start) else none := by
  obtain ⟨hhead, hi⟩ := h.head?_dropWhile
  have hgap : ((tokens.drop start).takeWhile isBlank).length + 1 = i + 1 - start := by omega
  have hrest : start + (i + 1 - start) = i + 1 := Nat.add_sub_cancel' (by omega)
  rw [align, hhead, hgap, List.drop_drop, hrest, Option.any_some]

theorem align_cons_of_blanks (h : ∀ i t, ¬FirstCode tokens start i t) :
    align (e :: es) (tokens.drop start) =
      if e.optional then align es (tokens.drop start) else none := by
  have hhead : ((tokens.drop start).dropWhile isBlank).head? = none := by
    cases hhead : ((tokens.drop start).dropWhile isBlank).head? with
    | none => rfl
    | some t => exact absurd (firstCode_of_head?_dropWhile hhead) (h _ t)
  rw [align, hhead, Option.any_none, if_neg Bool.false_ne_true]

/-- **What the matcher finds is an alignment.** -/
theorem exists_lays_of_align (h : align es (tokens.drop start) = some n) :
    ∃ places, Lays tokens start es places ∧ reach start places = start + n := by
  induction es generalizing start n with
  | nil =>
    obtain rfl : 0 = n := by simpa [align] using h
    exact ⟨[], lays_nil tokens start, rfl⟩
  | cons e es ih =>
    have hskip : e.optional = true → align es (tokens.drop start) = some n →
        ∃ places, Lays tokens start (e :: es) places ∧ reach start places = start + n := by
      intro hoptional hes
      obtain ⟨places, hlays, hreach⟩ := ih hes
      exact ⟨none :: places, lays_cons_none_iff.mpr ⟨hoptional, hlays⟩,
        (reach_cons_none start places).trans hreach⟩
    -- an element has a place only if code is left
    by_cases hcode : ∃ i t, FirstCode tokens start i t
    · obtain ⟨i, t, hfirst⟩ := hcode
      rw [align_cons_of_firstCode hfirst] at h
      split at h
      next hacc =>
        obtain ⟨m, hm, rfl⟩ := Option.map_eq_some_iff.mp h
        obtain ⟨places, hlays, hreach⟩ := ih hm
        refine ⟨some i :: places, lays_cons_some_iff.mpr ⟨t, hfirst, hacc, hlays⟩, ?_⟩
        have hstart := hfirst.start_le
        rw [reach_cons_some, hreach]
        omega
      next =>
        split at h
        next hoptional => exact hskip hoptional h
        next => cases h
    · rw [align_cons_of_blanks fun i t hfirst => hcode ⟨i, t, hfirst⟩] at h
      split at h
      next hoptional => exact hskip hoptional h
      next => cases h

/-- Elements that do not accept the first token of code have no places, so they can be laid from
anywhere on. -/
theorem Lays.of_firstCode (h : Lays tokens start es places) (hfirst : FirstCode tokens start i t)
    (hacc : ∀ e ∈ es, e.accepts t = false) (start' : Nat) :
    Lays tokens start' es places ∧ reach start places = start ∧ reach start' places = start' := by
  induction es generalizing places with
  | nil =>
    obtain rfl := List.forall₂_nil_left_iff.mp h.laidAt
    exact ⟨lays_nil tokens start', rfl, rfl⟩
  | cons e es ih =>
    obtain ⟨he, hes⟩ := List.forall_mem_cons.mp hacc
    obtain ⟨place, places, -, -, rfl⟩ := List.forall₂_cons_left_iff.mp h.laidAt
    cases place with
    | some j =>
      obtain ⟨u, hu, haccu, -⟩ := lays_cons_some_iff.mp h
      rw [← (hfirst.unique hu).2, he] at haccu
      cases haccu
    | none =>
      obtain ⟨hoptional, hlays⟩ := lays_cons_none_iff.mp h
      rw [reach_cons_none, reach_cons_none, lays_cons_none_iff]
      exact ⟨⟨hoptional, (ih hlays hes).1⟩, (ih hlays hes).2⟩

/-- **The matcher goes at least as far as any alignment**, if no token is accepted by an optional
element and by a later one. -/
theorem exists_align_of_lays
    (hapart : es.Pairwise fun e e' => e.optional = true →
      ∀ t ∈ tokens, ¬(e.accepts t = true ∧ e'.accepts t = true))
    (h : Lays tokens start es places) :
    ∃ n, align es (tokens.drop start) = some n ∧ reach start places ≤ start + n := by
  induction es generalizing start places with
  | nil =>
    obtain rfl := List.forall₂_nil_left_iff.mp h.laidAt
    exact ⟨0, rfl, le_rfl⟩
  | cons e es ih =>
    obtain ⟨he, hes⟩ := List.pairwise_cons.mp hapart
    obtain ⟨place, places, -, -, rfl⟩ := List.forall₂_cons_left_iff.mp h.laidAt
    cases place with
    | some i =>
      obtain ⟨t, hfirst, hacc, hlays⟩ := lays_cons_some_iff.mp h
      obtain ⟨m, hm, hle⟩ := ih hes hlays
      have hstart := hfirst.start_le
      rw [align_cons_of_firstCode hfirst, if_pos hacc, hm, reach_cons_some]
      exact ⟨i + 1 - start + m, rfl, by omega⟩
    | none =>
      obtain ⟨hoptional, hlays⟩ := lays_cons_none_iff.mp h
      obtain ⟨n, hn, hle⟩ := ih hes hlays
      rw [reach_cons_none]
      by_cases hcode : ∃ i t, FirstCode tokens start i t
      · obtain ⟨i, t, hfirst⟩ := hcode
        rw [align_cons_of_firstCode hfirst, if_pos hoptional]
        split
        next hacc =>
          -- the element could have taken the token; then no later one can, and the alignment stops
          have hlater : ∀ e' ∈ es, e'.accepts t = false := fun e' he' =>
            Bool.eq_false_iff.mpr fun hacc' =>
              he e' he' hoptional t (List.mem_of_getElem? hfirst.getElem?_eq) ⟨hacc, hacc'⟩
          obtain ⟨hlays', hreach, -⟩ := hlays.of_firstCode hfirst hlater (i + 1)
          obtain ⟨m, hm, -⟩ := ih hes hlays'
          rw [hm, hreach]
          exact ⟨_, rfl, Nat.le_add_right _ _⟩
        next => exact ⟨n, hn, hle⟩
      · rw [align_cons_of_blanks fun i t hfirst => hcode ⟨i, t, hfirst⟩, if_pos hoptional]
        exact ⟨n, hn, hle⟩

theorem endAt?_eq_some_iff :
    p.endAt? tokens start = some stop ↔
      ∃ n, align p.elements (tokens.drop start) = some n ∧ 0 < n ∧ start + n = stop := by
  rw [endAt?, Option.map_eq_some_iff]
  simp only [matchLength?_eq_some_iff, and_assoc]

theorem alignsTo_of_endAt? (h : p.endAt? tokens start = some stop) :
    p.AlignsTo tokens start stop := by
  obtain ⟨n, hn, hpos, rfl⟩ := endAt?_eq_some_iff.mp h
  obtain ⟨places, hlays, hreach⟩ := exists_lays_of_align hn
  exact ⟨places, hlays, hlays.stopOf?_eq_some_iff.mpr ⟨hreach, by omega⟩⟩

theorem AlignsTo.exists_endAt? (h : p.AlignsTo tokens start stop) (hapart : p.TellsApart tokens) :
    ∃ last, p.endAt? tokens start = some last ∧ stop ≤ last := by
  obtain ⟨places, hlays, hstop⟩ := h
  obtain ⟨hreach, hlt⟩ := hlays.stopOf?_eq_some_iff.mp hstop
  obtain ⟨n, hn, hle⟩ := exists_align_of_lays hapart hlays
  exact ⟨start + n, endAt?_eq_some_iff.mpr ⟨n, hn, by omega, rfl⟩, hreach ▸ hle⟩

/-- **Matching is sound, and it is maximal where the elements tell the tokens apart.** Where the
matcher stops, an alignment stops. If no token is accepted by an optional element and by a later
one, the matcher stops where the longest alignment does, and it finds nothing only if there is no
alignment. -/
theorem endAt?_eq_longest (p : Pattern) (tokens : List Token) (start : Nat) :
    (∀ stop, p.endAt? tokens start = some stop → p.AlignsTo tokens start stop) ∧
      (p.TellsApart tokens →
        (∀ stop, p.endAt? tokens start = some stop ↔
          IsGreatest {stop | p.AlignsTo tokens start stop} stop) ∧
        (p.endAt? tokens start = none ↔ ∀ stop, ¬p.AlignsTo tokens start stop)) := by
  refine ⟨fun stop => alignsTo_of_endAt?, fun hapart => ⟨fun stop => ⟨fun h => ?_, ?_⟩, ?_⟩⟩
  · refine ⟨alignsTo_of_endAt? h, fun other hother => ?_⟩
    obtain ⟨last, hlast, hle⟩ := AlignsTo.exists_endAt? hother hapart
    rw [h] at hlast
    exact Option.some.inj hlast ▸ hle
  · rintro ⟨hstop, hgreatest⟩
    obtain ⟨last, hlast, hle⟩ := AlignsTo.exists_endAt? hstop hapart
    rw [hlast, hle.antisymm (hgreatest (alignsTo_of_endAt? hlast))]
  · constructor
    · intro hnone stop hstop
      obtain ⟨last, hlast, -⟩ := hstop.exists_endAt? hapart
      rw [hnone] at hlast
      cases hlast
    · intro hnot
      cases hend : p.endAt? tokens start with
      | none => rfl
      | some stop => exact absurd (alignsTo_of_endAt? hend) (hnot stop)

/-- A scope, a blank and a keyword, then a blank and a name. -/
def scopedHeader : List Token :=
  [⟨.reserved, "Private"⟩, ⟨.blank, "  "⟩, ⟨.reserved, "Function"⟩, ⟨.blank, " "⟩, ⟨.name, "Size"⟩]

/-- The longest alignment takes the scope and the keyword; behind the keyword there is none. -/
theorem longest_scopedHeader :
    (Pattern.parse "[private|public] sub|function").TellsApart scopedHeader ∧
      IsGreatest
        {stop | (Pattern.parse "[private|public] sub|function").AlignsTo scopedHeader 0 stop} 3 ∧
      ∀ stop, ¬(Pattern.parse "[private|public] sub|function").AlignsTo scopedHeader 3 stop := by
  have hapart : (Pattern.parse "[private|public] sub|function").TellsApart scopedHeader := by decide
  exact ⟨hapart, (((endAt?_eq_longest _ _ 0).2 hapart).1 3).mp (by decide),
    (((endAt?_eq_longest _ _ 3).2 hapart).2).mp (by decide)⟩

-- an optional element that takes the only token leaves none to the element after it
example : (Pattern.parse "[sub] sub").endAt? [⟨.reserved, "Sub"⟩] 0 = none := by decide

end Matcher

end Pattern

end VbaModules

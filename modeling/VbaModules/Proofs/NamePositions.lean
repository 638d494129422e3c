import VbaModules.Proofs.Matches
import VbaModules.Proofs.References

/-!
# Where names are defined

A definition is found by a pattern that leads up to its name. So the token before the name is blank
or one that the pattern takes before it, and in a declaration list it may also be a comma. Every
other token is ruled out there: a dot, which would make the name a member of an object, as well as
the quote of a naming line (`previous?_ne_of_mem_privatePositions`).
-/

namespace VbaModules

open Token Exports

/-! ### Names at positions -/

theorem nameAt?_eq_some_iff {tokens : List Token} {i : Nat} {name : String} :
    nameAt? tokens i = some name ↔
      ∃ t, tokens[i]? = some t ∧ t.isName = true ∧ t.text = name := by
  simp [nameAt?, Option.filter_eq_some_iff, and_assoc]

theorem mem_namesAt_iff {tokens : List Token} {positions : List Nat} {name : String} :
    name ∈ namesAt tokens positions ↔ ∃ i ∈ positions, nameAt? tokens i = some name := by
  rw [namesAt, List.mem_filterMap]
  simp only [List.mem_mergeSort]

/-- A private name is the text of a name token where a private symbol is defined. -/
theorem exists_position_of_mem_privateNames {tokens : List Token} {s : String}
    (h : s ∈ privateNames tokens) :
    ∃ i ∈ privatePositions tokens, ∃ t, tokens[i]? = some t ∧ t.isName = true ∧ t.text = s := by
  obtain ⟨i, hi, hname⟩ := mem_namesAt_iff.mp (mem_of_mem_firstSpellings h)
  exact ⟨i, hi, nameAt?_eq_some_iff.mp hname⟩

/-! ### What stands before a name -/

/-- Whether the pattern leads up to a name and past a token: its last element takes any token, one
of those before must take a token too, and none of those takes this one. -/
def Pattern.leadsPast (u : Token) (p : Pattern) : Bool :=
  p.elements.getLast? == some .anything && p.elements.dropLast.any (!·.optional) &&
    p.elements.dropLast.all (!·.accepts u)

variable {u : Token}

namespace Pattern

/-- Before the token that the last element takes stands a blank or a token taken before. -/
theorem exists_previous_of_align (hblank : u.isBlank = false) {es : List Element} {ts : List Token}
    {n : Nat} (h : align (es ++ [.anything]) ts = some n) (hmust : es.any (!·.optional) = true)
    (hpast : es.all (!·.accepts u) = true) : ∃ i t, n = i + 2 ∧ ts[i]? = some t ∧ t ≠ u := by
  rw [align_append, Option.bind_eq_some_iff] at h
  obtain ⟨k, hk, hlast⟩ := h
  obtain ⟨j, hj, rfl⟩ := Option.map_eq_some_iff.mp hlast
  have hpos := pos_of_align hk hmust
  obtain rfl := align_anything hj
  rcases hgap : (ts.drop k).takeWhile isBlank with _ | ⟨b, gap⟩
  · -- no blank before the name, so the token before it is taken by an earlier element
    obtain ⟨t, e, ht, -, he, hacc⟩ := exists_last_of_align hk hpos
    refine ⟨k - 1, t, by simp only [List.length_nil]; omega, ht, ?_⟩
    rintro rfl
    have hnot := List.all_eq_true.mp hpast e he
    rw [hacc] at hnot
    cases hnot
  · have hlt : gap.length < ((ts.drop k).takeWhile isBlank).length := by simp [hgap]
    obtain ⟨t, ht⟩ : ∃ t, (ts.drop k)[gap.length]? = some t :=
      ⟨_, List.getElem?_eq_getElem (hlt.trans_le (List.takeWhile_prefix _).length_le)⟩
    refine ⟨k + gap.length, t, by simp only [List.length_cons]; omega, ?_, ?_⟩
    · rw [← List.getElem?_drop, ht]
    · rintro rfl
      rw [isBlank_of_lt_length_takeWhile hlt ht] at hblank
      cases hblank

theorem IsMatch.previous?_ne (hblank : u.isBlank = false) {p : Pattern} {anchored : Bool}
    {tokens : List Token} {m : Match} (h : p.IsMatch anchored tokens m)
    (hpast : p.leadsPast u = true) : previous? tokens (m.stop - 1) ≠ some u := by
  rw [leadsPast, Bool.and_eq_true, Bool.and_eq_true, beq_iff_eq] at hpast
  obtain ⟨⟨hlast, hmust⟩, havoids⟩ := hpast
  have helements : p.elements = p.elements.dropLast ++ [.anything] :=
    (List.dropLast_append_getLast? _ hlast).symm
  have halign := h.align_eq
  rw [helements] at halign
  obtain ⟨i, t, hi, ht, hne⟩ := exists_previous_of_align hblank halign hmust havoids
  have hlt := h.start_lt_stop
  rw [List.getElem?_drop] at ht
  rw [show m.stop - 1 = m.start + i + 1 by omega, previous?, ht]
  simpa using hne

end Pattern

theorem previous?_ne_of_mem_lastPositions (hblank : u.isBlank = false) {patterns : List Pattern}
    {tokens : List Token} {i : Nat} (hpast : patterns.all (·.leadsPast u) = true)
    (h : i ∈ lastPositions patterns tokens) : previous? tokens i ≠ some u := by
  obtain ⟨p, hp, hi⟩ := List.mem_flatMap.mp h
  obtain ⟨m, hm, rfl⟩ := List.mem_map.mp hi
  exact (Pattern.isMatch_of_mem_matchesFrom hm).previous?_ne hblank
    (List.all_eq_true.mp hpast p hp)

/-- Before a later name of a declaration list stands a blank or the comma. -/
theorem exists_previous_of_mem_laterNames (hblank : u.isBlank = false) (hcomma : u.text ≠ ",")
    {position depth i : Nat} {ts : List Token} (h : i ∈ laterNames position depth ts) :
    ∃ j t, i = position + j + 1 ∧ ts[j]? = some t ∧ t ≠ u := by
  induction ts generalizing position depth with
  | nil => cases h
  | cons t ts ih =>
    have hlater : ∀ {depth}, i ∈ laterNames (position + 1) depth ts →
        ∃ j u', i = position + j + 1 ∧ (t :: ts)[j]? = some u' ∧ u' ≠ u := by
      intro depth hmem
      obtain ⟨j, u', hi, hu, hne⟩ := ih hmem
      exact ⟨j + 1, u', by omega, hu, hne⟩
    rw [laterNames] at h
    split at h
    · exact hlater h
    · split at h
      · exact hlater h
      · split at h
        next hmark =>
          -- the name comes right after the comma, or blanks are between them
          rcases List.mem_append.mp h with hnext | hmem
          · obtain ⟨k, hk, rfl⟩ := Option.map_eq_some_iff.mp (Option.mem_toList.mp hnext)
            cases k with
            | zero =>
              refine ⟨0, t, by omega, rfl, ?_⟩
              rintro rfl
              exact hcomma hmark.1
            | succ k =>
              obtain ⟨hlt, -, hgap⟩ := List.findIdx?_eq_some_iff_getElem.mp hk
              have hspace : ts[k].isBlank = true := by simpa using hgap k (Nat.lt_succ_self k)
              have hget : (t :: ts)[k + 1]? = some ts[k] :=
                List.getElem?_eq_getElem (Nat.lt_of_succ_lt hlt)
              refine ⟨k + 1, ts[k], by omega, hget, ?_⟩
              rintro rfl
              rw [hspace] at hblank
              cases hblank
          · exact hlater hmem
        next => exact hlater h

/-- **What stands before a private name** is no token but a blank, a comma or one that the patterns
for private definitions take. -/
theorem previous?_ne_of_mem_privatePositions (hblank : u.isBlank = false) (hcomma : u.text ≠ ",")
    (hpast : (privateDefinitions ++ privateLists).all (·.leadsPast u) = true)
    {tokens : List Token} {i : Nat} (h : i ∈ privatePositions tokens) :
    previous? tokens i ≠ some u := by
  rw [List.all_append, Bool.and_eq_true] at hpast
  rcases List.mem_append.mp h with hdefinition | hlisted
  · exact previous?_ne_of_mem_lastPositions hblank hpast.1 hdefinition
  · obtain ⟨first, hfirst, hi⟩ := List.mem_flatMap.mp hlisted
    rcases List.mem_cons.mp hi with rfl | hlater
    · exact previous?_ne_of_mem_lastPositions hblank hpast.2 (List.mem_of_mem_filter hfirst)
    · obtain ⟨j, t, rfl, ht, hne⟩ := exists_previous_of_mem_laterNames hblank hcomma hlater
      have hget : tokens[first + 1 + j]? = some t := by
        rw [slice, List.getElem?_drop, List.getElem?_take] at ht
        split at ht
        · exact ht
        · cases ht
      rw [previous?, hget]
      simpa using hne

end VbaModules

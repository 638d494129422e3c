import Mathlib.Data.List.Nodup
import VbaModules.Conversion.ShortName

/-!
# Names that fit are apart from names that were cut

A name with a counter never fits by itself: it has the greatest length and ends in three digits, or
it is even longer (`fits_numbered`). So a name that can stay as it is and a name that had to be cut
are always different. Names that were cut are different from all names taken so far
(`exists_shorten_eq_least`), because different counters give different names and one more of them is
tried than there are names to avoid. A name that fits is not compared with the names that are
taken.
-/

namespace VbaModules.ShortName

/-! ### Counters -/

/-- Leading zeros do not change the number that a counter stands for. -/
theorem ofDigitChars_replicate_zero_append (k : Nat) (digits : List Char) :
    Nat.ofDigitChars 10 (List.replicate k '0' ++ digits) 0 = Nat.ofDigitChars 10 digits 0 := by
  induction k with
  | zero => rfl
  | succ k ih => rw [List.replicate_succ, List.cons_append, Nat.ofDigitChars_cons]; exact ih

theorem toList_counter (n : Nat) :
    (counter n).toList =
      List.replicate (3 - (Nat.toDigits 10 n).length) '0' ++ Nat.toDigits 10 n :=
  String.toList_ofList

theorem counter_injective : Function.Injective counter := by
  intro m n h
  have hdigits := congrArg (fun s => Nat.ofDigitChars 10 s.toList 0) h
  simpa only [toList_counter, ofDigitChars_replicate_zero_append,
    Nat.ofDigitChars_toDigits (by decide : 1 < 10) (by decide : 10 ≤ 10)] using hdigits

theorem three_le_length_counter (n : Nat) : 3 ≤ (counter n).toList.length := by
  rw [toList_counter, List.length_append, List.length_replicate]
  omega

theorem isDigit_of_mem_counter {n : Nat} {c : Char} (h : c ∈ (counter n).toList) :
    c.isDigit = true := by
  rw [toList_counter, List.mem_append] at h
  rcases h with hzero | hdigit
  · rw [List.eq_of_mem_replicate hzero]
    decide
  · exact Nat.isDigit_of_mem_toDigits (by decide) (by decide) hdigit

/-! ### Names with a counter -/

theorem toList_numbered (name : String) (n : Nat) :
    (numbered name n).toList = name.toList.take stemLength ++ (counter n).toList := by
  rw [numbered, String.toList_append, String.toList_ofList]

theorem numbered_injective (name : String) : Function.Injective (numbered name) := by
  intro m n h
  have hlist := congrArg String.toList h
  rw [toList_numbered, toList_numbered] at hlist
  exact counter_injective (String.toList_inj.mp (List.append_cancel_left hlist))

theorem stemLength_le_of_not_fits {name : String} (h : fits name = false) :
    stemLength ≤ name.toList.length := by
  rw [fits, Bool.or_eq_false_iff] at h
  have hlong : ¬name.length < 31 := of_decide_eq_false h.1
  rw [String.length_toList, stemLength]
  omega

/-- **A name with a counter does not fit**, given that the name was long enough to be cut. -/
theorem fits_numbered {name : String} (h : fits name = false) (n : Nat) :
    fits (numbered name n) = false := by
  have hstem : (name.toList.take stemLength).length = 28 := by
    rw [List.length_take, Nat.min_eq_left (stemLength_le_of_not_fits h)]
    rfl
  have hlength : (numbered name n).length = 28 + (counter n).toList.length := by
    rw [← String.length_toList, toList_numbered, List.length_append, hstem]
  have hthree := three_le_length_counter n
  -- the last three characters are those of the counter
  have hends : endsInCounter (numbered name n) = true := by
    have hlast : (numbered name n).toList.reverse.take 3 = (counter n).toList.reverse.take 3 := by
      rw [toList_numbered, List.reverse_append, List.take_append_of_le_length]
      rwa [List.length_reverse]
    have hdigits : ((counter n).toList.reverse.take 3).filter Char.isDigit =
        (counter n).toList.reverse.take 3 := by
      rw [List.filter_eq_self]
      intro c hc
      exact isDigit_of_mem_counter (List.mem_reverse.mp (List.mem_of_mem_take hc))
    rw [endsInCounter, hlast, hdigits, List.length_take, List.length_reverse,
      Nat.min_eq_left hthree]
    rfl
  rw [fits, hlength, hends, Bool.or_eq_false_iff]
  refine ⟨?_, by simp⟩
  rw [decide_eq_false_iff_not, maxModuleName]
  omega

/-! ### The name that is given out -/

theorem shorten_of_fits {name : String} (h : fits name = true) (taken : List String) :
    shorten name taken = name := by
  rw [shorten, if_pos h]

/-- Not all of the names that are tried can be taken. -/
theorem exists_numbered_not_mem (name : String) (taken : List String) :
    ∃ x ∈ numberedNames name taken, x ∉ taken := by
  by_contra hall
  have hsub : numberedNames name taken ⊆ taken := by
    intro x hx
    by_contra hout
    exact hall ⟨x, hx, hout⟩
  have hnodup : (numberedNames name taken).Nodup := by
    refine List.Nodup.map (fun m n h => ?_) List.nodup_range
    have := numbered_injective name h
    omega
  have hle := hnodup.length_le_of_subset hsub
  rw [numberedNames, List.length_map, List.length_range] at hle
  omega

/-- **A name that is cut gets the first counter that is free.** -/
theorem exists_shorten_eq_least {name : String} (h : fits name = false) (taken : List String) :
    ∃ n, 1 ≤ n ∧ shorten name taken = numbered name n ∧ numbered name n ∉ taken ∧
      ∀ k, 1 ≤ k → k < n → numbered name k ∈ taken := by
  obtain ⟨x, hx, hout⟩ := exists_numbered_not_mem name taken
  have hsome : ((numberedNames name taken).find? (!taken.contains ·)).isSome = true := by
    rw [List.find?_isSome]
    exact ⟨x, hx, by simpa using hout⟩
  obtain ⟨y, hy⟩ := Option.isSome_iff_exists.mp hsome
  have hfirst := hy
  rw [numberedNames, List.find?_map, Option.map_eq_some_iff] at hfirst
  obtain ⟨n, hn, rfl⟩ := hfirst
  obtain ⟨hfree, -, hbefore⟩ := List.find?_range_eq_some.mp hn
  refine ⟨n + 1, by omega, ?_, by simpa using hfree, fun k hpos hlt => ?_⟩
  · rw [shorten, if_neg (by simp [h]), hy, Option.getD_some]
  · obtain ⟨k, rfl⟩ := Nat.exists_eq_add_of_le' hpos
    simpa using hbefore k (by omega)

/-- A name that is cut gets a counter and is not taken. -/
theorem exists_shorten_eq_numbered {name : String} (h : fits name = false) (taken : List String) :
    ∃ n, shorten name taken = numbered name n ∧ numbered name n ∉ taken := by
  obtain ⟨n, -, hn, hout, -⟩ := exists_shorten_eq_least h taken
  exact ⟨n, hn, hout⟩

theorem mem_take {x name : String} {taken : List String} :
    x ∈ take name taken ↔ x = name ∨ x ∈ taken := by
  rw [take]
  split
  next hmem =>
    have hname : name ∈ taken := by simpa using hmem
    exact ⟨.inr, fun h => h.elim (fun heq => heq ▸ hname) id⟩
  next => rw [List.mem_append, List.mem_singleton, or_comm]

end VbaModules.ShortName

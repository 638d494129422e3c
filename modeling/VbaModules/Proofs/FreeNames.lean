import Mathlib.Order.Interval.Finset.Nat
import VbaModules.Proofs.ShortNames

/-!
# The search for a free name

A name that is too long is tried with one counter after the other until one is free. The search is
told step by step (`Finds`), without a bound on the number of steps, and it ends for every name,
whatever names are taken (`finds_shorten`). If names are given out in turn, each is told apart from
all before it: a name that was cut by the search, a name that fits by being different from the
others (`nodup_shortenAll`).

How long the result is depends on the counter. Up to 999 it has three digits, and a larger one is
tried only if that many names are taken (`length_shorten_le`).
-/

namespace VbaModules.ShortName

/-! ### Searching -/

/-- The **search** for a free name that has come to the counter `n` ends with the name `short`. If
the name with this counter is free, it is the result; otherwise the search goes on with the next
one. -/
inductive Finds (name : String) (taken : List String) : Nat → String → Prop where
  | free {n : Nat} (hfree : numbered name n ∉ taken) : Finds name taken n (numbered name n)
  | next {n : Nat} {short : String} (htaken : numbered name n ∈ taken)
      (hrest : Finds name taken (n + 1) short) : Finds name taken n short

section Finds

variable {name short short' : String} {taken : List String}

/-- The search passes over counters that are taken. -/
theorem Finds.of_le {m n : Nat} (h : Finds name taken n short) (hle : m ≤ n)
    (htaken : ∀ k, m ≤ k → k < n → numbered name k ∈ taken) : Finds name taken m short := by
  induction hle using Nat.decreasingInduction with
  | self => exact h
  | of_succ k hk ih =>
    refine .next (htaken k le_rfl hk) (ih fun j hj hlt => htaken j (by omega) hlt)

/-- The search has one result. -/
theorem Finds.unique {n : Nat} (h : Finds name taken n short) (h' : Finds name taken n short') :
    short = short' := by
  induction h with
  | free hfree =>
    cases h' with
    | free => rfl
    | next htaken => exact absurd htaken hfree
  | next htaken _ ih =>
    cases h' with
    | free hfree => exact absurd htaken hfree
    | next _ hrest => exact ih hrest

/-- **The search ends**, whatever names are taken. -/
theorem finds_shorten (h : fits name = false) (taken : List String) :
    Finds name taken 1 (shorten name taken) := by
  obtain ⟨n, hpos, hshort, hfree, hbefore⟩ := exists_shorten_eq_least h taken
  rw [hshort]
  exact (Finds.free hfree).of_le hpos hbefore

end Finds

/-! ### Names given out in turn -/

theorem take_of_not_mem {name : String} {taken : List String} (h : name ∉ taken) :
    take name taken = taken ++ [name] := by
  rw [take, if_neg (by simpa using h)]

/-- A name that fits only needs to be free if it stays as it is. -/
theorem shorten_not_mem {name : String} {taken : List String}
    (h : fits name = true → name ∉ taken) : shorten name taken ∉ taken := by
  cases hfits : fits name with
  | true =>
    rw [shorten_of_fits hfits]
    exact h hfits
  | false =>
    obtain ⟨n, hn, hout⟩ := exists_shorten_eq_numbered hfits taken
    rwa [hn]

/-- A name that fits is given out only for itself. -/
theorem eq_of_shorten_eq {name other : String} {taken : List String} (hother : fits other = true)
    (h : shorten name taken = other) : name = other := by
  cases hfits : fits name with
  | true => rwa [shorten_of_fits hfits] at h
  | false =>
    obtain ⟨n, hn, -⟩ := exists_shorten_eq_numbered hfits taken
    rw [← h, hn, fits_numbered hfits] at hother
    cases hother

/-- One name after the other is given out and recorded. What stays the same along the way is that no
name that is still to come and can stay as it is has been given out. -/
theorem shortenAll_spec {names : List String} (hnames : names.Nodup) {taken : List String}
    (h : ∀ name ∈ names, fits name = true → name ∉ taken) :
    (shortenAll taken names).2 = taken ++ (shortenAll taken names).1 ∧
      (shortenAll taken names).1.Nodup ∧ ∀ short ∈ (shortenAll taken names).1, short ∉ taken := by
  induction names generalizing taken with
  | nil => simp [shortenAll]
  | cons name names ih =>
    obtain ⟨hname, hnames⟩ := List.nodup_cons.mp hnames
    obtain ⟨hfirst, hrest⟩ := List.forall_mem_cons.mp h
    have hfree := shorten_not_mem hfirst
    have hlater : ∀ other ∈ names, fits other = true → other ∉ taken ++ [shorten name taken] := by
      intro other hother hfits
      rw [List.mem_append, List.mem_singleton, not_or]
      -- the name given out now would be for itself, and then it would come twice
      refine ⟨hrest other hother hfits, fun heq => ?_⟩
      rw [eq_of_shorten_eq hfits heq.symm] at hname
      exact hname hother
    obtain ⟨htaken, hnodup, hout⟩ := ih hnames hlater
    rw [shortenAll, take_of_not_mem hfree]
    refine ⟨?_, List.nodup_cons.mpr ⟨fun hmem => ?_, hnodup⟩,
      List.forall_mem_cons.mpr ⟨hfree, fun short hshort hmem => ?_⟩⟩
    · rw [htaken, List.append_assoc]
      rfl
    · exact hout _ hmem (List.mem_append_right _ (List.mem_singleton_self _))
    · exact hout short hshort (List.mem_append_left _ hmem)

/-- **Names that were made to fit do not collide.** The search for a free name ends for every name
and whatever names are taken, with the name that is given out. If different names are made to fit
one after the other and none is taken at first, then the names given out are different, and they are
the names that are taken in the end. -/
theorem nodup_shortenAll :
    (∀ (name : String) (taken : List String), fits name = false →
      ∀ short, Finds name taken 1 short ↔ shorten name taken = short) ∧
      ∀ names : List String, names.Nodup →
        (shortenAll [] names).1.Nodup ∧ (shortenAll [] names).2 = (shortenAll [] names).1 := by
  refine ⟨fun name taken hfits short => ⟨fun hfinds => ?_, ?_⟩, fun names hnames => ?_⟩
  · exact (finds_shorten hfits taken).unique hfinds
  · rintro rfl
    exact finds_shorten hfits taken
  · obtain ⟨htaken, hnodup, -⟩ := @shortenAll_spec names hnames [] (by simp)
    exact ⟨hnodup, htaken⟩

/-- Two long names that are cut after the same characters, and a name between them that fits. -/
def cellNames : List String :=
  ["CellsOfTheRowsAndColumnsOfAllGrids", "Cells", "CellsOfTheRowsAndColumnsOfAllSheets"]

/-- The two long names get different counters. -/
theorem nodup_shortenAll_cellNames :
    cellNames.Nodup ∧ (shortenAll [] cellNames).1.Nodup ∧
      (shortenAll [] cellNames).2 =
        ["CellsOfTheRowsAndColumnsOfAl001", "Cells", "CellsOfTheRowsAndColumnsOfAl002"] ∧
      Finds "CellsOfTheRowsAndColumnsOfAllSheets" ["CellsOfTheRowsAndColumnsOfAl001"] 1
        "CellsOfTheRowsAndColumnsOfAl002" := by
  obtain ⟨hsearch, hdistinct⟩ := nodup_shortenAll
  have hnames : cellNames.Nodup := by decide
  obtain ⟨hnodup, htaken⟩ := hdistinct cellNames hnames
  exact ⟨hnames, hnodup, htaken.trans (by decide),
    (hsearch _ _ (by decide) _).mpr (by decide)⟩

/-! ### How long the names are -/

theorem length_counter_of_le {n : Nat} (h : n ≤ 999) : (counter n).toList.length = 3 := by
  have hdigits : (Nat.toDigits 10 n).length ≤ 3 :=
    (Nat.length_toDigits_le_iff (by decide) (by decide)).mpr (by omega)
  rw [toList_counter, List.length_append, List.length_replicate]
  omega

theorem length_numbered (name : String) {n : Nat} (h : n ≤ 999) :
    (numbered name n).length ≤ maxModuleName := by
  rw [← String.length_toList, toList_numbered, List.length_append, length_counter_of_le h,
    List.length_take, stemLength, maxModuleName]
  omega

/-- As many counters are taken as were passed over. -/
theorem le_card_of_taken {name : String} {taken : List String} {n : Nat}
    (h : ∀ k, 1 ≤ k → k < n → numbered name k ∈ taken) : n - 1 ≤ taken.toFinset.card := by
  calc n - 1 = ((Finset.Ico 1 n).image (numbered name)).card := by
        rw [Finset.card_image_of_injective _ (numbered_injective name), Nat.card_Ico]
    _ ≤ taken.toFinset.card := by
        refine Finset.card_le_card fun x hx => ?_
        obtain ⟨k, hk, rfl⟩ := Finset.mem_image.mp hx
        obtain ⟨hpos, hlt⟩ := Finset.mem_Ico.mp hk
        exact List.mem_toFinset.mpr (h k hpos hlt)

/-- **A name that was made to fit is short enough**, if fewer than 999 names are taken. Unless it is
the name itself, it was free, and its counter is the smallest that was. -/
theorem length_shorten_le {name : String} {taken : List String}
    (h : taken.toFinset.card < 999) :
    (shorten name taken).length ≤ maxModuleName ∧
      (shorten name taken ≠ name →
        shorten name taken ∉ taken ∧
          ∃ n, 1 ≤ n ∧ n ≤ 999 ∧ shorten name taken = numbered name n ∧
            ∀ k, 1 ≤ k → k < n → numbered name k ∈ taken) := by
  cases hfits : fits name with
  | true =>
    rw [shorten_of_fits hfits]
    refine ⟨?_, fun hne => absurd rfl hne⟩
    rw [fits, Bool.or_eq_true, Bool.and_eq_true, decide_eq_true_eq, beq_iff_eq] at hfits
    exact hfits.elim le_of_lt fun heq => heq.1.le
  | false =>
    obtain ⟨n, hpos, hshort, hfree, hbefore⟩ := exists_shorten_eq_least hfits taken
    have hpassed := le_card_of_taken hbefore
    have hn : n ≤ 999 := by omega
    rw [hshort]
    exact ⟨length_numbered name hn, fun _ => ⟨hfree, n, hpos, hn, rfl, hbefore⟩⟩

/-- A long name whose first counter is taken. -/
theorem length_shorten_le_cells :
    (["CellsOfTheRowsAndColumnsOfAl001"] : List String).toFinset.card < 999 ∧
      (shorten "CellsOfTheRowsAndColumnsOfAllSheets" ["CellsOfTheRowsAndColumnsOfAl001"]).length ≤
        maxModuleName ∧
      ∃ n, 1 ≤ n ∧ n ≤ 999 ∧
        shorten "CellsOfTheRowsAndColumnsOfAllSheets" ["CellsOfTheRowsAndColumnsOfAl001"] =
          numbered "CellsOfTheRowsAndColumnsOfAllSheets" n := by
  have hcard : (["CellsOfTheRowsAndColumnsOfAl001"] : List String).toFinset.card < 999 := by decide
  obtain ⟨hlength, hleast⟩ :=
    @length_shorten_le "CellsOfTheRowsAndColumnsOfAllSheets" _ hcard
  obtain ⟨-, n, hpos, hle, hshort, -⟩ := hleast (by decide)
  exact ⟨hcard, hlength, n, hpos, hle, hshort⟩

end VbaModules.ShortName

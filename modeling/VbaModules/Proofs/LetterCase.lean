import Mathlib.Data.List.Basic
import VbaModules.Text.Ascii
import VbaModules.Text.Lower
import VbaModules.Text.White

/-!
# Texts up to the case of ASCII letters

Lowering the ASCII capitals of a text keeps every class of characters that does not tell the case of
a letter (`toLower_of_letters`). The full lower-case form is one step further: it cannot tell a text
from its folded form (`lower_foldCase`), so texts that are the same word have the same lower-case
form. The converse fails, since the lower-case form knows letters outside ASCII too.
-/

namespace VbaModules.Text

/-! ### Lowering a character -/

/-- The capitals by their place in the alphabet. -/
theorem toLower_ofNat : ∀ i < 26, (Char.ofNat (65 + i)).toLower = Char.ofNat (97 + i) := by
  decide

/-- A character stays as it is unless it is an ASCII capital. -/
theorem toLower_cases (c : Char) :
    c.toLower = c ∨ ∃ i < 26, c = Char.ofNat (65 + i) ∧ c.toLower = Char.ofNat (97 + i) := by
  by_cases h : c.val ≥ 'A'.val ∧ c.val ≤ 'Z'.val
  · have hge : 65 ≤ c.toNat := UInt32.le_iff_toNat_le.mp h.1
    have hle : c.toNat ≤ 90 := UInt32.le_iff_toNat_le.mp h.2
    have hc : c = Char.ofNat (65 + (c.toNat - 65)) := by
      rw [Nat.add_sub_cancel' hge, Char.ofNat_toNat]
    refine Or.inr ⟨c.toNat - 65, by omega, hc, ?_⟩
    rw [← toLower_ofNat _ (by omega), ← hc]
  · exact Or.inl (dif_neg h)

/-- What does not tell the case of a letter does not change when characters are lowered. -/
theorem toLower_of_letters {α : Type} {p : Char → α}
    (h : ∀ i < 26, p (Char.ofNat (97 + i)) = p (Char.ofNat (65 + i))) (c : Char) :
    p c.toLower = p c := by
  rcases toLower_cases c with heq | ⟨i, hi, hcapital, hsmall⟩
  · rw [heq]
  · rw [hsmall, h i hi, ← hcapital]

/-- Lowering twice lowers once. -/
theorem toLower_toLower (c : Char) : c.toLower.toLower = c.toLower :=
  toLower_of_letters (by decide) c

theorem toLower_comp_toLower : Char.toLower ∘ Char.toLower = Char.toLower :=
  funext toLower_toLower

/-- A character that is no ASCII letter is the lowered form of itself only. -/
theorem toLower_beq (c : Char) {d : Char}
    (hd : ∀ i < 26, (Char.ofNat (97 + i) == d) = (Char.ofNat (65 + i) == d)) :
    (c.toLower == d) = (c == d) :=
  toLower_of_letters (p := (· == d)) hd c

/-- White space is white space in either case. -/
theorem isWhite_toLower (c : Char) : isWhite c.toLower = isWhite c :=
  toLower_of_letters (by decide) c

/-- What has a case has one after lowering. -/
theorem isCased_toLower (c : Char) : isCased c.toLower = isCased c :=
  toLower_of_letters (by decide) c

set_option maxRecDepth 2000 in
/-- No range of ignorable characters meets the letters `A` to `Z` and `a` to `z`. -/
theorem caseIgnorableRanges_all :
    caseIgnorableRanges.all (fun r => r.2 < 65 || 90 < r.1 && r.2 < 97 || 122 < r.1) = true := by
  decide

/-- No letter is passed over. -/
theorem isCaseIgnorable_eq_false {c : Char}
    (h : 65 ≤ c.toNat ∧ c.toNat ≤ 90 ∨ 97 ≤ c.toNat ∧ c.toNat ≤ 122) :
    isCaseIgnorable c = false := by
  rw [isCaseIgnorable, CharRanges.contains, List.any_eq_false]
  intro r hr
  have hrange := List.all_eq_true.mp caseIgnorableRanges_all r hr
  simp only [Bool.or_eq_true, Bool.and_eq_true, decide_eq_true_eq] at hrange ⊢
  omega

/-- Lowering keeps the characters that casing ignores. -/
theorem isCaseIgnorable_toLower (c : Char) : isCaseIgnorable c.toLower = isCaseIgnorable c := by
  have hcodes : ∀ i < 26, (Char.ofNat (65 + i)).toNat = 65 + i ∧
      (Char.ofNat (97 + i)).toNat = 97 + i := by decide
  refine toLower_of_letters (fun i hi => ?_) c
  obtain ⟨hcapital, hsmall⟩ := hcodes i hi
  rw [isCaseIgnorable_eq_false (by omega), isCaseIgnorable_eq_false (by omega)]

/-! ### Folded texts -/

/-- Folding twice folds once. -/
theorem foldCase_foldCase (s : String) : foldCase (foldCase s) = foldCase s := by
  rw [← String.toList_inj, toList_foldCase, toList_foldCase, List.map_map, toLower_comp_toLower]

/-- Folding and trimming commute. -/
theorem trim_foldCase (s : String) : trim (foldCase s) = foldCase (trim s) := by
  have hwhite : isWhite ∘ Char.toLower = isWhite := funext isWhite_toLower
  rw [← String.toList_inj]
  simp only [trim, trimEnd, trimStart, toList_foldCase, String.toList_ofList, List.dropWhile_map,
    ← List.map_reverse, hwhite]

/-! ### The lower-case form -/

theorem lowerChar_toLower (c : Char) : lowerChar c.toLower = lowerChar c :=
  toLower_of_letters (by decide) c

theorem meetsCased_map_toLower (cs : List Char) :
    meetsCased (cs.map Char.toLower) = meetsCased cs := by
  have hignorable : isCaseIgnorable ∘ Char.toLower = isCaseIgnorable :=
    funext isCaseIgnorable_toLower
  rw [meetsCased, meetsCased, List.dropWhile_map, hignorable, List.head?_map, Option.any_map]
  simp only [isCased_toLower]

/-- **Folded texts have the lower-case form of the texts they fold**, in any context. -/
theorem lowerAfter_map_toLower (before cs : List Char) :
    lowerAfter (before.map Char.toLower) (cs.map Char.toLower) = lowerAfter before cs := by
  induction cs generalizing before with
  | nil => rfl
  | cons c cs ih =>
    rw [List.map_cons, lowerAfter, lowerAfter, ← List.map_cons, ih, toLower_beq c (by decide),
      lowerChar_toLower, lowerSigma, lowerSigma, meetsCased_map_toLower, meetsCased_map_toLower]

/-- **The lower-case form cannot tell a text from its folded form.** -/
theorem lower_foldCase (s : String) : lower (foldCase s) = lower s := by
  rw [lower, lower, toList_foldCase]
  exact congrArg String.ofList (lowerAfter_map_toLower [] s.toList)

/-- Words that are the same have the same lower-case form. -/
theorem lower_eq_of_sameWord {s t : String} (h : sameWord s t = true) : lower s = lower t := by
  rw [← lower_foldCase s, sameWord_iff.mp h, lower_foldCase]

/-! ### The length of the lower-case form -/

/-- How many characters a character becomes. A sigma becomes one, whichever that is. -/
def lowerLength (c : Char) : Nat :=
  if c == 'Σ' then 1 else (lowerChar c).length

/-- Every character has a lower-case form. -/
theorem lowerLength_pos (c : Char) : 0 < lowerLength c := by
  rw [lowerLength, lowerChar]
  split
  · exact Nat.one_pos
  · split
    · simp
    · split <;> simp

/-- The length of a lower-case form is made up character by character. -/
theorem length_lowerAfter_cons (before : List Char) (c : Char) (cs : List Char) :
    (lowerAfter before (c :: cs)).length =
      lowerLength c + (lowerAfter (c :: before) cs).length := by
  rw [lowerAfter, List.length_append, lowerLength]
  split <;> rfl

/-- What stands before a text does not change the length of its lower-case form. -/
theorem length_lowerAfter_eq (before before' cs : List Char) :
    (lowerAfter before cs).length = (lowerAfter before' cs).length := by
  induction cs generalizing before before' with
  | nil => rfl
  | cons c cs ih => rw [length_lowerAfter_cons, length_lowerAfter_cons, ih (c :: before)]

/-- A longer text has no shorter lower-case form. -/
theorem length_lowerAfter_le_append (before cs ds : List Char) :
    (lowerAfter before ds).length ≤ (lowerAfter before (cs ++ ds)).length := by
  induction cs generalizing before with
  | nil => exact Nat.le_refl _
  | cons c cs ih =>
    calc (lowerAfter before ds).length
      _ = (lowerAfter (c :: before) ds).length := length_lowerAfter_eq _ _ _
      _ ≤ (lowerAfter (c :: before) (cs ++ ds)).length := ih _
      _ ≤ (lowerAfter before (c :: cs ++ ds)).length := by
        rw [List.cons_append, length_lowerAfter_cons]
        exact Nat.le_add_left _ _

/-- With something in front, a text has a longer lower-case form. -/
theorem length_lower_lt_append {s : String} (hs : s ≠ "") (t : String) :
    (lower t).toList.length < (lower (s ++ t)).toList.length := by
  obtain ⟨c, cs, hcs⟩ := List.exists_cons_of_ne_nil (l := s.toList) (by simpa using hs)
  have hc := lowerLength_pos c
  have hle := length_lowerAfter_le_append [c] cs t.toList
  rw [lower, lower, String.toList_ofList, String.toList_ofList, String.toList_append, hcs,
    List.cons_append, length_lowerAfter_cons, length_lowerAfter_eq [] [c]]
  omega

end VbaModules.Text

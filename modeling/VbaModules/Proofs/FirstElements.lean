import VbaModules.Proofs.Assembling

/-!
# The first element with a property

Much of what the operations on bundles do is decided by the first module that has some property: the
first that exports a name, the first that stands in the way. `IsFirst` says so of a list without a
search. A traversal that may fail does so with the error of the first element that fails
(`mapM_eq_error_iff`).
-/

namespace VbaModules

/-- The element `a` of a list is **the first with a property**: it has it, and none before has. -/
def IsFirst {α : Type} (p : α → Prop) (as : List α) (a : α) : Prop :=
  ∃ before after, as = before ++ a :: after ∧ p a ∧ ∀ b ∈ before, ¬p b

section IsFirst

variable {α β : Type} {p q : α → Prop} {a : α} {as : List α}

theorem IsFirst.mem (h : IsFirst p as a) : a ∈ as := by
  obtain ⟨before, after, rfl, -⟩ := h
  exact List.mem_append_right before List.mem_cons_self

theorem IsFirst.prop (h : IsFirst p as a) : p a := by
  obtain ⟨-, -, -, ha, -⟩ := h
  exact ha

theorem not_isFirst_nil : ¬IsFirst p [] a :=
  fun h => List.not_mem_nil h.mem

/-- The first element with a property is the head of the list, unless the head does not have it. -/
theorem isFirst_cons_iff {b : α} :
    IsFirst p (b :: as) a ↔ p b ∧ a = b ∨ ¬p b ∧ IsFirst p as a := by
  constructor
  · rintro ⟨before, after, heq, ha, hbefore⟩
    rcases List.cons_eq_append_iff.mp heq with ⟨rfl, hcons⟩ | ⟨before, rfl, rfl⟩
    · obtain ⟨rfl, -⟩ := List.cons.inj hcons
      exact .inl ⟨ha, rfl⟩
    · obtain ⟨hb, hrest⟩ := List.forall_mem_cons.mp hbefore
      exact .inr ⟨hb, before, after, rfl, ha, hrest⟩
  · rintro (⟨hb, rfl⟩ | ⟨hb, before, after, rfl, ha, hbefore⟩)
    · exact ⟨[], as, rfl, hb, by simp⟩
    · exact ⟨b :: before, after, rfl, ha, List.forall_mem_cons.mpr ⟨hb, hbefore⟩⟩

theorem IsFirst.unique {b : α} (h : IsFirst p as a) (h' : IsFirst p as b) : a = b := by
  induction as with
  | nil => exact absurd h not_isFirst_nil
  | cons c as ih =>
    rcases isFirst_cons_iff.mp h with ⟨hc, rfl⟩ | ⟨hc, hrest⟩
    · rcases isFirst_cons_iff.mp h' with ⟨-, rfl⟩ | ⟨hnot, -⟩
      · rfl
      · exact absurd hc hnot
    · rcases isFirst_cons_iff.mp h' with ⟨hc', -⟩ | ⟨-, hrest'⟩
      · exact absurd hc' hc
      · exact ih hrest hrest'

/-- Where some element has the property, there is a first one. -/
theorem exists_isFirst_iff : (∃ a, IsFirst p as a) ↔ ∃ a ∈ as, p a := by
  constructor
  · rintro ⟨a, h⟩
    exact ⟨a, h.mem, h.prop⟩
  · rintro ⟨a, hmem, ha⟩
    induction as with
    | nil => cases hmem
    | cons b as ih =>
      by_cases hb : p b
      · exact ⟨b, isFirst_cons_iff.mpr (.inl ⟨hb, rfl⟩)⟩
      · rcases List.mem_cons.mp hmem with rfl | hmem
        · exact absurd ha hb
        · obtain ⟨first, hfirst⟩ := ih hmem
          exact ⟨first, isFirst_cons_iff.mpr (.inr ⟨hb, hfirst⟩)⟩

theorem IsFirst.imp (h : IsFirst p as a) (hiff : ∀ b ∈ as, p b ↔ q b) : IsFirst q as a := by
  obtain ⟨before, after, rfl, ha, hbefore⟩ := h
  refine ⟨before, after, rfl, (hiff a (by simp)).mp ha, fun b hb hq => hbefore b hb ?_⟩
  exact (hiff b (List.mem_append_left _ hb)).mpr hq

/-- A search finds the first element that passes its test. -/
theorem find?_eq_some_iff_isFirst {test : α → Bool} :
    as.find? test = some a ↔ IsFirst (test · = true) as a := by
  rw [List.find?_eq_some_iff_append]
  constructor
  · rintro ⟨ha, before, after, rfl, hbefore⟩
    exact ⟨before, after, rfl, ha, fun b hb => by simpa using hbefore b hb⟩
  · rintro ⟨before, after, rfl, ha, hbefore⟩
    exact ⟨ha, before, after, rfl, fun b hb => by simpa using hbefore b hb⟩

/-- In lists that correspond to each other, every element has its counterpart. -/
theorem exists_mem_of_forall₂ {R : α → β → Prop} {bs : List β} (h : List.Forall₂ R as bs)
    (ha : a ∈ as) : ∃ b ∈ bs, R a b := by
  induction h with
  | nil => cases ha
  | @cons a' b as bs hab _ ih =>
    rcases List.mem_cons.mp ha with rfl | ha
    · exact ⟨b, List.mem_cons_self, hab⟩
    · obtain ⟨b', hb', hrel⟩ := ih ha
      exact ⟨b', List.mem_cons_of_mem b hb', hrel⟩

/-- In lists that correspond to each other, the first elements with corresponding properties do. -/
theorem IsFirst.exists_of_forall₂ {R : α → β → Prop} {q : β → Prop} {bs : List β}
    (h : IsFirst p as a) (hrel : List.Forall₂ R as bs) (hiff : ∀ a b, R a b → (p a ↔ q b)) :
    ∃ b, IsFirst q bs b ∧ R a b := by
  induction hrel with
  | nil => exact absurd h not_isFirst_nil
  | @cons a' b as bs hab _ ih =>
    rcases isFirst_cons_iff.mp h with ⟨ha, rfl⟩ | ⟨ha, hrest⟩
    · exact ⟨b, isFirst_cons_iff.mpr (.inl ⟨(hiff a b hab).mp ha, rfl⟩), hab⟩
    · obtain ⟨b', hb', hrel⟩ := ih hrest
      exact ⟨b', isFirst_cons_iff.mpr (.inr ⟨fun hb => ha ((hiff a' b hab).mpr hb), hb'⟩), hrel⟩

/-- **A traversal fails** with the error of the first element that fails. -/
theorem mapM_eq_error_iff {ε : Type} {f : α → Except ε β} {e : ε} :
    as.mapM f = .error e ↔ ∃ a, IsFirst (fun a => ∃ e, f a = .error e) as a ∧ f a = .error e := by
  induction as with
  | nil =>
    refine iff_of_false (fun h => by cases h) ?_
    rintro ⟨a, hfirst, -⟩
    exact not_isFirst_nil hfirst
  | cons b as ih =>
    rw [List.mapM_cons]
    cases hb : f b with
    | error e' =>
      simp only [bind, Except.bind, Except.error.injEq, isFirst_cons_iff]
      constructor
      · rintro rfl
        exact ⟨b, .inl ⟨⟨e', hb⟩, rfl⟩, hb⟩
      · rintro ⟨a, ⟨-, rfl⟩ | ⟨hok, -⟩, ha⟩
        · exact Except.error.inj (hb.symm.trans ha)
        · exact absurd ⟨e', hb⟩ hok
    | ok c =>
      -- an element that does not fail is not the first that does
      have hnot : ¬∃ e, f b = .error e := by
        rintro ⟨e', he⟩
        rw [hb] at he
        cases he
      have hrest : (∃ a, IsFirst (fun a => ∃ e, f a = .error e) (b :: as) a ∧ f a = .error e) ↔
          as.mapM f = .error e := by
        rw [ih]
        simp only [isFirst_cons_iff, hnot, false_and, false_or, not_false_eq_true, true_and]
      rw [hrest]
      cases as.mapM f <;> simp [bind, Except.bind, pure, Except.pure]

end IsFirst

end VbaModules

import VbaModules.Proofs.SectionPartition

/-!
# What a united span is made of

A span that comes out of uniting spans is told without the order in which they are absorbed: each
span is within it or apart from it, every cut through it goes through one of the spans, and its kind
is that of the first among the spans that start where it starts (`United`). Conversely, spans that
are all within one such span unite to it (`United.unite_eq`).

Among spans that start at the same place, those that stop earlier come first, and of those that stop
at the same place too the one given first. That sorting and filtering commute (`filter_mergeSort`)
lets this be said of the spans at one place alone.
-/

namespace VbaModules.Partition

/-! ### Sorting and filtering -/

/-- In a sorted list the elements before `a` that do not follow it are told by the rest of the
list. -/
theorem takeWhile_append_of_pairwise {α : Type} {le : α → α → Bool} {a : α} {x y : List α}
    (hbefore : ∀ b ∈ x, (!le a b) = true)
    (hsorted : (x ++ a :: y).Pairwise fun a b => le a b = true) :
    (x ++ y).takeWhile (!le a ·) = x ∧ (x ++ y).dropWhile (!le a ·) = y := by
  have hafter : ∀ b ∈ y, le a b = true :=
    (List.pairwise_cons.mp (List.pairwise_append.mp hsorted).2.1).1
  rw [List.takeWhile_append_of_pos hbefore, List.dropWhile_append_of_pos hbefore]
  cases y with
  | nil => simp
  | cons b y => simp [hafter b List.mem_cons_self]

/-- Sorting keeps the order of equals, so it commutes with filtering. -/
theorem filter_mergeSort {α : Type} {le : α → α → Bool}
    (htrans : ∀ a b c : α, le a b → le b c → le a c) (htotal : ∀ a b : α, le a b || le b a)
    (q : α → Bool) (l : List α) : (l.mergeSort le).filter q = (l.filter q).mergeSort le := by
  induction l with
  | nil => simp
  | cons a l ih =>
    obtain ⟨l₁, l₂, hinsert, hrest, hbefore⟩ := List.mergeSort_cons htrans htotal a l
    rw [hrest, List.filter_append] at ih
    rw [hinsert, List.filter_append]
    cases hq : q a with
    | false =>
      rw [List.filter_cons_of_neg (by simp [hq]), List.filter_cons_of_neg (by simp [hq]), ih]
    | true =>
      obtain ⟨m₁, m₂, hinsert', hrest', hbefore'⟩ :=
        List.mergeSort_cons htrans htotal a (l.filter q)
      have hsorted : (l₁.filter q ++ a :: l₂.filter q).Pairwise fun a b => le a b = true := by
        have hall := (List.pairwise_mergeSort htrans htotal (a :: l)).filter q
        rwa [hinsert, List.filter_append, List.filter_cons_of_pos hq] at hall
      have hsorted' : (m₁ ++ a :: m₂).Pairwise fun a b => le a b = true := by
        rw [← hinsert']
        exact List.pairwise_mergeSort htrans htotal _
      -- in both lists `a` stands before the first element that may follow it
      obtain ⟨htake, hdrop⟩ := takeWhile_append_of_pairwise
        (fun b hb => hbefore b (List.mem_of_mem_filter hb)) hsorted
      obtain ⟨htake', hdrop'⟩ := takeWhile_append_of_pairwise hbefore' hsorted'
      rw [ih, hrest'] at htake hdrop
      rw [List.filter_cons_of_pos hq, List.filter_cons_of_pos hq, hinsert',
        htake.symm.trans htake', hdrop.symm.trans hdrop']

/-! ### Spans that are absorbed by one -/

theorem absorb_ne_nil (current : Span) (spans : List Span) : absorb current spans ≠ [] := by
  induction spans generalizing current with
  | nil => exact List.cons_ne_nil _ _
  | cons s rest ih =>
    rw [absorb]
    split
    · exact ih _
    · exact List.cons_ne_nil _ _

/-- What bounds a span that has grown bounds the two that it has grown from. -/
theorem forall_stop_le_of_grown {current s : Span} {spans : List Span} {n : Nat}
    (h : ∀ r ∈ { current with stop := max current.stop s.stop } :: spans, r.stop ≤ n) :
    ∀ r ∈ current :: s :: spans, r.stop ≤ n := by
  obtain ⟨hgrown, hspans⟩ := List.forall_mem_cons.mp h
  obtain ⟨hcurrent, hs⟩ := Nat.max_le.mp hgrown
  exact List.forall_mem_cons.mpr ⟨hcurrent, List.forall_mem_cons.mpr ⟨hs, hspans⟩⟩

/-- Spans that become one: none reaches beyond it, and every cut goes through one of them. -/
theorem of_absorb_eq_singleton {current u : Span} {spans : List Span}
    (h : absorb current spans = [u]) :
    (u.start = current.start ∧ u.kind = current.kind) ∧
      (∀ s ∈ current :: spans, s.stop ≤ u.stop) ∧
      ∀ x, current.start < x → x < u.stop →
        ∃ s ∈ current :: spans, s.start < x ∧ x < s.stop := by
  induction spans generalizing current with
  | nil =>
    obtain rfl : current = u := by simpa [absorb] using h
    refine ⟨⟨rfl, rfl⟩, fun s hs => ?_, fun x hstart hstop => ?_⟩
    · rw [List.mem_singleton.mp hs]
    · exact ⟨current, List.mem_cons_self, hstart, hstop⟩
  | cons s rest ih =>
    rw [absorb] at h
    split at h
    next hreach =>
      obtain ⟨hlike, hstop, hcut⟩ := ih h
      refine ⟨hlike, forall_stop_le_of_grown hstop, fun x hx hxu => ?_⟩
      obtain ⟨r, hr, hrx, hxr⟩ := hcut x hx hxu
      rcases List.mem_cons.mp hr with rfl | hr
      · -- the cut goes through the grown span, so through one of its two parts
        rcases Nat.lt_or_ge x current.stop with hin | hout
        · exact ⟨current, List.mem_cons_self, hx, hin⟩
        · have hxs : x < s.stop := by
            simp only at hxr
            omega
          exact ⟨s, by simp, by omega, hxs⟩
      · exact ⟨r, by simp [hr], hrx, hxr⟩
    next => exact absurd (List.cons.inj h).2 (absorb_ne_nil s rest)

/-- Spans that are all within reach and through which every cut goes become one. -/
theorem absorb_eq_singleton {current : Span} {spans : List Span} {n : Nat}
    (hcurrent : current.start < current.stop ∧ current.stop ≤ n)
    (hspans : ∀ s ∈ spans, s.start < s.stop ∧ s.stop ≤ n)
    (hsorted : spans.Pairwise fun a b => a.start ≤ b.start)
    (hcut : ∀ x, current.stop ≤ x → x < n → ∃ s ∈ spans, s.start < x ∧ x < s.stop) :
    absorb current spans = [⟨current.start, n, current.kind⟩] := by
  induction spans generalizing current with
  | nil =>
    have hstop : current.stop = n := by
      by_contra hne
      obtain ⟨s, hs, -⟩ := hcut current.stop le_rfl (by omega)
      cases hs
    rw [absorb, ← hstop]
  | cons s rest ih =>
    obtain ⟨hs, hrest⟩ := List.forall_mem_cons.mp hspans
    obtain ⟨hbefore, htail⟩ := List.pairwise_cons.mp hsorted
    -- the next span is within reach, since the cut at the end of the current one goes through a
    -- span
    have hreach : s.start < current.stop := by
      rcases Nat.lt_or_ge current.stop n with hlt | hge
      · obtain ⟨r, hr, hrx, -⟩ := hcut current.stop le_rfl hlt
        rcases List.mem_cons.mp hr with rfl | hr
        · exact hrx
        · have := hbefore r hr
          omega
      · omega
    have hmax : max current.stop s.stop ≤ n := Nat.max_le.mpr ⟨hcurrent.2, hs.2⟩
    rw [absorb, if_pos hreach]
    refine ih ⟨?_, hmax⟩ hrest htail fun x hx hxn => ?_
    · simp only
      omega
    · simp only at hx
      obtain ⟨r, hr, hrx, hxr⟩ := hcut x (by omega) hxn
      rcases List.mem_cons.mp hr with rfl | hr
      · omega
      · exact ⟨r, hr, hrx, hxr⟩

/-- Of spans in the order of their starts, none starts before the first. -/
theorem start_le_of_mem {first s : Span} {rest : List Span}
    (hsorted : (first :: rest).Pairwise fun a b => a.start ≤ b.start) (hs : s ∈ first :: rest) :
    first.start ≤ s.start := by
  rcases List.mem_cons.mp hs with rfl | hs
  · exact le_rfl
  · exact (List.pairwise_cons.mp hsorted).1 s hs

/-- A span that comes out of absorbing is made of a run of the spans; those before it stop before it
starts, and those after it start when it has stopped. -/
theorem exists_run_of_mem_absorb {current u : Span} {spans : List Span}
    (hsorted : (current :: spans).Pairwise fun a b => a.start ≤ b.start)
    (h : u ∈ absorb current spans) :
    ∃ before first run after, current :: spans = before ++ first :: (run ++ after) ∧
      absorb first run = [u] ∧ (∀ s ∈ before, s.stop ≤ u.start) ∧
      ∀ s ∈ after, u.stop ≤ s.start := by
  induction spans generalizing current with
  | nil =>
    obtain rfl : u = current := by simpa [absorb] using h
    exact ⟨[], u, [], [], rfl, rfl, by simp, by simp⟩
  | cons s rest ih =>
    obtain ⟨hle, htail⟩ := List.pairwise_cons.mp hsorted
    rw [absorb] at h
    split at h
    next hreach =>
      -- the span grows by the next one: both are in the run, or both come before it
      have hsorted' : ({ current with stop := max current.stop s.stop } :: rest).Pairwise
          fun a b => a.start ≤ b.start :=
        List.pairwise_cons.mpr ⟨fun r hr => hle r (List.mem_cons_of_mem _ hr), htail.tail⟩
      obtain ⟨before, first, run, after, heq, hone, hbefore, hafter⟩ := ih hsorted' h
      cases before with
      | nil =>
        obtain ⟨rfl, hrest⟩ := List.cons.inj heq
        refine ⟨[], current, s :: run, after, ?_, ?_, by simp, hafter⟩
        · rw [hrest]
          rfl
        · rw [absorb, if_pos hreach, hone]
      | cons grown before =>
        obtain ⟨rfl, hrest⟩ := List.cons.inj heq
        refine ⟨current :: s :: before, first, run, after, ?_, hone,
          forall_stop_le_of_grown hbefore, hafter⟩
        rw [hrest]
        rfl
    next hreach =>
      rcases List.mem_cons.mp h with rfl | hmem
      · refine ⟨[], u, [], s :: rest, rfl, rfl, by simp, fun r hr => ?_⟩
        have hstart := start_le_of_mem htail hr
        omega
      · obtain ⟨before, first, run, after, heq, hone, hbefore, hafter⟩ := ih htail hmem
        refine ⟨current :: before, first, run, after, by rw [heq]; rfl, hone, ?_, hafter⟩
        have hfirst : s.start ≤ first.start := start_le_of_mem htail (by simp [heq])
        have hstart := (of_absorb_eq_singleton hone).1.1
        intro r hr
        rcases List.mem_cons.mp hr with rfl | hr
        · omega
        · exact hbefore r hr

/-- What is absorbed stands within the outcome. -/
theorem exists_mem_absorb {current g : Span} {spans : List Span}
    (hsorted : (current :: spans).Pairwise fun a b => a.start ≤ b.start)
    (hg : g ∈ current :: spans) :
    ∃ u ∈ absorb current spans, u.start ≤ g.start ∧ g.stop ≤ u.stop := by
  induction spans generalizing current g with
  | nil =>
    obtain rfl := List.mem_singleton.mp hg
    exact ⟨g, List.mem_singleton_self g, le_rfl, le_rfl⟩
  | cons s rest ih =>
    obtain ⟨hfirst, hrest⟩ := List.pairwise_cons.mp hsorted
    obtain ⟨hs, hrest'⟩ := List.pairwise_cons.mp hrest
    rw [absorb]
    split
    · -- the current span grows, and holds both that it was and the next one
      have hsorted' : ({ current with stop := max current.stop s.stop } :: rest).Pairwise
          fun a b => a.start ≤ b.start :=
        List.pairwise_cons.mpr ⟨fun b hb => hfirst b (List.mem_cons_of_mem _ hb), hrest'⟩
      have hgrown := ih hsorted' List.mem_cons_self
      obtain ⟨u, hu, hstart, hstop⟩ := hgrown
      simp only at hstart hstop
      rcases List.mem_cons.mp hg with rfl | hg
      · exact ⟨u, hu, hstart, by omega⟩
      · rcases List.mem_cons.mp hg with rfl | hg
        · have hle := hfirst g List.mem_cons_self
          exact ⟨u, hu, by omega, by omega⟩
        · exact ih hsorted' (List.mem_cons_of_mem _ hg)
    · rcases List.mem_cons.mp hg with rfl | hg
      · exact ⟨g, List.mem_cons_self, le_rfl, le_rfl⟩
      · obtain ⟨u, hu, hwithin⟩ := ih hrest hg
        exact ⟨u, List.mem_cons_of_mem _ hu, hwithin⟩

theorem exists_mem_unite {g : Span} {spans : List Span} (hg : g ∈ spans) :
    ∃ u ∈ unite spans, u.start ≤ g.start ∧ g.stop ≤ u.stop := by
  have hsorted := pairwise_mergeSort_precedes spans
  have hmem : g ∈ spans.mergeSort precedes := List.mem_mergeSort.mpr hg
  rw [unite]
  split
  next heq => rw [heq] at hmem; cases hmem
  next s rest heq =>
    rw [heq] at hsorted hmem
    exact exists_mem_absorb hsorted hmem

/-! ### United spans -/

/-- What a **united span** is made of: each of the spans is apart from it or within it, every cut
through it goes through one of them, and its kind is that of the first among those that start where
it starts. -/
structure United (spans : List Span) (u : Span) : Prop where
  apart_or_within : ∀ s ∈ spans,
    s.stop ≤ u.start ∨ u.stop ≤ s.start ∨ u.start ≤ s.start ∧ s.stop ≤ u.stop
  exists_cut : ∀ x, u.start < x → x < u.stop → ∃ s ∈ spans, s.start < x ∧ x < s.stop
  kind_eq : ((spans.filter (·.start == u.start)).mergeSort precedes).head?.map Span.kind =
    some u.kind

theorem united_of_mem_unite {spans : List Span} {u : Span}
    (hspans : ∀ s ∈ spans, s.start < s.stop) (h : u ∈ unite spans) : United spans u := by
  have hsorted := pairwise_mergeSort_precedes spans
  rw [unite] at h
  split at h
  next => cases h
  next current rest heq =>
    rw [heq] at hsorted
    obtain ⟨before, first, run, after, hsplit, hone, hbefore, hafter⟩ :=
      exists_run_of_mem_absorb hsorted h
    obtain ⟨⟨hstart, hkind⟩, hstop, hcut⟩ := of_absorb_eq_singleton hone
    rw [hsplit] at heq hsorted
    have hmem : ∀ {s : Span}, s ∈ spans ↔ s ∈ before ++ first :: (run ++ after) := by
      intro s
      rw [← heq, List.mem_mergeSort]
    have hfirst : ∀ s ∈ run, first.start ≤ s.start := fun s hs =>
      (List.pairwise_cons.mp (List.pairwise_append.mp hsorted).2.1).1 s
        (List.mem_append_left _ hs)
    refine ⟨fun s hs => ?_, fun x hx hxu => ?_, ?_⟩
    -- the spans of the run are within, and those before and after it are apart
    · rcases List.mem_append.mp (hmem.mp hs) with hs | hs
      · exact Or.inl (hbefore s hs)
      · rcases List.mem_cons.mp hs with rfl | hs
        · exact Or.inr (Or.inr ⟨hstart.le, hstop s List.mem_cons_self⟩)
        · rcases List.mem_append.mp hs with hs | hs
          · refine Or.inr (Or.inr ⟨?_, hstop s (List.mem_cons_of_mem _ hs)⟩)
            rw [hstart]
            exact hfirst s hs
          · exact Or.inr (Or.inl (hafter s hs))
    · obtain ⟨s, hs, hsx⟩ := hcut x (by omega) hxu
      refine ⟨s, hmem.mpr (List.mem_append_right _ ?_), hsx⟩
      rcases List.mem_cons.mp hs with rfl | hs
      · exact List.mem_cons_self
      · exact List.mem_cons_of_mem _ (List.mem_append_left _ hs)
    · -- nothing before the run starts where it does
      have hnone : before.filter (·.start == u.start) = [] := by
        refine List.filter_eq_nil_iff.mpr fun s hs heq' => ?_
        have hlt := hspans s (hmem.mpr (List.mem_append_left _ hs))
        have hle := hbefore s hs
        rw [beq_iff_eq] at heq'
        omega
      rw [← filter_mergeSort precedes_trans precedes_total, heq, List.filter_append, hnone,
        List.filter_cons_of_pos (by rw [hstart, beq_self_eq_true]), List.nil_append,
        List.head?_cons, Option.map_some, hkind]

/-- **Spans that are all within one united span** unite to it. -/
theorem United.unite_eq {spans : List Span} {n : Nat} {kind : Section.Kind}
    (h : United spans ⟨0, n, kind⟩) (hspans : ∀ s ∈ spans, s.start < s.stop ∧ s.stop ≤ n) :
    unite spans = [⟨0, n, kind⟩] := by
  have hkind := h.kind_eq
  have hsorted := pairwise_mergeSort_precedes spans
  rw [← filter_mergeSort precedes_trans precedes_total] at hkind
  rw [unite]
  split
  next heq =>
    rw [heq] at hkind
    cases hkind
  next current rest heq =>
    have hmem : ∀ {s : Span}, s ∈ spans ↔ s ∈ current :: rest := by
      intro s
      rw [← heq, List.mem_mergeSort]
    rw [heq] at hkind hsorted
    -- some span starts at the very beginning, so the first one does
    have hzero : current.start = 0 := by
      obtain ⟨s, hs, -⟩ := Option.map_eq_some_iff.mp hkind
      obtain ⟨hs, hs0⟩ := List.mem_filter.mp (List.mem_of_mem_head? hs)
      simp only [beq_iff_eq] at hs0
      have hle := start_le_of_mem hsorted hs
      omega
    rw [List.filter_cons_of_pos (by simp [hzero]), List.head?_cons, Option.map_some,
      Option.some.injEq] at hkind
    have hone : absorb current rest = [⟨current.start, n, current.kind⟩] := by
      refine absorb_eq_singleton (hspans current (hmem.mpr List.mem_cons_self))
        (fun s hs => hspans s (hmem.mpr (List.mem_cons_of_mem _ hs)))
        (List.pairwise_cons.mp hsorted).2 fun x hx hxn => ?_
      have hlt := hspans current (hmem.mpr List.mem_cons_self)
      obtain ⟨s, hs, hsx⟩ := h.exists_cut x (by simp only; omega) hxn
      rcases List.mem_cons.mp (hmem.mp hs) with rfl | hs
      · omega
      · exact ⟨s, hs, hsx⟩
    rw [hone, hzero, hkind]

end VbaModules.Partition

import Mathlib.Data.List.Sort
import VbaModules.Proofs.SlicedMatches

/-!
# What the searches propose in a slice of a module

A slice is searched from the start of a line on. Each search finds in it what it finds in the module
within the slice, and what it finds at the beginning of the slice it finds in the module too
(`FindsAlike`), on conditions of its own: a search line by line needs that no line goes beyond the
slice, a search that keeps a state that what it finds does not straddle the beginning.

The slice may have more candidates further on. What an unclosed conditional block or an unclosed
procedure hides in the module is not hidden if the slice begins after its first line.
-/

namespace VbaModules

open Token Text

/-- The span with its positions counted from `a` positions earlier on. -/
def Span.shift (a : Nat) (s : Span) : Span :=
  ⟨a + s.start, a + s.stop, s.kind⟩

namespace Span

theorem exists_shift {a : Nat} {s : Span} (hstart : a ≤ s.start) (hstop : a ≤ s.stop) :
    ∃ s' : Span, s = s'.shift a := by
  refine ⟨⟨s.start - a, s.stop - a, s.kind⟩, ?_⟩
  rw [shift, Nat.add_sub_cancel' hstart, Nat.add_sub_cancel' hstop]

theorem shift_injective (a : Nat) : Function.Injective (shift a) := by
  rintro ⟨start, stop, kind⟩ ⟨start', stop', kind'⟩ h
  simp only [shift, Span.mk.injEq, Nat.add_left_cancel_iff] at h
  simpa using h

end Span

namespace Candidate

/-- A search **finds alike** in a module and in its slice from `a` to `b`: what it finds in the
module within the slice it finds in the slice, and what it finds at the beginning of the slice it
finds in the module. -/
structure FindsAlike (find : List Token → List Span) (tokens : List Token) (a b : Nat) : Prop where
  found : ∀ s : Span, s.shift a ∈ find tokens → a + s.stop ≤ b → s ∈ find (slice tokens a b)
  first : ∀ s ∈ find (slice tokens a b), s.start = 0 → s.shift a ∈ find tokens

/-! ### Searches line by line -/

/-- The lines in which the pattern matches at the start, from there to their ends, of the kind that
the last token of the match tells. -/
def lineSpans (p : Pattern) (kind? : Option Token → Option Section.Kind) (tokens : List Token) :
    List Span :=
  (p.lineMatches tokens).filterMap fun m =>
    (kind? (lastToken? tokens m)).map fun kind => ⟨m.start, lineEnd tokens m.stop, kind⟩

/-- Declarations are found line by line. -/
theorem declarations_eq_lineSpans (tokens : List Token) :
    declarations tokens = lineSpans declarationStart
      (fun t => some (declarationKind ((t.map fun t => foldCase t.text).getD ""))) tokens := by
  rw [declarations, lineSpans, ← List.filterMap_eq_map]
  rfl

/-- Variables and constants are found line by line. -/
theorem globals_eq_lineSpans (tokens : List Token) :
    globals tokens =
      lineSpans variableStart (fun t => if t.any canNameVariable then some .global else none)
          tokens ++
        lineSpans constantStart (fun _ => some .global) tokens := by
  rw [globals, List.map_append, lineSpans, lineSpans]
  congr 1
  · rw [← List.filterMap_eq_map, List.filterMap_filter]
    refine List.filterMap_congr fun m _ => ?_
    cases (lastToken? tokens m).any canNameVariable <;> rfl
  · rw [← List.filterMap_eq_map]
    rfl

section Lines

variable {p : Pattern} {kind? : Option Token → Option Section.Kind} {tokens : List Token}
  {a b : Nat}

/-- What a search by lines finds: from the start of a match to the end of its line. -/
theorem mem_lineSpans_iff (hstays : p.staysInLine = true) {s : Span} :
    s ∈ lineSpans p kind? tokens ↔
      ∃ m, p.IsMatch true tokens m ∧ kind? (lastToken? tokens m) = some s.kind ∧
        s.start = m.start ∧ s.stop = lineEnd tokens m.stop := by
  rw [lineSpans, List.mem_filterMap]
  simp only [Pattern.mem_lineMatches_iff hstays, Option.map_eq_some_iff]
  constructor
  · rintro ⟨m, hm, kind, hkind, rfl⟩
    exact ⟨m, hm, hkind, rfl, rfl⟩
  · rintro ⟨m, hm, hkind, hstart, hstop⟩
    obtain ⟨start, stop, kind⟩ := s
    exact ⟨m, hm, kind, hkind, by rw [← hstart, ← hstop]⟩

/-- The lines that are found begin one after the other. -/
theorem pairwise_lineSpans (p : Pattern) (kind? : Option Token → Option Section.Kind)
    (tokens : List Token) :
    (lineSpans p kind? tokens).Pairwise fun s t => s.start < t.start := by
  refine List.pairwise_filterMap.mpr ((p.pairwise_matchesFrom true tokens 0).imp ?_)
  intro m m' hlt s hs t ht
  obtain ⟨-, -, rfl⟩ := Option.map_eq_some_iff.mp hs
  obtain ⟨-, -, rfl⟩ := Option.map_eq_some_iff.mp ht
  exact hlt

/-- A match in a slice ends with the token that it ends with in the module. -/
theorem lastToken?_slice {m : Match} (hpos : 0 < m.stop) (hstop : a + m.stop ≤ b) :
    lastToken? (slice tokens a b) m = lastToken? tokens (m.shift a) := by
  rw [lastToken?, lastToken?, getElem?_slice (by omega), Match.shift, Nat.add_sub_assoc hpos]

/-- The lines of a slice are the lines of the module that start in it, if none goes beyond it. -/
theorem mem_lineSpans_slice_iff (hstays : p.staysInLine = true)
    (hends : Pattern.endsTaking p.elements = true) (hline : beginsLine tokens a = true)
    (hb : b ≤ tokens.length)
    (hwithin : ∀ s ∈ lineSpans p kind? tokens, a ≤ s.start → s.start < b → s.stop ≤ b)
    {s : Span} :
    s ∈ lineSpans p kind? (slice tokens a b) ↔
      s.shift a ∈ lineSpans p kind? tokens ∧ a + s.start < b := by
  constructor
  · intro h
    obtain ⟨m, hmatch, hkind, hstart, hstop⟩ := (mem_lineSpans_iff hstays).mp h
    obtain ⟨hmatch', hle⟩ := (Pattern.isMatch_slice_iff hends hline).mp hmatch
    have hlt := hmatch.start_lt_stop
    rw [lastToken?_slice (by omega) hle] at hkind
    -- the line in the module does not go beyond the slice, so it ends where the line in the slice
    -- does
    have hwhole : ⟨a + s.start, lineEnd tokens (a + m.stop), s.kind⟩ ∈
        lineSpans p kind? tokens :=
      (mem_lineSpans_iff hstays).mpr ⟨_, hmatch', hkind, by rw [hstart]; rfl, rfl⟩
    have hend := hwithin _ hwhole (Nat.le_add_right _ _) (by simp only; omega)
    rw [Span.shift, hstop, lineEnd_slice hb hle hend]
    exact ⟨hwhole, by omega⟩
  · rintro ⟨h, hlt⟩
    obtain ⟨m, hmatch, hkind, hstart, hstop⟩ := (mem_lineSpans_iff hstays).mp h
    have hend := hwithin _ h (Nat.le_add_right _ _) hlt
    have hpos := hmatch.start_lt_stop
    have hle := (lineEnd_bounds hmatch.stop_le).1
    simp only [Span.shift] at hkind hstart hstop hend
    obtain ⟨m, rfl⟩ := Match.exists_shift (a := a) (m := m) (by omega) (by omega)
    simp only [Match.shift] at hstart hstop hle hpos
    have hin : a + m.stop ≤ b := by omega
    refine (mem_lineSpans_iff hstays).mpr ⟨m,
      (Pattern.isMatch_slice_iff hends hline).mpr ⟨hmatch, hin⟩, ?_, by omega, ?_⟩
    · rw [lastToken?_slice (by omega) hin]
      exact hkind
    · have hline' := lineEnd_slice hb hin (by omega)
      omega

/-- **A search by lines finds the same in a slice**, if no line that is found leaves it. -/
theorem findsAlike_lineSpans (hstays : p.staysInLine = true)
    (hends : Pattern.endsTaking p.elements = true) (hline : beginsLine tokens a = true)
    (hb : b ≤ tokens.length)
    (hwithin : ∀ s ∈ lineSpans p kind? tokens, a ≤ s.start → s.start < b → s.stop ≤ b) :
    FindsAlike (lineSpans p kind?) tokens a b where
  found s hs hstop := by
    obtain ⟨m, hmatch, -, hstart, hend⟩ := (mem_lineSpans_iff hstays).mp hs
    have hpos := hmatch.start_lt_stop
    have hle := (lineEnd_bounds hmatch.stop_le).1
    simp only [Span.shift] at hstart hend
    exact (mem_lineSpans_slice_iff hstays hends hline hb hwithin).mpr ⟨hs, by omega⟩
  first s hs _ := ((mem_lineSpans_slice_iff hstays hends hline hb hwithin).mp hs).1

end Lines

/-! ### Searches that keep a state -/

/-- Of spans that begin one after the other, no two begin at one place. -/
theorem eq_of_pairwise_start {spans : List Span}
    (h : spans.Pairwise fun s t => s.start < t.start) {s t : Span} (hs : s ∈ spans)
    (ht : t ∈ spans) (heq : s.start = t.start) : s = t := by
  have hnodup : (spans.map Span.start).Nodup :=
    List.pairwise_map.mpr (h.imp fun hlt => Nat.ne_of_lt hlt)
  exact List.inj_on_of_nodup_map hnodup hs ht heq

/-- Spans that stand in the order of their starts are told by their members. -/
theorem eq_of_mem_iff_of_pairwise {spans spans' : List Span}
    (h : spans.Pairwise fun s t => s.start < t.start)
    (h' : spans'.Pairwise fun s t => s.start < t.start) (hmem : ∀ s, s ∈ spans ↔ s ∈ spans') :
    spans = spans' := by
  have : Std.Irrefl fun s t : Span => s.start < t.start := ⟨fun s => Nat.lt_irrefl s.start⟩
  have : Std.Antisymm fun s t : Span => s.start < t.start :=
    ⟨fun s t hst hts => absurd hts (Nat.lt_asymm hst)⟩
  exact h.eq_of_mem_iff h' hmem

/-- A search finds alike if it finds in the slice what it finds in the module within it, and if it
finds something at the start of the slice in the module whenever it does in the slice. -/
theorem FindsAlike.of_found {find : List Token → List Span} {tokens : List Token} {a b : Nat}
    (hfound : ∀ s : Span, s.shift a ∈ find tokens → a + s.stop ≤ b → s ∈ find (slice tokens a b))
    (hpairwise : (find (slice tokens a b)).Pairwise fun s t => s.start < t.start)
    (hfirst : ∀ s ∈ find (slice tokens a b), s.start = 0 →
      ∃ g ∈ find tokens, g.start = a ∧ g.start < g.stop ∧ g.stop ≤ b) :
    FindsAlike find tokens a b where
  found := hfound
  first s hs hzero := by
    obtain ⟨g, hg, hstart, hlt, hstop⟩ := hfirst s hs hzero
    obtain ⟨g, rfl⟩ := Span.exists_shift (s := g) hstart.ge (hstart.symm.trans_lt hlt).le
    simp only [Span.shift] at hstart hstop
    have hsame : s = g :=
      eq_of_pairwise_start hpairwise hs (hfound g hg hstop) (by omega)
    rw [hsame]
    exact hg

/-! ### Conditional blocks -/

/-- What one token does to the search for conditional blocks: the block that it closes, and the
block that is open after it. -/
def conditionalStep (position : Nat) (opened : Option (Nat × Nat)) (t : Token) :
    List Span × Option (Nat × Nat) :=
  match t.kind, opened with
  | .conditional .opening, none => ([], some (position, 0))
  | .conditional .opening, some (start, inner) => ([], some (start, inner + 1))
  | .conditional .closing, some (start, 0) => ([⟨start, position + 1, .conditional⟩], none)
  | .conditional .closing, some (start, inner + 1) => ([], some (start, inner))
  | _, _ => ([], opened)

/-- The search for conditional blocks, one token at a time. -/
theorem conditionalsFrom_cons (position : Nat) (opened : Option (Nat × Nat)) (t : Token)
    (ts : List Token) :
    (conditionalsFrom position opened (t :: ts)).1 =
      (conditionalStep position opened t).1 ++
        (conditionalsFrom (position + 1) (conditionalStep position opened t).2 ts).1 := by
  obtain ⟨kind, text⟩ := t
  rcases opened with _ | ⟨start, _ | inner⟩ <;>
    rcases kind with _ | _ | _ | _ | _ | _ | (_ | _ | _ | _) | _ <;> rfl

/-- A token opens a block, closes the block that is open, or does neither. -/
theorem conditionalStep_cases (position : Nat) (opened : Option (Nat × Nat)) (t : Token) :
    (opened = none ∧ conditionalStep position opened t = ([], none)) ∨
      (opened = none ∧ t.kind = .conditional .opening ∧
        conditionalStep position opened t = ([], some (position, 0))) ∨
      ∃ start inner, opened = some (start, inner) ∧
        ((∃ inner', conditionalStep position opened t = ([], some (start, inner'))) ∨
          conditionalStep position opened t = ([⟨start, position + 1, .conditional⟩], none)) := by
  rcases opened with _ | ⟨start, inner⟩
  · by_cases hkind : t.kind = .conditional .opening
    · exact Or.inr (Or.inl ⟨rfl, hkind, by simp [conditionalStep, hkind]⟩)
    · exact Or.inl ⟨rfl, by simp [conditionalStep, hkind]⟩
  · refine Or.inr (Or.inr ⟨start, inner, rfl, ?_⟩)
    obtain ⟨kind, text⟩ := t
    rcases inner with _ | inner <;>
      rcases kind with _ | _ | _ | _ | _ | _ | (_ | _ | _ | _) | _ <;> simp [conditionalStep]

/-- The block that is open after the tokens. -/
def openedAfter (position : Nat) (opened : Option (Nat × Nat)) : List Token → Option (Nat × Nat)
  | [] => opened
  | t :: ts => openedAfter (position + 1) (conditionalStep position opened t).2 ts

/-- The search goes on behind the first tokens with what they left open. -/
theorem conditionalsFrom_append (position : Nat) (opened : Option (Nat × Nat))
    (ts us : List Token) :
    (conditionalsFrom position opened (ts ++ us)).1 =
      (conditionalsFrom position opened ts).1 ++
        (conditionalsFrom (position + ts.length) (openedAfter position opened ts) us).1 := by
  induction ts generalizing position opened with
  | nil => rfl
  | cons t ts ih =>
    rw [List.cons_append, conditionalsFrom_cons, conditionalsFrom_cons, ih, openedAfter,
      List.append_assoc, List.length_cons, Nat.add_right_comm, Nat.add_assoc]

/-- What is left open began before. -/
theorem openedAfter_lt {position : Nat} {opened : Option (Nat × Nat)} {ts : List Token}
    (h : ∀ o ∈ opened, o.1 < position) :
    ∀ o ∈ openedAfter position opened ts, o.1 < position + ts.length := by
  induction ts generalizing position opened with
  | nil => exact h
  | cons t ts ih =>
    rw [openedAfter, List.length_cons, Nat.add_comm ts.length 1, ← Nat.add_assoc]
    refine ih fun o ho => ?_
    rcases conditionalStep_cases position opened t with
      ⟨-, hstep⟩ | ⟨-, -, hstep⟩ | ⟨start, inner, rfl, ⟨inner', hstep⟩ | hstep⟩
    · simp [hstep] at ho
    · obtain rfl : (position, 0) = o := by simpa [hstep] using ho
      exact Nat.lt_succ_self position
    · obtain rfl : (start, inner') = o := by simpa [hstep] using ho
      exact Nat.lt_succ_of_lt (h (start, inner) rfl)
    · simp [hstep] at ho

/-- A conditional block starts with the block that is open, or with a directive that opens it. -/
theorem start_of_mem_conditionalsFrom {position : Nat} {opened : Option (Nat × Nat)}
    {ts : List Token} {s : Span} (h : s ∈ (conditionalsFrom position opened ts).1) :
    (∃ o ∈ opened, s.start = o.1) ∨
      ∃ i t, s.start = position + i ∧ ts[i]? = some t ∧ t.kind = .conditional .opening := by
  induction ts generalizing position opened with
  | nil => cases h
  | cons t ts ih =>
    have hlater : ∀ {i u}, s.start = position + 1 + i → ts[i]? = some u →
        u.kind = .conditional .opening →
        ∃ i u, s.start = position + i ∧ (t :: ts)[i]? = some u ∧
          u.kind = .conditional .opening :=
      fun {i u} hstart hu hkind => ⟨i + 1, u, by omega, hu, hkind⟩
    rw [conditionalsFrom_cons, List.mem_append] at h
    -- the token does nothing, opens a block, stays within the open one, or closes it
    rcases conditionalStep_cases position opened t with
      ⟨rfl, hstep⟩ | ⟨rfl, hkind, hstep⟩ | ⟨start, inner, rfl, ⟨inner', hstep⟩ | hstep⟩
    all_goals
      rw [hstep] at h
      rcases h with hhere | hrest
    · cases hhere
    · obtain ⟨o, ho, -⟩ | ⟨i, u, hstart, hu, hkind⟩ := ih hrest
      · cases ho
      · exact Or.inr (hlater hstart hu hkind)
    · cases hhere
    · obtain ⟨o, ho, hstart⟩ | ⟨i, u, hstart, hu, hkind⟩ := ih hrest
      · obtain rfl : (position, 0) = o := by simpa using ho
        exact Or.inr ⟨0, t, hstart, rfl, hkind⟩
      · exact Or.inr (hlater hstart hu hkind)
    · cases hhere
    · obtain ⟨o, ho, hstart⟩ | ⟨i, u, hstart, hu, hkind⟩ := ih hrest
      · obtain rfl : (start, inner') = o := by simpa using ho
        exact Or.inl ⟨_, rfl, hstart⟩
      · exact Or.inr (hlater hstart hu hkind)
    · obtain rfl := List.mem_singleton.mp hhere
      exact Or.inl ⟨_, rfl, rfl⟩
    · obtain ⟨o, ho, -⟩ | ⟨i, u, hstart, hu, hkind⟩ := ih hrest
      · cases ho
      · exact Or.inr (hlater hstart hu hkind)

/-- A block that is found from a position on ends behind it. -/
theorem lt_stop_of_mem_conditionalsFrom {position : Nat} {opened : Option (Nat × Nat)}
    {ts : List Token} {s : Span} (h : s ∈ (conditionalsFrom position opened ts).1) :
    position < s.stop := by
  induction ts generalizing position opened with
  | nil => cases h
  | cons t ts ih =>
    rw [conditionalsFrom_cons, List.mem_append] at h
    rcases h with hhere | hrest
    · rcases conditionalStep_cases position opened t with
        ⟨-, hstep⟩ | ⟨-, -, hstep⟩ | ⟨start, inner, -, ⟨inner', hstep⟩ | hstep⟩
      · simp [hstep] at hhere
      · simp [hstep] at hhere
      · simp [hstep] at hhere
      · obtain rfl : s = ⟨start, position + 1, .conditional⟩ := by simpa [hstep] using hhere
        exact Nat.lt_succ_self position
    · exact (Nat.lt_succ_self position).trans (ih hrest)

/-- While a block is open, the next block found is this one. -/
theorem exists_mem_conditionalsFrom_of_opened {position start inner : Nat} {ts : List Token}
    {s : Span} (h : s ∈ (conditionalsFrom position (some (start, inner)) ts).1) :
    ∃ s' ∈ (conditionalsFrom position (some (start, inner)) ts).1, s'.start = start := by
  induction ts generalizing position inner with
  | nil => cases h
  | cons t ts ih =>
    rw [conditionalsFrom_cons] at h ⊢
    rcases conditionalStep_cases position (some (start, inner)) t with
      ⟨hnone, -⟩ | ⟨hnone, -⟩ | ⟨start', inner', hopened, ⟨inner'', hstep⟩ | hstep⟩
    · cases hnone
    · cases hnone
    · obtain ⟨rfl, rfl⟩ : start = start' ∧ inner = inner' := by simpa using hopened
      rw [hstep] at h ⊢
      exact ih h
    · obtain ⟨rfl, rfl⟩ : start = start' ∧ inner = inner' := by simpa using hopened
      rw [hstep]
      exact ⟨_, List.mem_cons_self, rfl⟩

/-- Conditional blocks are found one after the other. -/
theorem pairwise_conditionalsFrom {position : Nat} {opened : Option (Nat × Nat)} {ts : List Token}
    (h : ∀ o ∈ opened, o.1 < position) :
    (conditionalsFrom position opened ts).1.Pairwise fun s t => s.start < t.start := by
  induction ts generalizing position opened with
  | nil => exact .nil
  | cons t ts ih =>
    rw [conditionalsFrom_cons]
    rcases conditionalStep_cases position opened t with
      ⟨-, hstep⟩ | ⟨-, -, hstep⟩ | ⟨start, inner, rfl, ⟨inner', hstep⟩ | hstep⟩
    · rw [hstep]
      exact ih (by simp)
    · rw [hstep]
      exact ih (by simp)
    · rw [hstep]
      refine ih fun o ho => ?_
      obtain rfl : (start, inner') = o := by simpa using ho
      exact Nat.lt_succ_of_lt (h (start, inner) rfl)
    · rw [hstep]
      refine List.pairwise_cons.mpr ⟨fun s hs => ?_, ih (by simp)⟩
      have hstart := h (start, inner) rfl
      obtain ⟨o, ho, -⟩ | ⟨i, u, hi, -⟩ := start_of_mem_conditionalsFrom hs
      · cases ho
      · simp only at hstart ⊢
        omega

theorem pairwise_conditionals (tokens : List Token) :
    (conditionals tokens).Pairwise fun s t => s.start < t.start :=
  pairwise_conditionalsFrom (by simp)

/-- Positions are only counted, not looked at. -/
theorem conditionalsFrom_add (a position : Nat) (opened : Option (Nat × Nat)) (ts : List Token) :
    (conditionalsFrom (a + position) (opened.map fun o => (a + o.1, o.2)) ts).1 =
      (conditionalsFrom position opened ts).1.map (Span.shift a) := by
  have hstep : ∀ position opened t,
      conditionalStep (a + position) (opened.map fun o => (a + o.1, o.2)) t =
        ((conditionalStep position opened t).1.map (Span.shift a),
          (conditionalStep position opened t).2.map fun o => (a + o.1, o.2)) := by
    rintro position opened ⟨kind, text⟩
    rcases opened with _ | ⟨start, _ | inner⟩ <;>
      rcases kind with _ | _ | _ | _ | _ | _ | (_ | _ | _ | _) | _ <;> rfl
  induction ts generalizing position opened with
  | nil => rfl
  | cons t ts ih =>
    rw [conditionalsFrom_cons, conditionalsFrom_cons, hstep, List.map_append, ← ih, Nat.add_assoc]

/-- The blocks that are closed before the slice, in it, and after it. -/
theorem conditionals_eq_append {tokens : List Token} {a b : Nat} (hab : a ≤ b)
    (hb : b ≤ tokens.length) :
    conditionals tokens = (conditionalsFrom 0 none (tokens.take a)).1 ++
      ((conditionalsFrom a (openedAfter 0 none (tokens.take a)) (slice tokens a b)).1 ++
        (conditionalsFrom b (openedAfter a (openedAfter 0 none (tokens.take a))
          (slice tokens a b)) (tokens.drop b)).1) := by
  have hlength : (tokens.take a).length = a := by
    rw [List.length_take, Nat.min_eq_left (hab.trans hb)]
  have hfront : tokens.take a ++ slice tokens a b = tokens.take b :=
    slice_append_slice (Nat.zero_le a) hab
  have hsplit : tokens = tokens.take a ++ (slice tokens a b ++ tokens.drop b) := by
    rw [← List.append_assoc, hfront, List.take_append_drop]
  conv_lhs => rw [conditionals, hsplit]
  rw [conditionalsFrom_append, conditionalsFrom_append, Nat.zero_add, hlength, length_slice hb,
    Nat.add_sub_cancel' hab]

/-- If no block straddles the beginning of the slice, the blocks that are closed in it are those of
the slice. A block open at the beginning would straddle it once it is closed. -/
theorem conditionalsFrom_slice {tokens : List Token} {a b : Nat} (hab : a ≤ b)
    (hb : b ≤ tokens.length)
    (hapart : ∀ s ∈ conditionals tokens, s.start < a → s.stop ≤ a) {s : Span}
    (hs : s ∈ (conditionalsFrom a (openedAfter 0 none (tokens.take a)) (slice tokens a b)).1) :
    s ∈ (conditionals (slice tokens a b)).map (Span.shift a) := by
  have hparts := conditionals_eq_append hab hb
  cases hopened : openedAfter 0 none (tokens.take a) with
  | none =>
    have hshift := conditionalsFrom_add a 0 none (slice tokens a b)
    rw [Nat.add_zero, Option.map_none] at hshift
    rw [hopened, hshift] at hs
    exact hs
  | some o =>
    obtain ⟨start, inner⟩ := o
    have hstart : start < a := by
      have hearlier := @openedAfter_lt 0 none (tokens.take a) (by simp)
      rw [List.length_take, Nat.min_eq_left (hab.trans hb)] at hearlier
      simpa using hearlier _ hopened
    rw [hopened] at hs hparts
    obtain ⟨s', hs', heq⟩ := exists_mem_conditionalsFrom_of_opened hs
    have hmem : s' ∈ conditionals tokens := by
      rw [hparts]
      exact List.mem_append_right _ (List.mem_append_left _ hs')
    have hle := hapart s' hmem (by omega)
    have hgt := lt_stop_of_mem_conditionalsFrom hs'
    omega

/-- The search for conditional blocks finds alike in a slice if no block straddles its beginning,
and if a directive that opens a block there does open one that is closed within the slice. -/
theorem findsAlike_conditionals {tokens : List Token} {a b : Nat} (hab : a ≤ b)
    (hb : b ≤ tokens.length)
    (hapart : ∀ s ∈ conditionals tokens, s.start < a → s.stop ≤ a)
    (hfirst : ∀ t, tokens[a]? = some t → t.kind = .conditional .opening →
      ∃ g ∈ conditionals tokens, g.start = a ∧ g.stop ≤ b) :
    FindsAlike conditionals tokens a b := by
  have hlt : ∀ s ∈ conditionals tokens, s.start < s.stop := fun s hs =>
    (proposal_of_mem_conditionalsFrom (by simp) hs).start_lt_stop
  refine .of_found (fun s hs hstop => ?_) (pairwise_conditionals _) fun s hs hzero => ?_
  · have hs_lt := hlt _ hs
    rw [conditionals_eq_append hab hb, List.mem_append, List.mem_append] at hs
    rcases hs with hbefore | hwithin | hafter
    · have hle := (proposal_of_mem_conditionalsFrom (by simp) hbefore).stop_le
      simp only [Span.shift, List.length_take] at hs_lt hle
      omega
    · exact (List.mem_map_of_injective (Span.shift_injective a)).mp
        (conditionalsFrom_slice hab hb hapart hwithin)
    · have hafter' := lt_stop_of_mem_conditionalsFrom hafter
      simp only [Span.shift] at hafter'
      omega
  · obtain ⟨o, ho, -⟩ | ⟨i, t, hi, ht, hkind⟩ := start_of_mem_conditionalsFrom hs
    · cases ho
    · obtain rfl : i = 0 := by omega
      have hpos : a < b := by
        have hne := (List.getElem?_eq_some_iff.mp ht).1
        rw [length_slice hb] at hne
        omega
      rw [getElem?_slice (by omega)] at ht
      obtain ⟨g, hg, hstart, hstop⟩ := hfirst t ht hkind
      exact ⟨g, hg, hstart, hlt g hg, hstop⟩

/-! ### Procedures and types -/

/-- A block begins with a header, no earlier than the search for it. -/
theorem start_of_mem_blocksFrom {tokens : List Token} {position : Nat} {s : Span}
    (h : s ∈ blocksFrom tokens position) :
    position ≤ s.start ∧ ∃ header, blockHeader.IsMatch true tokens header ∧
      header.start = s.start := by
  fun_induction blocksFrom tokens position with
  | case1 => cases h
  | case2 => cases h
  | case3 position header hheader keyword closer hcloser ih =>
    obtain ⟨hle, hmatch, -⟩ := Pattern.next?_eq_some_iff.mp hheader
    rcases List.mem_cons.mp h with rfl | hrest
    · exact ⟨hle, header, hmatch, rfl⟩
    · obtain ⟨hlater, hexists⟩ := ih hrest
      have hbounds := Pattern.next?_bounds hcloser
      have hlt := hmatch.start_lt_stop
      exact ⟨by omega, hexists⟩

/-- Procedures and types are found one after the other. -/
theorem pairwise_blocksFrom (tokens : List Token) (position : Nat) :
    (blocksFrom tokens position).Pairwise fun s t => s.start < t.start := by
  fun_induction blocksFrom tokens position with
  | case1 => exact .nil
  | case2 => exact .nil
  | case3 position header hheader keyword closer hcloser ih =>
    refine List.pairwise_cons.mpr ⟨fun s hs => ?_, ih⟩
    have hstart := (start_of_mem_blocksFrom hs).1
    have hheader' := Pattern.next?_bounds hheader
    have hcloser' := Pattern.next?_bounds hcloser
    simp only
    omega

theorem endsTaking_blockCloser (keyword : String) :
    Pattern.endsTaking (blockCloser keyword).elements = true := rfl

/-- A block of the module that is closed within the slice is found there, if the search begins at
the same place. -/
theorem mem_blocksFrom_slice {tokens : List Token} {a b : Nat}
    (hline : beginsLine tokens a = true) {start : Nat} {s : Span}
    (h : s.shift a ∈ blocksFrom tokens start) (hstop : a + s.stop ≤ b) :
    ∀ {position : Nat}, a + position = start →
      s ∈ blocksFrom (slice tokens a b) position := by
  fun_induction blocksFrom tokens start with
  | case1 => cases h
  | case2 => cases h
  | case3 start header hheader keyword closer hcloser ih =>
    rintro position rfl
    have hheader' := Pattern.next?_bounds hheader
    have hcloser' := Pattern.next?_bounds hcloser
    obtain ⟨header, rfl⟩ := Match.exists_shift (a := a) (m := header) (by omega) (by omega)
    obtain ⟨closer, rfl⟩ := Match.exists_shift (a := a) (m := closer) (by omega) (by omega)
    simp only [Match.shift] at hheader' hcloser'
    -- the block is the first one, or it comes after that
    have hwithin : a + closer.stop ≤ b := by
      rcases List.mem_cons.mp h with hs | hrest
      · have hsame := congrArg Span.stop hs
        simp only [Span.shift, Match.shift] at hsame
        omega
      · have hlater := (start_of_mem_blocksFrom hrest).1
        have hlt := (proposal_of_mem_blocksFrom hrest).start_lt_stop
        simp only [Span.shift, Match.shift] at hlater hlt
        omega
    have hkeyword : lastWord (slice tokens a b) header = keyword := by
      rw [lastWord, lastToken?_slice (by omega) (by omega)]
      rfl
    have hsearch := Pattern.next?_slice rfl hline hheader (by omega : a + header.stop ≤ b)
    have hclose := Pattern.next?_slice (endsTaking_blockCloser keyword) hline hcloser hwithin
    rw [blocksFrom_eq, hsearch]
    simp only [hkeyword]
    rw [hclose]
    rcases List.mem_cons.mp h with hs | hrest
    · have hfirst : s = ⟨header.start, closer.stop, blockKind keyword⟩ :=
        Span.shift_injective a hs
      rw [hfirst]
      exact List.mem_cons_self
    · exact List.mem_cons_of_mem _ (ih hrest rfl)

/-- A search that begins later finds the later blocks, if no block straddles the place where it
begins. -/
theorem mem_blocksFrom_of_apart {tokens : List Token} {position a : Nat}
    (hapart : ∀ s ∈ blocksFrom tokens position, s.start < a → s.stop ≤ a) (hle : position ≤ a)
    {s : Span} (h : s ∈ blocksFrom tokens position) (hs : a ≤ s.start) :
    s ∈ blocksFrom tokens a := by
  fun_induction blocksFrom tokens position with
  | case1 => cases h
  | case2 => cases h
  | case3 position header hheader keyword closer hcloser ih =>
    rcases Nat.lt_or_ge header.start a with hlt | hge
    · have hclosed : closer.stop ≤ a := hapart _ List.mem_cons_self hlt
      rcases List.mem_cons.mp h with rfl | hrest
      · simp only at hs
        omega
      · exact ih (fun t ht => hapart t (List.mem_cons_of_mem _ ht)) hclosed hrest
    · -- the first header is not before `a`, so it is the first from there on
      obtain ⟨-, hmatch, hleast⟩ := Pattern.next?_eq_some_iff.mp hheader
      have hheader' : blockHeader.next? true tokens a = some header :=
        Pattern.next?_eq_some_iff.mpr
          ⟨hge, hmatch, fun m hm hm' => hleast m hm (hle.trans hm')⟩
      rw [blocksFrom_eq, hheader']
      simp only
      rw [hcloser]
      exact h

/-- The search for blocks finds alike in a slice from the start of a line, if no block straddles its
beginning, and if a header there does begin a block that is closed within the slice. -/
theorem findsAlike_blocks {tokens : List Token} {a b : Nat} (hline : beginsLine tokens a = true)
    (hapart : ∀ s ∈ blocks tokens, s.start < a → s.stop ≤ a)
    (hfirst : ∀ header, blockHeader.IsMatch true tokens header → header.start = a →
      ∃ g ∈ blocks tokens, g.start = a ∧ g.stop ≤ b) :
    FindsAlike blocks tokens a b := by
  refine .of_found (fun s hs hstop => ?_) (pairwise_blocksFrom _ 0) fun s hs hzero => ?_
  · exact mem_blocksFrom_slice hline
      (mem_blocksFrom_of_apart hapart (Nat.zero_le a) hs (Nat.le_add_right _ _)) hstop rfl
  · obtain ⟨-, header, hmatch, hstart⟩ := start_of_mem_blocksFrom hs
    obtain ⟨hmatch', -⟩ := (Pattern.isMatch_slice_iff rfl hline).mp hmatch
    obtain ⟨g, hg, hgstart, hgstop⟩ := hfirst _ hmatch' (by simp only [Match.shift]; omega)
    exact ⟨g, hg, hgstart, (proposal_of_mem_blocksFrom hg).start_lt_stop, hgstop⟩

end Candidate

end VbaModules

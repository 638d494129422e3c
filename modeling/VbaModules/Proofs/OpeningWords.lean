import VbaModules.Proofs.SlicedMatches

/-!
# The words that a match begins with

The elements of a pattern bound what the first two words of its matches can be (`Pattern.starts`).
Where these bounds of two patterns have no word in common, the patterns match at no place together
(`Pattern.IsMatch.start_ne`). So the header of a procedure or type begins no line that declares an
external procedure, an option, an attribute, a constant or a variable, and a directive begins none
of them.
-/

namespace VbaModules

open Token Text

/-! ### Elements without a common word -/

/-- Whether both alternatives are words, and not the same. -/
def Alternative.differs : Alternative → Alternative → Bool
  | .word text, .word text' => !sameWord text text'
  | _, _ => false

theorem Alternative.differs_iff {a a' : Alternative} :
    a.differs a' = true ↔
      ∃ text text', a = .word text ∧ a' = .word text' ∧ sameWord text text' = false := by
  cases a <;> cases a' <;> simp [Alternative.differs]

theorem Alternative.accepts_eq_false_of_differs {a a' : Alternative} (h : a.differs a' = true)
    {t : Token} (ht : a.accepts t = true) : a'.accepts t = false := by
  obtain ⟨text, text', rfl, rfl, hdiffer⟩ := Alternative.differs_iff.mp h
  rw [Alternative.accepts, Bool.and_eq_true, sameWord_iff] at ht
  rw [Alternative.accepts, sameWord, ht.2]
  exact Bool.and_eq_false_imp.mpr fun _ => hdiffer

namespace Element

/-- Whether no word is an alternative of both. -/
def disjoint (e e' : Element) : Bool :=
  e.alternatives.all fun a => e'.alternatives.all a.differs

theorem accepts_eq_false_of_disjoint {e e' : Element} (h : e.disjoint e' = true) {t : Token}
    (ht : e.accepts t = true) : e'.accepts t = false := by
  obtain ⟨a, ha, hacc⟩ := List.any_eq_true.mp ht
  refine List.any_eq_false.mpr fun a' ha' => ?_
  have hdiffers := List.all_eq_true.mp (List.all_eq_true.mp h a ha) a' ha'
  rw [Alternative.accepts_eq_false_of_differs hdiffers hacc]
  exact Bool.false_ne_true

/-- Whether all alternatives are words that do not begin with a number sign. -/
def avoidsNumberSign (e : Element) : Bool :=
  e.alternatives.all fun
    | .word text => (foldCase text).toList.head? != some '#'
    | _ => false

theorem accepts_eq_false_of_numberSign {e : Element} (h : e.avoidsNumberSign = true) {t : Token}
    (ht : t.text.toList.head? = some '#') : e.accepts t = false := by
  refine List.any_eq_false.mpr fun a ha hacc => ?_
  have havoids := List.all_eq_true.mp h a ha
  cases a with
  | any => cases havoids
  | lineBreak => cases havoids
  | word text =>
    rw [Alternative.accepts, Bool.and_eq_true, sameWord_iff] at hacc
    refine bne_iff_ne.mp havoids ?_
    rw [← hacc.2, toList_foldCase, List.head?_map, ht]
    rfl

end Element

namespace Pattern

/-! ### How a match begins -/

/-- The ways in which elements can begin to take tokens: the element that takes the first, and
those one of which takes the next. -/
def starts : List Element → List (Element × List Element)
  | [] => []
  | e :: es => (e, (starts es).map Prod.fst) :: if e.optional then starts es else []

/-- The first token that elements take is taken by the first element of one of their starts. -/
theorem exists_first_of_align {es : List Element} {ts : List Token} {n : Nat}
    (h : align es ts = some n) (hpos : 0 < n) :
    ∃ t, (ts.dropWhile isBlank).head? = some t ∧
      ∃ e ∈ (starts es).map Prod.fst, e.accepts t = true := by
  induction es generalizing n with
  | nil =>
    cases h
    exact absurd hpos (Nat.lt_irrefl 0)
  | cons e es ih =>
    rw [align] at h
    split at h
    next hacc =>
      obtain ⟨t, ht, hacc⟩ := (Option.any_eq_true _ _).mp hacc
      exact ⟨t, ht, e, by simp [starts], hacc⟩
    next =>
      split at h
      next hoptional =>
        obtain ⟨t, ht, e', he', hacc⟩ := ih h hpos
        refine ⟨t, ht, e', ?_, hacc⟩
        rw [starts, if_pos hoptional]
        exact List.mem_cons_of_mem _ he'
      next => cases h

theorem align_cons_of_not_blank {e : Element} {es : List Element} {t : Token} {ts : List Token}
    (hblank : t.isBlank = false) :
    align (e :: es) (t :: ts) =
      if e.accepts t then (align es ts).map (1 + ·)
      else if e.optional then align es (t :: ts) else none := by
  rw [align, List.takeWhile_cons_of_neg (by simp [hblank]),
    List.dropWhile_cons_of_neg (by simp [hblank])]
  simp [Nat.add_comm]

/-- **How a match begins**: one of the starts of its elements takes the first token, and the next
one that is not blank if it has further elements. -/
theorem exists_start_of_align {es : List Element} (hends : endsTaking es = true) {t : Token}
    {ts : List Token} {n : Nat} (hblank : t.isBlank = false) (h : align es (t :: ts) = some n)
    (hpos : 0 < n) :
    ∃ s ∈ starts es, s.1.accepts t = true ∧
      (s.2 = [] ∨ ∃ u, (ts.dropWhile isBlank).head? = some u ∧ ∃ e ∈ s.2, e.accepts u = true) := by
  induction es with
  | nil =>
    cases h
    exact absurd hpos (Nat.lt_irrefl 0)
  | cons e es ih =>
    have hends' := endsTaking_of_cons hends
    rw [align_cons_of_not_blank hblank] at h
    split at h
    next hacc =>
      refine ⟨_, List.mem_cons_self, hacc, ?_⟩
      rcases es with _ | ⟨e', es⟩
      · exact Or.inl rfl
      · obtain ⟨m, hm, -⟩ := Option.map_eq_some_iff.mp h
        have hmust := any_not_optional_of_endsTaking hends'
        exact Or.inr (exists_first_of_align hm (pos_of_align hm hmust))
    next =>
      split at h
      next hoptional =>
        obtain ⟨s, hs, hstart⟩ := ih hends' h
        refine ⟨s, ?_, hstart⟩
        rw [starts, if_pos hoptional]
        exact List.mem_cons_of_mem _ hs
      next => cases h

theorem IsMatch.exists_cons {p : Pattern} {anchored : Bool} {tokens : List Token} {m : Match}
    (h : p.IsMatch anchored tokens m) :
    ∃ t ts, tokens.drop m.start = t :: ts ∧ tokens[m.start]? = some t ∧ t.isBlank = false ∧
      align p.elements (t :: ts) = some (m.stop - m.start) ∧ 0 < m.stop - m.start := by
  obtain ⟨t, ht, hblank⟩ := h.exists_first
  obtain ⟨hlt, hget⟩ := List.getElem?_eq_some_iff.mp ht
  have hdrop : tokens.drop m.start = t :: tokens.drop (m.start + 1) := by
    rw [List.drop_eq_getElem_cons hlt, hget]
  refine ⟨t, _, hdrop, ht, hblank, ?_, Nat.sub_pos_of_lt h.start_lt_stop⟩
  rw [← hdrop]
  exact h.align_eq

/-- A match begins with a token that is taken by the first element of a start. -/
theorem IsMatch.exists_accepts {p : Pattern} {anchored : Bool} {tokens : List Token} {m : Match}
    (h : p.IsMatch anchored tokens m) :
    ∃ t, tokens[m.start]? = some t ∧ t.isBlank = false ∧
      ∃ e ∈ (starts p.elements).map Prod.fst, e.accepts t = true := by
  obtain ⟨t, ts, -, ht, hblank, halign, hpos⟩ := h.exists_cons
  obtain ⟨u, hu, haccepts⟩ := exists_first_of_align halign hpos
  obtain rfl : t = u := by simpa [hblank] using hu
  exact ⟨t, ht, hblank, haccepts⟩

/-! ### Patterns that exclude each other -/

/-- Whether two starts have no first word in common, or no second word. -/
def startsExclude (s s' : Element × List Element) : Bool :=
  s.1.disjoint s'.1 ||
    (!s.2.isEmpty && !s'.2.isEmpty && s.2.all fun e => s'.2.all e.disjoint)

/-- Whether no start of the one goes with a start of the other. -/
def excludes (p p' : Pattern) : Bool :=
  (starts p.elements).all fun s => (starts p'.elements).all (startsExclude s)

variable {p p' : Pattern} {anchored : Bool} {tokens : List Token} {m m' : Match}

/-- **Patterns that exclude each other** do not match at the same place. -/
theorem IsMatch.start_ne (h : p.IsMatch anchored tokens m) (h' : p'.IsMatch anchored tokens m')
    (hends : endsTaking p.elements = true) (hends' : endsTaking p'.elements = true)
    (hexcludes : p.excludes p' = true) : m.start ≠ m'.start := by
  intro heq
  obtain ⟨t, ts, hdrop, -, hblank, halign, hpos⟩ := h.exists_cons
  obtain ⟨t', ts', hdrop', -, -, halign', hpos'⟩ := h'.exists_cons
  obtain ⟨rfl, rfl⟩ : t = t' ∧ ts = ts' := by
    rw [heq, hdrop'] at hdrop
    exact List.cons.inj hdrop.symm
  obtain ⟨s, hs, hfirst, hsecond⟩ := exists_start_of_align hends hblank halign hpos
  obtain ⟨s', hs', hfirst', hsecond'⟩ := exists_start_of_align hends' hblank halign' hpos'
  have hclash := List.all_eq_true.mp (List.all_eq_true.mp hexcludes s hs) s' hs'
  rw [startsExclude, Bool.or_eq_true, Bool.and_eq_true, Bool.and_eq_true] at hclash
  rcases hclash with hwords | ⟨⟨hne, hne'⟩, hwords⟩
  · rw [Element.accepts_eq_false_of_disjoint hwords hfirst] at hfirst'
    cases hfirst'
  · obtain ⟨u, hu, e, he, hacc⟩ := hsecond.resolve_left (by simpa using hne)
    obtain ⟨u', hu', e', he', hacc'⟩ := hsecond'.resolve_left (by simpa using hne')
    obtain rfl : u = u' := Option.some.inj (hu.symm.trans hu')
    have hdisjoint := List.all_eq_true.mp (List.all_eq_true.mp hwords e he) e' he'
    rw [Element.accepts_eq_false_of_disjoint hdisjoint hacc] at hacc'
    cases hacc'

/-- Whether no match begins with a number sign. -/
def avoidsNumberSign (p : Pattern) : Bool :=
  (starts p.elements).all fun s => s.1.avoidsNumberSign

theorem IsMatch.head?_text_ne (h : p.IsMatch anchored tokens m)
    (havoids : p.avoidsNumberSign = true) {t : Token} (ht : tokens[m.start]? = some t) :
    t.text.toList.head? ≠ some '#' := by
  intro hsign
  obtain ⟨t', ht', -, e, he, hacc⟩ := h.exists_accepts
  obtain rfl : t = t' := Option.some.inj (ht.symm.trans ht')
  obtain ⟨s, hs, rfl⟩ := List.mem_map.mp he
  rw [Element.accepts_eq_false_of_numberSign (List.all_eq_true.mp havoids s hs) hsign] at hacc
  cases hacc

end Pattern

/-! ### Headers and the starts of other lines -/

namespace Candidate

theorem excludes_declarationStart : blockHeader.excludes declarationStart = true := by
  decide

theorem excludes_constantStart : blockHeader.excludes constantStart = true := by
  decide

/-- A header either begins unlike any variable line, or goes on with a word that names no
variable. -/
theorem starts_blockHeader :
    ((Pattern.starts blockHeader.elements).all fun s =>
      variableStart.elements.head?.all s.1.disjoint ||
        (!s.2.isEmpty && s.2.all fun e =>
          e.alternatives.all ((Element.words notVariables).alternatives.contains ·))) = true := by
  decide

theorem canNameVariable_eq_false {t : Token}
    (h : (Element.words notVariables).accepts t = true) : canNameVariable t = false := by
  obtain ⟨a, ha, hacc⟩ := List.any_eq_true.mp h
  obtain ⟨word, hword, rfl⟩ := List.mem_map.mp ha
  rw [Alternative.accepts, Bool.and_eq_true] at hacc
  rw [canNameVariable]
  refine Bool.and_eq_false_imp.mpr fun hkind => ?_
  have hspells : notVariables.any t.spells = true :=
    List.any_eq_true.mpr ⟨word, hword, by rw [spells, hkind, hacc.2]; rfl⟩
  rw [hspells]
  rfl

/-- If a header begins with the first word of a variable line, then the word after it names no
variable. -/
theorem exists_second_of_header {t : Token} {ts : List Token} {n : Nat}
    (hblank : t.isBlank = false) (halign : Pattern.align blockHeader.elements (t :: ts) = some n)
    (hpos : 0 < n)
    (hfirst : (Element.words ["private", "public", "global", "dim", "static"]).accepts t = true) :
    ∃ u, (ts.dropWhile isBlank).head? = some u ∧
      (Element.words notVariables).accepts u = true := by
  obtain ⟨s, hs, hstart, hsecond⟩ := Pattern.exists_start_of_align rfl hblank halign hpos
  have hcase := List.all_eq_true.mp starts_blockHeader s hs
  rw [Bool.or_eq_true, Bool.and_eq_true] at hcase
  rcases hcase with hdisjoint | ⟨hne, hwords⟩
  · have hnot := Element.accepts_eq_false_of_disjoint hdisjoint hstart
    rw [hfirst] at hnot
    cases hnot
  · obtain ⟨u, hu, e, he, hacc⟩ := hsecond.resolve_left (by simpa using hne)
    obtain ⟨a, ha, hacc⟩ := List.any_eq_true.mp hacc
    have hmem := List.all_eq_true.mp (List.all_eq_true.mp hwords e he) a ha
    exact ⟨u, hu, List.any_eq_true.mpr ⟨a, List.contains_iff_mem.mp hmem, hacc⟩⟩

/-- **Where a header begins**, no variable is declared. -/
theorem any_canNameVariable_eq_false {tokens : List Token} {header m : Match}
    (hheader : blockHeader.IsMatch true tokens header)
    (hm : variableStart.IsMatch true tokens m) (heq : header.start = m.start) :
    (lastToken? tokens m).any canNameVariable = false := by
  obtain ⟨t, ts, hdrop, -, hblank, halign, hpos⟩ := hheader.exists_cons
  obtain ⟨t', ts', hdrop', -, -, halign', -⟩ := hm.exists_cons
  obtain ⟨rfl, rfl⟩ : t = t' ∧ ts = ts' := by
    rw [heq, hdrop'] at hdrop
    exact List.cons.inj hdrop.symm
  rw [variableStart, Pattern.align_cons_of_not_blank hblank] at halign'
  split at halign'
  next hfirst =>
    obtain ⟨k, hk, hlength⟩ := Option.map_eq_some_iff.mp halign'
    obtain ⟨u, hu, hnoName⟩ := exists_second_of_header hblank halign hpos hfirst
    -- the second word is taken for the name of the variable, since it is not `withevents`
    have hevents : (Element.maybe ["withevents"]).accepts u = false :=
      Element.accepts_eq_false_of_disjoint (by decide) hnoName
    have hname : Pattern.align [.anything] ts = some k := by
      rw [Pattern.align, hu, Option.any_some, hevents] at hk
      exact hk
    have hlast : lastToken? tokens m = some u := by
      have hlt := hm.start_lt_stop
      have hgap := Pattern.align_anything hname
      have hindex : m.stop - 1 = m.start + (1 + (ts.takeWhile isBlank).length) := by omega
      rw [lastToken?, hindex, ← List.getElem?_drop, hdrop', Nat.add_comm 1,
        List.getElem?_cons_succ, getElem?_length_takeWhile, hu]
    rw [hlast, Option.any_some]
    exact canNameVariable_eq_false hnoName
  next => cases halign'

end Candidate

end VbaModules

import Mathlib.Data.List.DropRight
import VbaModules.Proofs.SpaceChanges

/-!
# Code of unknown kind goes with the section after it

Before the sections of a source go to the buckets, each section of unknown kind is put in front of
the one after it. Several such sections may follow each other, and any section may be without
tokens. Still no token is lost or repeated, and no section gets more than the run of unknown ones
that stands directly before it.

The tokens that `attachUnknown` carries along are at every point those of the run that the sections
so far end with (`leadAfter`). So its result can be told without carrying anything: the sections of
known kind in their order, each with the run before it, and then the last section in the same way
if it is of unknown kind (`attachUnknown_eq_append`).
-/

namespace VbaModules

/-! ### The run before a section -/

/-- The tokens of the **run of sections of unknown kind** that the given sections end with. -/
def leadAfter (before : List Section) : List Token :=
  (before.rtakeWhile (·.kind == .unknown)).flatMap Section.tokens

/-- The section with the run before it put in front, where `before` is all that stands before. -/
def Section.withLead (before : List Section) (s : Section) : Section :=
  { s with tokens := leadAfter before ++ s.tokens }

theorem leadAfter_concat_of_unknown {before : List Section} {s : Section}
    (h : s.kind = .unknown) : leadAfter (before ++ [s]) = leadAfter before ++ s.tokens := by
  rw [leadAfter, List.rtakeWhile_concat_pos _ _ _ (by simpa using h), List.flatMap_append,
    List.flatMap_singleton, leadAfter]

theorem leadAfter_concat_of_known {before : List Section} {s : Section}
    (h : s.kind ≠ .unknown) : leadAfter (before ++ [s]) = [] := by
  rw [leadAfter, List.rtakeWhile_concat_neg _ _ _ (by simpa using h), List.flatMap_nil]

/-! ### The sections that remain -/

/-- The sections of known kind among `rest`, each with the run before it, where `before` stands
before `rest`. -/
def knownWithLeads (before rest : List Section) : List Section :=
  ((rest.zipIdx before.length).filter (·.1.kind != .unknown)).map fun e =>
    e.1.withLead ((before ++ rest).take e.2)

/-- The last section with the run before it, if it is of unknown kind. -/
def trailingUnknown (sections : List Section) : List Section :=
  (sections.getLast?.filter (·.kind == .unknown)).toList.map (·.withLead sections.dropLast)

theorem knownWithLeads_cons (before : List Section) (s : Section) (rest : List Section) :
    knownWithLeads before (s :: rest) =
      if s.kind = .unknown then knownWithLeads (before ++ [s]) rest
      else s.withLead before :: knownWithLeads (before ++ [s]) rest := by
  have hall : before ++ s :: rest = before ++ [s] ++ rest := List.append_cons before s rest
  have hbefore : (before ++ [s] ++ rest).take before.length = before := by
    rw [← hall, List.take_left]
  rw [knownWithLeads, knownWithLeads, List.zipIdx_cons, hall, List.length_append,
    List.length_singleton]
  by_cases hkind : s.kind = .unknown
  · rw [if_pos hkind, List.filter_cons_of_neg (by simp [hkind])]
  · rw [if_neg hkind, List.filter_cons_of_pos (by simp [hkind]), List.map_cons, hbefore]

theorem kind_ne_of_mem_knownWithLeads {before rest : List Section} {s : Section}
    (h : s ∈ knownWithLeads before rest) : s.kind ≠ .unknown := by
  obtain ⟨e, he, rfl⟩ := List.mem_map.mp h
  exact bne_iff_ne.mp (List.mem_filter.mp he).2

theorem trailingUnknown_concat (before : List Section) (s : Section) :
    trailingUnknown (before ++ [s]) =
      if s.kind = .unknown then [s.withLead before] else [] := by
  rw [trailingUnknown, List.getLast?_concat, List.dropLast_concat]
  by_cases hkind : s.kind = .unknown
  · simp [hkind]
  · simp [hkind]

/-- Nothing is left over, or a single section of unknown kind if the last one was of this kind. -/
theorem trailingUnknown_cases (sections : List Section) :
    (trailingUnknown sections = [] ∧ ¬∃ s ∈ sections.getLast?, s.kind = .unknown) ∨
      ∃ u, trailingUnknown sections = [u] ∧ u.kind = .unknown ∧
        ∃ s ∈ sections.getLast?, s.kind = .unknown := by
  rcases List.eq_nil_or_concat' sections with rfl | ⟨before, s, rfl⟩
  · exact .inl ⟨rfl, by simp⟩
  · rw [trailingUnknown_concat, List.getLast?_concat]
    by_cases hkind : s.kind = .unknown
    · rw [if_pos hkind]
      exact .inr ⟨_, rfl, hkind, s, rfl, hkind⟩
    · rw [if_neg hkind]
      exact .inl ⟨rfl, by simpa using hkind⟩

/-! ### Attaching -/

/-- **What is carried is the run before.** By induction on the sections that are left, of which
there has to be one that takes what is carried. -/
theorem attachUnknown_leadAfter (before : List Section) (s : Section) (rest : List Section) :
    attachUnknown (leadAfter before) (s :: rest) =
      knownWithLeads before (s :: rest) ++ trailingUnknown (before ++ s :: rest) := by
  induction rest generalizing before s with
  | nil =>
    rw [attachUnknown, knownWithLeads_cons, trailingUnknown_concat]
    by_cases hkind : s.kind = .unknown
    · rw [if_pos hkind, if_pos hkind]
      rfl
    · rw [if_neg hkind, if_neg hkind]
      rfl
  | cons r rest ih =>
    have hall : before ++ s :: r :: rest = before ++ [s] ++ r :: rest := List.append_cons before s _
    rw [attachUnknown_cons_cons, knownWithLeads_cons, hall]
    by_cases hkind : s.kind = .unknown
    · rw [if_pos hkind, if_pos hkind, ← leadAfter_concat_of_unknown hkind, ih]
    · rw [if_neg hkind, if_neg hkind, List.cons_append, ← ih, leadAfter_concat_of_known hkind]
      rfl

/-- **What attaching gives**: the sections of known kind with their runs, then what is left over. -/
theorem attachUnknown_eq_append (sections : List Section) :
    attachUnknown [] sections = knownWithLeads [] sections ++ trailingUnknown sections := by
  cases sections with
  | nil => rfl
  | cons s rest => exact attachUnknown_leadAfter [] s rest

/-- No token is lost or repeated on the way, if there is a section to take what is carried. -/
theorem flatMap_tokens_attachUnknown (carry : List Token) (s : Section) (rest : List Section) :
    (attachUnknown carry (s :: rest)).flatMap Section.tokens =
      carry ++ (s :: rest).flatMap Section.tokens := by
  induction rest generalizing carry s with
  | nil => simp [attachUnknown]
  | cons r rest ih =>
    rw [attachUnknown_cons_cons, List.flatMap_cons]
    by_cases hkind : s.kind = .unknown
    · rw [if_pos hkind, ih, List.append_assoc]
    · rw [if_neg hkind, List.flatMap_cons, ih, List.nil_append, List.append_assoc]

/-- **Attaching conserves the tokens.** A section of unknown kind remains only in the last place,
and does so exactly if the last section was one. The others keep their order, and each is as it was
but for the tokens of the run directly before it, which now stand in front of its own. -/
theorem attachUnknown_conserves (sections : List Section) :
    (attachUnknown [] sections).flatMap Section.tokens = sections.flatMap Section.tokens ∧
      (∀ s ∈ (attachUnknown [] sections).dropLast, s.kind ≠ .unknown) ∧
      ((∃ s ∈ attachUnknown [] sections, s.kind = .unknown) ↔
        ∃ s ∈ sections.getLast?, s.kind = .unknown) ∧
      (attachUnknown [] sections).filter (·.kind != .unknown) =
        (sections.zipIdx.filter (·.1.kind != .unknown)).map fun e =>
          e.1.withLead (sections.take e.2) := by
  have hknown : ∀ s ∈ knownWithLeads [] sections, s.kind ≠ .unknown :=
    fun _ => kind_ne_of_mem_knownWithLeads
  have hfilter : (knownWithLeads [] sections).filter (·.kind != .unknown) =
      knownWithLeads [] sections :=
    List.filter_eq_self.mpr fun s hs => bne_iff_ne.mpr (hknown s hs)
  refine ⟨?_, ?_⟩
  · cases sections with
    | nil => rfl
    | cons s rest => exact flatMap_tokens_attachUnknown [] s rest
  · rw [attachUnknown_eq_append]
    -- what is attached is all but a last section of unknown kind
    rcases trailingUnknown_cases sections with ⟨hnone, hlast⟩ | ⟨u, hone, hkind, hlast⟩
    · rw [hnone, List.append_nil]
      refine ⟨fun s hs => ?_, iff_of_false ?_ hlast, hfilter⟩
      · exact hknown s ((List.dropLast_sublist _).mem hs)
      · rintro ⟨s, hs, hunknown⟩
        exact hknown s hs hunknown
    · rw [hone, List.dropLast_concat]
      refine ⟨hknown, iff_of_true ⟨u, by simp, hkind⟩ hlast, ?_⟩
      rw [List.filter_append, hfilter, List.filter_cons_of_neg (by simp [hkind]), List.filter_nil,
        List.append_nil]
      rfl

end VbaModules

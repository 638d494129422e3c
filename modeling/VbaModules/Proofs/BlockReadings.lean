import VbaModules.Proofs.NestedBlocks
import VbaModules.Proofs.SlicedMatches
import VbaModules.Proofs.VisibleOptions

/-!
# What the blocks of a module tell about its options

Sections of unknown kind go with the section after them, and together they make a block
(`BlockAt`). A block counts as what its last section is, or as what this one stands for, if it is a
conditional block.

A block tells about options what its kind says (`TellsAs`): a block of option kind leaves nothing
open, and any other block states no option. This is so in a module that leaves nothing open
(`BlockAt.tellsAs_of_leavesNothingOpen`), and in one that hides no option
(`BlockAt.tellsAs_of_hidesNoOption`). For the second, a conditional block that stands for an option
line has an option statement in it, which is hidden there (`Proxy.exists_option_of_kind?`).
-/

namespace VbaModules

open Token Candidate VbaModules.Partition

/-! ### Option statements in conditional blocks -/

section OptionIn

variable {tokens : List Token} {a b : Nat}

/-- The end of a line is behind its line break, or at the end of the tokens. -/
theorem wholeLines_take_lineEnd (tokens : List Token) (i : Nat) :
    wholeLines (tokens.take (lineEnd tokens i)) = true ∨ lineEnd tokens i = tokens.length := by
  rw [lineEnd]
  split
  next offset hoffset =>
    obtain ⟨hlt, hbreak, -⟩ := List.findIdx?_eq_some_iff_getElem.mp hoffset
    rw [List.length_drop] at hlt
    have hget : tokens[i + offset]? = some tokens[i + offset] := List.getElem?_eq_getElem (by omega)
    refine .inl ?_
    rw [List.take_add_one, hget, Option.toList_some, wholeLines, List.getLast?_concat]
    simpa using hbreak
  next => exact .inr rfl

/-- An option statement begins a line between the bounds. -/
def OptionIn (tokens : List Token) (a b : Nat) : Prop :=
  ∃ m, declarationStart.IsMatch true tokens m ∧ lastWord tokens m = "option" ∧ a ≤ m.start ∧
    m.stop ≤ b

/-- The option statements of a part of the tokens are among those of the whole. -/
theorem OptionIn.of_slice (hline : beginsLine tokens a = true) {n : Nat}
    (h : OptionIn (slice tokens a b) 0 n) : OptionIn tokens a b := by
  obtain ⟨m, hm, hword, -⟩ := h
  have hpos := hm.start_lt_stop
  obtain ⟨hshift, hstop⟩ := (Pattern.isMatch_slice_iff (by decide) hline).mp hm
  refine ⟨m.shift a, hshift, ?_, Nat.le_add_right _ _, hstop⟩
  rwa [lastWord, lastToken?, getElem?_slice (by omega), ← Nat.add_sub_assoc (by omega)] at hword

theorem OptionIn.mono {c d : Nat} (h : OptionIn tokens a b) (hca : c ≤ a) (hbd : b ≤ d) :
    OptionIn tokens c d := by
  obtain ⟨m, hm, hword, hstart, hstop⟩ := h
  exact ⟨m, hm, hword, hca.trans hstart, hstop.trans hbd⟩

/-- A conditional section begins a line. -/
theorem beginsLine_of_conditional (hlead : Lexer.DirectivesLead true tokens) {u : Span}
    (hu : u ∈ spans tokens) (hkind : u.kind = .conditional) :
    beginsLine tokens u.start = true := by
  obtain ⟨t, ts, htokens, hopening⟩ :=
    exists_opening_of_mem_sections (List.mem_map.mpr ⟨u, hu, rfl⟩) hkind
  have hlt := (consecutive_spans tokens).start_lt_stop_of_mem hu
  have hget : tokens[u.start]? = some t := by
    have hhead : (slice tokens u.start u.stop)[0]? = some t := by
      rw [show slice tokens u.start u.stop = t :: ts from htokens]
      rfl
    rwa [getElem?_slice (by omega), Nat.add_zero] at hhead
  exact (hlead.of_getElem? hget hopening).1

end OptionIn

namespace Proxy

theorem kind?_eq_some_of_getD {tokens : List Token}
    (h : (kind? tokens).getD .conditional = .optionLine) : kind? tokens = some .optionLine := by
  cases hkind : kind? tokens with
  | none =>
    rw [hkind] at h
    cases h
  | some kind =>
    rw [hkind] at h
    rw [show kind = .optionLine from h]

/-- **A conditional block that stands for an option line has an option statement in it**, by
induction on the nesting. -/
theorem exists_option_of_kind? {tokens : List Token} (hlead : Lexer.DirectivesLead true tokens)
    (h : kind? tokens = some .optionLine) : OptionIn tokens 0 tokens.length := by
  induction tokens using wellFounded_nested.induction with
  | _ tokens ih =>
    rw [kind?_eq_map, Option.map_eq_some_iff] at h
    obtain ⟨s, hs, hcounted⟩ := h
    have hmem : s ∈ sections (afterFirstLine tokens) := List.mem_of_find?_eq_some hs
    -- the first line is the directive itself
    have hline : beginsLine tokens (lineEnd tokens 0) = true := by
      rcases wholeLines_take_lineEnd tokens 0 with hwhole | hend
      · exact foldl_lineStartAfter_of_wholeLines hwhole
      · rw [afterFirstLine, hend, List.drop_length, sections_nil] at hmem
        cases hmem
    have hafter : afterFirstLine tokens = slice tokens (lineEnd tokens 0) tokens.length := by
      rw [slice, List.take_length]
      rfl
    have hlead' : Lexer.DirectivesLead true (afterFirstLine tokens) := hafter ▸ hlead.slice hline _
    suffices hin : OptionIn (afterFirstLine tokens) 0 (afterFirstLine tokens).length by
      rw [hafter] at hin
      exact (hin.of_slice hline).mono (Nat.zero_le _) le_rfl
    obtain ⟨u, hu, rfl⟩ := List.mem_map.mp hmem
    rw [countedAs] at hcounted
    split at hcounted
    next hkind =>
      -- an inner conditional block stands for the option line in turn
      have hinner := kind?_eq_some_of_getD hcounted
      have hbegins := beginsLine_of_conditional hlead' hu hkind
      have hnested := ih _ ⟨_, hmem, hkind, rfl⟩ (hlead'.slice hbegins _) hinner
      exact (hnested.of_slice hbegins).mono (Nat.zero_le _)
        ((consecutive_spans _).stop_le_of_mem hu)
    next =>
      have hkind : u.kind = .optionLine := hcounted
      obtain ⟨m, hm, -, hword, -⟩ := exists_option_of_mem_spans hlead' hu hkind
      exact ⟨m, hm, hword, Nat.zero_le _, hm.stop_le⟩

end Proxy

/-! ### Blocks -/

/-- Where no option is stated, none is read. -/
theorem Reading.options_eq_nil {r : Reading} {cues : List Cue}
    (h : cues.filterMap Cue.option? = []) : r.options cues = [] := by
  induction cues generalizing r with
  | nil => rfl
  | cons cue cues ih =>
    obtain ⟨hcue, hcues⟩ := List.forall_mem_cons.mp (List.filterMap_eq_nil_iff.mp h)
    rw [options, hcue, ih (List.filterMap_eq_nil_iff.mpr hcues)]
    simp

/-- Where no option is hidden, neither in the whole nor in its parts, what is read of the whole is
what is read of its parts. -/
theorem Reading.options_flatMap_of_shown {α : Type} {f : α → List Cue} {xs : List α}
    (hshown : outside.options (xs.flatMap f) = (xs.flatMap f).filterMap Cue.option?)
    (h : ∀ x ∈ xs, outside.options (f x) = (f x).filterMap Cue.option?) :
    outside.options (xs.flatMap f) = xs.flatMap fun x => outside.options (f x) := by
  rw [hshown, List.filterMap_flatMap]
  exact List.flatMap_congr fun x hx => (h x hx).symm

/-- The cues of a block **tell about options what its kind says**: if it is an option line, nothing
is left open, and if not, no option is stated. -/
structure TellsAs (kind : Section.Kind) (told : List Cue) : Prop where
  closed : kind = .optionLine → Reading.outside.after told = .outside
  states : kind ≠ .optionLine → Reading.outside.options told = []

/-- The tokens from `a` on to the end of the section `u` make a **block**: before `u` there are only
sections of unknown kind. -/
structure BlockAt (tokens : List Token) (a : Nat) (u : Span) : Prop where
  mem : u ∈ spans tokens
  le : a ≤ u.start
  exists_first : ∃ v ∈ spans tokens, v.start = a
  unknown : ∀ v ∈ spans tokens, a ≤ v.start → v.start < u.start → v.kind = .unknown

namespace BlockAt

variable {tokens : List Token} {a : Nat} {u : Span} (h : BlockAt tokens a u)
include h

theorem lt_stop : a < u.stop :=
  h.le.trans_lt ((consecutive_spans tokens).start_lt_stop_of_mem h.mem)

theorem stop_le : u.stop ≤ tokens.length :=
  (consecutive_spans tokens).stop_le_of_mem h.mem

variable (hlead : Lexer.DirectivesLead true tokens)
include hlead

/-- If nothing is open later on, nothing is open where a block begins. -/
theorem readingAt_start {later : Nat} (hclosed : readingAt tokens later = .outside)
    (hlater : later ≤ tokens.length) (hle : a ≤ later) : readingAt tokens a = .outside := by
  obtain ⟨v, hv, rfl⟩ := h.exists_first
  exact readingAt_start_of_mem_spans hlead hclosed hlater hv hle

/-- No option is visible in a block, unless its last section is an option line. -/
theorem visibleAt?_eq_none (hkind : u.kind ≠ .optionLine) {i : Nat} (hstart : a ≤ i)
    (hstop : i < u.stop) : visibleAt? tokens i = none := by
  have hle := h.stop_le
  by_contra hsome
  obtain ⟨option, hvisible⟩ := Option.ne_none_iff_exists'.mp hsome
  rcases Nat.lt_or_ge i u.start with hbefore | hwithin
  · obtain ⟨v, hv, hvi, hiv⟩ :=
      (consecutive_spans tokens).exists_mem_of_lt (Nat.zero_le i) (by omega)
    obtain ⟨hoption, rfl, -⟩ := kind_of_visibleAt? hlead hvisible hv hvi hiv
    rw [h.unknown v hv hstart hbefore] at hoption
    cases hoption
  · exact hkind (kind_of_visibleAt? hlead hvisible h.mem hwithin hstop).1

theorem filterMap_visibleAt? (hkind : u.kind ≠ .optionLine) :
    (List.range' a (u.stop - a)).filterMap (visibleAt? tokens) = [] := by
  refine List.filterMap_eq_nil_iff.mpr fun i hi => ?_
  obtain ⟨hstart, hstop⟩ := List.mem_range'_1.mp hi
  exact h.visibleAt?_eq_none hlead hkind hstart (by omega)

/-! ### Modules that leave nothing open -/

section LeavesNothingOpen

variable (hclosed : LeavesNothingOpen tokens)
include hclosed

/-- A block leaves nothing open. -/
theorem after_cuesIn : Reading.outside.after (cuesIn tokens a u.stop) = .outside := by
  have hlength := hclosed.readingAt_length
  have hstart := h.readingAt_start hlead hlength le_rfl (h.lt_stop.le.trans h.stop_le)
  have hstop := readingAt_stop_of_mem_spans hlead hlength le_rfl h.mem h.stop_le
  rw [← hstart, readingAt_after h.lt_stop.le, hstop, hstart]

theorem tellsAs_of_leavesNothingOpen {kind : Section.Kind}
    (hkind : u.kind = .optionLine → kind = .optionLine) :
    TellsAs kind (cuesIn tokens a u.stop) where
  closed _ := h.after_cuesIn hlead hclosed
  states hne := by
    have hstart := h.readingAt_start hlead hclosed.readingAt_length le_rfl
      (h.lt_stop.le.trans h.stop_le)
    rw [← hstart, options_cuesIn h.lt_stop.le]
    exact h.filterMap_visibleAt? hlead (mt hkind hne)

end LeavesNothingOpen

/-! ### Modules that hide no option -/

section HidesNoOption

variable (hshown : HidesNoOption tokens)
include hshown

/-- Nothing is open where a block begins whose last section is an option line. -/
theorem readingAt_of_optionLine (hkind : u.kind = .optionLine) :
    readingAt tokens a = .outside := by
  have hlt := (consecutive_spans tokens).start_lt_stop_of_mem h.mem
  exact h.readingAt_start hlead (hshown.readingAt_start hlead h.mem hkind)
    (hlt.le.trans h.stop_le) h.le

/-- A block states no option, unless its last section is an option line. -/
theorem filterMap_option?_cuesIn (hkind : u.kind ≠ .optionLine) :
    (cuesIn tokens a u.stop).filterMap Cue.option? = [] := by
  rw [filterMap_cuesIn, ← h.filterMap_visibleAt? hlead hkind]
  exact List.filterMap_congr fun i _ => (hshown.visibleAt?_eq i).symm

/-- All options that a block states are read while nothing is open. -/
theorem options_cuesIn_eq :
    Reading.outside.options (cuesIn tokens a u.stop) =
      (cuesIn tokens a u.stop).filterMap Cue.option? := by
  by_cases hkind : u.kind = .optionLine
  · rw [← h.readingAt_of_optionLine hlead hshown hkind, options_cuesIn h.lt_stop.le,
      filterMap_cuesIn]
    exact List.filterMap_congr fun i _ => hshown.visibleAt?_eq i
  · have hnone := h.filterMap_option?_cuesIn hlead hshown hkind
    rw [hnone, Reading.options_eq_nil hnone]

/-- Only an option line counts as one: a conditional block that stands for an option line hides
it. -/
theorem kind_eq_of_resolve {s : Section} (hkind : s.kind = u.kind)
    (htokens : s.tokens = slice tokens u.start u.stop)
    (hresolve : (Proxy.resolve s).kind = .optionLine) : u.kind = .optionLine := by
  rw [Proxy.resolve] at hresolve
  split at hresolve
  next hconditional =>
    rw [hkind] at hconditional
    have hbegins := beginsLine_of_conditional hlead h.mem hconditional
    have hin := Proxy.exists_option_of_kind? (htokens ▸ hlead.slice hbegins _)
      (Proxy.kind?_eq_some_of_getD hresolve)
    rw [htokens] at hin
    obtain ⟨m, hm, hword, hstart, hstop⟩ := hin.of_slice hbegins
    have hcue := cueAt?_of_option hlead hm hword
    have hvisible := visibleAt?_eq_some_iff.mpr ⟨hidesNoOption_iff.mp hshown _ _ hcue, hcue⟩
    exact (kind_of_visibleAt? hlead hvisible h.mem hstart (hm.start_lt_stop.trans_le hstop)).1
  next => exact hkind ▸ hresolve

theorem tellsAs_of_hidesNoOption {kind : Section.Kind}
    (hkind : u.kind = .optionLine ↔ kind = .optionLine) :
    TellsAs kind (cuesIn tokens a u.stop) where
  closed heq := by
    have hoption := hkind.mpr heq
    have hlt := (consecutive_spans tokens).start_lt_stop_of_mem h.mem
    have hbefore : Reading.outside.after (cuesIn tokens a u.start) = .outside := by
      rw [← h.readingAt_of_optionLine hlead hshown hoption, readingAt_after h.le,
        hshown.readingAt_start hlead h.mem hoption, h.readingAt_of_optionLine hlead hshown hoption]
    rw [← cuesIn_append h.le hlt.le, Reading.after_append, hbefore,
      cuesIn_of_optionLine hlead h.mem hoption]
    rfl
  states hne := Reading.options_eq_nil (h.filterMap_option?_cuesIn hlead hshown (mt hkind.mp hne))

end HidesNoOption

end BlockAt

end VbaModules

import VbaModules.Proofs.OpenBlocks
import VbaModules.Proofs.OverlapComponents
import VbaModules.Proofs.SectionLines

/-!
# The options that are visible

A section is an option line if it is found to be one among the candidates, and option lines within
other sections do not count. Reading a module line by line tells the same without any candidates,
if what is opened in the module is closed in it (`LeavesNothingOpen`), or else if nothing is open at
the lines that state options (`HidesNoOption`): the option statements of its sections are those that
are read while nothing is open (`inOrder_sections`).

A section that is united from candidates has something open at every line start within it, since a
candidate reaches beyond it (`readingAt_ne_outside`). Between sections nothing is open, if nothing
is open later on (`readingAt_start_of_mem_spans`, `readingAt_stop_of_mem_spans`).
-/

namespace VbaModules

open Token Text Candidate VbaModules.Partition

/-! ### Candidates -/

section Candidates

variable {tokens : List Token} {g : Span} {i : Nat}

variable (hlead : Lexer.DirectivesLead true tokens)
include hlead

/-- Where a candidate reaches beyond the start of a line, something is open. -/
theorem readingAt_ne_outside (h : g ∈ all tokens) (hstart : g.start < i) (hstop : i < g.stop)
    (hline : beginsLine tokens i = true) : readingAt tokens i ≠ .outside := by
  intro houtside
  have hle := (proposal_of_mem_all h).stop_le
  rcases mem_all_cases h with hg | hg | ⟨p, m, hp, hm, hstart', hstop'⟩
  · exact conditionals_readingAt_ne_zero hlead hg hstart hstop (by omega)
      (congrArg Reading.conditionals houtside)
  · exact block_readingAt_ne_none hlead rfl hg hstart hstop hline
      (congrArg Reading.block houtside)
  · have hend := hm.lineEnd_le_of_beginsLine (staysInLine_of_mem hp) (hstart' ▸ hstart) hline
    omega

/-- If nothing is open later on, nothing is open where no candidate reaches beyond. -/
theorem readingAt_eq_outside {later : Nat} (hclosed : readingAt tokens later = .outside)
    (hi : i ≤ later) (hlater : later ≤ tokens.length)
    (hapart : ∀ g ∈ all tokens, g.start < i → g.stop ≤ i) : readingAt tokens i = .outside := by
  have hconditionals : (readingAt tokens i).conditionals = 0 := by
    refine conditionals_readingAt_eq_zero hlead (by rw [hclosed]; rfl) (fun g hg => ?_) hi hlater
    exact hapart g (by simp [all, hg])
  have hblock : (readingAt tokens i).block = none := by
    have hstart : (readingAt tokens 0).block = none := rfl
    refine block_readingAt_of_apart hlead (by rw [hclosed]; rfl) hstart (Nat.zero_le i) hi
      fun g hg => ?_
    exact hapart g (List.mem_append_left _ (List.mem_append_left _ (List.mem_append_right _ hg)))
  generalize readingAt tokens i = r at hconditionals hblock
  obtain ⟨conditionals, block⟩ := r
  simp only at hconditionals hblock
  rw [hconditionals, hblock]
  rfl

end Candidates

/-! ### Sections and candidates -/

/-- Every position between two bounds is in one of the spans between them. -/
theorem Partition.Consecutive.exists_mem_of_lt {start stop i : Nat} {spans : List Span}
    (h : Consecutive start stop spans) (hstart : start ≤ i) (hstop : i < stop) :
    ∃ s ∈ spans, s.start ≤ i ∧ i < s.stop := by
  induction h with
  | nil position => omega
  | @cons start stop s spans hs _ _ ih =>
    rcases Nat.lt_or_ge i s.stop with hlt | hge
    · exact ⟨s, List.mem_cons_self, by omega, hlt⟩
    · obtain ⟨s', hs', hbounds⟩ := ih hge hstop
      exact ⟨s', List.mem_cons_of_mem _ hs', hbounds⟩

section Spans

variable {tokens : List Token} {s g : Span}

/-- No candidate reaches over the start of a section, or over its end. -/
theorem apart_of_mem_spans (hs : s ∈ spans tokens) (hg : g ∈ all tokens) :
    (g.start < s.start → g.stop ≤ s.start) ∧ (g.start < s.stop → g.stop ≤ s.stop) := by
  have hlt := (consecutive_spans tokens).start_lt_stop_of_mem hs
  by_cases hoverlap : s.start < g.stop ∧ g.start < s.stop
  · have hapart := (united_of_overlap hs hg hoverlap.1 hoverlap.2).apart_or_within g hg
    omega
  · omega

/-- If nothing is open later on, nothing is open where a section begins. -/
theorem readingAt_start_of_mem_spans (hlead : Lexer.DirectivesLead true tokens) {later : Nat}
    (hclosed : readingAt tokens later = .outside) (hlater : later ≤ tokens.length)
    (hs : s ∈ spans tokens) (hle : s.start ≤ later) : readingAt tokens s.start = .outside :=
  readingAt_eq_outside hlead hclosed hle hlater fun _ hg => (apart_of_mem_spans hs hg).1

/-- If nothing is open later on, nothing is open where a section ends. -/
theorem readingAt_stop_of_mem_spans (hlead : Lexer.DirectivesLead true tokens) {later : Nat}
    (hclosed : readingAt tokens later = .outside) (hlater : later ≤ tokens.length)
    (hs : s ∈ spans tokens) (hle : s.stop ≤ later) : readingAt tokens s.stop = .outside :=
  readingAt_eq_outside hlead hclosed hle hlater fun _ hg => (apart_of_mem_spans hs hg).2

end Spans

/-! ### Option lines -/

section OptionLines

variable {tokens : List Token} {m : Match} {s g : Span}

theorem optionLine_mem_ofLines : Section.Kind.optionLine ∈ Section.Kind.ofLines := by
  decide

/-- Only the keyword `option` begins an option line. -/
theorem declarationKind_eq_optionLine_iff {keyword : String} :
    declarationKind keyword = .optionLine ↔ keyword = "option" := by
  rw [declarationKind]
  split
  next heq => simp [heq]
  next =>
    split
    next heq => simp [heq]
    next hne => simp [hne]

/-- **The candidates that are option lines.** -/
theorem mem_all_optionLine_iff (hkind : g.kind = .optionLine) :
    g ∈ all tokens ↔ ∃ m, declarationStart.IsMatch true tokens m ∧ m.start = g.start ∧
      lineEnd tokens m.stop = g.stop ∧ lastWord tokens m = "option" := by
  have hdeclaration : g ∈ declarationLines tokens ↔
      ∃ m, declarationStart.IsMatch true tokens m ∧ m.start = g.start ∧
        lineEnd tokens m.stop = g.stop ∧ lastWord tokens m = "option" := by
    rw [declarationLines, mem_lineSpans_iff rfl, hkind]
    simp only [Option.some.injEq]
    constructor
    · rintro ⟨m, hm, hword, hstart, hstop⟩
      exact ⟨m, hm, hstart.symm, hstop.symm, declarationKind_eq_optionLine_iff.mp hword⟩
    · rintro ⟨m, hm, hstart, hstop, hword⟩
      exact ⟨m, hm, declarationKind_eq_optionLine_iff.mpr hword, hstart.symm, hstop.symm⟩
  rw [← hdeclaration, all_eq_flatMap, List.mem_flatMap]
  refine ⟨?_, fun hg => ⟨_, by simp [searches], hg⟩⟩
  rintro ⟨find, hfind, hg⟩
  simp only [searches, List.mem_cons, List.not_mem_nil, or_false] at hfind
  -- the other searches find candidates of other kinds
  rcases hfind with rfl | rfl | rfl | rfl | rfl
  · exact absurd hg (not_mem_of_isLine tokens (hkind ▸ optionLine_mem_ofLines)).1
  · exact absurd hg (not_mem_of_isLine tokens (hkind ▸ optionLine_mem_ofLines)).2
  · exact hg
  · obtain ⟨m, -, hglobal, -⟩ := (mem_lineSpans_iff rfl).mp hg
    rw [hkind] at hglobal
    split at hglobal <;> cases hglobal
  · obtain ⟨m, -, hglobal, -⟩ := (mem_lineSpans_iff rfl).mp hg
    rw [hkind] at hglobal
    cases hglobal

/-- A section that begins where an option line begins is of its kind. A variable line may begin
there too, but is proposed later. -/
theorem kind_eq_of_option (hlead : Lexer.DirectivesLead true tokens)
    (hm : declarationStart.IsMatch true tokens m) (hword : lastWord tokens m = "option")
    (hs : United (all tokens) s) (hlt : s.start < s.stop) (hstart : s.start = m.start) :
    s.kind = .optionLine := by
  obtain ⟨search, c, hleads, hkind⟩ := exists_leads hs hlt
  have hline : ⟨m.start, lineEnd tokens m.stop, .optionLine⟩ ∈ declarations tokens := by
    rw [declarations, List.mem_map]
    exact ⟨m, (Pattern.mem_lineMatches_iff rfl).mpr hm, by rw [hword]; rfl⟩
  have hmem : ⟨m.start, lineEnd tokens m.stop, .optionLine⟩ ∈ all tokens :=
    mem_all_of_mem_find (show _ ∈ Search.declaration.find tokens from hline)
  have hwithin := hs.within_of_shares hmem
    ⟨m.start, ⟨hstart.le, hstart ▸ hlt⟩, le_rfl, (proposal_of_mem_all hmem).start_lt_stop⟩
  have hleast := hleads.least .declaration _ hline hwithin
  have hfirst : c.start = m.start := by
    have hle := hleads.within.1
    simp only at hleast
    omega
  -- what leads begins where the line begins, so it is the line itself
  have hstop := stop_eq_of_isLine hlead hmem optionLine_mem_ofLines
    (mem_all_of_mem_find hleads.mem) hfirst
  have hsame := stop_eq_of_isLine hlead hmem optionLine_mem_ofLines hmem rfl
  obtain ⟨hconditional, hblock⟩ :=
    not_mem_of_start_eq hlead hmem optionLine_mem_ofLines hfirst
  rw [← hkind]
  cases search with
  | conditional => exact absurd hleads.mem hconditional
  | block => exact absurd hleads.mem hblock
  | declaration => exact kind_eq_of_mem_find hleads.mem hline hfirst
  | global =>
    have hrank : Search.rank .declaration < Search.rank .global := by decide
    simp only at hleast hstop hsame
    omega

/-- A section that is an option line is the whole line. -/
theorem exists_option_of_mem_spans (hlead : Lexer.DirectivesLead true tokens)
    (hs : s ∈ spans tokens) (hkind : s.kind = .optionLine) :
    ∃ m, declarationStart.IsMatch true tokens m ∧ m.start = s.start ∧
      lastWord tokens m = "option" ∧ s.stop = lineEnd tokens m.stop := by
  have hlt := (consecutive_spans tokens).start_lt_stop_of_mem hs
  have hunited := united_of_mem_spans hs (by rw [hkind]; decide)
  obtain ⟨g, hg, hstart, hgkind⟩ := hunited.exists_kind_eq
  obtain ⟨m, hm, hmstart, -, hword⟩ := (mem_all_optionLine_iff (hgkind.trans hkind)).mp hg
  refine ⟨m, hm, hmstart.trans hstart, hword, ?_⟩
  rw [hunited.stop_eq_lineEnd hlead hlt (hkind ▸ optionLine_mem_ofLines), hm.lineEnd_stop rfl,
    hmstart, hstart]

end OptionLines

/-! ### What is visible -/

/-- The option that the line at the position states, if nothing is open there. -/
def visibleAt? (tokens : List Token) (i : Nat) : Option String :=
  if readingAt tokens i = .outside then (cueAt? tokens i).bind Cue.option? else none

/-- The cues of a module are those at its positions. -/
theorem cues_eq_cuesIn (tokens : List Token) :
    cues true tokens = cuesIn tokens 0 tokens.length :=
  cues_drop tokens 0

section Visible

variable {tokens : List Token} {a b i : Nat}

/-- The options that are read are those visible at the positions read. -/
theorem options_cuesIn (hab : a ≤ b) :
    (readingAt tokens a).options (cuesIn tokens a b) =
      (List.range' a (b - a)).filterMap (visibleAt? tokens) := by
  induction b, hab using Nat.le_induction with
  | base => simp [cuesIn, Reading.options]
  | succ b hab ih =>
    have hone : (readingAt tokens b).options (cueAt? tokens b).toList =
        (visibleAt? tokens b).toList := by
      rw [visibleAt?]
      cases cueAt? tokens b with
      | none => simp [Reading.options]
      | some cue => split <;> simp [Reading.options, *]
    rw [cuesIn_succ hab, Reading.options_append, ih, readingAt_after hab, hone,
      Nat.sub_add_comm hab, List.range'_concat, List.filterMap_append,
      Nat.one_mul, Nat.add_sub_cancel' hab]
    cases hvisible : visibleAt? tokens b <;> simp [hvisible]

/-- An option statement is visible if it stands outside of all blocks. -/
theorem visibleAt?_eq_some_iff {option : String} :
    visibleAt? tokens i = some option ↔
      readingAt tokens i = .outside ∧ cueAt? tokens i = some (.states option) := by
  rw [visibleAt?]
  split
  next houtside =>
    rw [Option.bind_eq_some_iff]
    constructor
    · rintro ⟨cue, hcue, hoption⟩
      cases cue with
      | states =>
        exact ⟨houtside, hcue.trans (congrArg (some ∘ Cue.states) (Option.some.inj hoption))⟩
      | _ => cases hoption
    · rintro ⟨-, hcue⟩
      exact ⟨_, hcue, rfl⟩
  next hnot => simp [hnot]

theorem isLineBreak_of_mem_dropWhile {ts : List Token} {t : Token}
    (h : t ∈ (ts.dropWhile (!·.isLineBreak)).take 1) : t.isLineBreak = true := by
  have hhead : (ts.dropWhile (!·.isLineBreak)).head? = some t := by
    cases hdrop : ts.dropWhile (!·.isLineBreak) with
    | nil => rw [hdrop] at h; cases h
    | cons u us =>
      rw [hdrop] at h
      rw [List.mem_singleton.mp h]
      rfl
  have hnot := List.head?_dropWhile_not (!·.isLineBreak) ts
  rw [hhead] at hnot
  simpa using hnot

/-- Where an option is visible, a section of option kind begins with its line. -/
theorem kind_of_visibleAt? (hlead : Lexer.DirectivesLead true tokens) {option : String}
    (hvisible : visibleAt? tokens i = some option) {s : Span} (hs : s ∈ spans tokens)
    (hstart : s.start ≤ i) (hstop : i < s.stop) :
    s.kind = .optionLine ∧ s.start = i ∧ lineEnd tokens i ≤ s.stop := by
  obtain ⟨hreading, hcue⟩ := visibleAt?_eq_some_iff.mp hvisible
  obtain ⟨m, hm, rfl, hword, -⟩ := exists_option_of_cueAt? hcue
  have hmem : ⟨m.start, lineEnd tokens m.stop, .optionLine⟩ ∈ all tokens :=
    (mem_all_optionLine_iff rfl).mpr ⟨m, hm, rfl, rfl, hword⟩
  have hpos := (proposal_of_mem_all hmem).start_lt_stop
  have hunited := united_of_overlap hs hmem (by simp only at hpos ⊢; omega) (by simp only; omega)
  rcases Nat.lt_or_ge s.start m.start with hinside | hge
  · obtain ⟨g, hg, hgstart, hgstop⟩ := hunited.exists_cut m.start hinside (by omega)
    exact absurd hreading (readingAt_ne_outside hlead hg hgstart hgstop (hm.beginsLine rfl))
  · have hwithin := hunited.apart_or_within _ hmem
    simp only at hwithin hpos
    rw [hm.lineEnd_stop rfl] at hwithin hpos
    exact ⟨kind_eq_of_option hlead hm hword hunited (by omega) (by omega), by omega, by omega⟩

/-- An option line tells its option, and nothing else. -/
theorem cuesIn_of_optionLine (hlead : Lexer.DirectivesLead true tokens) {s : Span}
    (hs : s ∈ spans tokens) (hkind : s.kind = .optionLine) :
    cuesIn tokens s.start s.stop =
      [.states (OptionStatement.normalForm (slice tokens s.start s.stop))] := by
  have hlt := (consecutive_spans tokens).start_lt_stop_of_mem hs
  obtain ⟨m, hm, hstart, hword, hstop⟩ := exists_option_of_mem_spans hlead hs hkind
  have hfirst : cueAt? tokens s.start =
      some (.states (OptionStatement.normalForm (slice tokens s.start s.stop))) := by
    rw [← hstart, cueAt?_of_option hlead hm hword, hstop, hm.lineEnd_stop rfl, slice_lineEnd,
      OptionStatement.normalForm_append_of_isFiller fun t ht => ?_]
    exact isFiller_of_isIdle (isIdle_of_isLineBreak (isLineBreak_of_mem_dropWhile ht))
  have hrest :
      (List.range' (s.start + 1) (s.stop - s.start - 1)).filterMap (cueAt? tokens) = [] := by
    refine List.filterMap_eq_nil_iff.mpr fun i hi => ?_
    obtain ⟨hi, hi'⟩ := List.mem_range'_1.mp hi
    by_contra hsome
    obtain ⟨cue, hcue⟩ := Option.ne_none_iff_exists'.mp hsome
    have hend := hm.lineEnd_le_of_beginsLine rfl (by omega) (cueAt?_eq_some_iff.mp hcue).1
    omega
  have hrange : List.range' s.start (s.stop - s.start) =
      s.start :: List.range' (s.start + 1) (s.stop - s.start - 1) := by
    rw [← List.range'_succ, Nat.sub_add_cancel (by omega)]
  rw [cuesIn, hrange, List.filterMap_cons_some hfirst, hrest]

/-- **What a section shows**: an option line shows its option if nothing is open there, and no
option of another section is visible. -/
theorem visible_of_mem_spans (hlead : Lexer.DirectivesLead true tokens) {s : Span}
    (hs : s ∈ spans tokens)
    (houtside : s.kind = .optionLine → readingAt tokens s.start = .outside) :
    (List.range' s.start (s.stop - s.start)).filterMap (visibleAt? tokens) =
      if s.kind = .optionLine then [OptionStatement.normalForm (slice tokens s.start s.stop)]
      else [] := by
  have hlt := (consecutive_spans tokens).start_lt_stop_of_mem hs
  split
  next hkind =>
    rw [← options_cuesIn hlt.le, cuesIn_of_optionLine hlead hs hkind, houtside hkind]
    rfl
  next hkind =>
    refine List.filterMap_eq_nil_iff.mpr fun i hi => ?_
    obtain ⟨hstart, hstop⟩ := List.mem_range'_1.mp hi
    by_contra hsome
    obtain ⟨option, hvisible⟩ := Option.ne_none_iff_exists'.mp hsome
    exact hkind (kind_of_visibleAt? hlead hvisible hs hstart (by omega)).1

/-- The options that are read are those visible anywhere. -/
theorem options_cues (tokens : List Token) :
    Reading.outside.options (cues true tokens) =
      (List.range' 0 tokens.length).filterMap (visibleAt? tokens) := by
  rw [cues_eq_cuesIn]
  exact options_cuesIn (Nat.zero_le _)

end Visible

/-! ### The option statements of a module -/

/-- The tokens **leave nothing open**: what they open they close. -/
def LeavesNothingOpen (tokens : List Token) : Prop :=
  Reading.outside.after (cues true tokens) = .outside

instance (tokens : List Token) : Decidable (LeavesNothingOpen tokens) :=
  inferInstanceAs (Decidable (_ = _))

/-- At the end of a module that leaves nothing open, the reading is outside. -/
theorem LeavesNothingOpen.readingAt_length {tokens : List Token} (h : LeavesNothingOpen tokens) :
    readingAt tokens tokens.length = .outside := by
  rw [readingAt, ← cues_eq_cuesIn]
  exact h

/-- Nothing is lost by a filter that keeps what gives something. -/
theorem filterMap_filter_eq_iff {α β : Type} {p : α → Bool} {f : α → Option β} {xs : List α} :
    (xs.filter p).filterMap f = xs.filterMap f ↔ ∀ x ∈ xs, ∀ y, f x = some y → p x = true := by
  induction xs with
  | nil => simp
  | cons x xs ih =>
    rw [List.forall_mem_cons]
    cases hp : p x with
    | true =>
      rw [List.filter_cons_of_pos hp]
      cases hf : f x with
      | none => simp [hf, ih]
      | some y => simp [hf, ih]
    | false =>
      rw [List.filter_cons_of_neg (by simp [hp])]
      cases hf : f x with
      | none => simp [hf, ih]
      | some y =>
        -- something is lost, so the list is shorter
        have hle := (List.filter_sublist (p := p) (l := xs)).filterMap f |>.length_le
        rw [List.filterMap_cons_some hf]
        refine iff_of_false (fun heq => ?_) (by simp)
        rw [heq, List.length_cons] at hle
        omega

/-- The tokens **hide no option**: nothing is open at the lines that state options. -/
def HidesNoOption (tokens : List Token) : Prop :=
  Reading.outside.options (cues true tokens) = (cues true tokens).filterMap Cue.option?

instance (tokens : List Token) : Decidable (HidesNoOption tokens) :=
  inferInstanceAs (Decidable (_ = _))

theorem Cue.option?_eq_some_iff {cue : Cue} {option : String} :
    cue.option? = some option ↔ cue = .states option := by
  cases cue <;> simp [Cue.option?]

/-- The options that a range of positions states, seen or not. -/
theorem filterMap_cuesIn (tokens : List Token) (a b : Nat) :
    (cuesIn tokens a b).filterMap Cue.option? =
      (List.range' a (b - a)).filterMap fun i => (cueAt? tokens i).bind Cue.option? := by
  rw [cuesIn, List.filterMap_filterMap]

/-- **A module hides no option exactly if each of its option statements stands outside.** -/
theorem hidesNoOption_iff {tokens : List Token} :
    HidesNoOption tokens ↔ ∀ i option, cueAt? tokens i = some (.states option) →
      readingAt tokens i = .outside := by
  have hvisible : Reading.outside.options (cues true tokens) =
      ((List.range' 0 tokens.length).filter fun i => readingAt tokens i = .outside).filterMap
        fun i => (cueAt? tokens i).bind Cue.option? := by
    rw [options_cues, List.filterMap_filter]
    simp only [decide_eq_true_eq]
    rfl
  rw [HidesNoOption, hvisible, cues_eq_cuesIn, filterMap_cuesIn, Nat.sub_zero,
    filterMap_filter_eq_iff]
  simp only [Option.bind_eq_some_iff, Cue.option?_eq_some_iff, decide_eq_true_eq]
  constructor
  · intro h i option hcue
    obtain ⟨-, ⟨t, ht, -⟩, -⟩ := cueAt?_eq_some_iff.mp hcue
    have hi := (List.getElem?_eq_some_iff.mp ht).1
    exact h i (by simpa using hi) option ⟨_, hcue, rfl⟩
  · rintro h i - option ⟨cue, hcue, rfl⟩
    exact h i option hcue

/-- Where no option is hidden, all that are stated are visible. -/
theorem HidesNoOption.visibleAt?_eq {tokens : List Token} (h : HidesNoOption tokens) (i : Nat) :
    visibleAt? tokens i = (cueAt? tokens i).bind Cue.option? := by
  rw [visibleAt?]
  split
  next => rfl
  next hopen =>
    symm
    rw [Option.bind_eq_none_iff]
    intro cue hcue
    by_contra hsome
    obtain ⟨option, hoption⟩ := Option.ne_none_iff_exists'.mp hsome
    rw [Cue.option?_eq_some_iff.mp hoption] at hcue
    exact hopen (hidesNoOption_iff.mp h i option hcue)

/-- Where no option is hidden, nothing is open at a section that is an option line. -/
theorem HidesNoOption.readingAt_start {tokens : List Token} (h : HidesNoOption tokens)
    (hlead : Lexer.DirectivesLead true tokens) {s : Span} (hs : s ∈ spans tokens)
    (hkind : s.kind = .optionLine) : readingAt tokens s.start = .outside := by
  obtain ⟨m, hm, hstart, hword, -⟩ := exists_option_of_mem_spans hlead hs hkind
  rw [← hstart]
  exact hidesNoOption_iff.mp h _ _ (cueAt?_of_option hlead hm hword)

/-- What is found between two bounds is found in the spans between them. -/
theorem Partition.Consecutive.flatMap_range' {α : Type} {start stop : Nat} {spans : List Span}
    (h : Consecutive start stop spans) (f : Nat → Option α) :
    spans.flatMap (fun s => (List.range' s.start (s.stop - s.start)).filterMap f) =
      (List.range' start (stop - start)).filterMap f := by
  induction h with
  | nil position => simp
  | @cons start stop s spans hstart hlt hrest ih =>
    have hle := hrest.start_le_stop
    have hrange : List.range' s.start (s.stop - s.start) ++
        List.range' (s.start + (s.stop - s.start)) (stop - s.stop) =
          List.range' s.start (s.stop - s.start + (stop - s.stop)) := List.range'_append_1
    rw [show s.start + (s.stop - s.start) = s.stop by omega,
      show s.stop - s.start + (stop - s.stop) = stop - s.start by omega] at hrange
    rw [List.flatMap_cons, ih, ← List.filterMap_append, hrange, hstart]

/-- The option statements in the order in which they stand. -/
def OptionStatement.inOrder (sections : List Section) : List String :=
  (sections.filter (·.kind == .optionLine)).map fun s => normalForm s.tokens

theorem OptionStatement.ofSections_eq (sections : List Section) :
    ofSections sections = (inOrder sections).mergeSort fun a b => !(b < a) :=
  rfl

/-- The option statements, section by section. -/
theorem OptionStatement.inOrder_eq_flatMap (sections : List Section) :
    inOrder sections =
      sections.flatMap fun s => if s.kind = .optionLine then [normalForm s.tokens] else [] := by
  induction sections with
  | nil => rfl
  | cons s sections ih =>
    rw [List.flatMap_cons, ← ih, inOrder, inOrder, List.filter_cons]
    by_cases hkind : s.kind = .optionLine
    · rw [if_pos (beq_iff_eq.mpr hkind), if_pos hkind]
      rfl
    · rw [if_neg (by simpa using hkind), if_neg hkind]
      rfl

/-- **Option sections are what is read**: if nothing is open at the sections that are option lines,
the option statements of a module are those that are read while nothing is open. -/
theorem inOrder_sections_of_outside {tokens : List Token} (hlead : Lexer.DirectivesLead true tokens)
    (h : ∀ s ∈ spans tokens, s.kind = .optionLine → readingAt tokens s.start = .outside) :
    OptionStatement.inOrder (sections tokens) = Reading.outside.options (cues true tokens) := by
  have hparts := (consecutive_spans tokens).flatMap_range' (visibleAt? tokens)
  rw [options_cues, ← Nat.sub_zero tokens.length, ← hparts, OptionStatement.inOrder_eq_flatMap,
    sections, List.flatMap_map]
  exact List.flatMap_congr fun s hs => (visible_of_mem_spans hlead hs (h s hs)).symm

/-- The option statements of a module that leaves nothing open or hides no option are those that
are read while nothing is open. -/
theorem inOrder_sections {tokens : List Token} (hlead : Lexer.DirectivesLead true tokens)
    (h : LeavesNothingOpen tokens ∨ HidesNoOption tokens) :
    OptionStatement.inOrder (sections tokens) = Reading.outside.options (cues true tokens) := by
  refine inOrder_sections_of_outside hlead fun s hs hkind => ?_
  rcases h with hclosed | hshown
  · have hlt := (consecutive_spans tokens).start_lt_stop_of_mem hs
    have hle := (consecutive_spans tokens).stop_le_of_mem hs
    exact readingAt_start_of_mem_spans hlead hclosed.readingAt_length le_rfl hs (by omega)
  · exact hshown.readingAt_start hlead hs hkind

end VbaModules

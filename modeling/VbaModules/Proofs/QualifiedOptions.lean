import VbaModules.Proofs.PublicNames
import VbaModules.Proofs.VisibleOptions

/-!
# Options of a qualified module

Qualifying the private names of a module keeps its option statements, unless one of these names
stands in them (`Qualify.options_qualify`).

Qualifying has two steps. Renaming changes no keyword, so every line tells the same about the blocks
of the module, but for the words of an option (`KeepsCues.cue?_map`). What is open at a position
stays open, and the same options are visible there. The inserted clauses stand in lines that begin
with a private external procedure. Such a line tells nothing, however it goes on
(`EndsCueless.cues_insert`).
-/

namespace VbaModules

open Token Text Candidate VbaModules.Partition

/-! ### Changes that keep cues -/

/-- A change of tokens **keeps cues** if it keeps kinds, and the elements by which cues are told
accept a changed token exactly if it has not been changed and they accepted it before. -/
structure KeepsCues (f : Token → Token) : Prop extends KeepsKinds f where
  acceptsAlike : ∀ p ∈ cuePatterns, p.AcceptsAlike f
  eq_of_accepts : ∀ p ∈ cuePatterns, ∀ e ∈ p.elements, ∀ t : Token, t.isBlank = false →
    e.accepts t = true → f t = t

/-- The cue with another option, if it states one. -/
def Cue.restate (option : String) : Cue → Cue
  | states _ => states option
  | cue => cue

theorem Reading.step_restate (r : Reading) (option : String) (cue : Cue) :
    r.step (cue.restate option) = r.step cue := by
  cases cue <;> rfl

section KeepsCues

variable {f : Token → Token} (h : KeepsCues f)
include h

theorem KeepsCues.headWord?_map {p : Pattern} (hp : p ∈ cuePatterns) (ts : List Token) :
    p.headWord? (ts.map f) = p.headWord? ts := by
  rw [Pattern.headWord?, Pattern.headWord?, h.toKeepsKinds.matchLength?_map (h.acceptsAlike p hp)]
  cases hlength : p.matchLength? ts with
  | none => rfl
  | some n =>
    obtain ⟨halign, hpos⟩ := Pattern.matchLength?_eq_some_iff.mp hlength
    obtain ⟨t, e, ht, hblank, he, haccepts⟩ := Pattern.exists_last_of_align halign hpos
    rw [Option.map_some, Option.map_some, lastWord, lastWord, lastToken?, lastToken?,
      List.getElem?_map, ht, Option.map_some, h.eq_of_accepts p hp e he t hblank haccepts]

/-- The cue of a changed line: only the text of an option may be another. -/
theorem KeepsCues.cue?_map (ts : List Token) :
    cue? (ts.map f) = (cue? ts).map (Cue.restate
      (OptionStatement.normalForm ((ts.takeWhile (!·.isLineBreak)).map f))) := by
  have hline : (ts.map f).takeWhile (!·.isLineBreak) = (ts.takeWhile (!·.isLineBreak)).map f := by
    rw [List.takeWhile_map]
    congr 2
    funext t
    rw [Function.comp_apply, h.isLineBreak_eq]
  have hkind : (ts.map f).head?.map Token.kind = ts.head?.map Token.kind := by
    rw [List.head?_map, Option.map_map]
    congr 1
    funext t
    exact h.kind_eq t
  have hword : wordCue? (ts.map f) = (wordCue? ts).map (Cue.restate
      (OptionStatement.normalForm ((ts.takeWhile (!·.isLineBreak)).map f))) := by
    rw [wordCue?, wordCue?, h.headWord?_map (by simp [cuePatterns]),
      h.headWord?_map (by simp [cuePatterns]), h.headWord?_map (by simp [cuePatterns]), hline]
    cases blockHeader.headWord? ts with
    | some keyword => rfl
    | none =>
      cases blockEnd.headWord? ts with
      | some keyword => rfl
      | none =>
        simp only
        split <;> rfl
  rw [cue?, cue?, hkind, hword]
  rcases ts.head?.map Token.kind with _ | (_ | _ | _ | _ | _ | _ | (_ | _ | _ | _) | _) <;> rfl

theorem KeepsCues.cueAt?_map (tokens : List Token) (i : Nat) :
    cueAt? (tokens.map f) i = (cueAt? tokens i).map (Cue.restate
      (OptionStatement.normalForm (((tokens.drop i).takeWhile (!·.isLineBreak)).map f))) := by
  have hblank : (tokens.map f)[i]?.any (!·.isBlank) = tokens[i]?.any (!·.isBlank) := by
    rw [List.getElem?_map, Option.any_map]
    simp only [h.isBlank_eq]
  rw [cueAt?, cueAt?, h.beginsLine_map, hblank, ← List.map_drop, h.cue?_map]
  split <;> rfl

/-- What is open stays open, and nothing else is. -/
theorem KeepsCues.readingAt_map (tokens : List Token) (i : Nat) :
    readingAt (tokens.map f) i = readingAt tokens i := by
  induction i with
  | zero => rfl
  | succ i ih =>
    rw [readingAt_succ, readingAt_succ, ih, h.cueAt?_map]
    cases cueAt? tokens i with
    | none => rfl
    | some cue => exact Reading.step_restate _ _ cue

/-- **Options that are not touched stay visible**, and no others become visible. -/
theorem KeepsCues.visibleAt?_map {tokens : List Token} (hlead : Lexer.DirectivesLead true tokens)
    (hoptions : ∀ s ∈ sections tokens, s.kind = .optionLine → ∀ t ∈ s.tokens, f t = t) {i : Nat}
    (hi : i < tokens.length) : visibleAt? (tokens.map f) i = visibleAt? tokens i := by
  by_cases hreading : readingAt tokens i = .outside
  · rw [visibleAt?, visibleAt?, h.readingAt_map, if_pos hreading, if_pos hreading, h.cueAt?_map]
    cases hcue : cueAt? tokens i with
    | none => rfl
    | some cue =>
      cases cue with
      | states option =>
        have hvisible := visibleAt?_eq_some_iff.mpr ⟨hreading, hcue⟩
        obtain ⟨-, -, -, -, rfl⟩ := exists_option_of_cueAt? hcue
        obtain ⟨s, hs, hstart, hstop⟩ :=
          (consecutive_spans tokens).exists_mem_of_lt (Nat.zero_le i) hi
        obtain ⟨hkind, rfl, hend⟩ := kind_of_visibleAt? hlead hvisible hs hstart hstop
        have hsame : ∀ t ∈ (tokens.drop s.start).takeWhile (!·.isLineBreak), f t = t := by
          intro t ht
          refine hoptions _ (List.mem_map.mpr ⟨s, hs, rfl⟩) hkind t ?_
          have hline := @slice_append_slice tokens _ _ _ (lineEnd_bounds hi.le).1 hend
          change t ∈ slice tokens s.start s.stop
          rw [← hline, slice_lineEnd]
          exact List.mem_append_left _ (List.mem_append_left _ ht)
        rw [List.map_congr_left hsame, List.map_id']
        rfl
      | _ => rfl
  · rw [visibleAt?, visibleAt?, h.readingAt_map, if_neg hreading, if_neg hreading]

/-- What is read of the options stays the same. -/
theorem KeepsCues.options_map {tokens : List Token} (hlead : Lexer.DirectivesLead true tokens)
    (hoptions : ∀ s ∈ sections tokens, s.kind = .optionLine → ∀ t ∈ s.tokens, f t = t) :
    Reading.outside.options (cues true (tokens.map f)) =
      Reading.outside.options (cues true tokens) := by
  rw [options_cues, options_cues, List.length_map]
  refine List.filterMap_congr fun i hi => ?_
  exact h.visibleAt?_map hlead hoptions (by simpa using (List.mem_range'_1.mp hi).2)

theorem KeepsCues.leavesNothingOpen_map_iff {tokens : List Token} :
    LeavesNothingOpen (tokens.map f) ↔ LeavesNothingOpen tokens := by
  have hreading : ∀ ts, LeavesNothingOpen ts ↔ readingAt ts ts.length = .outside := fun ts => by
    rw [LeavesNothingOpen, cues_eq_cuesIn, readingAt]
  rw [hreading, hreading, List.length_map, h.readingAt_map]

theorem KeepsCues.hidesNoOption_map_iff {tokens : List Token} :
    HidesNoOption (tokens.map f) ↔ HidesNoOption tokens := by
  have hstates : ∀ i, (∃ option, cueAt? (tokens.map f) i = some (.states option)) ↔
      ∃ option, cueAt? tokens i = some (.states option) := by
    intro i
    rw [h.cueAt?_map]
    rcases cueAt? tokens i with _ | (_ | _ | _ | _ | _) <;> simp [Cue.restate]
  rw [hidesNoOption_iff, hidesNoOption_iff]
  simp only [h.readingAt_map]
  constructor
  · intro hshown i option hcue
    obtain ⟨_, hcue'⟩ := (hstates i).mpr ⟨option, hcue⟩
    exact hshown i _ hcue'
  · intro hshown i option hcue
    obtain ⟨_, hcue'⟩ := (hstates i).mp ⟨option, hcue⟩
    exact hshown i _ hcue'

end KeepsCues

namespace Qualify

variable {module : String} {tokens : List Token}

/-- A token that an element accepts by a keyword is not renamed. -/
theorem renameToken_eq_of_accepts (hfree : ∀ s ∈ privateNames tokens, Keyword.contains s = false)
    {e : Element} (he : e.asksForKeywords = true) (hany : .any ∉ e.alternatives) {t : Token}
    (h : e.accepts t = true) : renameToken (table module tokens).get? t = t := by
  rcases private_or_not tokens t with ⟨s, hs, hname, hword⟩ | hnot
  · obtain ⟨a, ha, haccepts⟩ := List.any_eq_true.mp h
    have hasks := List.all_eq_true.mp he a ha
    rw [Bool.or_eq_true, beq_iff_eq, List.contains_iff_mem] at hasks
    obtain ⟨word, hdefining, rfl⟩ :=
      List.mem_map.mp (hasks.resolve_left (ne_of_mem_of_not_mem ha hany))
    have hcontains : Keyword.contains t.text = false := by
      rw [Keyword.contains, Keyword.editorSpelling?, sameWord_iff.mp hword]
      exact hfree s hs
    rw [Alternative.accepts, sameWord_definingWord_of_isFreeWord hcontains hdefining,
      Bool.and_false] at haccepts
    cases haccepts
  · exact renameToken_eq_self hnot

/-- **Renaming private names keeps cues**, since no keyword is renamed. -/
theorem keepsCues_renameToken (hfree : ∀ s ∈ privateNames tokens, Keyword.contains s = false) :
    KeepsCues (renameToken (table module tokens).get?) where
  toKeepsKinds := keepsKinds_renameToken _
  acceptsAlike p hp := by
    have hasks : ∀ p ∈ cuePatterns, ∀ e ∈ p.elements, e.asksForKeywords = true := by decide
    exact acceptsAlike_renameToken hfree (hasks p hp)
  eq_of_accepts p hp e he t _ h := by
    have hasks : ∀ p ∈ cuePatterns, ∀ e ∈ p.elements, e.asksForKeywords = true := by decide
    have hany : ∀ p ∈ cuePatterns, ∀ e ∈ p.elements, .any ∉ e.alternatives := by decide
    exact renameToken_eq_of_accepts hfree (hasks p hp e he) (hany p hp e he) h

end Qualify

/-! ### Lines without a cue -/

/-- The tokens **end in a line without a cue**, however it goes on. -/
structure EndsCueless (tokens : List Token) : Prop where
  exists_line : ∃ lines gap line, tokens = lines ++ (gap ++ line) ∧ wholeLines lines = true ∧
    (∀ t ∈ gap, t.isBlank = true) ∧ (∃ t, line.head? = some t ∧ t.isBlank = false) ∧
    (∀ t ∈ line, t.isLineBreak = false) ∧ ∀ rest, cue? (line ++ rest) = none

theorem cues_false_append {ts : List Token} (h : ∀ t ∈ ts, t.isLineBreak = false)
    (us : List Token) : cues false (ts ++ us) = cues false us := by
  induction ts with
  | nil => rfl
  | cons t ts ih =>
    obtain ⟨ht, hts⟩ := List.forall_mem_cons.mp h
    have hnext : lineStartAfter false t = false := by
      rw [lineStartAfter, ht, ite_self]
    rw [List.cons_append, cues, hnext, ih hts]
    rfl

/-- **Within a line without a cue nothing that is inserted matters** to the cues. -/
theorem EndsCueless.cues_insert {before clause : List Token} (h : EndsCueless before)
    (hclause : ∀ t ∈ clause, t.isLineBreak = false) (after : List Token) :
    cues true (before ++ clause ++ after) = cues true (before ++ after) := by
  obtain ⟨lines, gap, line, rfl, hlines, hgap, ⟨first, hfirst, hblank⟩, hline, hnone⟩ :=
    h.exists_line
  obtain ⟨more, rfl⟩ := List.head?_eq_some_iff.mp hfirst
  have hmore := (List.forall_mem_cons.mp hline).2
  have hnext : lineStartAfter true first = false := by
    rw [lineStartAfter, hblank, if_neg Bool.false_ne_true, hline first List.mem_cons_self]
  have hrest : ∀ rest, cues true (lines ++ (gap ++ first :: more) ++ rest) =
      cues true lines ++ cues false rest := by
    intro rest
    have hcue := hnone rest
    rw [List.cons_append] at hcue
    rw [List.append_assoc, cues_lines_append hlines, List.append_assoc, List.cons_append,
      cues_of_idle fun t ht => isIdle_of_isBlank (hgap t ht),
      foldl_lineStartAfter_of_isBlank hgap, cues, hcue, hnext,
      cues_false_append hmore]
    simp
  rw [List.append_assoc _ clause, hrest, hrest, cues_false_append hclause]

/-- A change that a pattern does not see keeps its matches where they are. -/
theorem KeepsKinds.isMatch_map {f : Token → Token} (h : KeepsKinds f) {p : Pattern}
    (hp : p.AcceptsAlike f) {tokens : List Token} {m : Match} (hm : p.IsMatch true tokens m) :
    p.IsMatch true (tokens.map f) m := by
  obtain ⟨t, ht, hblank⟩ := hm.exists_first
  refine ⟨hm.start_lt_stop, ⟨f t, ?_, ?_⟩, fun _ => ?_, ?_⟩
  · rw [List.getElem?_map, ht, Option.map_some]
  · rw [h.isBlank_eq, hblank]
  · rw [h.beginsLine_map, hm.beginsLine rfl]
  · rw [← List.map_drop, h.align_map hp]
    exact hm.align_eq

/-- The start of an option statement. -/
def optionStart : Pattern :=
  ⟨[.maybe ["private", "public"], .words ["option"]]⟩

/-- A line has no cue if it begins unlike headers, ends and option statements. -/
theorem cue?_eq_none_of_excludes {p : Pattern} {tokens : List Token} {m : Match}
    (h : p.IsMatch true tokens m) (hends : Pattern.endsTaking p.elements = true)
    (hexcludes : [blockHeader, blockEnd, optionStart].all (·.excludes p) = true)
    (hkind : ∀ t, tokens[m.start]? = some t → ∀ d, t.kind ≠ .conditional d) :
    cue? (tokens.drop m.start) = none := by
  have hexcludes' := List.all_eq_true.mp hexcludes
  obtain ⟨t, ht, hblank⟩ := h.exists_first
  have hoption : declarationStart.headWord? (tokens.drop m.start) ≠ some "option" := by
    intro hword
    obtain ⟨m', hm', hstart, hlast⟩ :=
      Pattern.exists_isMatch_of_headWord? (h.beginsLine rfl) ⟨t, ht, hblank⟩ hword
    obtain ⟨word, hmem, hmatch, hsame⟩ :=
      (@Pattern.isMatch_concat_words_iff tokens [.maybe ["private", "public"]]
        ["declare", "option", "attribute"] m').mp hm'
    have honly : ∀ word ∈ ["declare", "option", "attribute"], foldCase word = "option" →
        word = "option" := by decide
    obtain rfl := honly word hmem (hsame.symm.trans hlast)
    exact Pattern.IsMatch.start_ne (p := optionStart) hmatch h (by decide) hends
      (hexcludes' optionStart (by simp)) hstart
  have hnone : wordCue? (tokens.drop m.start) = none := by
    rw [wordCue?,
      headWord?_eq_none_of_excludes h hends (by decide) (hexcludes' blockHeader (by simp)),
      headWord?_eq_none_of_excludes h hends (by decide) (hexcludes' blockEnd (by simp))]
    exact if_neg hoption
  rw [exists_cons_of_getElem? ht] at hnone ⊢
  rcases cue?_cons_cases t (tokens.drop (m.start + 1)) with ⟨hd, -⟩ | ⟨hd, -⟩ | ⟨-, -, heq⟩
  · exact absurd hd (hkind t ht _)
  · exact absurd hd (hkind t ht _)
  · rw [heq, hnone]

namespace Qualify

section External

variable {tokens : List Token} {m : Match}

/-- A line that begins with a private external procedure has no cue, however it goes on. -/
theorem endsCueless_of_privateExternal (h : privateExternal.IsMatch true tokens m)
    (hkind : ∀ t, tokens[m.start]? = some t → ∀ d, t.kind ≠ .conditional d) {position : Nat}
    (hstop : m.stop ≤ position) (hle : position ≤ tokens.length)
    (hline : ∀ i t, m.stop ≤ i → i < position → tokens[i]? = some t → t.isLineBreak = false) :
    EndsCueless (tokens.take position) := by
  have hlt : m.start < position := h.start_lt_stop.trans_le hstop
  obtain ⟨lines, gap, hsplit, hlines, hgap⟩ := exists_wholeLines_of_beginsLine (h.beginsLine rfl)
  have htake : tokens.take position = lines ++ (gap ++ slice tokens m.start position) := by
    rw [← List.append_assoc, ← hsplit]
    exact (@slice_append_slice tokens 0 m.start position (Nat.zero_le _) hlt.le).symm
  obtain ⟨first, hfirst, hblank⟩ := h.exists_first
  refine ⟨lines, gap, _, htake, hlines, hgap, ⟨first, ?_, hblank⟩, fun t ht => ?_, fun rest => ?_⟩
  · rw [List.head?_eq_getElem?, getElem?_slice (by omega), Nat.add_zero, hfirst]
  · obtain ⟨i, hi⟩ := List.mem_iff_getElem?.mp ht
    have hbound := (List.getElem?_eq_some_iff.mp hi).1
    rw [length_slice hle] at hbound
    rw [getElem?_slice (by omega)] at hi
    rcases Nat.lt_or_ge (m.start + i) m.stop with hinside | hafter
    · exact h.isLineBreak_eq_false (by decide) (Nat.le_add_right _ _) hinside hi
    · exact hline _ t hafter (by omega) hi
  · -- the match does not look beyond the position
    have hiff := fun bs =>
      @Pattern.isMatch_left_iff privateExternal (tokens.take position) bs (by decide) m
    have hleft : privateExternal.IsMatch true (tokens.take position) m := by
      refine (hiff (tokens.drop position)).mpr ⟨?_, by rw [List.length_take]; omega⟩
      rwa [List.take_append_drop]
    have hwhole := ((hiff rest).mp hleft).1
    have hnone := cue?_eq_none_of_excludes hwhole (by decide) (by decide) ?_
    · rwa [List.drop_append_of_le_length (by rw [List.length_take]; omega)] at hnone
    · intro t ht
      refine hkind t ?_
      rwa [List.getElem?_append_left (by rw [List.length_take]; omega),
        List.getElem?_take_of_lt hlt] at ht

end External

section Qualify

variable {module : String} {tokens : List Token}

theorem cues_addAliases {missing : List (Nat × String)}
    (hsorted : missing.Pairwise fun e e' => e.1 < e'.1)
    (hplaces : ∀ e ∈ missing, e.1 ≤ tokens.length ∧ EndsCueless (tokens.take e.1)) :
    cues true (addAliases missing tokens) = cues true tokens := by
  induction missing with
  | nil => rfl
  | cons e missing ih =>
    obtain ⟨⟨hle, hcueless⟩, hmissing⟩ := List.forall_mem_cons.mp hplaces
    obtain ⟨hfirst, hrest⟩ := List.pairwise_cons.mp hsorted
    have htake := take_addAliases hle fun e' he' => (hfirst e' he').le
    rw [addAliases_cons, htake, hcueless.cues_insert (by simp [aliasClause, isLineBreak]),
      ← htake, List.take_append_drop, ih hrest hmissing]

variable (hlead : Lexer.DirectivesLead true tokens)
  (hfree : ∀ s ∈ privateNames tokens, Keyword.contains s = false)
include hlead hfree

/-- Clauses have no part in the cues. -/
theorem cues_qualify :
    cues true (qualify module tokens) =
      cues true (renameTokens (table module tokens).get? tokens) := by
  refine cues_addAliases (pairwise_unaliased tokens) fun e he => ?_
  obtain ⟨m, hm, hlacks⟩ := exists_lacksClause_of_mem_unaliased he
  have hkinds := keepsKinds_renameToken (table module tokens).get?
  have hlength : (renameTokens (table module tokens).get? tokens).length = tokens.length :=
    List.length_map _
  have hget : ∀ {i : Nat} {t : Token},
      (renameTokens (table module tokens).get? tokens)[i]? = some t →
        ∃ u, tokens[i]? = some u ∧ u.kind = t.kind := by
    intro i t ht
    rw [renameTokens, List.getElem?_map, Option.map_eq_some_iff] at ht
    obtain ⟨u, hu, rfl⟩ := ht
    exact ⟨u, hu, (hkinds.kind_eq u).symm⟩
  have hasks : ∀ e ∈ privateExternal.elements, e.asksForKeywords = true := by decide
  have hrenamed : privateExternal.IsMatch true (renameTokens (table module tokens).get? tokens) m :=
    hkinds.isMatch_map (acceptsAlike_renameToken hfree hasks) hm
  refine ⟨hlength ▸ le_length_of_mem_unaliased he, endsCueless_of_privateExternal hrenamed ?_
    hlacks.stop_lt.le (hlength ▸ le_length_of_mem_unaliased he) ?_⟩
  · intro t ht d hd
    obtain ⟨u, hu, hkind⟩ := hget ht
    exact hm.head?_text_ne (by decide) hu (hlead.of_getElem? hu (hkind.trans hd)).2
  · intro i t hstart hstop ht
    obtain ⟨u, hu, hkind⟩ := hget ht
    rw [isLineBreak, ← hkind]
    exact hlacks.isLineBreak_eq_false i u hstart hstop hu

theorem leavesNothingOpen_qualify_iff :
    LeavesNothingOpen (qualify module tokens) ↔ LeavesNothingOpen tokens := by
  rw [LeavesNothingOpen, cues_qualify hlead hfree]
  exact (keepsCues_renameToken hfree).leavesNothingOpen_map_iff

theorem hidesNoOption_qualify_iff :
    HidesNoOption (qualify module tokens) ↔ HidesNoOption tokens := by
  rw [HidesNoOption, cues_qualify hlead hfree]
  exact (keepsCues_renameToken hfree).hidesNoOption_map_iff

/-- **Qualifying keeps the options** of a module that leaves nothing open or hides no option, if no
private name stands in an option statement. -/
theorem options_qualify (hopen : LeavesNothingOpen tokens ∨ HidesNoOption tokens)
    (hoptions : ∀ s ∈ sections tokens, s.kind = .optionLine → ∀ t ∈ s.tokens,
      renameToken (table module tokens).get? t = t) :
    Reading.outside.options (cues true (qualify module tokens)) =
      OptionStatement.inOrder (sections tokens) := by
  rw [cues_qualify hlead hfree, inOrder_sections hlead hopen]
  exact (keepsCues_renameToken hfree).options_map hlead hoptions

end Qualify

end Qualify

end VbaModules

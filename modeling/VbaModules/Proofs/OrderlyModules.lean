import VbaModules.Proofs.BlockReadings
import VbaModules.Proofs.IsolatedBlocks
import VbaModules.Proofs.WrittenBlocks

/-!
# Orderly modules

A module is cut into blocks where its sections end, and sections of unknown kind go with the section
after them. If the module is tidy (`Tidy`), all these cuts are seams (`Orderly.seamAt_stop`): a
section ends with its line, or with the words that close a procedure, a type or a conditional block,
and no code follows those in their line.

So every block tells what its tokens tell (`Orderly.told_eq`), and together the blocks tell what the
module tells (`Orderly.blocks_spec`). The exception is a block with a byte order mark in front of
it, since the mark is a blank only at the start of a module. An orderly module (`Orderly`) is one
where such a block does no harm. If it also leaves nothing open or hides no option, its blocks are
faithful (`Orderly.faithful_of_mem`).
-/

namespace VbaModules

open Token Text Candidate VbaModules.Partition Lexer

/-! ### Where sections end -/

/-- Only fillers are left of the line from the position on. -/
def FillersFollow (tokens : List Token) (i : Nat) : Prop :=
  ∀ t ∈ slice tokens i (lineEnd tokens i), t.isFiller = true

instance (tokens : List Token) (i : Nat) : Decidable (FillersFollow tokens i) :=
  inferInstanceAs (Decidable (∀ t ∈ _, _))

section Ends

variable {tokens : List Token} {i : Nat}

/-- There is a seam behind whole lines. -/
theorem seamAt_of_wholeLines (h : wholeLines (tokens.take i) = true) : SeamAt tokens i :=
  ⟨[], _, rfl, ⟨by rwa [List.append_nil], by simp, .inl (by simp)⟩⟩

/-- There is one at the end. -/
theorem seamAt_length (tokens : List Token) : SeamAt tokens tokens.length := by
  refine ⟨[feedToken], [], by simp, ⟨?_, by simp [feedToken, isFiller], .inl ?_⟩⟩
  · rw [wholeLines, List.getLast?_concat]
    rfl
  · exact List.forall_mem_singleton.mpr (by decide)

/-- There is a seam after a token that closes a block, if only fillers are left of its line. -/
theorem seamAt_of_closesBlock (hi : i ≤ tokens.length) (h : FillersFollow tokens i) {last : Token}
    (hlast : (tokens.take i).getLast? = some last) (hcloses : ClosesBlock last) :
    SeamAt tokens i := by
  obtain ⟨hle, hlength⟩ := lineEnd_bounds hi
  have hdrop : tokens.drop i =
      slice tokens i (lineEnd tokens i) ++ tokens.drop (lineEnd tokens i) :=
    drop_eq_slice_append_drop hle hlength
  rcases wholeLines_take_lineEnd tokens i with hwhole | hend
  · refine ⟨slice tokens i (lineEnd tokens i), tokens.drop (lineEnd tokens i) ++ [feedToken], ?_,
      ⟨?_, h, .inr ⟨last, hlast, hcloses⟩⟩⟩
    · rw [hdrop, List.append_assoc]
    · rwa [← take_eq_take_append_slice tokens hle]
  · refine ⟨slice tokens i (lineEnd tokens i) ++ [feedToken], [], ?_,
      ⟨?_, List.forall_mem_append.mpr ⟨h, by simp [feedToken, isFiller]⟩,
        .inr ⟨last, hlast, hcloses⟩⟩⟩
    · rw [hdrop, hend, List.drop_length, List.append_nil, List.append_nil]
    · rw [← List.append_assoc, wholeLines, List.getLast?_concat]
      rfl

/-- A conditional block ends with a closing directive. -/
theorem closing_of_mem_conditionalsFrom {position : Nat} {opened : Option (Nat × Nat)}
    {ts : List Token} {s : Span} (h : s ∈ (conditionalsFrom position opened ts).1) :
    ∃ k t, s.stop = position + k + 1 ∧ ts[k]? = some t ∧ t.kind = .conditional .closing := by
  induction ts generalizing position opened with
  | nil => cases h
  | cons t ts ih =>
    rw [conditionalsFrom_cons, List.mem_append] at h
    rcases h with hhere | hrest
    · refine ⟨0, t, ?_, rfl, ?_⟩ <;> obtain ⟨kind, text⟩ := t <;>
        rcases opened with _ | ⟨start, _ | inner⟩ <;>
        rcases kind with _ | _ | _ | _ | _ | _ | (_ | _ | _ | _) | _ <;>
        simp_all [conditionalStep]
    · obtain ⟨k, u, hstop, hu, hkind⟩ := ih hrest
      exact ⟨k + 1, u, by omega, hu, hkind⟩

/-- A procedure or type ends with the end of its keyword. -/
theorem closer_of_mem_blocksFrom {position : Nat} {s : Span} (h : s ∈ blocksFrom tokens position) :
    ∃ m, blockEnd.IsMatch true tokens m ∧ s.stop = m.stop ∧ lastWord tokens m ∈ blockKeywords := by
  fun_induction blocksFrom tokens position with
  | case1 => cases h
  | case2 => cases h
  | case3 position header hheader keyword closer hcloser ih =>
    rcases List.mem_cons.mp h with rfl | hrest
    · obtain ⟨-, hheader, -⟩ := Pattern.next?_eq_some_iff.mp hheader
      obtain ⟨-, hcloser, -⟩ := Pattern.next?_eq_some_iff.mp hcloser
      have hkeyword := lastWord_mem_of_header hheader
      obtain ⟨hend, hlast⟩ := (isMatch_blockEnd_iff hkeyword).mpr hcloser
      exact ⟨closer, hend, rfl, hlast ▸ hkeyword⟩
    · exact ih hrest

/-- The last of the first tokens is the one before where they end. -/
theorem getLast?_take_eq (hpos : 0 < i) (hle : i ≤ tokens.length) :
    (tokens.take i).getLast? = tokens[i - 1]? := by
  rw [List.getLast?_eq_getElem?, List.length_take, min_eq_left hle,
    List.getElem?_take_of_lt (by omega)]

end Ends

/-! ### Blanks in front of a module -/

section Blanks

variable {lead rest : List Token} (hlead : ∀ t ∈ lead, t.isBlank = true) {a b i : Nat}

/-- A slice that reaches behind the first tokens is made of a part of each. -/
theorem slice_append (hb : lead.length ≤ b) :
    slice (lead ++ rest) a b = lead.drop a ++ slice rest (a - lead.length) (b - lead.length) := by
  rw [slice, List.take_append, List.take_of_length_le hb, List.drop_append]
  rfl

/-- A seam is a seam without what stands in front of the module. -/
theorem Lexer.SeamAt.of_append (h : SeamAt (lead ++ rest) i) : SeamAt rest (i - lead.length) := by
  by_cases hnil : rest.take (i - lead.length) = []
  · exact seamAt_of_wholeLines (by rw [hnil]; rfl)
  · have hle : lead.length ≤ i := by
      by_contra hlt
      rw [Nat.sub_eq_zero_of_le (by omega)] at hnil
      exact hnil rfl
    obtain ⟨k, rfl⟩ := Nat.exists_eq_add_of_le hle
    rw [Nat.add_sub_cancel_left] at hnil ⊢
    rw [SeamAt, List.take_length_add_append, List.drop_length_add_append] at h
    obtain ⟨gs, more, heq, hcloses⟩ := h
    exact ⟨gs, more, heq, hcloses.of_append hnil⟩

include hlead

/-- Blanks in front of a module change no cue. -/
theorem cueAt?_append (i : Nat) : cueAt? (lead ++ rest) (lead.length + i) = cueAt? rest i := by
  have hbegins : beginsLine (lead ++ rest) (lead.length + i) = beginsLine rest i := by
    rw [beginsLine, List.take_length_add_append, List.foldl_append,
      foldl_lineStartAfter_of_isBlank hlead]
    rfl
  rw [cueAt?, cueAt?, hbegins, List.getElem?_append_right (Nat.le_add_right _ _),
    Nat.add_sub_cancel_left, List.drop_length_add_append]

/-- Blanks in front of a module tell nothing. -/
theorem cuesIn_append_blanks (hb : lead.length ≤ b) :
    cuesIn (lead ++ rest) a b = cuesIn rest (a - lead.length) (b - lead.length) := by
  have hshift : ∀ k,
      cuesIn (lead ++ rest) (lead.length + k) b = cuesIn rest k (b - lead.length) := by
    intro k
    rw [cuesIn, cuesIn, Nat.sub_add_eq, ← List.map_add_range', List.filterMap_map]
    exact List.filterMap_congr fun i _ => cueAt?_append hlead i
  rcases Nat.le_total lead.length a with hle | hge
  · obtain ⟨k, rfl⟩ := Nat.exists_eq_add_of_le hle
    rw [hshift, Nat.add_sub_cancel_left]
  · have hnone : cuesIn (lead ++ rest) a lead.length = [] := by
      refine List.filterMap_eq_nil_iff.mpr fun i hi => ?_
      have hlt : i < lead.length := by
        have hbounds := List.mem_range'_1.mp hi
        omega
      rw [cueAt?, List.getElem?_append_left hlt, List.getElem?_eq_getElem hlt, Option.any_some,
        hlead _ (List.getElem_mem hlt), Bool.not_true, Bool.and_false]
      rfl
    rw [← cuesIn_append hge hb, hnone, List.nil_append, Nat.sub_eq_zero_of_le hge, ← hshift 0,
      Nat.add_zero]

end Blanks

/-! ### Orderly modules -/

/-- What the block of a section tells. -/
def Section.told (s : Section) : List Cue :=
  cuesOf (s.block.toList ++ ['\n', '\n'])

/-- Without carriage returns the block of a section is its trimmed text. -/
theorem Section.block_eq {s : Section} (hreturns : '\r' ∉ charsOf s.tokens) :
    s.block = trim (textOf s.tokens) := by
  have hreturnless : withoutReturns s.text = textOf s.tokens := by
    rw [← String.toList_inj, toList_withoutReturns, Section.text, toList_textOf]
    exact List.filter_eq_self.mpr fun c hc => by
      simpa using ne_of_mem_of_not_mem hc hreturns
  rw [Section.block, hreturnless]

/-- A section **stands alone** if it is for no bucket, or if its block tells what its tokens tell,
or else if it is not an option line and its block states no option and leaves nothing open. -/
def Section.StandsAlone (s : Section) : Prop :=
  Bucket.ofKind? s.kind = none ∨ s.told = cues true s.tokens ∨
    s.kind ≠ .optionLine ∧ s.told.filterMap Cue.option? = [] ∧
      Reading.outside.after s.told = .outside

instance (s : Section) : Decidable s.StandsAlone :=
  inferInstanceAs (Decidable (_ ∨ _ ∨ _))

/-- The blocks that a module is cut into. -/
def blocksOf (tokens : List Token) : List Section :=
  attachUnknown [] ((sections tokens).map Proxy.resolve)

/-- A module is **tidy** if its tokens are read back from their texts, code has no white space at
its ends, and no code follows what closes a block in its line. -/
structure Tidy (tokens : List Token) : Prop where
  lex_eq : lex (textOf tokens ++ "\n") = tokens ++ [⟨.lineBreak, "\n"⟩]
  trim_eq : ∀ t ∈ tokens, t.isFiller = false → trim t.text = t.text
  afterBlocks : ∀ m ∈ blockEnd.lineMatches tokens, FillersFollow tokens m.stop
  afterConditionals : ∀ i < tokens.length,
    tokens[i]?.any (·.kind == .conditional .closing) = true → FillersFollow tokens (i + 1)

instance (tokens : List Token) : Decidable (Tidy tokens) :=
  decidable_of_iff
    (lex (textOf tokens ++ "\n") = tokens ++ [⟨.lineBreak, "\n"⟩] ∧
      (∀ t ∈ tokens, t.isFiller = false → trim t.text = t.text) ∧
      (∀ m ∈ blockEnd.lineMatches tokens, FillersFollow tokens m.stop) ∧
      ∀ i < tokens.length, tokens[i]?.any (·.kind == .conditional .closing) = true →
        FillersFollow tokens (i + 1))
    ⟨fun ⟨hlex, htrim, hblocks, hconditionals⟩ => ⟨hlex, htrim, hblocks, hconditionals⟩,
      fun ⟨hlex, htrim, hblocks, hconditionals⟩ => ⟨hlex, htrim, hblocks, hconditionals⟩⟩

/-- A tidy module is **orderly** if its first block stands alone where a byte order mark is in front
of it. -/
structure Orderly (tokens : List Token) : Prop extends Tidy tokens where
  marked : (textOf tokens).toList.head? = some '\uFEFF' →
    ∀ s ∈ (blocksOf tokens).head?, s.StandsAlone

instance (tokens : List Token) : Decidable (Orderly tokens) :=
  decidable_of_iff
    (Tidy tokens ∧ ((textOf tokens).toList.head? = some '\uFEFF' →
      ∀ s ∈ (blocksOf tokens).head?, s.StandsAlone))
    ⟨fun ⟨htidy, hmarked⟩ => ⟨htidy, hmarked⟩, fun ⟨htidy, hmarked⟩ => ⟨htidy, hmarked⟩⟩

namespace Orderly

variable {tokens : List Token} (h : Orderly tokens)
include h

theorem codeTrimmed : CodeTrimmed tokens :=
  fun t ht hcode => trimmed_of_trim_eq (h.trim_eq t ht hcode)

theorem directivesLead : DirectivesLead true tokens := by
  have hlead := directivesLead_lex (textOf tokens ++ "\n")
  rw [h.lex_eq] at hlead
  exact hlead.of_append.1

/-- The tokens are read back, but for a byte order mark in front of them. -/
theorem exists_readsBack :
    ∃ lead rest, tokens = lead ++ rest ∧ ReadsBack (rest ++ [feedToken]) ∧
      (∀ t ∈ lead, t.isBlank = true) ∧ lead.length ≤ 1 ∧
      (0 < lead.length → (textOf tokens).toList.head? = some '\uFEFF') := by
  have hchars : ∀ ts : List Token, charsOf (ts ++ [feedToken]) = charsOf ts ++ ['\n'] := fun ts =>
    charsOf_append ts [feedToken]
  have htext : (textOf tokens).toList = charsOf tokens := toList_textOf tokens
  have hlex := h.lex_eq
  rw [lex_eq_splitNames, String.toList_append, htext, show "\n".toList = ['\n'] from rfl] at hlex
  -- a mark is scanned as a blank of its own, and the rest as if it came first
  by_cases hmark : (charsOf tokens).head? = some '\uFEFF'
  · obtain ⟨cs, hcs⟩ := List.head?_eq_some_iff.mp hmark
    rw [hcs, List.cons_append, scanModule_mark, ← List.singleton_append,
      splitNames_append_of_isIdle (List.forall_mem_singleton.mpr (by decide))] at hlex
    cases tokens with
    | nil => cases hcs
    | cons t rest =>
      obtain ⟨rfl, hrest⟩ := List.cons.inj hlex
      refine ⟨[markToken], rest, rfl, ?_, List.forall_mem_singleton.mpr rfl, le_rfl,
        fun _ => htext ▸ hmark⟩
      have hsame : charsOf rest = cs := by
        rw [charsOf_cons] at hcs
        exact (List.cons.inj hcs).2
      rw [ReadsBack, hchars, hsame]
      exact hrest
  · refine ⟨[], tokens, rfl, ?_, by simp, Nat.zero_le 1, by simp⟩
    rw [ReadsBack, hchars]
    rwa [scanModule_of_head?_ne] at hlex
    rw [List.head?_append]
    cases hhead : (charsOf tokens).head? with
    | none => decide
    | some c =>
      rw [hhead] at hmark
      exact hmark

/-- **There is a seam after every section** of known kind. -/
theorem seamAt_stop {s : Span} (hs : s ∈ spans tokens) (hkind : s.kind ≠ .unknown) :
    SeamAt tokens s.stop := by
  obtain ⟨g, hg, hstop⟩ := exists_stop_eq_of_mem_spans hs hkind
  rw [← hstop]
  have hproposal := proposal_of_mem_all hg
  have hle := hproposal.stop_le
  have hlt := hproposal.start_lt_stop
  have hlast := @getLast?_take_eq tokens g.stop (by omega) hle
  -- the last candidate is a conditional block, a procedure or type, or a line
  rcases mem_all_cases hg with hg | hg | ⟨p, m, -, -, -, hline⟩
  · obtain ⟨k, t, hend, ht, hclosing⟩ := closing_of_mem_conditionalsFrom hg
    rw [Nat.zero_add] at hend
    rw [hend, Nat.add_sub_cancel, ht] at hlast
    rw [hend] at hle ⊢
    refine seamAt_of_closesBlock hle (h.afterConditionals k hle ?_) hlast (.inl hclosing)
    rw [ht, Option.any_some, hclosing]
    rfl
  · obtain ⟨m, hm, hend, hkeyword⟩ := closer_of_mem_blocksFrom hg
    have hfillers := h.afterBlocks m ((Pattern.mem_lineMatches_iff rfl).mpr hm)
    rw [hend] at hle hlast ⊢
    rw [lastWord, lastToken?] at hkeyword
    cases ht : tokens[m.stop - 1]? with
    | none =>
      rw [ht] at hkeyword
      exact absurd hkeyword (by decide)
    | some t =>
      rw [ht] at hlast hkeyword
      refine seamAt_of_closesBlock hle hfillers hlast (.inr ⟨_, hkeyword, ?_⟩)
      rw [sameWord_iff]
      exact (foldCase_of_mem_blockKeywords hkeyword).symm
  · rw [hline] at hle ⊢
    rcases wholeLines_take_lineEnd tokens m.stop with hwhole | hend
    · exact seamAt_of_wholeLines hwhole
    · rw [hend]
      exact seamAt_length tokens

end Orderly

/-! ### The blocks of an orderly module -/

theorem Partition.Consecutive.eq_of_nil {start stop : Nat} (h : Consecutive start stop []) :
    start = stop := by
  cases h
  rfl

/-- The section at a span of the tokens, with its kind resolved. -/
def sectionAt (tokens : List Token) (u : Span) : Section :=
  Proxy.resolve (.ofTokens (slice tokens u.start u.stop) u.kind)

theorem tokens_sectionAt (tokens : List Token) (u : Span) :
    (sectionAt tokens u).tokens = slice tokens u.start u.stop :=
  Proxy.resolve_tokens _

/-- A section has no kind exactly if its span has none. -/
theorem kind_sectionAt_eq_unknown_iff {tokens : List Token} {u : Span} :
    (sectionAt tokens u).kind = .unknown ↔ u.kind = .unknown :=
  Proxy.resolve_kind_eq_unknown_iff

/-- The section `s` **is made of** the block from `a` to the end of `u`, between two seams. -/
structure MadeOf (tokens : List Token) (a : Nat) (u : Span) (s : Section) : Prop
    extends BlockAt tokens a u where
  seam : SeamAt tokens a
  seam_stop : SeamAt tokens u.stop
  tokens_eq : s.tokens = slice tokens a u.stop
  kind_eq : s.kind = (sectionAt tokens u).kind

/-- A section of unknown kind goes on what is unknown before it. -/
theorem unknown_of_lt_stop {tokens : List Token} {a : Nat} {u : Span} (hu : u ∈ spans tokens)
    (hkind : u.kind = .unknown)
    (h : ∀ v ∈ spans tokens, a ≤ v.start → v.start < u.start → v.kind = .unknown) :
    ∀ v ∈ spans tokens, a ≤ v.start → v.start < u.stop → v.kind = .unknown := by
  intro v hv hav hvu
  rcases Nat.lt_or_ge v.start u.start with hbefore | hwithin
  · exact h v hv hav hbefore
  · have hlt := (consecutive_spans tokens).start_lt_stop_of_mem hv
    rw [(consecutive_spans tokens).eq_of_overlap hv hu hvu (by omega), hkind]

namespace Orderly

variable {tokens : List Token} (h : Orderly tokens)
include h

/-- The tokens of a block tell what is told between its seams. -/
theorem cues_tokens {a : Nat} {u : Span} {s : Section} (hs : MadeOf tokens a u s) :
    cues true s.tokens = cuesIn tokens a u.stop := by
  obtain ⟨lead, rest, rfl, hback, hblank, hone, -⟩ := h.exists_readsBack
  have hlt := hs.lt_stop
  have hle := hs.stop_le
  rw [List.length_append] at hle
  have hlength : lead.length ≤ u.stop := by omega
  have hdrop : ∀ t ∈ lead.drop a, t.isBlank = true := fun t ht => hblank t (List.mem_of_mem_drop ht)
  rw [hs.tokens_eq, slice_append hlength, cues_of_idle fun t ht => isIdle_of_isBlank (hdrop t ht),
    foldl_lineStartAfter_of_isBlank hdrop, cuesIn_append_blanks hblank hlength]
  rcases Nat.lt_or_ge (a - lead.length) (u.stop - lead.length) with hlt' | hge
  · exact hs.seam.of_append.cues_slice hs.seam_stop.of_append hlt' (by omega) hback
  · -- the block is the byte order mark alone
    rw [slice, List.drop_eq_nil_of_le (by rw [List.length_take]; omega), cuesIn,
      Nat.sub_eq_zero_of_le hge]
    rfl

/-- **A written block tells what its tokens tell**, unless a byte order mark is in front of it. -/
theorem told_eq (hreturns : '\r' ∉ charsOf tokens) {a : Nat} {u : Span} {s : Section}
    (hs : MadeOf tokens a u s) (hmark : (textOf tokens).toList.head? = some '\uFEFF' → 0 < a) :
    s.told = cues true s.tokens := by
  have hreturns' : '\r' ∉ charsOf s.tokens := by
    rw [hs.tokens_eq]
    intro hmem
    obtain ⟨t, ht, hc⟩ := List.mem_flatMap.mp hmem
    exact hreturns (mem_charsOf (List.mem_of_mem_take (List.mem_of_mem_drop ht)) hc)
  rw [h.cues_tokens hs, Section.told, Section.block_eq hreturns', hs.tokens_eq]
  obtain ⟨lead, rest, rfl, hback, hblank, hone, hlead⟩ := h.exists_readsBack
  have hlt := hs.lt_stop
  have hle := hs.stop_le
  rw [List.length_append] at hle
  -- the mark is not in the block
  have hlength : lead.length ≤ a := by
    by_contra hnot
    have hpos := hmark (hlead (by omega))
    omega
  rw [slice_append (by omega), List.drop_eq_nil_of_le hlength, List.nil_append,
    cuesIn_append_blanks hblank (by omega)]
  refine hs.seam.of_append.cuesOf_slice hs.seam_stop.of_append (by omega) (by omega) hback
    (fun t ht => h.codeTrimmed t (List.mem_append_right _ ht)) fun hmem => hreturns ?_
  rw [charsOf_append]
  exact List.mem_append_right _ hmem

/-- **The blocks of an orderly module lie between seams**, and together they tell what the module
tells. By induction on the spans that are left, where `a` is the last seam before them and only
sections of unknown kind stand between. -/
theorem madeOf_attachUnknown {a start : Nat} {rest : List Span}
    (hrest : ∀ u ∈ rest, u ∈ spans tokens) (hconsecutive : Consecutive start tokens.length rest)
    (hle : a ≤ start) (ha : SeamAt tokens a) (hfirst : a = start ∨ ∃ v ∈ spans tokens, v.start = a)
    (hunknown : ∀ v ∈ spans tokens, a ≤ v.start → v.start < start → v.kind = .unknown)
    (hnil : rest = [] → a = start) {blocks : List Section}
    (hblocks : blocks = attachUnknown (slice tokens a start) (rest.map (sectionAt tokens))) :
    (∀ s ∈ blocks, ∃ b u, a ≤ b ∧ MadeOf tokens b u s ∧ (b = a → blocks.head? = some s)) ∧
      blocks.flatMap (fun s => cues true s.tokens) = cuesIn tokens a tokens.length := by
  induction rest generalizing a start blocks with
  | nil =>
    obtain rfl := hnil rfl
    cases hconsecutive
    rw [hblocks]
    simp [attachUnknown, cuesIn]
  | cons u rest ih =>
    obtain ⟨hu, hrest⟩ := List.forall_mem_cons.mp hrest
    cases hconsecutive with
    | cons hstart hlt hlater =>
      subst hstart
      have hjoin : slice tokens a u.start ++ (sectionAt tokens u).tokens =
          slice tokens a u.stop := by
        rw [tokens_sectionAt, slice_append_slice hle hlt.le]
      have hfirst' : ∃ v ∈ spans tokens, v.start = a :=
        hfirst.elim (fun heq => ⟨u, hu, heq.symm⟩) id
      -- the block that ends here, if one does
      have hblock : SeamAt tokens u.stop → MadeOf tokens a u
          { sectionAt tokens u with
            tokens := slice tokens a u.start ++ (sectionAt tokens u).tokens } :=
        fun hseam => ⟨⟨hu, hle, hfirst', hunknown⟩, ha, hseam, hjoin, rfl⟩
      cases rest with
      | nil =>
        have hend := hlater.eq_of_nil
        have hmade := hblock (hend ▸ seamAt_length tokens)
        have hcues := h.cues_tokens hmade
        rw [hend] at hcues
        subst hblocks
        simp only [List.map_cons, List.map_nil, attachUnknown, List.forall_mem_singleton,
          List.flatMap_singleton]
        exact ⟨⟨a, u, le_rfl, hmade, fun _ => rfl⟩, hcues⟩
      | cons v rest =>
        rw [List.map_cons, List.map_cons, attachUnknown_cons_cons, ← List.map_cons] at hblocks
        by_cases hkind : u.kind = .unknown
        · rw [if_pos (kind_sectionAt_eq_unknown_iff.mpr hkind), hjoin] at hblocks
          exact ih hrest hlater (by omega) ha (.inr hfirst') (unknown_of_lt_stop hu hkind hunknown)
            (by simp) hblocks
        · have hseam := h.seamAt_stop hu hkind
          have hmade := hblock hseam
          have hempty : slice tokens u.stop u.stop = [] := by simp [slice]
          obtain ⟨hblocks', hcues'⟩ := ih hrest hlater le_rfl hseam (.inl rfl)
            (fun v _ hle hlt => absurd hle (by omega)) (by simp) rfl
          rw [hempty] at hblocks' hcues'
          rw [if_neg (mt kind_sectionAt_eq_unknown_iff.mp hkind)] at hblocks
          subst hblocks
          refine ⟨List.forall_mem_cons.mpr ⟨⟨a, u, le_rfl, hmade, fun _ => rfl⟩, fun s hs => ?_⟩,
            ?_⟩
          · obtain ⟨b, w, hb, hmade', -⟩ := hblocks' s hs
            exact ⟨b, w, by omega, hmade', fun heq => absurd hb (by omega)⟩
          · rw [List.flatMap_cons, h.cues_tokens hmade, hcues',
              cuesIn_append (by omega) hlater.start_le_stop]

/-- The blocks of an orderly module lie between seams and stand alone, and together they tell what
the module tells. -/
theorem blocks_spec (hreturns : '\r' ∉ charsOf tokens) :
    (∀ s ∈ blocksOf tokens, s.StandsAlone ∧ ∃ a u, MadeOf tokens a u s) ∧
      (blocksOf tokens).flatMap (fun s => cues true s.tokens) = cues true tokens := by
  have hblocks : blocksOf tokens =
      attachUnknown (slice tokens 0 0) ((spans tokens).map (sectionAt tokens)) := by
    rw [blocksOf, sections, List.map_map]
    rfl
  obtain ⟨hmade, hcues⟩ := h.madeOf_attachUnknown (fun u hu => hu) (consecutive_spans tokens) le_rfl
    (seamAt_of_wholeLines rfl) (.inl rfl) (fun v _ _ hlt => absurd hlt (Nat.not_lt_zero _))
    (fun _ => rfl) hblocks
  refine ⟨fun s hs => ?_, by rw [hcues, cues_eq_cuesIn]⟩
  obtain ⟨b, u, -, hsection, hhead⟩ := hmade s hs
  refine ⟨?_, b, u, hsection⟩
  by_cases hmark : (textOf tokens).toList.head? = some '\uFEFF' ∧ b = 0
  · exact h.marked hmark.1 s (hhead hmark.2)
  · refine .inr (.inl (h.told_eq hreturns hsection fun hhead => ?_))
    exact Nat.pos_of_ne_zero fun hzero => hmark ⟨hhead, hzero⟩

end Orderly

/-! ### Faithful sections -/

/-- A section is **faithful** if it stands alone and tells about options what its kind says. -/
structure Section.Faithful (s : Section) : Prop where
  standsAlone : s.StandsAlone
  tellsAs : TellsAs s.kind (cues true s.tokens)

/-- What the block of a faithful section tells, unless the section is for no bucket. -/
theorem Section.Faithful.told_spec {s : Section} (h : s.Faithful)
    (hbucket : Bucket.ofKind? s.kind ≠ none) :
    TellsAs s.kind s.told ∧ (s.kind = .optionLine → s.told = cues true s.tokens) ∧
      (LeavesNothingOpen s.tokens → Reading.outside.after s.told = .outside) ∧
      (HidesNoOption s.tokens → Reading.outside.options s.told = s.told.filterMap Cue.option?) := by
  rcases h.standsAlone with hnone | htold | ⟨hkind, hstates, hclosed⟩
  · exact absurd hnone hbucket
  · rw [htold]
    exact ⟨h.tellsAs, fun _ => rfl, id, id⟩
  · have hoptions : Reading.outside.options s.told = [] := Reading.options_eq_nil hstates
    exact ⟨⟨fun heq => absurd heq hkind, fun _ => hoptions⟩, fun heq => absurd heq hkind,
      fun _ => hclosed, fun _ => hoptions.trans hstates.symm⟩

theorem kind_sectionAt_of_optionLine {tokens : List Token} {u : Span} (h : u.kind = .optionLine) :
    (sectionAt tokens u).kind = .optionLine := by
  rw [sectionAt, Proxy.resolve, if_neg (by simp [Section.ofTokens, h])]
  exact h

/-- **The blocks of an orderly module are faithful**, if it leaves nothing open or hides no option,
and then they do as well. -/
theorem Orderly.faithful_of_mem {tokens : List Token} (h : Orderly tokens)
    (hreturns : '\r' ∉ charsOf tokens) (hopen : LeavesNothingOpen tokens ∨ HidesNoOption tokens)
    {s : Section} (hs : s ∈ blocksOf tokens) :
    s.Faithful ∧ (LeavesNothingOpen tokens → LeavesNothingOpen s.tokens) ∧
      (HidesNoOption tokens → HidesNoOption s.tokens) := by
  obtain ⟨halone, a, u, hmade⟩ := (h.blocks_spec hreturns).1 s hs
  have hlead := h.directivesLead
  have hkind : u.kind = .optionLine → s.kind = .optionLine := fun hu =>
    hmade.kind_eq.trans (kind_sectionAt_of_optionLine hu)
  have hcues := h.cues_tokens hmade
  refine ⟨⟨halone, ?_⟩, fun hclosed => ?_, fun hshown => ?_⟩
  · rw [hcues]
    rcases hopen with hclosed | hshown
    · exact hmade.tellsAs_of_leavesNothingOpen hlead hclosed hkind
    · refine hmade.tellsAs_of_hidesNoOption hlead hshown ⟨hkind, fun hs => ?_⟩
      exact hmade.kind_eq_of_resolve hlead hshown rfl rfl (hmade.kind_eq.symm.trans hs)
  · rw [LeavesNothingOpen, hcues]
    exact hmade.after_cuesIn hlead hclosed
  · rw [HidesNoOption, hcues]
    exact hmade.options_cuesIn_eq hlead hshown

/-- The options that a section states. -/
def Section.stated (s : Section) : List String :=
  Reading.outside.options (cues true s.tokens)

/-- The blocks of an orderly module state what the module states. -/
theorem Orderly.stated_blocksOf {tokens : List Token} (h : Orderly tokens)
    (hreturns : '\r' ∉ charsOf tokens) (hopen : LeavesNothingOpen tokens ∨ HidesNoOption tokens) :
    (blocksOf tokens).flatMap Section.stated = Reading.outside.options (cues true tokens) := by
  have hblocks := fun s hs => @Orderly.faithful_of_mem tokens h hreturns hopen s hs
  have hcues := (h.blocks_spec hreturns).2
  rw [← hcues]
  rcases hopen with hclosed | hshown
  · exact (Reading.options_flatMap fun s hs => (hblocks s hs).2.1 hclosed).2.symm
  · refine (Reading.options_flatMap_of_shown ?_ fun s hs => (hblocks s hs).2.2 hshown).symm
    rw [hcues]
    exact hshown

/-- Attaching sections of unknown kind does not look at origins. -/
theorem attachUnknown_map_origin (origin : Option String) (carry : List Token)
    (sections : List Section) :
    attachUnknown carry (sections.map fun s => { s with origin }) =
      (attachUnknown carry sections).map fun s => { s with origin } := by
  induction sections generalizing carry with
  | nil => rfl
  | cons s rest ih =>
    cases rest with
    | nil => rfl
    | cons r rest =>
      rw [List.map_cons, List.map_cons, attachUnknown_cons_cons, attachUnknown_cons_cons]
      split
      next => exact ih _
      next => exact congrArg _ (ih _)

/-- The blocks that a source contributes are those of its qualified tokens. -/
theorem Prepared.attachUnknown_named (origin name : String) (tokens : List Token) :
    attachUnknown [] (Prepared.named origin name tokens).sections =
      (blocksOf (Qualify.qualify name tokens)).map fun s => { s with origin := some origin } := by
  have hsections : (Prepared.named origin name tokens).sections =
      ((Partition.sections (Qualify.qualify name tokens)).map Proxy.resolve).map
        fun s => { s with origin := some origin } := by
    rw [Prepared.named, qualifiedSections, sectionsOf, List.map_map, List.map_map]
    refine List.map_congr_left fun s _ => ?_
    rw [Function.comp_apply, Function.comp_apply, Proxy.resolve, Proxy.resolve]
    split <;> rfl
  rw [hsections, attachUnknown_map_origin, blocksOf]

end VbaModules

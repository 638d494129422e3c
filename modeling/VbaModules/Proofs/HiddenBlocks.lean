import VbaModules.Proofs.BracketedBlocks
import VbaModules.Proofs.OverlapComponents
import VbaModules.Proofs.SectionLines

/-!
# A header without an end hides what follows

One would expect that a procedure with a header and an end is found wherever it stands. It is not:
the search for procedures and types gives up at the first header that has no end, and what comes
after it is not found (`inBlock_iff_not_hidden`). A header hides others only if the search gets to
it, so one that is itself in a block does no harm.

A block that is found is safe from the other searches. No section begins within it, since a section
that has a token of a candidate has all of it (`Partition.not_begins_inside`), and a line that
declares a variable is a section only outside all blocks (`Partition.not_shares_block`). The lines
of a hidden procedure are not protected in this way, and its variables become those of the module
(`exists_hidden_header`).
-/

namespace VbaModules

open Token

namespace Candidate

/-- The header has an **end**: a line after it that ends a block of its keyword. -/
def HasEnd (tokens : List Token) (header : Match) : Prop :=
  ∃ m, (Pattern.parse ("end " ++ lastWord tokens header)).IsMatch true tokens m ∧
    header.stop ≤ m.start

/-- The header lies in a block that is found. -/
def InBlock (tokens : List Token) (header : Match) : Prop :=
  ∃ s ∈ blocks tokens, s.start ≤ header.start ∧ header.stop ≤ s.stop

/-- The header **hides** what comes after it: it has no end, and it is in no block. -/
structure Hides (tokens : List Token) (header : Match) : Prop where
  isMatch : blockHeader.IsMatch true tokens header
  not_hasEnd : ¬HasEnd tokens header
  not_inBlock : ¬InBlock tokens header

section Search

variable {tokens : List Token} {position : Nat} {header : Match} {s : Span}

/-! ### Headers in a block -/

theorem exists_blockFrom_of_mem (h : s ∈ blocksFrom tokens position) :
    ∃ start header closer, BlockFrom tokens start header closer s := by
  obtain ⟨before, after, hsplit⟩ := List.append_of_mem h
  exact ⟨_, exists_blockFrom before hsplit⟩

/-- A header that begins in a block lies in it, as the block stops with a line of another form. -/
theorem stop_le_of_holds (hheader : blockHeader.IsMatch true tokens header)
    (hs : s ∈ blocksFrom tokens position) (hholds : s.Holds header.start) :
    header.stop ≤ s.stop := by
  obtain ⟨start, first, closer, hblock⟩ := exists_blockFrom_of_mem hs
  have hend := hblock.isFirst_closer.isMatch
  rw [parse_end_append hblock.keyword_mem] at hend
  have hlt : header.start < closer.start := by
    rcases Nat.lt_trichotomy header.start closer.start with hlt | heq | hgt
    · exact hlt
    · obtain ⟨hclose, -⟩ := (isMatch_blockEnd_iff hblock.keyword_mem).mpr hend
      exact absurd heq (hheader.start_ne hclose (by decide) (by decide) (by decide))
    · have hbefore := hholds.2
      rw [hblock.stop_eq] at hbefore
      have hline := hend.beginsLine_eq_false (staysInLine_blockCloser _) hgt hbefore.le
      rw [hheader.beginsLine rfl] at hline
      cases hline
  have hstop : header.stop ≤ closer.start := by
    by_contra hinside
    have hline := hheader.beginsLine_eq_false rfl hlt (by omega)
    rw [hend.beginsLine rfl] at hline
    cases hline
  rw [hblock.stop_eq]
  exact hstop.trans hend.start_lt_stop.le

theorem inBlock_iff_exists_holds (hheader : blockHeader.IsMatch true tokens header) :
    InBlock tokens header ↔ ∃ s ∈ blocks tokens, s.Holds header.start := by
  constructor
  · rintro ⟨s, hs, hstart, hstop⟩
    exact ⟨s, hs, hstart, hheader.start_lt_stop.trans_le hstop⟩
  · rintro ⟨s, hs, hholds⟩
    exact ⟨s, hs, hholds.1, stop_le_of_holds hheader hs hholds⟩

/-! ### Where the search gives up -/

theorem le_resume (tokens : List Token) (position : Nat) :
    position ≤ resume position (blocksFrom tokens position) := by
  fun_induction blocksFrom tokens position with
  | case1 => exact le_rfl
  | case2 => exact le_rfl
  | case3 position header hheader keyword closer hcloser ih =>
    have hbounds := Pattern.next?_bounds hheader
    have hbounds' := Pattern.next?_bounds hcloser
    have hle : position ≤ closer.stop := by omega
    rw [resume_cons]
    exact hle.trans ih

/-- The blocks are found before the place where the search gives up. -/
theorem stop_le_resume (h : s ∈ blocksFrom tokens position) :
    s.stop ≤ resume position (blocksFrom tokens position) := by
  fun_induction blocksFrom tokens position with
  | case1 => cases h
  | case2 => cases h
  | case3 position header hheader keyword closer hcloser ih =>
    rw [resume_cons]
    rcases List.mem_cons.mp h with rfl | hrest
    · exact le_resume tokens closer.stop
    · exact ih hrest

/-- A header that is in no block comes after that place, since each round begins with the next
header. -/
theorem resume_le_start (hheader : blockHeader.IsMatch true tokens header)
    (hle : position ≤ header.start)
    (hnot : ∀ s ∈ blocksFrom tokens position, ¬s.Holds header.start) :
    resume position (blocksFrom tokens position) ≤ header.start := by
  fun_induction blocksFrom tokens position with
  | case1 => exact hle
  | case2 => exact hle
  | case3 position first hfirst keyword closer hcloser ih =>
    obtain ⟨hnotfirst, hnotrest⟩ := List.forall_mem_cons.mp hnot
    have hstart := (Pattern.isFirst_iff.mpr hfirst).start_le header hheader hle
    have hstop : closer.stop ≤ header.start := by
      by_contra hlt
      exact hnotfirst ⟨hstart, Nat.lt_of_not_le hlt⟩
    rw [resume_cons]
    exact ih hstop hnotrest

theorem resume_le_start_of_not_inBlock (hheader : blockHeader.IsMatch true tokens header)
    (hnot : ¬InBlock tokens header) : resume 0 (blocks tokens) ≤ header.start := by
  refine resume_le_start hheader (Nat.zero_le _) fun s hs hholds => hnot ?_
  exact (inBlock_iff_exists_holds hheader).mpr ⟨s, hs, hholds⟩

theorem start_lt_resume_of_inBlock (hheader : blockHeader.IsMatch true tokens header)
    (h : InBlock tokens header) : header.start < resume 0 (blocks tokens) := by
  obtain ⟨s, hs, -, hstop⟩ := h
  exact hheader.start_lt_stop.trans_le (hstop.trans (stop_le_resume hs))

/-- The first header where the search gives up hides what comes after it. -/
theorem hides_of_isFirst
    (h : blockHeader.IsFirst tokens (resume 0 (blocks tokens)) header) : Hides tokens header where
  isMatch := h.isMatch
  not_hasEnd := by
    rintro ⟨m, hm, hle⟩
    rw [parse_end_append (lastWord_mem_of_header h.isMatch)] at hm
    exact Nat.not_lt_of_le hle (start_lt_of_isFirst h hm)
  not_inBlock hin := Nat.not_lt_of_le h.le_start (start_lt_resume_of_inBlock h.isMatch hin)

/-- A header with an end that is in no block has one before it that hides it. -/
theorem exists_hides_of_not_inBlock (hheader : blockHeader.IsMatch true tokens header)
    (hend : HasEnd tokens header) (hnot : ¬InBlock tokens header) :
    ∃ earlier, Hides tokens earlier ∧ earlier.start < header.start := by
  obtain ⟨first, hfirst, hle⟩ :=
    Pattern.exists_next? hheader (resume_le_start_of_not_inBlock hheader hnot)
  have hhides := hides_of_isFirst (Pattern.isFirst_iff.mpr hfirst)
  refine ⟨first, hhides, Nat.lt_of_le_of_ne hle fun heq => hhides.not_hasEnd ?_⟩
  rwa [hhides.isMatch.eq_of_start_eq hheader heq]

end Search

end Candidate

/-! ### Sections and blocks -/

namespace Partition

open Candidate

variable {tokens : List Token} {c g s : Span}

/-- No section begins inside a candidate. -/
theorem not_begins_inside (hc : c ∈ all tokens) (hg : g ∈ spans tokens) :
    ¬(c.start < g.start ∧ g.start < c.stop) := by
  rintro ⟨hlt, hstop⟩
  obtain ⟨u, ⟨hu, -, hustart, hustop⟩, -⟩ := existsUnique_within hc
  have hpos := (consecutive_spans tokens).start_lt_stop_of_mem hg
  obtain rfl : g = u := (consecutive_spans tokens).eq_of_overlap hg hu (by omega) (by omega)
  omega

theorem mem_all_of_mem_blocks (h : s ∈ blocks tokens) : s ∈ all tokens :=
  mem_all_of_mem_find (show s ∈ Search.block.find tokens from h)

/-- A section that is a line has no token of a block, which has a line break in it. -/
theorem not_shares_block (hlead : Lexer.DirectivesLead true tokens) (hg : g ∈ spans tokens)
    (hkind : g.kind ∈ Section.Kind.ofLines) (hs : s ∈ blocks tokens) : ¬g.Shares s := by
  intro hshares
  have hunited := united_of_shares hg (mem_all_of_mem_blocks hs) hshares
  have hwithin := hunited.within_of_shares (mem_all_of_mem_blocks hs) hshares
  have hstop := hunited.stop_eq_lineEnd hlead
    ((consecutive_spans tokens).start_lt_stop_of_mem hg) hkind
  obtain ⟨start, header, closer, hblock⟩ := exists_blockFrom_of_mem hs
  have hheader := hblock.isFirst_header.isMatch
  have hcloser := hblock.isFirst_closer.isMatch
  obtain ⟨t, ht, hblank⟩ := hheader.exists_first
  -- the closer begins a line, so there is a line break between it and the header
  obtain ⟨k, u, hk, hk', hu, hbreak⟩ := exists_isLineBreak_of_beginsLine ht hblank
    (hheader.start_lt_stop.trans_le hblock.isFirst_closer.le_start) (hcloser.beginsLine rfl)
  have hinside : k + 1 < lineEnd tokens g.start := by
    have hlt := hcloser.start_lt_stop
    have hle := hwithin.2
    rw [hblock.stop_eq] at hle
    omega
  have hfrom : g.start ≤ k := by
    have hle := hwithin.1
    rw [hblock.start_eq] at hle
    omega
  rw [isLineBreak_eq_false_of_lt_lineEnd hfrom hinside hu] at hbreak
  cases hbreak

end Partition

namespace Candidate

open VbaModules.Partition

/-- **A procedure or type with an end is found unless an earlier header hides it.** A header with an
end lies in a block exactly if no header before it hides it, which is one that has no end and is in
no block. No section begins inside a block, and if directives lead their lines, no section of
variables or constants has a token of one. -/
theorem inBlock_iff_not_hidden (tokens : List Token) :
    (∀ header, blockHeader.IsMatch true tokens header → HasEnd tokens header →
      (InBlock tokens header ↔
        ¬∃ earlier, Hides tokens earlier ∧ earlier.start < header.start)) ∧
      (∀ s ∈ blocks tokens, ∀ g ∈ spans tokens, ¬(s.start < g.start ∧ g.start < s.stop)) ∧
      (Lexer.DirectivesLead true tokens → ∀ s ∈ blocks tokens, ∀ g ∈ spans tokens,
        g.kind = .global → ¬g.Shares s) := by
  refine ⟨fun header hheader hend => ⟨?_, fun hnot => ?_⟩,
    fun s hs g hg => not_begins_inside (mem_all_of_mem_blocks hs) hg,
    fun hlead s hs g hg hkind => not_shares_block hlead hg ?_ hs⟩
  · rintro hin ⟨earlier, hhides, hlt⟩
    have hgives := resume_le_start_of_not_inBlock hhides.isMatch hhides.not_inBlock
    exact Nat.not_lt_of_le hgives (hlt.trans (start_lt_resume_of_inBlock hheader hin))
  · by_contra hout
    exact hnot (exists_hides_of_not_inBlock hheader hend hout)
  · rw [hkind]
    decide

/-- A function with a variable in it, after the first line of a procedure. -/
def interrupted : List Token :=
  [⟨.reserved, "Sub"⟩, ⟨.blank, " "⟩, ⟨.name, "Draw"⟩, ⟨.lineBreak, "\n"⟩,
    ⟨.reserved, "Function"⟩, ⟨.blank, " "⟩, ⟨.name, "Size"⟩, ⟨.lineBreak, "\n"⟩,
    ⟨.reserved, "Dim"⟩, ⟨.blank, " "⟩, ⟨.name, "Wide"⟩, ⟨.lineBreak, "\n"⟩,
    ⟨.reserved, "End"⟩, ⟨.blank, " "⟩, ⟨.reserved, "Function"⟩]

theorem blocks_drop_interrupted : blocks (interrupted.drop 4) = [⟨0, 11, .procedure⟩] := by
  have hheader : blockHeader.next? true (interrupted.drop 4) 0 = some ⟨0, 1⟩ := by decide
  have hcloser : (blockCloser (lastWord (interrupted.drop 4) ⟨0, 1⟩)).next? true
      (interrupted.drop 4) 1 = some ⟨8, 11⟩ := by decide
  have hnone : blockHeader.next? true (interrupted.drop 4) 11 = none := by decide
  rw [blocks, blocksFrom_eq, hheader]
  simp only [hcloser, blocksFrom_eq _ 11, hnone]
  decide

/-- On its own the function is found, and its variable is none of the module. -/
theorem inBlock_drop_interrupted :
    let tokens := interrupted.drop 4
    (blockHeader.IsMatch true tokens ⟨0, 1⟩ ∧ HasEnd tokens ⟨0, 1⟩ ∧ InBlock tokens ⟨0, 1⟩) ∧
      Lexer.DirectivesLead true tokens ∧ ⟨4, 8, .global⟩ ∉ spans tokens := by
  intro tokens
  have hheader : blockHeader.IsMatch true tokens ⟨0, 1⟩ :=
    ⟨by decide, ⟨_, rfl, rfl⟩, fun _ => by decide, by decide⟩
  have hend : HasEnd tokens ⟨0, 1⟩ := by
    refine ⟨⟨8, 11⟩, ?_, by decide⟩
    rw [show lastWord tokens ⟨0, 1⟩ = "function" by decide, parse_end_append (by decide)]
    exact ⟨by decide, ⟨_, rfl, rfl⟩, fun _ => by decide, by decide⟩
  have hlead : Lexer.DirectivesLead true tokens := by
    simp [tokens, interrupted, Lexer.DirectivesLead]
  have hblock : ⟨0, 11, .procedure⟩ ∈ blocks tokens := by
    rw [blocks_drop_interrupted]
    exact List.mem_singleton_self _
  obtain ⟨hfound, -, hglobal⟩ := inBlock_iff_not_hidden tokens
  refine ⟨⟨hheader, hend, (hfound _ hheader hend).mpr ?_⟩, hlead, fun hmem => ?_⟩
  · rintro ⟨earlier, -, hlt⟩
    exact Nat.not_lt_zero _ hlt
  · exact hglobal hlead _ hblock _ hmem rfl ⟨4, ⟨le_rfl, by decide⟩, by decide, by decide⟩

theorem blocks_interrupted : blocks interrupted = [] := by
  have hheader : blockHeader.next? true interrupted 0 = some ⟨0, 1⟩ := by decide
  have hcloser : (blockCloser (lastWord interrupted ⟨0, 1⟩)).next? true interrupted 1 = none := by
    decide
  rw [blocks, blocksFrom_eq, hheader]
  simp only [hcloser]

theorem all_interrupted : all interrupted = [⟨8, 12, .global⟩] := by
  have hdeclaration : declarationStart.next? true interrupted 0 = none := by decide
  have hvariable : variableStart.next? true interrupted 0 = some ⟨8, 11⟩ := by decide
  have hvariable' : variableStart.next? true interrupted 11 = none := by decide
  have hconstant : constantStart.next? true interrupted 0 = none := by decide
  have hvariables : variableStart.lineMatches interrupted = [⟨8, 11⟩] := by
    rw [Pattern.lineMatches, Pattern.matchesFrom_eq, hvariable]
    simp only [Pattern.matchesFrom_eq, hvariable']
  rw [all, blocks_interrupted, declarations, globals, hvariables, Pattern.lineMatches,
    Pattern.lineMatches, Pattern.matchesFrom_eq, Pattern.matchesFrom_eq, hdeclaration, hconstant]
  decide

/-- After the unfinished procedure the function is not found, and its variable is one of the
module. -/
theorem exists_hidden_header :
    blockHeader.IsMatch true interrupted ⟨4, 5⟩ ∧ HasEnd interrupted ⟨4, 5⟩ ∧
      ¬InBlock interrupted ⟨4, 5⟩ ∧ ⟨8, 12, .global⟩ ∈ spans interrupted := by
  refine ⟨⟨by decide, ⟨_, rfl, rfl⟩, fun _ => by decide, by decide⟩, ?_, ?_, ?_⟩
  · refine ⟨⟨12, 15⟩, ?_, by decide⟩
    rw [show lastWord interrupted ⟨4, 5⟩ = "function" by decide, parse_end_append (by decide)]
    exact ⟨by decide, ⟨_, rfl, rfl⟩, fun _ => by decide, by decide⟩
  · rintro ⟨s, hs, -⟩
    rw [blocks_interrupted] at hs
    cases hs
  · rw [spans_eq_coverFrom_absorb all_interrupted (by decide)]
    decide

end Candidate

end VbaModules

import VbaModules.Proofs.OpenBlocks

/-!
# Procedures and types are well bracketed

The search for procedures and types runs from a position to the next header, from there to the next
end of the keyword that the header ends with, and goes on behind it. What one round finds is told
without the search: the header and the end are the first matches from where they are looked for
(`Pattern.IsFirst`, `BlockFrom`). A round begins where the block before it stops (`resume`), and the
rounds stop only if there is no header any more, or if the next header has no end
(`start_lt_of_isFirst`).

How many rounds there can be (`length_blocksFrom_le`) rests on line breaks. The header and the end
of a block begin a line each, and neither has a line break in it, so there is one between them, and
one between the end and the next header.
-/

namespace VbaModules

open Token

/-! ### First matches -/

/-- The **first** match of the pattern among those that begin a line at or after the position. -/
structure Pattern.IsFirst (p : Pattern) (tokens : List Token) (position : Nat) (m : Match) :
    Prop where
  le_start : position ≤ m.start
  isMatch : p.IsMatch true tokens m
  start_le : ∀ m', p.IsMatch true tokens m' → position ≤ m'.start → m.start ≤ m'.start

namespace Pattern

variable {p : Pattern} {tokens : List Token} {position : Nat} {m : Match}

theorem isFirst_iff : p.IsFirst tokens position m ↔ p.next? true tokens position = some m := by
  rw [next?_eq_some_iff]
  constructor
  · intro h
    exact ⟨h.le_start, h.isMatch, h.start_le⟩
  · rintro ⟨hle, hmatch, hleast⟩
    exact ⟨hle, hmatch, hleast⟩

/-- Where a search finds nothing, all matches begin before. -/
theorem IsMatch.start_lt (h : p.IsMatch true tokens m)
    (hnone : p.next? true tokens position = none) : m.start < position := by
  by_contra hle
  obtain ⟨m', hm', -⟩ := exists_next? h (Nat.le_of_not_lt hle)
  rw [hnone] at hm'
  cases hm'

/-- Each element that must take a token takes one. -/
theorem length_filter_le_of_align {es : List Element} {ts : List Token} {n : Nat}
    (h : align es ts = some n) : (es.filter (!·.optional)).length ≤ n := by
  induction es generalizing ts n with
  | nil => exact Nat.zero_le n
  | cons e es ih =>
    rw [align] at h
    split at h
    next =>
      obtain ⟨k, hk, rfl⟩ := Option.map_eq_some_iff.mp h
      have hrest := ih hk
      rw [List.filter_cons]
      split
      · rw [List.length_cons]
        omega
      · omega
    next =>
      split at h
      next hoptional =>
        rw [List.filter_cons_of_neg (by simp [hoptional])]
        exact ih h
      next => cases h

/-- After a match that stays in its line, a match begins only in a later line. -/
theorem IsMatch.stop_lt_start {p' : Pattern} {m' : Match} (h : p.IsMatch true tokens m)
    (hstays : p.staysInLine = true) (h' : p'.IsMatch true tokens m')
    (hle : m.stop ≤ m'.start) : m.stop < m'.start := by
  refine Nat.lt_of_le_of_ne hle fun heq => ?_
  have hline := h.beginsLine_eq_false hstays h.start_lt_stop le_rfl
  rw [heq, h'.beginsLine rfl] at hline
  cases hline

end Pattern

namespace Candidate

variable {tokens : List Token} {position : Nat}

/-! ### One round -/

/-- The end that belongs to a keyword is written as one would expect. -/
theorem parse_end_append {keyword : String} (h : keyword ∈ blockKeywords) :
    Pattern.parse ("end " ++ keyword) = blockCloser keyword := by
  have hall : blockKeywords.all (fun keyword =>
      Pattern.parse ("end " ++ keyword) = blockCloser keyword) = true := by decide
  simpa using List.all_eq_true.mp hall keyword h

theorem blockKind_eq_iff (keyword : String) :
    (blockKind keyword = .enumeration ↔ keyword = "enum") ∧
      (blockKind keyword = .userType ↔ keyword = "type") ∧
      (blockKind keyword = .procedure ↔ keyword ≠ "enum" ∧ keyword ≠ "type") := by
  rw [blockKind]
  split
  next henum => simp [henum]
  next henum =>
    split
    next htype => simp [htype]
    next htype => simp [henum, htype]

/-- The span is the **block from** the position on: it reaches from the first header there through
the first end of the keyword of the header, and the keyword tells its kind. -/
structure BlockFrom (tokens : List Token) (position : Nat) (header closer : Match) (s : Span) :
    Prop where
  isFirst_header : blockHeader.IsFirst tokens position header
  keyword_mem : lastWord tokens header ∈ blockKeywords
  isFirst_closer :
    (Pattern.parse ("end " ++ lastWord tokens header)).IsFirst tokens header.stop closer
  lastWord_eq : lastWord tokens closer = lastWord tokens header
  start_eq : s.start = header.start
  stop_eq : s.stop = closer.stop
  enumeration_iff : s.kind = .enumeration ↔ lastWord tokens header = "enum"
  userType_iff : s.kind = .userType ↔ lastWord tokens header = "type"
  procedure_iff : s.kind = .procedure ↔
    lastWord tokens header ≠ "enum" ∧ lastWord tokens header ≠ "type"

section Round

variable {header closer : Match}

theorem blockFrom_of_next? (hheader : blockHeader.next? true tokens position = some header)
    (hcloser : (blockCloser (lastWord tokens header)).next? true tokens header.stop =
      some closer) :
    BlockFrom tokens position header closer
      ⟨header.start, closer.stop, blockKind (lastWord tokens header)⟩ := by
  rw [← Pattern.isFirst_iff] at hheader hcloser
  have hmem := lastWord_mem_of_header hheader.isMatch
  obtain ⟨henum, htype, hprocedure⟩ := blockKind_eq_iff (lastWord tokens header)
  exact {
    isFirst_header := hheader
    keyword_mem := hmem
    isFirst_closer := by rwa [parse_end_append hmem]
    lastWord_eq := ((isMatch_blockEnd_iff hmem).mpr hcloser.isMatch).2
    start_eq := rfl
    stop_eq := rfl
    enumeration_iff := henum
    userType_iff := htype
    procedure_iff := hprocedure }

/-- A block has a header, a line break and an end of two words. -/
theorem start_add_four_le_stop (hheader : blockHeader.IsMatch true tokens header) {keyword : String}
    (hcloser : (blockCloser keyword).IsMatch true tokens closer)
    (hle : header.stop ≤ closer.start) : header.start + 4 ≤ closer.stop := by
  have hheader' := hheader.start_lt_stop
  have hbreak := hheader.stop_lt_start rfl hcloser hle
  have hwords : 2 ≤ closer.stop - closer.start :=
    Pattern.length_filter_le_of_align hcloser.align_eq
  omega

end Round

/-! ### All rounds -/

/-- Where the search goes on after it has found some blocks. -/
def resume (position : Nat) (found : List Span) : Nat :=
  (found.getLast?.map Span.stop).getD position

theorem resume_cons (position : Nat) (s : Span) (found : List Span) :
    resume position (s :: found) = resume s.stop found := by
  rw [resume, resume, List.getLast?_cons]
  cases found.getLast? <;> rfl

/-- Each block found is the block from where the one before it stops. -/
theorem exists_blockFrom (before : List Span) {s : Span} {after : List Span}
    (h : blocksFrom tokens position = before ++ s :: after) :
    ∃ header closer, BlockFrom tokens (resume position before) header closer s := by
  fun_induction blocksFrom tokens position generalizing before with
  | case1 => simp at h
  | case2 => simp at h
  | case3 position header hheader keyword closer hcloser ih =>
    cases before with
    | nil =>
      obtain ⟨rfl, -⟩ := List.cons.inj h
      exact ⟨header, closer, blockFrom_of_next? hheader hcloser⟩
    | cons first before =>
      obtain ⟨rfl, hrest⟩ := List.cons.inj h
      rw [resume_cons]
      exact ih before hrest

/-- Where the search gives up, the next header has no end. -/
theorem start_lt_of_isFirst {header m : Match}
    (hheader : blockHeader.IsFirst tokens (resume position (blocksFrom tokens position)) header)
    (hm : (blockCloser (lastWord tokens header)).IsMatch true tokens m) :
    m.start < header.stop := by
  rw [Pattern.isFirst_iff] at hheader
  fun_induction blocksFrom tokens position with
  | case1 position hnone =>
    rw [resume, List.getLast?_nil, Option.map_none, Option.getD_none, hnone] at hheader
    cases hheader
  | case2 position header' hheader' keyword hnone =>
    rw [resume, List.getLast?_nil, Option.map_none, Option.getD_none, hheader'] at hheader
    obtain rfl := Option.some.inj hheader
    exact hm.start_lt hnone
  | case3 position header' hheader' keyword closer hcloser ih =>
    rw [resume_cons] at hheader
    exact ih hheader

/-- There is a line break between a block and the next one. -/
theorem pairwise_stop_lt_start_blocksFrom (tokens : List Token) (position : Nat) :
    (blocksFrom tokens position).Pairwise fun a b => a.stop < b.start := by
  fun_induction blocksFrom tokens position with
  | case1 => exact .nil
  | case2 => exact .nil
  | case3 position header hheader keyword closer hcloser ih =>
    refine List.pairwise_cons.mpr ⟨fun s hs => ?_, ih⟩
    rw [← Pattern.isFirst_iff] at hcloser
    obtain ⟨hle, later, hlater, hstart⟩ := start_of_mem_blocksFrom hs
    rw [← hstart] at hle ⊢
    exact hcloser.isMatch.stop_lt_start (staysInLine_blockCloser keyword) hlater hle

/-- A block has four tokens, and there is a line break before it unless a line begins where the
search begins. -/
theorem length_blocksFrom_le (hle : position ≤ tokens.length) :
    5 * (blocksFrom tokens position).length + position ≤
      tokens.length + (beginsLine tokens position).toNat := by
  fun_induction blocksFrom tokens position with
  | case1 => simpa using Nat.le_add_right_of_le hle
  | case2 => simpa using Nat.le_add_right_of_le hle
  | case3 position header hheader keyword closer hcloser ih =>
    rw [← Pattern.isFirst_iff] at hheader hcloser
    have hfour := start_add_four_le_stop hheader.isMatch hcloser.isMatch hcloser.le_start
    have hend := hcloser.isMatch.beginsLine_eq_false (staysInLine_blockCloser keyword)
      hcloser.isMatch.start_lt_stop le_rfl
    have hrest := ih hcloser.isMatch.stop_le
    rw [hend, Bool.toNat_false] at hrest
    rw [List.length_cons]
    -- the end of the block is no start of a line, so only the first header may stand at `position`
    rcases Nat.lt_or_eq_of_le hheader.le_start with hlt | rfl
    · omega
    · rw [hheader.isMatch.beginsLine rfl, Bool.toNat_true]
      omega

/-- **Procedures and types are well bracketed.** The blocks found are disjoint and in order. Each
is the block from where the one before it stops, so the search advances with each round, and it
gives up only where the next header has no end. There are at most as many rounds as there is room
for a header, a line break and an end, with a line break in between. -/
theorem blocks_bracketed (tokens : List Token) :
    (blocks tokens).Pairwise (fun a b => a.stop < b.start) ∧
      (∀ before s after, blocks tokens = before ++ s :: after →
        resume 0 before < s.stop ∧ s.stop ≤ tokens.length ∧
          ∃ header closer, BlockFrom tokens (resume 0 before) header closer s) ∧
      (∀ header, blockHeader.IsFirst tokens (resume 0 (blocks tokens)) header →
        ∀ m, (Pattern.parse ("end " ++ lastWord tokens header)).IsMatch true tokens m →
          m.start < header.stop) ∧
      5 * (blocks tokens).length ≤ tokens.length + 1 := by
  refine ⟨pairwise_stop_lt_start_blocksFrom tokens 0, fun before s after h => ?_,
    fun header hheader m hm => ?_, length_blocksFrom_le (Nat.zero_le _)⟩
  · obtain ⟨header, closer, hblock⟩ := exists_blockFrom before h
    have hheader := hblock.isFirst_header.isMatch.start_lt_stop
    have hcloser := hblock.isFirst_closer.isMatch.start_lt_stop
    have hresume := hblock.isFirst_header.le_start
    have hafter := hblock.isFirst_closer.le_start
    rw [hblock.stop_eq]
    exact ⟨by omega, hblock.isFirst_closer.isMatch.stop_le, header, closer, hblock⟩
  · rw [parse_end_append (lastWord_mem_of_header hheader.isMatch)] at hm
    exact start_lt_of_isFirst hheader hm

end Candidate

end VbaModules

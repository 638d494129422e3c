import VbaModules.Proofs.Alignments
import VbaModules.Proofs.SectionLines

/-!
# What a scan finds

A scan goes along the tokens from left to right, tries the pattern wherever a match may begin, and
goes on behind each match. What it finds is told without going along: the matches are in order and
apart from each other, and wherever else the pattern could be matched, the place is within one of
them (`Pattern.Scans`). There is one such list only, and a scan can be resumed behind any of its
matches (`Pattern.matchesFrom_leftmost`).

A match can hide another place only by reaching over it. The matches of a pattern without a wildcard
for line breaks stay in their lines, and a line has one place for an anchored match. So an anchored
scan with such a pattern is no more than a look at the first code of each line
(`Pattern.matchesFrom_eq_filterMap`).
-/

namespace VbaModules

open Token

namespace Pattern

variable {p : Pattern} {anchored : Bool} {tokens : List Token} {position : Nat}

/-! ### Places for matches -/

/-- A **place** for a match: the token there is not blank, and it begins a line if the match is to
be anchored. -/
structure IsPlace (anchored : Bool) (tokens : List Token) (i : Nat) : Prop where
  exists_code : ∃ t, tokens[i]? = some t ∧ t.isBlank = false
  beginsLine : anchored = true → beginsLine tokens i = true

/-- A match is a place together with what the pattern takes there. -/
theorem isMatch_iff {m : Match} :
    p.IsMatch anchored tokens m ↔
      IsPlace anchored tokens m.start ∧ p.endAt? tokens m.start = some m.stop := by
  rw [endAt?_eq_some_iff]
  constructor
  · intro h
    have hlt := h.start_lt_stop
    exact ⟨⟨h.exists_first, h.beginsLine⟩, _, h.align_eq, by omega, by omega⟩
  · rintro ⟨⟨hcode, hline⟩, n, halign, hpos, hstop⟩
    refine ⟨by omega, hcode, hline, ?_⟩
    rw [halign, Option.some.injEq]
    omega

/-! ### Leftmost matches -/

/-- The list is what a **scan** from the position on finds. -/
structure Scans (p : Pattern) (anchored : Bool) (tokens : List Token) (position : Nat)
    (found : List Match) : Prop where
  bounds : ∀ m ∈ found, position ≤ m.start ∧ m.start < m.stop ∧ m.stop ≤ tokens.length
  apart : found.Pairwise fun a b => a.stop ≤ b.start
  isPlace : ∀ m ∈ found, IsPlace anchored tokens m.start
  endAt?_eq : ∀ m ∈ found, p.endAt? tokens m.start = some m.stop
  inside : ∀ i, position ≤ i → IsPlace anchored tokens i → (p.endAt? tokens i).isSome = true →
    (∀ m ∈ found, m.start ≠ i) → ∃ m ∈ found, m.start < i ∧ i < m.stop

theorem Scans.isMatch {found : List Match} (h : p.Scans anchored tokens position found) {m : Match}
    (hm : m ∈ found) : p.IsMatch anchored tokens m :=
  isMatch_iff.mpr ⟨h.isPlace m hm, h.endAt?_eq m hm⟩

/-- A match that is not found begins within one that is. -/
theorem Scans.mem_or_inside {found : List Match} (h : p.Scans anchored tokens position found)
    {m : Match} (hm : p.IsMatch anchored tokens m) (hle : position ≤ m.start) :
    m ∈ found ∨ ∃ m' ∈ found, m'.start < m.start ∧ m.start < m'.stop := by
  obtain ⟨hplace, hend⟩ := isMatch_iff.mp hm
  by_cases hstart : ∀ m' ∈ found, m'.start ≠ m.start
  · exact .inr (h.inside m.start hle hplace (by rw [hend]; rfl) hstart)
  · push Not at hstart
    obtain ⟨m', hm', heq⟩ := hstart
    exact .inl ((h.isMatch hm').eq_of_start_eq hm heq ▸ hm')

theorem scans_matchesFrom (p : Pattern) (anchored : Bool) (tokens : List Token) (position : Nat) :
    p.Scans anchored tokens position (p.matchesFrom anchored tokens position) where
  bounds _ hm := bounds_of_mem_matchesFrom hm
  apart := by
    fun_induction matchesFrom p anchored tokens position with
    | case1 => exact .nil
    | case2 position first hfirst ih =>
      exact List.pairwise_cons.mpr ⟨fun m hm => (bounds_of_mem_matchesFrom hm).1, ih⟩
  isPlace _ hm := (isMatch_iff.mp (isMatch_of_mem_matchesFrom hm)).1
  endAt?_eq _ hm := (isMatch_iff.mp (isMatch_of_mem_matchesFrom hm)).2
  inside i hi hplace hsome hother := by
    obtain ⟨stop, hstop⟩ := Option.isSome_iff_exists.mp hsome
    have hmatch : p.IsMatch anchored tokens ⟨i, stop⟩ := isMatch_iff.mpr ⟨hplace, hstop⟩
    fun_induction matchesFrom p anchored tokens position with
    | case1 position hnone =>
      obtain ⟨m, hm, -⟩ := exists_next? hmatch hi
      rw [hnone] at hm
      cases hm
    | case2 position first hfirst ih =>
      obtain ⟨-, -, hleast⟩ := next?_eq_some_iff.mp hfirst
      obtain ⟨hne, hother⟩ := List.forall_mem_cons.mp hother
      have hlt : first.start < i := Nat.lt_of_le_of_ne (hleast _ hmatch hi) hne
      rcases Nat.lt_or_ge i first.stop with hinside | hafter
      · exact ⟨first, List.mem_cons_self, hlt, hinside⟩
      · obtain ⟨m, hm, hwithin⟩ := ih hafter hother
        exact ⟨m, List.mem_cons_of_mem _ hm, hwithin⟩

/-- What a scan finds begins with the first match there is. -/
theorem Scans.exists_eq_cons {found : List Match} (h : p.Scans anchored tokens position found)
    {first : Match} (hfirst : p.next? anchored tokens position = some first) :
    ∃ rest, found = first :: rest ∧ p.Scans anchored tokens first.stop rest := by
  obtain ⟨hle, hmatch, hleast⟩ := next?_eq_some_iff.mp hfirst
  have hmem : first ∈ found := by
    refine (h.mem_or_inside hmatch hle).resolve_right ?_
    rintro ⟨m, hm, hlt, -⟩
    exact absurd (hleast m (h.isMatch hm) (h.bounds m hm).1) (Nat.not_le_of_lt hlt)
  cases found with
  | nil => cases hmem
  | cons m rest =>
    obtain ⟨hapart, hrest⟩ := List.pairwise_cons.mp h.apart
    obtain ⟨hbounds, hboundsRest⟩ := List.forall_mem_cons.mp h.bounds
    obtain rfl : first = m := by
      refine (List.mem_cons.mp hmem).resolve_right fun hlater => ?_
      have hstop := hapart first hlater
      have hstart := hleast m (h.isMatch List.mem_cons_self) hbounds.1
      omega
    refine ⟨rest, rfl, fun m hm => ⟨hapart m hm, (hboundsRest m hm).2⟩, hrest,
      fun m hm => h.isPlace m (List.mem_cons_of_mem _ hm),
      fun m hm => h.endAt?_eq m (List.mem_cons_of_mem _ hm),
      fun i hi hplace hsome hother => ?_⟩
    obtain ⟨m, hm, hlt, hinside⟩ := h.inside i (by omega) hplace hsome
      (List.forall_mem_cons.mpr ⟨by omega, hother⟩)
    rcases List.mem_cons.mp hm with rfl | hm
    · omega
    · exact ⟨m, hm, hlt, hinside⟩

theorem Scans.eq_matchesFrom {found : List Match} (h : p.Scans anchored tokens position found) :
    found = p.matchesFrom anchored tokens position := by
  fun_induction matchesFrom p anchored tokens position generalizing found with
  | case1 position hnone =>
    refine List.eq_nil_iff_forall_not_mem.mpr fun m hm => ?_
    obtain ⟨m', hm', -⟩ := exists_next? (h.isMatch hm) (h.bounds m hm).1
    rw [hnone] at hm'
    cases hm'
  | case2 position first hfirst ih =>
    obtain ⟨rest, rfl, hrest⟩ := h.exists_eq_cons hfirst
    rw [ih hrest]

/-- A scan goes on behind a match as if it began there. -/
theorem matchesFrom_stop (before : List Match) {m : Match} {after : List Match}
    (h : p.matchesFrom anchored tokens position = before ++ m :: after) :
    p.matchesFrom anchored tokens m.stop = after := by
  fun_induction matchesFrom p anchored tokens position generalizing before with
  | case1 => simp at h
  | case2 position first hfirst ih =>
    cases before with
    | nil =>
      obtain ⟨rfl, hafter⟩ := List.cons.inj h
      exact hafter
    | cons first' before => exact ih before (List.cons.inj h).2

/-- Each match takes a token of its own. -/
theorem length_matchesFrom_le (p : Pattern) (anchored : Bool) (tokens : List Token)
    (position : Nat) :
    (p.matchesFrom anchored tokens position).length ≤ tokens.length - position := by
  fun_induction matchesFrom p anchored tokens position with
  | case1 => exact Nat.zero_le _
  | case2 position first hfirst ih =>
    have hbounds := next?_bounds hfirst
    rw [List.length_cons]
    omega

/-- **A scan finds the leftmost matches.** The matches that follow each other from a position on are
in order and apart, within the tokens, and each begins at a place for a match and stops where the
pattern does. Any other place from the position on where the pattern could be matched is strictly
inside one of them. No other list of matches is like this. Resuming behind a match gives the matches
after it, and there are no more matches than tokens. -/
theorem matchesFrom_leftmost (p : Pattern) (anchored : Bool) (tokens : List Token)
    (position : Nat) :
    p.Scans anchored tokens position (p.matchesFrom anchored tokens position) ∧
      (∀ found, p.Scans anchored tokens position found →
        found = p.matchesFrom anchored tokens position) ∧
      (∀ before m after, p.matchesFrom anchored tokens position = before ++ m :: after →
        p.matchesFrom anchored tokens m.stop = after) ∧
      (p.matchesFrom anchored tokens position).length ≤ tokens.length - position :=
  ⟨scans_matchesFrom p anchored tokens position, fun _ => Scans.eq_matchesFrom,
    fun before _ _ => matchesFrom_stop before, length_matchesFrom_le p anchored tokens position⟩

end Pattern

/-! ### The first code of a line -/

/-- The token at the position **leads its line**: it is not blank, and all tokens before it are that
belong to the same line, which is to say that their line has the same end. -/
def Token.LeadsLine (tokens : List Token) (i : Nat) : Prop :=
  tokens[i]?.any (!·.isBlank) = true ∧
    ∀ j < i, lineEnd tokens j = lineEnd tokens i → tokens[j]?.all isBlank = true

instance (tokens : List Token) (i : Nat) : Decidable (LeadsLine tokens i) :=
  inferInstanceAs (Decidable (_ ∧ _))

namespace Token

variable {tokens : List Token} {i j : Nat}

theorem lt_lineEnd (h : i < tokens.length) : i < lineEnd tokens i := by
  rw [lineEnd]
  split
  next offset _ => omega
  next => exact h

/-- Where no line begins, there is code before in the same line. -/
theorem exists_code_of_beginsLine_eq_false (h : beginsLine tokens i = false) :
    ∃ j t, j < i ∧ tokens[j]? = some t ∧ t.isBlank = false ∧
      ∀ k u, j ≤ k → k < i → tokens[k]? = some u → u.isLineBreak = false := by
  induction i with
  | zero => cases h
  | succ i ih =>
    rw [beginsLine, List.take_add_one, List.foldl_append] at h
    -- the code before `i` will do, unless the token there is code itself
    have hearlier : beginsLine tokens i = false →
        (∀ u, tokens[i]? = some u → u.isLineBreak = false) →
        ∃ j t, j < i + 1 ∧ tokens[j]? = some t ∧ t.isBlank = false ∧
          ∀ k u, j ≤ k → k < i + 1 → tokens[k]? = some u → u.isLineBreak = false := by
      intro hline hlast
      obtain ⟨j, t, hj, ht, hblank, hplain⟩ := ih hline
      refine ⟨j, t, by omega, ht, hblank, fun k u hjk hk hu => ?_⟩
      rcases Nat.lt_succ_iff_lt_or_eq.mp hk with hlt | rfl
      · exact hplain k u hjk hlt hu
      · exact hlast u hu
    cases ht : tokens[i]? with
    | none => exact hearlier (by simpa [ht, beginsLine] using h) (by simp [ht])
    | some t =>
      cases hblank : t.isBlank with
      | true =>
        refine hearlier (by simpa [ht, beginsLine, lineStartAfter, hblank] using h) fun u hu => ?_
        obtain rfl : t = u := Option.some.inj (ht.symm.trans hu)
        rw [isBlank, beq_iff_eq] at hblank
        rw [isLineBreak, hblank]
        rfl
      | false =>
        refine ⟨i, t, Nat.lt_succ_self i, ht, hblank, fun k u hik hk hu => ?_⟩
        obtain rfl : k = i := by omega
        obtain rfl : t = u := Option.some.inj (ht.symm.trans hu)
        simpa [ht, lineStartAfter, hblank] using h

/-- The tokens that lead their lines are the places for anchored matches. -/
theorem leadsLine_iff : LeadsLine tokens i ↔ Pattern.IsPlace true tokens i := by
  have hcode : tokens[i]?.any (!·.isBlank) = true ↔
      ∃ t, tokens[i]? = some t ∧ t.isBlank = false := by
    simp [Option.any_eq_true]
  rw [LeadsLine, hcode]
  constructor
  · rintro ⟨hfirst, hbefore⟩
    refine ⟨hfirst, fun _ => ?_⟩
    by_contra hline
    -- code before it in its line would have to be blank
    obtain ⟨j, t, hj, ht, hblank, hplain⟩ :=
      exists_code_of_beginsLine_eq_false (Bool.eq_false_iff.mpr hline)
    obtain ⟨u, hu, -⟩ := hfirst
    have hle := (List.getElem?_eq_some_iff.mp hu).1.le
    have hall := hbefore j hj (lineEnd_eq_of_forall hj.le hle hplain).symm
    rw [ht, Option.all_some, hblank] at hall
    cases hall
  · rintro ⟨hfirst, hline⟩
    refine ⟨hfirst, fun j hj hend => ?_⟩
    rw [Option.all_eq_true]
    intro t ht
    by_contra hblank
    obtain ⟨k, u, hjk, hki, hu, hbreak⟩ :=
      exists_isLineBreak_of_beginsLine ht (Bool.eq_false_iff.mpr hblank) hj (hline rfl)
    obtain ⟨v, hv, -⟩ := hfirst
    have hbefore := lineEnd_le_of_isLineBreak hjk hu hbreak
    have hafter := lt_lineEnd (List.getElem?_eq_some_iff.mp hv).1
    omega

end Token

/-! ### Scans by lines -/

namespace Pattern

variable {p : Pattern} {tokens : List Token}

/-- What the pattern takes at a position that leads a line. -/
def leadMatch? (p : Pattern) (tokens : List Token) (i : Nat) : Option Match :=
  if LeadsLine tokens i then (p.endAt? tokens i).map (Match.mk i) else none

theorem leadMatch?_eq_some_iff {i : Nat} {m : Match} :
    p.leadMatch? tokens i = some m ↔ i = m.start ∧ p.IsMatch true tokens m := by
  rw [leadMatch?, Option.ite_none_right_eq_some, Option.map_eq_some_iff, leadsLine_iff, isMatch_iff]
  constructor
  · rintro ⟨hplace, stop, hstop, rfl⟩
    exact ⟨rfl, hplace, hstop⟩
  · rintro ⟨rfl, hplace, hstop⟩
    exact ⟨hplace, m.stop, hstop, rfl⟩

/-- Matches in the order of their starts are told by which there are. -/
theorem eq_of_mem_iff_of_pairwise_start {found found' : List Match}
    (h : found.Pairwise fun a b => a.start < b.start)
    (h' : found'.Pairwise fun a b => a.start < b.start) (hmem : ∀ m, m ∈ found ↔ m ∈ found') :
    found = found' := by
  have hnodup : ∀ {ms : List Match}, (ms.Pairwise fun a b => a.start < b.start) → ms.Nodup :=
    fun hms => hms.imp fun hlt heq => by simp [heq] at hlt
  have hperm := (List.perm_ext_iff_of_nodup (hnodup h) (hnodup h')).mpr hmem
  exact hperm.eq_of_pairwise (fun _ _ _ _ hab hba => absurd hab (Nat.lt_asymm hba)) h h'

theorem pairwise_filterMap_leadMatch? (p : Pattern) (tokens : List Token) {positions : List Nat}
    (h : positions.Pairwise (· < ·)) :
    (positions.filterMap (p.leadMatch? tokens)).Pairwise fun a b => a.start < b.start := by
  refine h.filterMap _ fun i j hij m hm m' hm' => ?_
  rw [← (leadMatch?_eq_some_iff.mp hm).1, ← (leadMatch?_eq_some_iff.mp hm').1]
  exact hij

/-- **An anchored scan looks at the first code of every line.** If the pattern has no wildcard for
line breaks, no match has a line break in it, and the anchored matches from a position on are what
the pattern takes at the positions that lead a line, one after the other. So no match hides a later
line. -/
theorem matchesFrom_eq_filterMap (hstays : p.staysInLine = true) (tokens : List Token)
    (position : Nat) :
    (∀ anchored, ∀ m ∈ p.matchesFrom anchored tokens position,
        ∀ t ∈ slice tokens m.start m.stop, t.isLineBreak = false) ∧
      p.matchesFrom true tokens position =
        (List.range' position (tokens.length - position)).filterMap (p.leadMatch? tokens) := by
  refine ⟨fun anchored m hm t ht => ?_, ?_⟩
  · obtain ⟨k, hk⟩ := List.mem_iff_getElem?.mp ht
    rw [slice, List.getElem?_drop, List.getElem?_take] at hk
    split at hk
    next hlt =>
      have hmatch := isMatch_of_mem_matchesFrom hm
      exact hmatch.isLineBreak_eq_false hstays (Nat.le_add_right _ _) hlt hk
    next => cases hk
  · refine eq_of_mem_iff_of_pairwise_start (pairwise_matchesFrom p true tokens position)
      (pairwise_filterMap_leadMatch? p tokens (List.pairwise_lt_range' 1)) fun m => ?_
    rw [mem_matchesFrom_iff hstays, List.mem_filterMap]
    simp only [leadMatch?_eq_some_iff, List.mem_range'_1]
    constructor
    · rintro ⟨hle, hm⟩
      have hlt := hm.start_lt_stop
      have hstop := hm.stop_le
      exact ⟨m.start, ⟨hle, by omega⟩, rfl, hm⟩
    · rintro ⟨i, hi, rfl, hm⟩
      exact ⟨hi.1, hm⟩

/-- Two headers, the second one indented, and a line in which a keyword does not come first. -/
def headerLines : List Token :=
  [⟨.reserved, "Private"⟩, ⟨.blank, " "⟩, ⟨.reserved, "Sub"⟩, ⟨.blank, " "⟩, ⟨.name, "Draw"⟩,
    ⟨.lineBreak, "\n"⟩, ⟨.blank, "  "⟩, ⟨.reserved, "Function"⟩, ⟨.blank, " _\n"⟩, ⟨.name, "Size"⟩,
    ⟨.lineBreak, "\r\n"⟩, ⟨.reserved, "Exit"⟩, ⟨.blank, " "⟩, ⟨.reserved, "Sub"⟩]

/-- The headers are found, each with its name, and nothing else is. -/
theorem matchesFrom_headerLines :
    (Pattern.parse "[private] sub|function .*").staysInLine = true ∧
      (Pattern.parse "[private] sub|function .*").matchesFrom true headerLines 0 =
        [⟨0, 5⟩, ⟨7, 10⟩] := by
  have hstays : (Pattern.parse "[private] sub|function .*").staysInLine = true := by decide
  refine ⟨hstays, ?_⟩
  rw [(matchesFrom_eq_filterMap hstays headerLines 0).2]
  decide

end Pattern

end VbaModules

import VbaModules.Proofs.Matches
import VbaModules.Proofs.SectionPartition
import VbaModules.Qualify

/-!
# The clauses that qualifying inserts

Qualifying a module inserts an `Alias` clause after the library of every private external procedure
that lacks one. Each clause belongs within the line of its procedure and names the procedure as it
was called (`LacksClause`), and the places are in order (`pairwise_unaliased`), so inserting one
clause leaves the earlier places where they are. The clauses can be found again, and without them
the tokens are those between which they were put (`withoutAliases_addAliases`).
-/

namespace VbaModules

/-! ### Positions within a line -/

namespace Token

variable {tokens : List Token} {start stop i : Nat} {t : Token}

theorem bounds_of_nextNonBlank? (h : nextNonBlank? tokens start stop = some i) :
    start ≤ i ∧ i < stop := by
  obtain ⟨k, hk, rfl⟩ := Option.map_eq_some_iff.mp h
  obtain ⟨hlt, -, -⟩ := List.findIdx?_eq_some_iff_getElem.mp hk
  rw [slice, List.length_drop, List.length_take] at hlt
  omega

/-- Before the end of a line stand no line breaks. -/
theorem isLineBreak_eq_false_of_lt_lineEnd (hstart : start ≤ i) (hlt : i + 1 < lineEnd tokens start)
    (ht : tokens[i]? = some t) : t.isLineBreak = false := by
  have hget : (tokens.drop start)[i - start]? = some t := by
    rw [List.getElem?_drop, Nat.add_sub_cancel' hstart, ht]
  obtain ⟨hi, rfl⟩ := List.getElem?_eq_some_iff.mp hget
  rw [lineEnd] at hlt
  split at hlt
  next offset hoffset =>
    obtain ⟨_, -, hbefore⟩ := List.findIdx?_eq_some_iff_getElem.mp hoffset
    simpa using hbefore (i - start) (by omega)
  next hnone => exact List.findIdx?_eq_none_iff.mp hnone _ (List.getElem_mem hi)

/-- A line ends at its first line break. -/
theorem lineEnd_le_of_isLineBreak (hstart : start ≤ i) (ht : tokens[i]? = some t)
    (hbreak : t.isLineBreak = true) : lineEnd tokens start ≤ i + 1 := by
  by_contra hlt
  rw [isLineBreak_eq_false_of_lt_lineEnd hstart (Nat.lt_of_not_le hlt) ht] at hbreak
  cases hbreak

end Token

/-- A line that begins after a match begins after the end of its line. -/
theorem Pattern.IsMatch.lineEnd_le_of_beginsLine {p : Pattern} {tokens : List Token} {m : Match}
    (h : p.IsMatch true tokens m) (hstays : p.staysInLine = true) {i : Nat} (hlt : m.start < i)
    (hline : Token.beginsLine tokens i = true) : Token.lineEnd tokens m.stop ≤ i := by
  obtain ⟨k, u, hstop, hk, hu, hbreak⟩ := h.exists_isLineBreak hstays hlt hline
  exact (Token.lineEnd_le_of_isLineBreak hstop hu hbreak).trans hk

namespace Qualify

open Token

/-! ### Where a clause is missing -/

/-- An external procedure, given by the match up to its name, **lacks a clause** at a position of
its line after its name. The clause is to name it as it is called. -/
structure LacksClause (tokens : List Token) (m : Match) (position : Nat) (entryPoint : String) :
    Prop where
  exists_mem : ∃ t ∈ tokens, t.text = entryPoint
  stop_lt : m.stop < position
  le_lineEnd : position ≤ lineEnd tokens m.stop
  isLineBreak_eq_false : ∀ i t, m.stop ≤ i → i < position → tokens[i]? = some t →
    t.isLineBreak = false

theorem of_guard_eq_some {b : Bool} {u : Unit} (h : (guard (b = true) : Option Unit) = some u) :
    b = true := by
  cases b with
  | true => rfl
  | false => cases h

theorem lacksClause_of_unaliased? {tokens : List Token} {m : Match} {position : Nat}
    {entryPoint : String} (h : unaliased? tokens m = some (position, entryPoint)) :
    LacksClause tokens m position entryPoint := by
  obtain ⟨name, hname, h⟩ := Option.bind_eq_some_iff.mp h
  obtain ⟨lib, hlib, h⟩ := Option.bind_eq_some_iff.mp h
  obtain ⟨_, -, h⟩ := Option.bind_eq_some_iff.mp h
  obtain ⟨library, hlibrary, h⟩ := Option.bind_eq_some_iff.mp h
  obtain ⟨_, hstring, h⟩ := Option.bind_eq_some_iff.mp h
  obtain ⟨_, -, heq⟩ := Option.bind_eq_some_iff.mp h
  obtain ⟨rfl, rfl⟩ := Prod.mk.inj (Option.some.inj heq)
  obtain ⟨t, ht, hkind⟩ : ∃ t, tokens[library]? = some t ∧ t.kind = .string := by
    simpa [Option.any_eq_true] using of_guard_eq_some hstring
  have hlib' := bounds_of_nextNonBlank? hlib
  have hlibrary' := bounds_of_nextNonBlank? hlibrary
  refine ⟨⟨name, List.mem_of_getElem? hname, rfl⟩, by omega, by omega, ?_⟩
  intro i u hi hlt hu
  rcases Nat.lt_or_eq_of_le (Nat.le_of_lt_succ hlt) with hbefore | rfl
  · exact isLineBreak_eq_false_of_lt_lineEnd hi (by omega) hu
  · -- this is the library itself
    rw [ht, Option.some.injEq] at hu
    rw [← hu, Token.isLineBreak, hkind]
    rfl

theorem exists_lacksClause_of_mem_unaliased {tokens : List Token} {e : Nat × String}
    (h : e ∈ unaliased tokens) :
    ∃ m, privateExternal.IsMatch true tokens m ∧ LacksClause tokens m e.1 e.2 := by
  obtain ⟨m, hm, he⟩ := List.mem_filterMap.mp h
  exact ⟨m, Pattern.isMatch_of_mem_matchesFrom hm, lacksClause_of_unaliased? he⟩

theorem le_length_of_mem_unaliased {tokens : List Token} {e : Nat × String}
    (h : e ∈ unaliased tokens) : e.1 ≤ tokens.length := by
  obtain ⟨m, hm, hlacks⟩ := exists_lacksClause_of_mem_unaliased h
  exact hlacks.le_lineEnd.trans (lineEnd_bounds hm.stop_le).2

/-- The places where clauses are missing are in order. -/
theorem pairwise_unaliased (tokens : List Token) :
    (unaliased tokens).Pairwise fun e e' => e.1 < e'.1 := by
  rw [unaliased, List.pairwise_filterMap]
  refine (Pattern.pairwise_matchesFrom privateExternal true tokens 0).imp_of_mem ?_
  intro m m' hm hm' hlt e he e' he'
  have hmatch := Pattern.isMatch_of_mem_matchesFrom hm
  have hmatch' := Pattern.isMatch_of_mem_matchesFrom hm'
  calc e.1 ≤ lineEnd tokens m.stop := (lacksClause_of_unaliased? he).le_lineEnd
    _ ≤ m'.start := hmatch.lineEnd_le_of_beginsLine (by decide) hlt (hmatch'.beginsLine rfl)
    _ < m'.stop := hmatch'.start_lt_stop
    _ < e'.1 := (lacksClause_of_unaliased? he').stop_lt

/-! ### Inserting clauses -/

theorem addAliases_cons (e : Nat × String) (missing : List (Nat × String)) (tokens : List Token) :
    addAliases (e :: missing) tokens =
      (addAliases missing tokens).take e.1 ++ aliasClause e.2 ++
        (addAliases missing tokens).drop e.1 :=
  rfl

theorem mem_addAliases {missing : List (Nat × String)} {tokens : List Token} {t : Token}
    (h : t ∈ addAliases missing tokens) : t ∈ tokens ∨ ∃ e ∈ missing, t ∈ aliasClause e.2 := by
  induction missing with
  | nil => exact .inl h
  | cons e missing ih =>
    have hrest : t ∈ addAliases missing tokens →
        t ∈ tokens ∨ ∃ e' ∈ e :: missing, t ∈ aliasClause e'.2 := by
      intro hmem
      rcases ih hmem with htokens | ⟨e', he', hclause⟩
      · exact .inl htokens
      · exact .inr ⟨e', List.mem_cons_of_mem _ he', hclause⟩
    rw [addAliases_cons, List.mem_append, List.mem_append] at h
    rcases h with (hbefore | hclause) | hafter
    · exact hrest (List.mem_of_mem_take hbefore)
    · exact .inr ⟨e, List.mem_cons_self, hclause⟩
    · exact hrest (List.mem_of_mem_drop hafter)

theorem length_le_addAliases (missing : List (Nat × String)) (tokens : List Token) :
    tokens.length ≤ (addAliases missing tokens).length := by
  induction missing with
  | nil => exact le_rfl
  | cons e missing ih =>
    have hsplit := congrArg List.length (List.take_append_drop e.1 (addAliases missing tokens))
    rw [List.length_append] at hsplit
    rw [addAliases_cons, List.length_append, List.length_append]
    omega

/-- What stands before all the places stays in place. -/
theorem take_addAliases {missing : List (Nat × String)} {tokens : List Token} {n : Nat}
    (hn : n ≤ tokens.length) (h : ∀ e ∈ missing, n ≤ e.1) :
    (addAliases missing tokens).take n = tokens.take n := by
  induction missing with
  | nil => rfl
  | cons e missing ih =>
    obtain ⟨he, hmissing⟩ := List.forall_mem_cons.mp h
    have hlength := hn.trans (length_le_addAliases missing tokens)
    have htake : n ≤ ((addAliases missing tokens).take e.1).length := by
      rw [List.length_take]
      exact le_min he hlength
    rw [addAliases_cons, List.append_assoc, List.take_append_of_le_length htake, List.take_take,
      min_eq_left he, ih hmissing]

/-! ### Removing clauses -/

/-- The tokens without the clauses at the given positions, which are those after all earlier clauses
are removed. Where no such clause stands, nothing is removed. -/
def withoutAliases : List (Nat × String) → List Token → List Token
  | [], tokens => tokens
  | (position, entryPoint) :: rest, tokens =>
    if aliasClause entryPoint <+: tokens.drop position then
      withoutAliases rest
        (tokens.take position ++ tokens.drop (position + (aliasClause entryPoint).length))
    else withoutAliases rest tokens

/-- **Inserted clauses can be removed again.** -/
theorem withoutAliases_addAliases {missing : List (Nat × String)} {tokens : List Token}
    (h : ∀ e ∈ missing, e.1 ≤ tokens.length) :
    withoutAliases missing (addAliases missing tokens) = tokens := by
  induction missing with
  | nil => rfl
  | cons e missing ih =>
    obtain ⟨he, hmissing⟩ := List.forall_mem_cons.mp h
    have hlength : ((addAliases missing tokens).take e.1).length = e.1 :=
      List.length_take_of_le (he.trans (length_le_addAliases missing tokens))
    have hclause : (addAliases (e :: missing) tokens).drop e.1 =
        aliasClause e.2 ++ (addAliases missing tokens).drop e.1 := by
      rw [addAliases_cons, List.append_assoc, List.drop_left' hlength]
    rw [withoutAliases, if_pos ⟨_, hclause.symm⟩, ← List.drop_drop, hclause, List.drop_left,
      addAliases_cons, List.append_assoc, List.take_left' hlength, List.take_append_drop,
      ih hmissing]

end Qualify

end VbaModules

import VbaModules.Proofs.OpenBlocks

/-!
# Conditional blocks are the outermost matched directives

Directives of conditional compilation are matched like brackets, with a stack: an opening directive
is put on the stack, and a closing directive takes the top off it and is matched with it. A closing
directive is ignored if the stack is empty (`Nesting.step`). The search for conditional blocks keeps
no stack but the bottom of one and its height. That is enough to find the pairs that are matched
while nothing else is open (`conditionals_eq_filter_pairs`), and the directive at the bottom of what
is left on the stack (`unclosedConditional?_eq_getLast?`).

What the stack tells of a module follows from one invariant. As long as a directive is on the stack,
so is what was there when it came, in the same place (`staysOpen_of_suffix`). So a pair is matched
when the stack is again as it was, and in between it was higher (`Matched`). Counting directives is
counting the height of the stack, unless a closing directive is ignored
(`length_openedAt_add_closings`).
-/

namespace VbaModules.Candidate

open Token

/-! ### Matching with a stack -/

/-- What is known of the directives up to a position. -/
structure Nesting where
  /-- The positions of the opening directives that are not closed yet, the innermost first. -/
  opened : List Nat
  /-- The positions of the directives that are matched, the opening one and the closing one, in the
  order of the closing ones. -/
  pairs : List (Nat × Nat)
deriving DecidableEq, Repr

namespace Nesting

/-- Nothing is open and nothing is matched. -/
def empty : Nesting :=
  ⟨[], []⟩

/-- What a token does: it opens a block, closes the innermost one that is open, or does nothing. -/
def step (n : Nesting) (position : Nat) (t : Token) : Nesting :=
  match t.kind with
  | .conditional .opening => ⟨position :: n.opened, n.pairs⟩
  | .conditional .closing =>
    match n.opened with
    | [] => n
    | top :: outer => ⟨outer, n.pairs ++ [(top, position)]⟩
  | _ => n

/-- The three things that a token can do: open a block, close the innermost one, or neither. -/
theorem step_cases (n : Nesting) (position : Nat) (t : Token) :
    (t.kind = .conditional .opening ∧ n.step position t = ⟨position :: n.opened, n.pairs⟩) ∨
      (∃ top outer, t.kind = .conditional .closing ∧ n.opened = top :: outer ∧
        n.step position t = ⟨outer, n.pairs ++ [(top, position)]⟩) ∨
      (t.kind ≠ .conditional .opening ∧ (t.kind = .conditional .closing → n.opened = []) ∧
        n.step position t = n) := by
  by_cases hopening : t.kind = .conditional .opening
  · exact .inl ⟨hopening, by simp [step, hopening]⟩
  · by_cases hclosing : t.kind = .conditional .closing
    · cases hopened : n.opened with
      | nil => exact .inr (.inr ⟨hopening, fun _ => rfl, by simp [step, hclosing, hopened]⟩)
      | cons top outer =>
        exact .inr (.inl ⟨top, outer, hclosing, rfl, by simp [step, hclosing, hopened]⟩)
    · refine .inr (.inr ⟨hopening, fun h => absurd h hclosing, ?_⟩)
      obtain ⟨kind, text⟩ := t
      rcases kind with _ | _ | _ | _ | _ | _ | (_ | _ | _ | _) | _ <;>
        first | rfl | contradiction

end Nesting

/-- The matching of all directives of a module. -/
def nesting (tokens : List Token) : Nesting :=
  tokens.zipIdx.foldl (fun n entry => n.step entry.2 entry.1) .empty

/-- The opening directives that are open at the position, the innermost first. -/
def openedAt (tokens : List Token) (i : Nat) : List Nat :=
  (nesting (tokens.take i)).opened

/-- How many blocks are open at the position. -/
def depthAt (tokens : List Token) (i : Nat) : Nat :=
  (openedAt tokens i).length

section Positions

variable {tokens : List Token} {i : Nat} {t : Token}

/-- The stack one token on is made by one step. -/
theorem nesting_take_succ (ht : tokens[i]? = some t) :
    nesting (tokens.take (i + 1)) = (nesting (tokens.take i)).step i t := by
  have hlength : (tokens.take i).length = i :=
    List.length_take_of_le (List.getElem?_eq_some_iff.mp ht).1.le
  rw [List.take_add_one, ht, nesting, List.zipIdx_append, List.foldl_append, hlength,
    Nat.zero_add]
  rfl

theorem openedAt_length (tokens : List Token) :
    openedAt tokens tokens.length = (nesting tokens).opened := by
  rw [openedAt, List.take_length]

/-- What a token does to what is open. -/
theorem openedAt_succ_cases (ht : tokens[i]? = some t) :
    (t.kind = .conditional .opening ∧ openedAt tokens (i + 1) = i :: openedAt tokens i) ∨
      (t.kind = .conditional .closing ∧ ∃ top,
        openedAt tokens i = top :: openedAt tokens (i + 1)) ∨
      (t.kind ≠ .conditional .opening ∧
        (t.kind = .conditional .closing → openedAt tokens i = []) ∧
        openedAt tokens (i + 1) = openedAt tokens i) := by
  have hnext : openedAt tokens (i + 1) = ((nesting (tokens.take i)).step i t).opened := by
    rw [openedAt, nesting_take_succ ht]
  rcases (nesting (tokens.take i)).step_cases i t with
    ⟨hkind, hstep⟩ | ⟨top, outer, hkind, hopened, hstep⟩ | ⟨hkind, hignored, hstep⟩
  · exact .inl ⟨hkind, by rw [hnext, hstep, openedAt]⟩
  · exact .inr (.inl ⟨hkind, top, by rw [hnext, hstep, openedAt, hopened]⟩)
  · exact .inr (.inr ⟨hkind, hignored, by rw [hnext, hstep, openedAt]⟩)

end Positions

/-! ### What stays open -/

/-- The opening directive at `p` **stays open** up to a position: from where it stands on, the stack
is what was there before, the directive, and possibly more. -/
structure StaysOpen (tokens : List Token) (p : Nat) (outer : List Nat) (stop : Nat) : Prop where
  lt : p < stop
  exists_opening : ∃ t, tokens[p]? = some t ∧ t.kind = .conditional .opening
  outer_eq : openedAt tokens p = outer
  suffix : ∀ k, p < k → k ≤ stop → p :: outer <:+ openedAt tokens k

section Stack

variable {tokens : List Token} {p q i : Nat} {outer : List Nat}

/-- A block that is on the stack after the next token is still open. -/
theorem StaysOpen.succ (h : StaysOpen tokens p outer i)
    (hnext : p :: outer <:+ openedAt tokens (i + 1)) : StaysOpen tokens p outer (i + 1) where
  lt := Nat.lt_succ_of_lt h.lt
  exists_opening := h.exists_opening
  outer_eq := h.outer_eq
  suffix k hk hki := by
    rcases Nat.lt_or_eq_of_le hki with hlt | rfl
    · exact h.suffix k hk (Nat.le_of_lt_succ hlt)
    · exact hnext

/-- **What is on the stack has stayed open** since it came there. -/
theorem staysOpen_of_suffix (hi : i ≤ tokens.length) (h : p :: outer <:+ openedAt tokens i) :
    StaysOpen tokens p outer i := by
  induction i with
  | zero => exact absurd (List.eq_nil_of_suffix_nil h) (List.cons_ne_nil _ _)
  | succ i ih =>
    have ht : tokens[i]? = some tokens[i] := List.getElem?_eq_getElem hi
    rcases openedAt_succ_cases ht with ⟨hkind, hnext⟩ | ⟨-, top, hbefore⟩ | ⟨-, -, hnext⟩
    · rw [hnext] at h
      rcases List.suffix_cons_iff.mp h with heq | hbelow
      · obtain ⟨rfl, rfl⟩ := List.cons.inj heq
        refine ⟨Nat.lt_succ_self p, ⟨_, ht, hkind⟩, rfl, fun k hk hki => ?_⟩
        obtain rfl := Nat.le_antisymm hki hk
        exact ⟨[], hnext.symm⟩
      · exact (ih (Nat.le_of_succ_le hi) hbelow).succ (hnext ▸ h)
    · have hbelow : p :: outer <:+ openedAt tokens i := hbefore ▸ h.trans (List.suffix_cons _ _)
      exact (ih (Nat.le_of_succ_le hi) hbelow).succ h
    · exact (ih (Nat.le_of_succ_le hi) (hnext ▸ h)).succ h

/-- **What is on the stack has been open since it was put there.** -/
theorem staysOpen_of_mem (hi : i ≤ tokens.length) (h : p ∈ openedAt tokens i) :
    StaysOpen tokens p (openedAt tokens p) i := by
  obtain ⟨inner, outer, hsplit⟩ := List.append_of_mem h
  have hopen := staysOpen_of_suffix hi ⟨inner, hsplit.symm⟩
  exact hopen.outer_eq ▸ hopen

/-! ### What is matched -/

/-- The directives at `p` and `q` are **matched**: the one opens a block that stays open up to the
other, which closes it, so that the stack is again as it was. -/
structure Matched (tokens : List Token) (p q : Nat) : Prop where
  staysOpen : StaysOpen tokens p (openedAt tokens p) q
  exists_closing : ∃ t, tokens[q]? = some t ∧ t.kind = .conditional .closing
  openedAt_succ : openedAt tokens (q + 1) = openedAt tokens p

/-- **The pairs of the stack are matched.** -/
theorem matched_of_mem_pairs (hi : i ≤ tokens.length)
    (h : (p, q) ∈ (nesting (tokens.take i)).pairs) : q < i ∧ Matched tokens p q := by
  induction i with
  | zero => cases h
  | succ i ih =>
    have ht : tokens[i]? = some tokens[i] := List.getElem?_eq_getElem hi
    have hearlier : (p, q) ∈ (nesting (tokens.take i)).pairs → q < i + 1 ∧ Matched tokens p q := by
      intro hmem
      obtain ⟨hlt, hmatched⟩ := ih (Nat.le_of_succ_le hi) hmem
      exact ⟨Nat.lt_succ_of_lt hlt, hmatched⟩
    have hnext := nesting_take_succ ht
    rcases (nesting (tokens.take i)).step_cases i tokens[i] with
      ⟨-, hstep⟩ | ⟨top, outer, hkind, hopened, hstep⟩ | ⟨-, -, hstep⟩
    · exact hearlier (by rwa [hnext, hstep] at h)
    · rw [hnext, hstep] at h
      rcases List.mem_append.mp h with hmem | hmem
      · exact hearlier hmem
      · obtain ⟨rfl, rfl⟩ := Prod.mk.inj (List.mem_singleton.mp hmem)
        -- the top of the stack is matched now, and what was below it is left
        have hopen : StaysOpen tokens p outer q :=
          staysOpen_of_suffix (Nat.le_of_succ_le hi) ⟨[], hopened.symm⟩
        refine ⟨Nat.lt_succ_self q, hopen.outer_eq ▸ hopen, ⟨_, ht, hkind⟩, ?_⟩
        rw [openedAt, hnext, hstep, hopen.outer_eq]
    · exact hearlier (by rwa [hnext, hstep] at h)

/-- An opening directive is open as long as it is not matched. -/
theorem mem_openedAt_or_mem_pairs (hi : i ≤ tokens.length) (hlt : p < i)
    (h : ∃ t, tokens[p]? = some t ∧ t.kind = .conditional .opening) :
    p ∈ openedAt tokens i ∨ ∃ q, (p, q) ∈ (nesting (tokens.take i)).pairs := by
  induction i, hlt using Nat.le_induction with
  | base =>
    obtain ⟨t, ht, hkind⟩ := h
    rcases openedAt_succ_cases ht with ⟨-, hnext⟩ | ⟨hclosing, -⟩ | ⟨hnot, -⟩
    · exact .inl (hnext ▸ List.mem_cons_self)
    · rw [hkind] at hclosing
      cases hclosing
    · exact absurd hkind hnot
  | succ i hpi ih =>
    have ht : tokens[i]? = some tokens[i] := List.getElem?_eq_getElem hi
    have hbefore := ih (Nat.le_of_succ_le hi)
    rw [openedAt] at hbefore ⊢
    rw [nesting_take_succ ht]
    -- a step adds to the stack, moves its top to the pairs, or leaves both alone
    rcases (nesting (tokens.take i)).step_cases i tokens[i] with
      ⟨-, hstep⟩ | ⟨top, outer, -, hopened, hstep⟩ | ⟨-, -, hstep⟩
    · rw [hstep]
      exact hbefore.imp_left (List.mem_cons_of_mem _)
    · rw [hopened] at hbefore
      rw [hstep]
      rcases hbefore with hmem | ⟨q, hq⟩
      · rcases List.mem_cons.mp hmem with rfl | hmem
        · exact .inr ⟨i, by simp⟩
        · exact .inl hmem
      · exact .inr ⟨q, List.mem_append_left _ hq⟩
    · rwa [hstep]

/-- What is matched is not open. -/
theorem Matched.not_mem_openedAt (h : Matched tokens p q) (hqi : q < i) (hi : i ≤ tokens.length) :
    p ∉ openedAt tokens i := by
  intro hmem
  have hsuffix := (staysOpen_of_mem hi hmem).suffix (q + 1) (Nat.lt_succ_of_lt h.staysOpen.lt) hqi
  rw [h.openedAt_succ] at hsuffix
  have hle := hsuffix.length_le
  rw [List.length_cons] at hle
  omega

/-- The opening directive at the position has no match. -/
def Unmatched (tokens : List Token) (p : Nat) : Prop :=
  (∃ t, tokens[p]? = some t ∧ t.kind = .conditional .opening) ∧
    ∀ q, (p, q) ∉ (nesting tokens).pairs

/-- **What has no match** is what is open in the end. -/
theorem unmatched_iff : Unmatched tokens p ↔ p ∈ (nesting tokens).opened := by
  rw [← openedAt_length]
  have hlast : nesting (tokens.take tokens.length) = nesting tokens := by rw [List.take_length]
  constructor
  · rintro ⟨hopening, hnone⟩
    have hlt : p < tokens.length := by
      obtain ⟨t, ht, -⟩ := hopening
      exact (List.getElem?_eq_some_iff.mp ht).1
    refine (mem_openedAt_or_mem_pairs le_rfl hlt hopening).resolve_right ?_
    rintro ⟨q, hq⟩
    exact hnone q (hlast ▸ hq)
  · intro hmem
    refine ⟨(staysOpen_of_mem le_rfl hmem).exists_opening, fun q hq => ?_⟩
    obtain ⟨hlt, hmatched⟩ := matched_of_mem_pairs le_rfl (hlast.symm ▸ hq)
    exact hmatched.not_mem_openedAt hlt le_rfl hmem

end Stack

/-! ### The search keeps the bottom of the stack -/

/-- The bottom of the stack, and how many directives stand on it. -/
def Nesting.outermost? (n : Nesting) : Option (Nat × Nat) :=
  n.opened.getLast?.map fun start => (start, n.opened.length - 1)

/-- One step of the search is one step of matching. The search finds a block when the last directive
is taken off the stack. -/
theorem conditionalStep_outermost? (n : Nesting) (position : Nat) (t : Token) :
    conditionalStep position n.outermost? t =
      (if t.kind = .conditional .closing ∧ n.opened.length = 1 then
          n.opened.map fun start => ⟨start, position + 1, .conditional⟩
        else [], (n.step position t).outermost?) := by
  obtain ⟨opened, pairs⟩ := n
  obtain ⟨kind, text⟩ := t
  rcases opened with _ | ⟨x, _ | ⟨y, ys⟩⟩
  · rcases kind with _ | _ | _ | _ | _ | _ | (_ | _ | _ | _) | _ <;> rfl
  · rcases kind with _ | _ | _ | _ | _ | _ | (_ | _ | _ | _) | _ <;> rfl
  · obtain ⟨bottom, hbottom⟩ : ∃ bottom, (y :: ys).getLast? = some bottom :=
      Option.ne_none_iff_exists'.mp (by simp)
    rcases kind with _ | _ | _ | _ | _ | _ | (_ | _ | _ | _) | _ <;>
      simp [conditionalStep, Nesting.step, Nesting.outermost?, List.getLast?_cons_cons, hbottom]

section Search

variable {tokens : List Token} {i : Nat}

/-- **The search keeps the bottom of the stack** and its height. -/
theorem openedAfter_take (hi : i ≤ tokens.length) :
    openedAfter 0 none (tokens.take i) = (nesting (tokens.take i)).outermost? := by
  induction i with
  | zero => rfl
  | succ i ih =>
    have ht : tokens[i]? = some tokens[i] := List.getElem?_eq_getElem hi
    have hlength : (tokens.take i).length = i := List.length_take_of_le (Nat.le_of_succ_le hi)
    rw [nesting_take_succ ht, List.take_add_one, ht, openedAfter_append,
      ih (Nat.le_of_succ_le hi), hlength, Nat.zero_add]
    exact congrArg Prod.snd (conditionalStep_outermost? _ i tokens[i])

/-- One token on, the search has found what its step finds. -/
theorem conditionals_take_succ (hi : i < tokens.length) :
    conditionals (tokens.take (i + 1)) = conditionals (tokens.take i) ++
      (conditionalStep i (nesting (tokens.take i)).outermost? tokens[i]).1 := by
  have ht : tokens[i]? = some tokens[i] := List.getElem?_eq_getElem hi
  have hlength : (tokens.take i).length = i := List.length_take_of_le hi.le
  rw [conditionals, List.take_add_one, ht, conditionalsFrom_append, openedAfter_take hi.le,
    hlength, Nat.zero_add, Option.toList_some, conditionalsFrom_cons]
  exact congrArg _ (List.append_nil _)

/-- The blocks found up to a position are the pairs matched up to it while nothing else is open. -/
theorem conditionals_take (hi : i ≤ tokens.length) :
    conditionals (tokens.take i) =
      ((nesting (tokens.take i)).pairs.filter fun pair => depthAt tokens pair.1 == 0).map
        fun pair => ⟨pair.1, pair.2 + 1, .conditional⟩ := by
  induction i with
  | zero => rfl
  | succ i ih =>
    have ht : tokens[i]? = some tokens[i] := List.getElem?_eq_getElem hi
    rw [conditionals_take_succ hi, ih (Nat.le_of_succ_le hi), conditionalStep_outermost?,
      nesting_take_succ ht]
    rcases (nesting (tokens.take i)).step_cases i tokens[i] with
      ⟨hkind, hstep⟩ | ⟨top, outer, hkind, hopened, hstep⟩ | ⟨-, hignored, hstep⟩
    · rw [hstep, if_neg (by simp [hkind]), List.append_nil]
    · -- the pair counts if nothing was open before it, and then nothing is left on the stack
      have hdepth : depthAt tokens top = outer.length := by
        rw [depthAt, (staysOpen_of_suffix (p := top) (Nat.le_of_succ_le hi)
          ⟨[], hopened.symm⟩).outer_eq]
      rw [hstep, List.filter_append, List.map_append, hopened]
      congr 1
      cases outer with
      | nil => simp [hkind, hdepth]
      | cons _ _ => simp [hdepth]
    · have hnot : ¬(tokens[i].kind = .conditional .closing ∧
          (nesting (tokens.take i)).opened.length = 1) := by
        rintro ⟨hkind, hone⟩
        rw [hignored hkind] at hone
        cases hone
      rw [hstep, if_neg hnot, List.append_nil]

/-- **The conditional blocks are the outermost pairs** of matched directives. -/
theorem conditionals_eq_filter_pairs (tokens : List Token) :
    conditionals tokens =
      ((nesting tokens).pairs.filter fun pair => depthAt tokens pair.1 == 0).map
        fun pair => ⟨pair.1, pair.2 + 1, .conditional⟩ := by
  have htake := conditionals_take (le_refl tokens.length)
  rwa [List.take_length] at htake

/-- The search leaves open what is open after it. -/
theorem unclosed_conditionalsFrom (position : Nat) (opened : Option (Nat × Nat))
    (ts : List Token) :
    (conditionalsFrom position opened ts).2 = (openedAfter position opened ts).map (·.1) := by
  induction ts generalizing position opened with
  | nil => rfl
  | cons t ts ih =>
    rw [openedAfter, ← ih]
    obtain ⟨kind, text⟩ := t
    rcases opened with _ | ⟨start, _ | inner⟩ <;>
      rcases kind with _ | _ | _ | _ | _ | _ | (_ | _ | _ | _) | _ <;> rfl

/-- The directive that is reported is the one at the bottom of the stack. -/
theorem unclosedConditional?_eq_getLast? (tokens : List Token) :
    unclosedConditional? tokens = (nesting tokens).opened.getLast? := by
  have htake := openedAfter_take (le_refl tokens.length)
  rw [List.take_length] at htake
  rw [unclosedConditional?, unclosed_conditionalsFrom, htake, Nesting.outermost?]
  cases (nesting tokens).opened.getLast? <;> rfl

end Search

/-! ### Counting directives -/

/-- How many of the tokens open a block. -/
def openings (ts : List Token) : Nat :=
  ts.countP (·.kind == .conditional .opening)

/-- How many of the tokens close a block. -/
def closings (ts : List Token) : Nat :=
  ts.countP (·.kind == .conditional .closing)

theorem openings_append (ts us : List Token) :
    openings (ts ++ us) = openings ts + openings us :=
  List.countP_append

theorem closings_append (ts us : List Token) :
    closings (ts ++ us) = closings ts + closings us :=
  List.countP_append

section Counting

variable {tokens : List Token} {a b p q : Nat}

theorem slice_succ (hab : a ≤ b) {t : Token} (ht : tokens[b]? = some t) :
    slice tokens a (b + 1) = slice tokens a b ++ [t] := by
  have hle : a ≤ (tokens.take b).length := by
    rw [List.length_take_of_le (List.getElem?_eq_some_iff.mp ht).1.le]
    exact hab
  rw [slice, slice, List.take_add_one, ht, List.drop_append_of_le_length hle]
  rfl

/-- **Counting directives is counting the height of the stack**, as long as no closing directive is
ignored. -/
theorem length_openedAt_add_closings (hab : a ≤ b) (hb : b ≤ tokens.length)
    (hnone : ∀ k t, a ≤ k → k < b → tokens[k]? = some t → t.kind = .conditional .closing →
      openedAt tokens k ≠ []) :
    depthAt tokens b + closings (slice tokens a b) =
      depthAt tokens a + openings (slice tokens a b) := by
  induction b, hab using Nat.le_induction with
  | base => simp [closings, openings, slice]
  | succ b hab ih =>
    have ht : tokens[b]? = some tokens[b] := List.getElem?_eq_getElem hb
    have hearlier := ih (Nat.le_of_succ_le hb) fun k t hk hkb => hnone k t hk (by omega)
    rw [depthAt] at hearlier
    rw [slice_succ hab ht, closings_append, openings_append, depthAt]
    rcases openedAt_succ_cases ht with
      ⟨hkind, hnext⟩ | ⟨hkind, top, hbefore⟩ | ⟨hkind, hignored, hnext⟩
    · have hone : openings [tokens[b]] = 1 ∧ closings [tokens[b]] = 0 := by
        simp [openings, closings, hkind]
      rw [hnext, List.length_cons]
      omega
    · have hone : openings [tokens[b]] = 0 ∧ closings [tokens[b]] = 1 := by
        simp [openings, closings, hkind]
      rw [hbefore, List.length_cons] at hearlier
      omega
    · have hclosing : tokens[b].kind ≠ .conditional .closing := fun h =>
        hnone b _ hab (Nat.lt_succ_self b) ht h (hignored h)
      have hneither : openings [tokens[b]] = 0 ∧ closings [tokens[b]] = 0 := by
        simp [openings, closings, hkind, hclosing]
      rw [hnext]
      omega

/-- Between matched directives as many blocks are closed as are opened, and up to any place before
the end more are opened. -/
theorem Matched.balanced (h : Matched tokens p q) :
    openings (slice tokens p (q + 1)) = closings (slice tokens p (q + 1)) ∧
      ∀ k, p < k → k < q + 1 → closings (slice tokens p k) < openings (slice tokens p k) := by
  obtain ⟨t, ht, -⟩ := h.exists_closing
  have hq : q < tokens.length := (List.getElem?_eq_some_iff.mp ht).1
  have hheight : ∀ k, p < k → k ≤ q → depthAt tokens p < depthAt tokens k := by
    intro k hpk hkq
    have hle := (h.staysOpen.suffix k hpk hkq).length_le
    rwa [List.length_cons] at hle
  -- within the block the stack is never empty, so its height is the count of what is open
  have hcount : ∀ k, p < k → k ≤ q + 1 → depthAt tokens k + closings (slice tokens p k) =
      depthAt tokens p + openings (slice tokens p k) := by
    intro k hpk hkq
    refine length_openedAt_add_closings hpk.le (by omega) fun j u hpj hjk hu hclosing hnil => ?_
    rcases Nat.lt_or_eq_of_le hpj with hlt | rfl
    · have hpos := hheight j hlt (by omega)
      rw [depthAt, depthAt, hnil] at hpos
      cases hpos
    · obtain ⟨u', hu', hopening⟩ := h.staysOpen.exists_opening
      rw [hu, Option.some.injEq] at hu'
      rw [hu', hopening] at hclosing
      cases hclosing
  refine ⟨?_, fun k hpk hkq => ?_⟩
  · have hall := hcount (q + 1) (Nat.lt_succ_of_lt h.staysOpen.lt) le_rfl
    rw [depthAt, h.openedAt_succ, depthAt] at hall
    omega
  · have hpart := hcount k hpk (Nat.le_of_lt hkq)
    have hpos := hheight k hpk (Nat.le_of_lt_succ hkq)
    omega

end Counting

/-! ### Conditional blocks -/

section Blocks

variable {tokens : List Token} {s : Span} {p : Nat}

/-- A conditional block goes from an opening at depth zero to the closing that matches it. -/
theorem matched_of_mem_conditionals (h : s ∈ conditionals tokens) :
    depthAt tokens s.start = 0 ∧ ∃ q, s.stop = q + 1 ∧ Matched tokens s.start q := by
  rw [conditionals_eq_filter_pairs, List.mem_map] at h
  obtain ⟨⟨p, q⟩, hmem, rfl⟩ := h
  obtain ⟨hmem, hdepth⟩ := List.mem_filter.mp hmem
  rw [← List.take_length (l := tokens)] at hmem
  exact ⟨beq_iff_eq.mp hdepth, q, rfl, (matched_of_mem_pairs le_rfl hmem).2⟩

/-- The blocks are disjoint: where a block is open no other block begins. -/
theorem pairwise_stop_le_start_conditionals (tokens : List Token) :
    (conditionals tokens).Pairwise fun a b => a.stop ≤ b.start := by
  refine (pairwise_conditionals tokens).imp_of_mem fun {a b} ha hb hlt => ?_
  obtain ⟨-, q, hstop, hmatched⟩ := matched_of_mem_conditionals ha
  obtain ⟨hdepth, -⟩ := matched_of_mem_conditionals hb
  by_contra hinside
  have hle := (hmatched.staysOpen.suffix b.start hlt (by omega)).length_le
  rw [depthAt] at hdepth
  rw [hdepth] at hle
  cases hle

/-- The opening directive at the position is **the outermost of those without a match**: nothing is
open where it stands, and all others stand where it is open. -/
structure OutermostUnmatched (tokens : List Token) (p : Nat) : Prop where
  unmatched : Unmatched tokens p
  openedAt_eq : openedAt tokens p = []
  encloses : ∀ q, Unmatched tokens q → q = p ∨ p ∈ openedAt tokens q

/-- The outermost opening without a match is at the bottom of the stack. -/
theorem outermostUnmatched_iff :
    OutermostUnmatched tokens p ↔ (nesting tokens).opened.getLast? = some p := by
  have hopen : ∀ q outer, q :: outer <:+ (nesting tokens).opened → openedAt tokens q = outer := by
    intro q outer h
    rw [← openedAt_length] at h
    exact (staysOpen_of_suffix le_rfl h).outer_eq
  constructor
  · intro h
    obtain ⟨inner, outer, hsplit⟩ := List.append_of_mem (unmatched_iff.mp h.unmatched)
    have hnil := h.openedAt_eq
    rw [hopen p outer ⟨inner, hsplit.symm⟩] at hnil
    rw [hsplit, hnil, List.getLast?_concat]
  · intro h
    obtain ⟨inner, hsplit⟩ := List.getLast?_eq_some_iff.mp h
    refine ⟨unmatched_iff.mpr (by simp [hsplit]), hopen p [] ⟨inner, hsplit.symm⟩, fun q hq => ?_⟩
    -- what is above the bottom of the stack came when the bottom was there
    rw [unmatched_iff, hsplit] at hq
    rcases List.mem_append.mp hq with hq | hq
    · obtain ⟨before, after, rfl⟩ := List.append_of_mem hq
      refine .inr ?_
      rw [hopen q (after ++ [p]) ⟨before, by rw [hsplit]; simp⟩]
      exact List.mem_concat_self
    · exact .inl (List.mem_singleton.mp hq)

/-- **Conditional blocks are the outermost matched directives.** The blocks found are, in order,
those from an opening directive where nothing is open through the directive that closes it. They
are disjoint; each holds as many opening as closing directives, and each shorter stretch from its
beginning holds more opening ones. There is a notice if some opening directive has no match, and it
names the outermost of those. -/
theorem conditionals_outermost (tokens : List Token) :
    (conditionals tokens =
        ((nesting tokens).pairs.filter fun pair => depthAt tokens pair.1 == 0).map
          fun pair => ⟨pair.1, pair.2 + 1, .conditional⟩) ∧
      (conditionals tokens).Pairwise (fun a b => a.stop ≤ b.start) ∧
      (∀ s ∈ conditionals tokens,
        openings (slice tokens s.start s.stop) = closings (slice tokens s.start s.stop) ∧
          ∀ k, s.start < k → k < s.stop →
            closings (slice tokens s.start k) < openings (slice tokens s.start k)) ∧
      (Partition.notices tokens ≠ [] ↔ ∃ p, Unmatched tokens p) ∧
      ∀ p, Partition.notices tokens = [.unclosedConditional p] ↔ OutermostUnmatched tokens p := by
  have hnotices : Partition.notices tokens =
      (nesting tokens).opened.getLast?.toList.map .unclosedConditional := by
    rw [Partition.notices, unclosedConditional?_eq_getLast?]
  refine ⟨conditionals_eq_filter_pairs tokens, pairwise_stop_le_start_conditionals tokens,
    fun s hs => ?_, ?_, fun p => ?_⟩
  · obtain ⟨-, q, hstop, hmatched⟩ := matched_of_mem_conditionals hs
    rw [hstop]
    exact hmatched.balanced
  · simp only [unmatched_iff]
    rw [hnotices]
    cases hopened : (nesting tokens).opened with
    | nil => simp
    | cons top outer => simp [List.getLast?_cons]
  · rw [outermostUnmatched_iff, hnotices]
    cases (nesting tokens).opened.getLast? with
    | none => simp
    | some bottom => simp

/-- A block that is closed within one that is not: it is no block, and the outer one is
reported. -/
example :
    let opening : Token := ⟨.conditional .opening, "#If"⟩
    let closing : Token := ⟨.conditional .closing, "#End If"⟩
    nesting [opening, opening, closing] = ⟨[0], [(1, 2)]⟩ ∧
      conditionals [opening, opening, closing] = [] ∧
      Partition.notices [opening, opening, closing] = [.unclosedConditional 0] := by
  decide

end Blocks

end VbaModules.Candidate

import Mathlib.Data.List.Basic
import VbaModules.Merge.OptionStatement
import VbaModules.Section.Proxy
import VbaModules.Symbol.Private

/-!
# Sections are found by words

Which sections a module has depends on little of its tokens: on their kinds, and on their texts
ignoring ASCII case where a token is neither blank nor a line break. So a change of the tokens that
keeps this much (`KeepsWords`) keeps every position that a search finds, and the sections of the
changed tokens are the changed sections (`KeepsWords.sections_map`). A single pattern needs less:
the kinds (`KeepsKinds`), and that its own elements accept the same tokens (`Pattern.AcceptsAlike`).

Patterns pass over blanks. The one thing read beyond the positions of a match is its last token,
which is never blank, and no line break either if the pattern has no wildcard for line breaks
(`Pattern.exists_last`). Declaration lists are divided by marks, so a change that keeps these too
(`KeepsMarks`) keeps the positions of private symbols.
-/

namespace VbaModules

open Text

/-- A change of tokens **keeps kinds** if every token is of the same kind afterwards. -/
structure KeepsKinds (f : Token → Token) : Prop where
  kind_eq : ∀ t, (f t).kind = t.kind

/-- A change of tokens **keeps words** if it keeps their kinds and, blanks and line breaks aside,
their texts ignoring ASCII case. -/
structure KeepsWords (f : Token → Token) : Prop extends KeepsKinds f where
  foldCase_text : ∀ t, t.isBlank = false → t.isLineBreak = false →
    foldCase (f t).text = foldCase t.text

/-! ### Positions -/

theorem Token.slice_map (f : Token → Token) (tokens : List Token) (start stop : Nat) :
    slice (tokens.map f) start stop = (slice tokens start stop).map f := by
  rw [slice, slice, ← List.map_take, ← List.map_drop]

namespace KeepsKinds

variable {f : Token → Token} (h : KeepsKinds f)
include h

theorem isBlank_eq (t : Token) : (f t).isBlank = t.isBlank := by
  rw [Token.isBlank, Token.isBlank, h.kind_eq]

theorem isLineBreak_eq (t : Token) : (f t).isLineBreak = t.isLineBreak := by
  rw [Token.isLineBreak, Token.isLineBreak, h.kind_eq]

theorem isBlank_comp : Token.isBlank ∘ f = Token.isBlank :=
  funext h.isBlank_eq

theorem not_isBlank_comp : (fun t : Token => !t.isBlank) ∘ f = fun t => !t.isBlank := by
  funext t
  rw [Function.comp_apply, h.isBlank_eq]

theorem isLineBreak_comp : Token.isLineBreak ∘ f = Token.isLineBreak :=
  funext h.isLineBreak_eq

/-- A change that keeps kinds leaves lines where they are. -/
theorem lineEnd_map (tokens : List Token) (start : Nat) :
    Token.lineEnd (tokens.map f) start = Token.lineEnd tokens start := by
  rw [Token.lineEnd, Token.lineEnd, ← List.map_drop, List.findIdx?_map, h.isLineBreak_comp,
    List.length_map]

/-- Whether a line is still at its start is told by kinds alone. -/
theorem lineStartAfter_eq (atLineStart : Bool) (t : Token) :
    Token.lineStartAfter atLineStart (f t) = Token.lineStartAfter atLineStart t := by
  rw [Token.lineStartAfter, Token.lineStartAfter, h.isBlank_eq, h.isLineBreak_eq]

/-- The same positions begin lines. -/
theorem beginsLine_map (tokens : List Token) (position : Nat) :
    Token.beginsLine (tokens.map f) position = Token.beginsLine tokens position := by
  rw [Token.beginsLine, Token.beginsLine, ← List.map_take, List.foldl_map]
  simp only [h.lineStartAfter_eq]

/-- The next token that is not blank stays where it is. -/
theorem nextNonBlank?_map (tokens : List Token) (start stop : Nat) :
    Token.nextNonBlank? (tokens.map f) start stop = Token.nextNonBlank? tokens start stop := by
  rw [Token.nextNonBlank?, Token.nextNonBlank?, Token.slice_map, List.findIdx?_map,
    h.not_isBlank_comp]

end KeepsKinds

/-! ### Matches -/

/-- What is first behind the blanks is not blank. -/
theorem isBlank_eq_false_of_head?_dropWhile {ts : List Token} {t : Token}
    (h : (ts.dropWhile Token.isBlank).head? = some t) : t.isBlank = false := by
  have hnot := List.head?_dropWhile_not Token.isBlank ts
  rw [h] at hnot
  exact hnot

/-- After its leading blanks a list goes on with its first token that is not blank. -/
theorem Token.getElem?_length_takeWhile (ts : List Token) :
    ts[(ts.takeWhile Token.isBlank).length]? = (ts.dropWhile Token.isBlank).head? := by
  induction ts with
  | nil => rfl
  | cons t ts ih =>
    cases hblank : t.isBlank with
    | true => simpa [hblank] using ih
    | false => simp [hblank]

/-- A search goes on behind each match that it finds. -/
theorem Pattern.matchesFrom_eq (p : Pattern) (anchored : Bool) (tokens : List Token)
    (position : Nat) :
    p.matchesFrom anchored tokens position =
      match p.next? anchored tokens position with
      | none => []
      | some m => m :: p.matchesFrom anchored tokens m.stop := by
  rw [matchesFrom]
  split
  next hnone => rw [hnone]
  next m hm => rw [hm]

/-- The matches are the same where every search finds the same next match. -/
theorem Pattern.matchesFrom_congr {p : Pattern} {anchored : Bool} {ts us : List Token}
    (h : ∀ position, p.next? anchored ts position = p.next? anchored us position)
    (position : Nat) : p.matchesFrom anchored ts position = p.matchesFrom anchored us position := by
  fun_induction Pattern.matchesFrom p anchored us position with
  | case1 position hnone => rw [matchesFrom_eq, h, hnone]
  | case2 position m hm ih =>
    rw [matchesFrom_eq, h, hm]
    exact congrArg (m :: ·) ih

/-- A pattern **accepts alike** after a change of tokens if each of its elements accepts a changed
token that is not blank exactly if it accepts the token. -/
def Pattern.AcceptsAlike (f : Token → Token) (p : Pattern) : Prop :=
  ∀ e ∈ p.elements, ∀ t : Token, t.isBlank = false → e.accepts (f t) = e.accepts t

namespace KeepsKinds

variable {f : Token → Token} (h : KeepsKinds f)
include h

/-- Elements are laid along changed tokens as along the tokens themselves. -/
theorem align_map {es : List Element}
    (haccepts : ∀ e ∈ es, ∀ t : Token, t.isBlank = false → e.accepts (f t) = e.accepts t)
    (ts : List Token) : Pattern.align es (ts.map f) = Pattern.align es ts := by
  induction es generalizing ts with
  | nil => rfl
  | cons e es ih =>
    obtain ⟨he, hes⟩ := List.forall_mem_cons.mp haccepts
    have hgap : ((ts.map f).takeWhile Token.isBlank).length =
        (ts.takeWhile Token.isBlank).length := by
      rw [List.takeWhile_map, h.isBlank_comp, List.length_map]
    -- the token that the element is laid along is not blank
    have hnext : ((ts.map f).dropWhile Token.isBlank).head?.any e.accepts =
        (ts.dropWhile Token.isBlank).head?.any e.accepts := by
      rw [List.dropWhile_map, h.isBlank_comp, List.head?_map, Option.any_map]
      cases hhead : (ts.dropWhile Token.isBlank).head? with
      | none => rfl
      | some t => exact he t (isBlank_eq_false_of_head?_dropWhile hhead)
    rw [Pattern.align, Pattern.align, hgap, hnext, ← List.map_drop, ih hes, ih hes]

variable {p : Pattern} (hp : p.AcceptsAlike f)
include hp

/-- A match of a pattern stays as long as it was. -/
theorem matchLength?_map (ts : List Token) : p.matchLength? (ts.map f) = p.matchLength? ts := by
  rw [Pattern.matchLength?, Pattern.matchLength?, h.align_map hp]

/-- The first match stays where it is. -/
theorem first?_map (anchored atLineStart : Bool) (ts : List Token) :
    p.first? anchored atLineStart (ts.map f) = p.first? anchored atLineStart ts := by
  induction ts generalizing atLineStart with
  | nil => rfl
  | cons t ts ih =>
    rw [List.map_cons, Pattern.first?, Pattern.first?, ← List.map_cons, h.matchLength?_map hp,
      h.isBlank_eq, h.lineStartAfter_eq, ih]

/-- The next match from a position on stays where it is. -/
theorem next?_map (anchored : Bool) (tokens : List Token) (position : Nat) :
    p.next? anchored (tokens.map f) position = p.next? anchored tokens position := by
  rw [Pattern.next?, Pattern.next?, h.beginsLine_map, ← List.map_drop, h.first?_map hp]

/-- All matches stay where they are. -/
theorem matchesFrom_map (anchored : Bool) (tokens : List Token) (position : Nat) :
    p.matchesFrom anchored (tokens.map f) position = p.matchesFrom anchored tokens position :=
  Pattern.matchesFrom_congr (h.next?_map hp anchored tokens) position

/-- A change that the pattern does not see keeps its matches. -/
theorem lineMatches_map (tokens : List Token) :
    p.lineMatches (tokens.map f) = p.lineMatches tokens :=
  h.matchesFrom_map hp true tokens 0

end KeepsKinds

namespace KeepsWords

variable {f : Token → Token} (h : KeepsWords f)
include h

/-- A changed word is the same word, whatever it is compared with. -/
theorem sameWord_text {t : Token} (hblank : t.isBlank = false) (hbreak : t.isLineBreak = false)
    (word : String) : sameWord (f t).text word = sameWord t.text word := by
  rw [sameWord, sameWord, h.foldCase_text t hblank hbreak]

/-- Only names and keywords spell a word. -/
theorem spells_eq (t : Token) (word : String) : (f t).spells word = t.spells word := by
  rw [Token.spells, Token.spells, h.kind_eq]
  cases hkind : t.kind == .name || t.kind == .reserved with
  | false => rfl
  | true =>
    have hword : t.kind = .name ∨ t.kind = .reserved := by simpa using hkind
    have hblank : t.isBlank = false := by
      rcases hword with hword | hword <;> simp [Token.isBlank, hword]
    have hbreak : t.isLineBreak = false := by
      rcases hword with hword | hword <;> simp [Token.isLineBreak, hword]
    rw [h.sameWord_text hblank hbreak]

/-- A change that keeps words is not seen by any pattern. -/
theorem acceptsAlike (p : Pattern) : p.AcceptsAlike f := by
  intro e _ t hblank
  have halternative : ∀ a : Alternative, a.accepts (f t) = a.accepts t := by
    intro a
    cases a with
    | any => rw [Alternative.accepts, Alternative.accepts, h.isLineBreak_eq]
    | lineBreak => rw [Alternative.accepts, Alternative.accepts, h.isLineBreak_eq]
    | word text =>
      rw [Alternative.accepts, Alternative.accepts, h.isLineBreak_eq]
      cases hbreak : t.isLineBreak with
      | true => rfl
      | false => rw [h.sameWord_text hblank hbreak]
  rw [Element.accepts, Element.accepts]
  simp only [halternative]

/-- A search by any pattern finds the next match at the same place, if all words are kept. -/
theorem next?_map (p : Pattern) (anchored : Bool) (tokens : List Token) (position : Nat) :
    p.next? anchored (tokens.map f) position = p.next? anchored tokens position :=
  h.toKeepsKinds.next?_map (h.acceptsAlike p) anchored tokens position

theorem lineMatches_map (p : Pattern) (tokens : List Token) :
    p.lineMatches (tokens.map f) = p.lineMatches tokens :=
  h.toKeepsKinds.lineMatches_map (h.acceptsAlike p) tokens

end KeepsWords

/-! ### The last token of a match -/

/-- Whether the pattern has no wildcard for line breaks, so that its matches lie within a line. -/
def Pattern.staysInLine (p : Pattern) : Bool :=
  p.elements.all fun e => e.alternatives.all (· != .lineBreak)

namespace Pattern

/-- A row of elements that takes a token takes one last. -/
theorem exists_last_of_align {es : List Element} {ts : List Token} {n : Nat}
    (h : align es ts = some n) (hpos : 0 < n) :
    ∃ t e, ts[n - 1]? = some t ∧ t.isBlank = false ∧ e ∈ es ∧ e.accepts t = true := by
  induction es generalizing ts n with
  | nil =>
    cases h
    exact absurd hpos (Nat.lt_irrefl 0)
  | cons e es ih =>
    rw [align] at h
    split at h
    next hacc =>
      obtain ⟨m, hm, rfl⟩ := Option.map_eq_some_iff.mp h
      rcases Nat.eq_zero_or_pos m with rfl | hmpos
      · -- the later elements take nothing, so this one takes the last token
        obtain ⟨t, ht, hacc⟩ : ∃ t, (ts.dropWhile Token.isBlank).head? = some t ∧
            e.accepts t = true := by
          simpa [Option.any_eq_true] using hacc
        have hblank := isBlank_eq_false_of_head?_dropWhile ht
        have hget := (Token.getElem?_length_takeWhile ts).trans ht
        exact ⟨t, e, by simpa using hget, hblank, List.mem_cons_self, hacc⟩
      · obtain ⟨t, e', ht, hblank, he', hacc'⟩ := ih hm hmpos
        rw [List.getElem?_drop] at ht
        refine ⟨t, e', ?_, hblank, List.mem_cons_of_mem _ he', hacc'⟩
        rw [← ht]
        congr 1
        omega
    next =>
      split at h
      next =>
        obtain ⟨t, e', ht, hblank, he', hacc'⟩ := ih h hpos
        exact ⟨t, e', ht, hblank, List.mem_cons_of_mem _ he', hacc'⟩
      next => cases h

/-- A pattern that stays in a line accepts no line break. -/
theorem isLineBreak_eq_false_of_accepts {p : Pattern} (hline : p.staysInLine = true) {e : Element}
    (he : e ∈ p.elements) {t : Token} (hacc : e.accepts t = true) : t.isLineBreak = false := by
  obtain ⟨a, ha, hacc⟩ := List.any_eq_true.mp hacc
  have hne : a ≠ .lineBreak := by
    have hall := List.all_eq_true.mp (List.all_eq_true.mp hline e he) a ha
    simpa using hall
  cases a with
  | any => simpa [Alternative.accepts] using hacc
  | lineBreak => exact absurd rfl hne
  | word text =>
    rw [Alternative.accepts, Bool.and_eq_true] at hacc
    simpa using hacc.1

/-- The last token of the first match is taken by an element of the pattern. -/
theorem exists_last_of_first? {p : Pattern} {anchored atLineStart : Bool} {ts : List Token}
    {k n : Nat} (h : p.first? anchored atLineStart ts = some (k, n)) :
    ∃ t e, ts[k + n - 1]? = some t ∧ t.isBlank = false ∧ e ∈ p.elements ∧ e.accepts t = true := by
  induction ts generalizing atLineStart k with
  | nil => simp [first?] at h
  | cons t ts ih =>
    rw [first?] at h
    split at h
    next m hm =>
      simp only [Option.some.injEq, Prod.mk.injEq] at h
      obtain ⟨rfl, rfl⟩ := h
      split at hm
      · cases hm
      · obtain ⟨halign, hpos⟩ := matchLength?_eq_some_iff.mp hm
        rw [Nat.zero_add]
        exact exists_last_of_align halign hpos
    next =>
      obtain ⟨⟨k', n'⟩, hk, heq⟩ := Option.map_eq_some_iff.mp h
      simp only [Prod.mk.injEq] at heq
      obtain ⟨rfl, rfl⟩ := heq
      have hpos := (first?_bounds hk).1
      obtain ⟨u, e, hu, hrest⟩ := ih hk
      refine ⟨u, e, ?_, hrest⟩
      rw [show k' + 1 + n' - 1 = (k' + n' - 1) + 1 by omega, List.getElem?_cons_succ, hu]

/-- **The last token of a match** is neither blank nor a line break. -/
theorem exists_last {p : Pattern} (hline : p.staysInLine = true) {anchored : Bool}
    {tokens : List Token} {position : Nat} {m : Match}
    (h : p.next? anchored tokens position = some m) :
    ∃ t, tokens[m.stop - 1]? = some t ∧ t.isBlank = false ∧ t.isLineBreak = false := by
  obtain ⟨⟨k, n⟩, hfirst, rfl⟩ := Option.map_eq_some_iff.mp h
  have hpos := (first?_bounds hfirst).1
  obtain ⟨t, e, ht, hblank, he, hacc⟩ := exists_last_of_first? hfirst
  refine ⟨t, ?_, hblank, isLineBreak_eq_false_of_accepts hline he hacc⟩
  rw [List.getElem?_drop] at ht
  rw [← ht]
  congr 1
  simp only
  omega

/-- The last token of a match is neither blank nor a line break, if the pattern stays in a line. -/
theorem exists_last_of_mem_matchesFrom {p : Pattern} (hline : p.staysInLine = true)
    {anchored : Bool} {tokens : List Token} {position : Nat} {m : Match}
    (h : m ∈ p.matchesFrom anchored tokens position) :
    ∃ t, tokens[m.stop - 1]? = some t ∧ t.isBlank = false ∧ t.isLineBreak = false := by
  fun_induction matchesFrom p anchored tokens position with
  | case1 => cases h
  | case2 position m' hm' ih =>
    rcases List.mem_cons.mp h with rfl | hrest
    · exact exists_last hline hm'
    · exact ih hrest

end Pattern

/-! ### Candidates -/

/-- The search for blocks by its steps: a header, the end that belongs to it, and what is behind
that. -/
theorem Candidate.blocksFrom_eq (tokens : List Token) (position : Nat) :
    blocksFrom tokens position =
      match blockHeader.next? true tokens position with
      | none => []
      | some header =>
        match (blockCloser (lastWord tokens header)).next? true tokens header.stop with
        | none => []
        | some closer =>
          ⟨header.start, closer.stop, blockKind (lastWord tokens header)⟩ ::
            blocksFrom tokens closer.stop := by
  rw [blocksFrom]
  split
  next hnone => rw [hnone]
  next header hheader =>
    rw [hheader]
    simp only
    split
    next hnone => rw [hnone]
    next closer hcloser => rw [hcloser]

namespace KeepsWords

open Candidate

variable {f : Token → Token} (h : KeepsWords f)
include h

/-- The word that a match ends with stays the same word. -/
theorem lastWord_map {tokens : List Token} {m : Match}
    (hlast : ∃ t, tokens[m.stop - 1]? = some t ∧ t.isBlank = false ∧ t.isLineBreak = false) :
    lastWord (tokens.map f) m = lastWord tokens m := by
  obtain ⟨t, ht, hblank, hbreak⟩ := hlast
  rw [lastWord, lastWord, lastToken?, lastToken?, List.getElem?_map, ht]
  exact h.foldCase_text t hblank hbreak

/-- Conditional blocks are found by kinds alone. -/
theorem conditionalsFrom_map (position : Nat) (opened : Option (Nat × Nat)) (ts : List Token) :
    conditionalsFrom position opened (ts.map f) = conditionalsFrom position opened ts := by
  induction ts generalizing position opened with
  | nil => rfl
  | cons t ts ih =>
    rw [List.map_cons]
    unfold conditionalsFrom
    simp only [h.kind_eq, ih]

/-- The same procedures and types are found. -/
theorem blocksFrom_map (tokens : List Token) (position : Nat) :
    blocksFrom (tokens.map f) position = blocksFrom tokens position := by
  -- the keyword that decides which end to look for is the last word of the header
  have hkeyword : ∀ {position : Nat} {header : Match},
      blockHeader.next? true tokens position = some header →
      lastWord (tokens.map f) header = lastWord tokens header :=
    fun hheader => h.lastWord_map (Pattern.exists_last (by decide) hheader)
  fun_induction blocksFrom tokens position with
  | case1 position hnone => rw [blocksFrom_eq, h.next?_map, hnone]
  | case2 position header hheader keyword hnone =>
    rw [blocksFrom_eq, h.next?_map, hheader]
    simp only [hkeyword hheader, h.next?_map]
    rw [hnone]
  | case3 position header hheader keyword closer hcloser ih =>
    rw [blocksFrom_eq, h.next?_map, hheader]
    simp only [hkeyword hheader, h.next?_map]
    rw [hcloser]
    exact congrArg (_ :: ·) ih

/-- The same declaration lines are found. -/
theorem declarations_map (tokens : List Token) :
    declarations (tokens.map f) = declarations tokens := by
  rw [declarations, declarations, h.lineMatches_map]
  refine List.map_congr_left fun m hm => ?_
  rw [h.lineEnd_map, h.lastWord_map (Pattern.exists_last_of_mem_matchesFrom (by decide) hm)]

/-- A changed token can name a variable if the token itself can. -/
theorem canNameVariable_eq (t : Token) : canNameVariable (f t) = canNameVariable t := by
  have hspells : (f t).spells = t.spells := funext (h.spells_eq t)
  rw [canNameVariable, canNameVariable, h.kind_eq, hspells]

/-- The same variable lines are found. -/
theorem globals_map (tokens : List Token) : globals (tokens.map f) = globals tokens := by
  have hname : ∀ m, (lastToken? (tokens.map f) m).any canNameVariable =
      (lastToken? tokens m).any canNameVariable := by
    intro m
    rw [lastToken?, lastToken?, List.getElem?_map, Option.any_map]
    simp only [h.canNameVariable_eq]
  simp only [globals, h.lineMatches_map, h.lineEnd_map, hname]

/-- All searches propose the same spans. -/
theorem spans_map (tokens : List Token) :
    Partition.spans (tokens.map f) = Partition.spans tokens := by
  rw [Partition.spans, Partition.spans, Candidate.all, Candidate.all, conditionals, conditionals,
    h.conditionalsFrom_map, blocks, blocks, h.blocksFrom_map, h.declarations_map, h.globals_map,
    List.length_map]

end KeepsWords

/-! ### Private symbols -/

/-- A change of tokens **keeps the marks** of declaration lists in a token: its text becomes one of
them only if it is. -/
def KeepsMarks (f : Token → Token) (t : Token) : Prop :=
  ∀ mark ∈ ["(", ")", ","], (f t).text = mark ↔ t.text = mark

namespace KeepsKinds

variable {f : Token → Token} (h : KeepsKinds f)
include h

/-- The names behind the first one of a declaration list stay where they are. -/
theorem laterNames_map {ts : List Token} (hmarks : ∀ t ∈ ts, KeepsMarks f t)
    (position depth : Nat) :
    laterNames position depth (ts.map f) = laterNames position depth ts := by
  induction ts generalizing position depth with
  | nil => rfl
  | cons t ts ih =>
    obtain ⟨ht, hts⟩ := List.forall_mem_cons.mp hmarks
    have hopen := ht "(" (by simp)
    have hclose := ht ")" (by simp)
    have hcomma := ht "," (by simp)
    rw [List.map_cons, laterNames, laterNames]
    simp only [hopen, hclose, hcomma, List.findIdx?_map, h.not_isBlank_comp, ih hts]

/-- There are names at the same positions. -/
theorem isSome_nameAt?_map (tokens : List Token) (position : Nat) :
    (nameAt? (tokens.map f) position).isSome = (nameAt? tokens position).isSome := by
  rw [nameAt?, nameAt?, List.getElem?_map]
  cases tokens[position]? with
  | none => rfl
  | some t => simp [Option.filter, Token.isName, h.kind_eq, apply_ite Option.isSome]

/-- The matches of a list of patterns end at the same positions. -/
theorem lastPositions_map {patterns : List Pattern} (hpatterns : ∀ p ∈ patterns, p.AcceptsAlike f)
    (tokens : List Token) : lastPositions patterns (tokens.map f) = lastPositions patterns tokens :=
  List.flatMap_congr fun p hp => by rw [h.lineMatches_map (hpatterns p hp)]

/-- Private symbols are defined in the same places. -/
theorem privatePositions_map (hdefinitions : ∀ p ∈ privateDefinitions, p.AcceptsAlike f)
    (hlists : ∀ p ∈ privateLists, p.AcceptsAlike f) {tokens : List Token}
    (hmarks : ∀ t ∈ tokens, KeepsMarks f t) :
    privatePositions (tokens.map f) = privatePositions tokens := by
  have hlisted : ∀ first, listedNames (tokens.map f) first = listedNames tokens first := by
    intro first
    rw [listedNames, listedNames, h.lineEnd_map, Token.slice_map, h.laterNames_map]
    exact fun t ht => hmarks t (List.mem_of_mem_take (List.mem_of_mem_drop ht))
  simp only [privatePositions, h.lastPositions_map hdefinitions, h.lastPositions_map hlists,
    h.isSome_nameAt?_map, funext hlisted]

end KeepsKinds

/-- Private symbols are defined at the same positions, if all words and marks are kept. -/
theorem KeepsWords.privatePositions_map {f : Token → Token} (h : KeepsWords f) {tokens : List Token}
    (hmarks : ∀ t ∈ tokens, KeepsMarks f t) :
    privatePositions (tokens.map f) = privatePositions tokens :=
  h.toKeepsKinds.privatePositions_map (fun p _ => h.acceptsAlike p) (fun p _ => h.acceptsAlike p)
    hmarks

/-- First spellings are spellings. -/
theorem mem_of_mem_firstSpellings {names : List String} {name : String}
    (h : name ∈ firstSpellings names) : name ∈ names := by
  induction names with
  | nil => cases h
  | cons first names ih =>
    rcases List.mem_cons.mp h with rfl | hmem
    · exact List.mem_cons_self
    · exact List.mem_cons_of_mem _ (ih (List.mem_of_mem_filter hmem))

/-- Changed names have the same first spellings if they are the same words exactly as before. -/
theorem firstSpellings_map {g : String → String} {names : List String}
    (h : ∀ a ∈ names, ∀ b ∈ names, sameWord (g a) (g b) = sameWord a b) :
    firstSpellings (names.map g) = (firstSpellings names).map g := by
  induction names with
  | nil => rfl
  | cons name names ih =>
    have hnames := ih fun a ha b hb => h a (List.mem_cons_of_mem _ ha) b (List.mem_cons_of_mem _ hb)
    rw [List.map_cons, firstSpellings, firstSpellings, hnames, List.filter_map, List.map_cons]
    congr 2
    refine List.filter_congr fun other hother => ?_
    have hmem := List.mem_cons_of_mem name (mem_of_mem_firstSpellings hother)
    rw [Function.comp_apply, h name List.mem_cons_self other hmem]

/-! ### Sections -/

/-- The section with its tokens changed one by one. -/
def Section.mapTokens (f : Token → Token) (s : Section) : Section :=
  { s with tokens := s.tokens.map f }

/-- Option statements are compared by their normal forms only. -/
theorem OptionStatement.ofSections_mapTokens {f : Token → Token}
    (h : ∀ tokens, normalForm (tokens.map f) = normalForm tokens) (sections : List Section) :
    ofSections (sections.map (Section.mapTokens f)) = ofSections sections := by
  rw [ofSections, ofSections, List.filter_map, List.map_map]
  congr 1
  exact List.map_congr_left fun s _ => h s.tokens

/-- The kind that a conditional block stands for, told without the proof that the question comes to
an end. -/
theorem Proxy.kind?_cons (t : Token) (ts : List Token) :
    kind? (t :: ts) = (firstConstruct? (t :: ts)).map fun s =>
      if s.kind = .conditional then (kind? s.tokens).getD .conditional else s.kind := by
  rw [kind?]
  split
  next hnone => rw [hnone]; rfl
  next s hs => rw [hs]; rfl

namespace KeepsWords

variable {f : Token → Token} (h : KeepsWords f)
include h

/-- A section of changed tokens is the section of the tokens, changed. -/
theorem ofTokens_map (tokens : List Token) (kind : Section.Kind) :
    Section.ofTokens (tokens.map f) kind = (Section.ofTokens tokens kind).mapTokens f := by
  have hprivate : ((tokens.map f).take 2).any (·.spells "private") =
      (tokens.take 2).any (·.spells "private") := by
    rw [← List.map_take, List.any_map]
    simp only [Function.comp_def, h.spells_eq]
  rw [Section.ofTokens, hprivate]
  rfl

/-- **The sections of changed tokens are the changed sections.** -/
theorem sections_map (tokens : List Token) :
    Partition.sections (tokens.map f) = (Partition.sections tokens).map (Section.mapTokens f) := by
  rw [Partition.sections, Partition.sections, h.spans_map, List.map_map]
  refine List.map_congr_left fun s _ => ?_
  rw [Token.slice_map, h.ofTokens_map]
  rfl

/-- The same for the sections of a source. -/
theorem sectionsOf_map (origin : String) (tokens : List Token) :
    Partition.sectionsOf origin (tokens.map f) =
      (Partition.sectionsOf origin tokens).map (Section.mapTokens f) := by
  rw [Partition.sectionsOf, Partition.sectionsOf, h.sections_map, List.map_map, List.map_map]
  rfl

/-- The construct that decides what a conditional block stands for stays the same one. -/
theorem firstConstruct?_map (tokens : List Token) :
    Proxy.firstConstruct? (tokens.map f) =
      (Proxy.firstConstruct? tokens).map (Section.mapTokens f) := by
  rw [Proxy.firstConstruct?, Proxy.firstConstruct?, Proxy.afterFirstLine, Proxy.afterFirstLine,
    h.lineEnd_map, ← List.map_drop, h.sections_map, List.find?_map]
  rfl

/-- A conditional block stands for the same kind. -/
theorem kind?_map (tokens : List Token) : Proxy.kind? (tokens.map f) = Proxy.kind? tokens := by
  fun_induction Proxy.kind? tokens with
  | case1 => rw [List.map_nil, Proxy.kind?]
  | case2 t ts hnone =>
    rw [List.map_cons, Proxy.kind?_cons, ← List.map_cons, h.firstConstruct?_map, hnone]
    rfl
  | case3 t ts s hs ih =>
    rw [List.map_cons, Proxy.kind?_cons, ← List.map_cons, h.firstConstruct?_map, hs]
    simp only [Option.map_some, Section.mapTokens, ih]

/-- Resolving the kind of a section commutes with changing its tokens. -/
theorem resolve_mapTokens (s : Section) :
    Proxy.resolve (s.mapTokens f) = (Proxy.resolve s).mapTokens f := by
  by_cases hkind : s.kind = .conditional
  · have hkind' : (s.mapTokens f).kind = .conditional := hkind
    rw [Proxy.resolve, if_pos hkind', Proxy.resolve, if_pos hkind, Section.mapTokens]
    simp only [h.kind?_map]
    rfl
  · have hkind' : ¬(s.mapTokens f).kind = .conditional := hkind
    rw [Proxy.resolve, if_neg hkind', Proxy.resolve, if_neg hkind]

end KeepsWords

end VbaModules

import VbaModules.Proofs.ConsistentRenaming
import VbaModules.Proofs.NamesByLine
import VbaModules.Proofs.NameTokens
import VbaModules.Proofs.OpeningWords
import VbaModules.Proofs.Rewording

/-!
# What qualifying does to public names

Qualifying private names is not meant to touch what a module offers to others. It does so exactly if
a public name is also private (`publicNames_qualify`), which is possible because constants within
procedures count as private names of the module (`publicNames_limitText`).

The definitions are found again after qualifying. Renaming does not disturb the searches, since
private names are free words and qualified names hold an underscore, while the searches ask for
keywords without one. The inserted clauses do not disturb them either: a clause is within a line
that begins with `Private`, and no public definition begins so.
-/

namespace VbaModules

open Lexer Text Token

/-! ### Private names are free words -/

theorem isFreeWord_of_mem_privateNames {text s : String} (h : s ∈ privateNames (lex text)) :
    isFreeWord s = true := by
  obtain ⟨i, hi, t, ht, hname, rfl⟩ := exists_position_of_mem_privateNames h
  have hprevious : Exports.previous? (lex text) i ≠ some quoteToken :=
    previous?_ne_of_mem_privatePositions rfl (by decide) (by decide) hi
  rcases nameToken_of_lex ht (by simpa [isName] using hname) with hfree | ⟨hquote, -⟩
  · exact hfree
  · exact absurd hquote hprevious

/-! ### Searches for keywords -/

/-- The keywords that definitions, their ends and clauses, and option statements are found by. -/
def definingWords : List String :=
  ["Private", "Public", "Global", "Friend", "Static", "Declare", "PtrSafe", "Function", "Sub",
    "Enum", "Type", "Const", "Property", "Get", "Let", "Set", "End", "Option", "Attribute",
    "WithEvents", "Lib", "Alias"]

/-- Whether an element asks for such keywords, or takes any token. -/
def Element.asksForKeywords (e : Element) : Bool :=
  e.alternatives.all fun a =>
    a == .any || (definingWords.map fun word => .word (foldCase word)).contains a

/-- A name that is free is none of the keywords. -/
theorem sameWord_definingWord_of_isFreeWord {s word : String} (h : Keyword.contains s = false)
    (hword : word ∈ definingWords) : sameWord s (foldCase word) = false := by
  have hkeyword : ∀ word ∈ definingWords, word ∈ Keyword.all := by decide
  by_contra hsame
  rw [Bool.not_eq_false, sameWord_iff, foldCase_foldCase] at hsame
  rw [contains_of_mem (hkeyword word hword) hsame] at h
  cases h

/-- A qualified name is none of the keywords, since it has an underscore in it. -/
theorem sameWord_definingWord_of_qualifiedName (module s : String) {word : String}
    (hword : word ∈ definingWords) :
    sameWord (Qualify.qualifiedName module s) (foldCase word) = false := by
  have hplain : ∀ word ∈ definingWords, '_' ∉ (foldCase word).toList := by decide
  by_contra hsame
  rw [Bool.not_eq_false, Qualify.sameWord_iff_toList, Qualify.toList_foldCase_qualifiedName,
    foldCase_foldCase] at hsame
  refine hplain word hword ?_
  rw [← hsame]
  simp

namespace Qualify

variable {module : String} {tokens : List Token}

theorem keepsKinds_renameToken (replacement? : String → Option String) :
    KeepsKinds (renameToken replacement?) where
  kind_eq := kind_renameToken replacement?

section Table

variable (hfree : ∀ s ∈ privateNames tokens, Keyword.contains s = false)
include hfree

theorem sameWord_definingWord_of_private {s word : String} (hs : s ∈ privateNames tokens)
    {t : Token} (hsame : sameWord t.text s = true) (hword : word ∈ definingWords) :
    sameWord t.text (foldCase word) = false := by
  have hcontains : Keyword.contains t.text = false := by
    rw [Keyword.contains, Keyword.editorSpelling?, sameWord_iff.mp hsame]
    exact hfree s hs
  exact sameWord_definingWord_of_isFreeWord hcontains hword

/-- Elements that ask for keywords do not see that private names are qualified. -/
theorem accepts_renameToken {e : Element} (he : e.asksForKeywords = true) (t : Token) :
    e.accepts (renameToken (table module tokens).get? t) = e.accepts t := by
  rcases private_or_not tokens t with ⟨s, hs, hname, hword⟩ | hnot
  · rw [renameToken_eq_of_private hname hs hword]
    have halternative : ∀ a ∈ e.alternatives,
        a.accepts { t with text := qualifiedName module s } = a.accepts t := by
      intro a ha
      have hasks := List.all_eq_true.mp he a ha
      rw [Bool.or_eq_true, beq_iff_eq, List.contains_iff_mem] at hasks
      rcases hasks with rfl | hmem
      · rfl
      · obtain ⟨word, hdefining, rfl⟩ := List.mem_map.mp hmem
        rw [Alternative.accepts, Alternative.accepts,
          sameWord_definingWord_of_private hfree hs hword hdefining,
          sameWord_definingWord_of_qualifiedName module s hdefining, Bool.and_false,
          Bool.and_false]
    rw [Element.accepts, Element.accepts, Bool.eq_iff_iff, List.any_eq_true, List.any_eq_true]
    exact exists_congr fun a => and_congr_right fun ha => by rw [halternative a ha]
  · rw [renameToken_eq_self hnot]

theorem acceptsAlike_renameToken {p : Pattern} (hp : ∀ e ∈ p.elements, e.asksForKeywords = true) :
    p.AcceptsAlike (renameToken (table module tokens).get?) :=
  fun e he t _ => accepts_renameToken hfree (hp e he) t

end Table

theorem nameAt?_renameTokens (replacement? : String → Option String) (tokens : List Token)
    (i : Nat) :
    nameAt? (renameTokens replacement? tokens) i =
      (nameAt? tokens i).map fun name => (replacement? name).getD name := by
  rw [nameAt?, nameAt?, renameTokens, List.getElem?_map]
  cases tokens[i]? with
  | none => rfl
  | some t =>
    have hkind : (renameToken replacement? t).isName = t.isName := by
      rw [isName, isName, kind_renameToken]
    cases hname : t.isName with
    | true =>
      rw [Option.map_some, Option.filter_some_pos (hkind.trans hname),
        Option.filter_some_pos hname, Option.map_some, Option.map_some, Option.map_some,
        renameToken, if_pos hname]
    | false =>
      rw [Option.map_some, Option.filter_some_neg (by simp [hkind, hname]),
        Option.filter_some_neg (by simp [hname])]
      rfl

/-- **Renaming keeps the public definitions**, and the public names are renamed with the rest. -/
theorem publicNames_renameTokens
    (hfree : ∀ s ∈ privateNames tokens, Keyword.contains s = false) :
    publicNames (renameTokens (table module tokens).get? tokens) =
      (publicNames tokens).map fun name => ((table module tokens).get? name).getD name := by
  have hasks : ∀ p ∈ publicDefinitions, ∀ e ∈ p.elements, e.asksForKeywords = true := by decide
  have hpositions : lastPositions publicDefinitions
      (renameTokens (table module tokens).get? tokens) =
        lastPositions publicDefinitions tokens :=
    (keepsKinds_renameToken _).lastPositions_map
      (fun p hp => acceptsAlike_renameToken hfree (hasks p hp)) tokens
  rw [publicNames, publicNames, hpositions, namesAt, namesAt, List.map_filterMap]
  exact List.filterMap_congr fun i _ => nameAt?_renameTokens _ tokens i

end Qualify

/-! ### Lines that begin with `Private` -/

/-- The element for the keyword that begins a private definition. -/
def privateWord : Element :=
  .words ["private"]

/-- Whether the first token that is not blank is the keyword `Private`. -/
def Token.opensPrivate (tokens : List Token) : Bool :=
  (tokens.dropWhile isBlank).head?.any privateWord.accepts

theorem Token.opensPrivate_iff {tokens : List Token} :
    opensPrivate tokens = true ↔
      ∃ t, (tokens.dropWhile isBlank).head? = some t ∧ privateWord.accepts t = true := by
  rw [opensPrivate, Option.any_eq_true]

theorem Token.opensPrivate_append {line : List Token} (h : opensPrivate line = true)
    (rest : List Token) : opensPrivate (line ++ rest) = true := by
  obtain ⟨t, ht, haccepts⟩ := opensPrivate_iff.mp h
  obtain ⟨us, hus⟩ := List.head?_eq_some_iff.mp ht
  refine opensPrivate_iff.mpr ⟨t, ?_, haccepts⟩
  rw [List.dropWhile_append, hus, List.isEmpty_cons, if_neg Bool.false_ne_true, List.cons_append,
    List.head?_cons]

/-- No public definition begins with `Private`. -/
theorem Pattern.IsMatch.accepts_privateWord {p : Pattern} (hp : p ∈ publicDefinitions)
    {tokens : List Token} {m : Match} (h : p.IsMatch true tokens m) {t : Token}
    (ht : tokens[m.start]? = some t) : privateWord.accepts t = false := by
  have hdisjoint : ∀ p ∈ publicDefinitions, ∀ e ∈ (starts p.elements).map Prod.fst,
      e.disjoint privateWord = true := by decide
  obtain ⟨u, hu, -, e, he, haccepts⟩ := h.exists_accepts
  obtain rfl : t = u := Option.some.inj (ht.symm.trans hu)
  exact Element.accepts_eq_false_of_disjoint (hdisjoint p hp e he) haccepts

/-- A single line that begins with `Private` defines no public name. -/
theorem publicNames_eq_nil {tokens : List Token} (hopens : opensPrivate tokens = true)
    (hline : ∀ t ∈ tokens.dropLast, t.isLineBreak = false) : publicNames tokens = [] := by
  obtain ⟨u, hfirst, haccepts⟩ := opensPrivate_iff.mp hopens
  have hu := (getElem?_length_takeWhile tokens).trans hfirst
  have hnone : lastPositions publicDefinitions tokens = [] := by
    rw [lastPositions, List.flatMap_eq_nil_iff]
    intro p hp
    rw [List.map_eq_nil_iff, List.eq_nil_iff_forall_not_mem]
    intro m hm
    have hmatch := Pattern.isMatch_of_mem_matchesFrom hm
    obtain ⟨t, ht, hblank⟩ := hmatch.exists_first
    rcases Nat.lt_trichotomy m.start (tokens.takeWhile isBlank).length with hlt | heq | hgt
    · -- only blanks stand before the keyword
      rw [isBlank_of_lt_length_takeWhile hlt ht] at hblank
      cases hblank
    · rw [← heq] at hu
      rw [hmatch.accepts_privateWord hp hu] at haccepts
      cases haccepts
    · -- after the keyword no line begins before the end
      obtain ⟨k, v, -, hk, hv, hbreak⟩ := exists_isLineBreak_of_beginsLine hu
        (isBlank_eq_false_of_head?_dropWhile hfirst) hgt (hmatch.beginsLine rfl)
      have hlt := (List.getElem?_eq_some_iff.mp ht).1
      have hmem : v ∈ tokens.dropLast := by
        refine List.mem_of_getElem? (i := k) ?_
        rw [List.getElem?_dropLast, if_pos (by omega), hv]
      rw [hline v hmem] at hbreak
      cases hbreak
  rw [publicNames, hnone, namesAt_nil]

/-- The public names after the start of a private line are those of the next lines. -/
theorem publicNames_private_append {line : List Token} (hopens : opensPrivate line = true)
    (hline : ∀ t ∈ line, t.isLineBreak = false) (rest : List Token) :
    publicNames (line ++ rest) = publicNames (rest.drop (lineEnd rest 0)) := by
  rw [lineEnd, List.drop_zero]
  split
  next k hbreak =>
    obtain ⟨hk, hlast, hbefore⟩ := List.findIdx?_eq_some_iff_getElem.mp hbreak
    have htake : rest.take (k + 1) = rest.take k ++ [rest[k]] := (List.take_append_getElem hk).symm
    have hwhole : wholeLines (line ++ rest.take (k + 1)) = true := by
      rw [wholeLines, htake, ← List.append_assoc, List.getLast?_concat]
      exact hlast
    have hall : ∀ t ∈ (line ++ rest.take (k + 1)).dropLast, t.isLineBreak = false := by
      rw [htake, ← List.append_assoc, List.dropLast_concat]
      refine List.forall_mem_append.mpr ⟨hline, fun t ht => ?_⟩
      obtain ⟨i, hi, rfl⟩ := List.mem_take_iff_getElem.mp ht
      simpa using hbefore i (by omega)
    have hsplit : line ++ rest = line ++ rest.take (k + 1) ++ rest.drop (k + 1) := by
      rw [List.append_assoc, List.take_append_drop]
    rw [Nat.zero_add, hsplit, publicNames_append hwhole,
      publicNames_eq_nil (opensPrivate_append hopens _) hall, List.nil_append]
  next hbreak =>
    have hrest := List.findIdx?_eq_none_iff.mp hbreak
    have hall : ∀ t ∈ (line ++ rest).dropLast, t.isLineBreak = false := fun t ht =>
      (List.mem_append.mp ((List.dropLast_sublist _).mem ht)).elim (hline t) (hrest t)
    rw [publicNames_eq_nil (opensPrivate_append hopens rest) hall, List.drop_length,
      publicNames_nil]

/-- Before the start of a line stand whole lines, and blanks that indent it. -/
theorem Token.exists_wholeLines_of_beginsLine {tokens : List Token} {i : Nat}
    (h : beginsLine tokens i = true) :
    ∃ lines gap, tokens.take i = lines ++ gap ∧ wholeLines lines = true ∧
      ∀ t ∈ gap, t.isBlank = true := by
  rw [beginsLine] at h
  generalize tokens.take i = ts at h
  induction ts using List.reverseRecOn with
  | nil => exact ⟨[], [], rfl, rfl, by simp⟩
  | append_singleton ts t ih =>
    rw [List.foldl_concat, lineStartAfter] at h
    split at h
    next hblank =>
      obtain ⟨lines, gap, rfl, hlines, hgap⟩ := ih h
      refine ⟨lines, gap ++ [t], List.append_assoc _ _ _, hlines, ?_⟩
      exact List.forall_mem_append.mpr ⟨hgap, by simpa using hblank⟩
    next =>
      refine ⟨ts ++ [t], [], (List.append_nil _).symm, ?_, by simp⟩
      rw [wholeLines, List.getLast?_concat]
      exact h

/-- The tokens **end in a private line**: after their last line break, or from their start on if
they have none, they begin with `Private`. -/
def Token.EndsPrivate (tokens : List Token) : Prop :=
  ∃ before line, tokens = before ++ line ∧ wholeLines before = true ∧ opensPrivate line = true ∧
    ∀ t ∈ line, t.isLineBreak = false

/-- A change that keeps kinds and the keyword keeps private lines. -/
theorem Token.EndsPrivate.map {f : Token → Token} (hkinds : KeepsKinds f)
    (haccepts : ∀ t, privateWord.accepts (f t) = privateWord.accepts t) {tokens : List Token}
    (h : EndsPrivate tokens) : EndsPrivate (tokens.map f) := by
  obtain ⟨lines, line, rfl, hlines, hopens, hline⟩ := h
  refine ⟨lines.map f, line.map f, List.map_append, ?_, ?_, ?_⟩
  · rw [wholeLines, List.getLast?_map, Option.all_map]
    simp only [hkinds.isLineBreak_eq]
    exact hlines
  · rw [opensPrivate, List.dropWhile_map, hkinds.isBlank_comp, List.head?_map, Option.any_map]
    simp only [haccepts]
    exact hopens
  · intro t ht
    obtain ⟨u, hu, rfl⟩ := List.mem_map.mp ht
    rw [hkinds.isLineBreak_eq, hline u hu]

/-- **Within a private line nothing that is inserted matters** to the public names. -/
theorem publicNames_insert {before clause after : List Token} (h : EndsPrivate before)
    (hclause : ∀ t ∈ clause, t.isLineBreak = false) :
    publicNames (before ++ clause ++ after) = publicNames (before ++ after) := by
  obtain ⟨lines, line, rfl, hlines, hopens, hline⟩ := h
  have hlonger : ∀ t ∈ line ++ clause, t.isLineBreak = false :=
    List.forall_mem_append.mpr ⟨hline, hclause⟩
  rw [List.append_assoc lines line clause, List.append_assoc lines, List.append_assoc lines,
    publicNames_append hlines, publicNames_append hlines,
    publicNames_private_append (opensPrivate_append hopens clause) hlonger,
    publicNames_private_append hopens hline]

namespace Qualify

/-- A private external procedure begins with `Private`. -/
theorem accepts_privateWord_of_isMatch {tokens : List Token} {m : Match}
    (h : privateExternal.IsMatch true tokens m) :
    ∃ t, tokens[m.start]? = some t ∧ t.isBlank = false ∧ privateWord.accepts t = true := by
  have hstarts : (Pattern.starts privateExternal.elements).map Prod.fst = [privateWord] := by decide
  obtain ⟨t, ht, hblank, e, he, haccepts⟩ := h.exists_accepts
  rw [hstarts, List.mem_singleton] at he
  exact ⟨t, ht, hblank, by rwa [← he]⟩

/-- **A clause is missing in a private line only.** -/
theorem endsPrivate_of_mem_unaliased {tokens : List Token} {e : Nat × String}
    (h : e ∈ unaliased tokens) : EndsPrivate (tokens.take e.1) := by
  obtain ⟨m, hm, hlacks⟩ := exists_lacksClause_of_mem_unaliased h
  have hlt : m.start < e.1 := hm.start_lt_stop.trans hlacks.stop_lt
  obtain ⟨lines, gap, hsplit, hlines, hgap⟩ := exists_wholeLines_of_beginsLine (hm.beginsLine rfl)
  have htake : tokens.take e.1 = lines ++ (gap ++ slice tokens m.start e.1) := by
    have hparts := List.take_append_drop m.start (tokens.take e.1)
    rw [List.take_take, min_eq_left hlt.le] at hparts
    rw [← List.append_assoc, ← hsplit, slice, hparts]
  refine ⟨lines, _, htake, hlines, ?_, List.forall_mem_append.mpr ⟨fun t ht => ?_, ?_⟩⟩
  · -- past the indentation the line begins with the match
    obtain ⟨t, ht, hblank, haccepts⟩ := accepts_privateWord_of_isMatch hm
    have hhead : (slice tokens m.start e.1).head? = some t := by
      rw [List.head?_eq_getElem?, getElem?_slice hlt, Nat.add_zero, ht]
    obtain ⟨us, hus⟩ := List.head?_eq_some_iff.mp hhead
    refine opensPrivate_iff.mpr ⟨t, ?_, haccepts⟩
    rw [List.dropWhile_append_of_pos hgap, hus, List.dropWhile_cons_of_neg (by simp [hblank]),
      List.head?_cons]
  · have hblank : t.kind = .blank := by simpa [isBlank] using hgap t ht
    rw [isLineBreak, hblank]
    rfl
  · intro t ht
    obtain ⟨i, hi⟩ := List.mem_iff_getElem?.mp ht
    have hbound : m.start + i < e.1 := by
      have hlength := (List.getElem?_eq_some_iff.mp hi).1
      rw [slice, List.length_drop, List.length_take] at hlength
      omega
    rw [getElem?_slice hbound] at hi
    -- the match stays in its line, and so does what follows up to the missing clause
    rcases Nat.lt_or_ge (m.start + i) m.stop with hinside | hafter
    · exact hm.isLineBreak_eq_false (by decide) (Nat.le_add_right _ _) hinside hi
    · exact hlacks.isLineBreak_eq_false _ t hafter hbound hi

theorem publicNames_addAliases {missing : List (Nat × String)} {tokens : List Token}
    (hsorted : missing.Pairwise fun e e' => e.1 < e'.1)
    (hplaces : ∀ e ∈ missing, e.1 ≤ tokens.length ∧ EndsPrivate (tokens.take e.1)) :
    publicNames (addAliases missing tokens) = publicNames tokens := by
  induction missing with
  | nil => rfl
  | cons e missing ih =>
    obtain ⟨⟨hle, hprivate⟩, hmissing⟩ := List.forall_mem_cons.mp hplaces
    obtain ⟨hfirst, hrest⟩ := List.pairwise_cons.mp hsorted
    have htake := take_addAliases hle fun e' he' => (hfirst e' he').le
    rw [addAliases_cons, htake, publicNames_insert hprivate (by simp [aliasClause, isLineBreak]),
      ← htake, List.take_append_drop, ih hrest hmissing]

/-- **Qualifying renames the public names like all names**, and finds them in the same order. -/
theorem publicNames_qualify_eq_map {module : String} {tokens : List Token}
    (hfree : ∀ s ∈ privateNames tokens, Keyword.contains s = false) :
    publicNames (qualify module tokens) =
      (publicNames tokens).map fun name => ((table module tokens).get? name).getD name := by
  have hplaces : ∀ e ∈ unaliased tokens,
      e.1 ≤ (renameTokens (table module tokens).get? tokens).length ∧
        EndsPrivate ((renameTokens (table module tokens).get? tokens).take e.1) := by
    intro e he
    rw [renameTokens, List.length_map, ← List.map_take]
    exact ⟨le_length_of_mem_unaliased he, (endsPrivate_of_mem_unaliased he).map
      (keepsKinds_renameToken _) (accepts_renameToken hfree (by decide))⟩
  rw [qualify, publicNames_addAliases (pairwise_unaliased tokens) hplaces,
    publicNames_renameTokens hfree]

/-- A qualified name is longer than the symbol. -/
theorem qualifiedName_ne_of_sameWord {module word s : String} (h : sameWord word s = true) :
    qualifiedName module s ≠ word := by
  intro heq
  have hlength := congrArg List.length (sameWord_iff_toList.mp h)
  rw [← heq, toList_foldCase_qualifiedName, List.length_append, List.length_cons] at hlength
  omega

/-- **Public names and qualifying.** A public name that is also private gets its qualified form, and
every other public name stays. So the public names of a module are what they were exactly if none of
them is a private name of the module. -/
theorem publicNames_qualify (module text : String) :
    List.Forall₂
        (fun name name' =>
          (∀ s ∈ privateNames (lex text), sameWord name s = true →
            name' = qualifiedName module s) ∧
          ((∀ s ∈ privateNames (lex text), sameWord name s = false) → name' = name))
        (publicNames (lex text)) (publicNames (qualify module (lex text))) ∧
      (publicNames (qualify module (lex text)) = publicNames (lex text) ↔
        ∀ name ∈ publicNames (lex text), ∀ s ∈ privateNames (lex text),
          sameWord name s = false) := by
  have hfree : ∀ s ∈ privateNames (lex text), Keyword.contains s = false :=
    fun s hs => (isFreeWord_iff.mp (isFreeWord_of_mem_privateNames hs)).2
  rw [publicNames_qualify_eq_map hfree]
  constructor
  · rw [List.forall₂_map_right_iff]
    exact List.forall₂_same.mpr fun name _ =>
      ⟨fun s hs hword => getD_get?_table_of_mem hs hword, getD_get?_table_of_not⟩
  · constructor
    · intro heq name hname s hs
      by_contra hword
      rw [Bool.not_eq_false] at hword
      have hsame : ((table module (lex text)).get? name).getD name = name :=
        List.map_inj_left.mp (heq.trans (List.map_id _).symm) name hname
      rw [getD_get?_table_of_mem hs hword] at hsame
      exact qualifiedName_ne_of_sameWord hword hsame
    · intro hnone
      exact (List.map_congr_left fun name hname =>
        getD_get?_table_of_not (hnone name hname)).trans (List.map_id _)

/-! ### A constant within a procedure -/

/-- A module with a procedure `Limit` and, within another procedure, a constant of the same name. -/
def limitText : String :=
  "Sub Limit()\nEnd Sub\nSub Check()\nConst Limit = 5\nEnd Sub\n"

/-- Where the public definitions are found before and after qualifying, and the names there. -/
theorem reading_limitText :
    lastPositions publicDefinitions (lex limitText) = [2, 12] ∧
      [2, 12].filterMap (nameAt? (lex limitText)) = ["Limit", "Check"] ∧
      lastPositions publicDefinitions (qualify "Grid" (lex limitText)) = [2, 12] ∧
      [2, 12].filterMap (nameAt? (qualify "Grid" (lex limitText))) = ["Grid_Limit", "Check"] := by
  decide +kernel

/-- **A public name can be lost**: the constant makes the name of the procedure a private one. -/
theorem publicNames_limitText :
    publicNames (lex limitText) = ["Limit", "Check"] ∧
      publicNames (qualify "Grid" (lex limitText)) = ["Grid_Limit", "Check"] := by
  obtain ⟨hpositions, hnames, hpositions', hnames'⟩ := reading_limitText
  rw [publicNames, publicNames, hpositions, hpositions', namesAt_of_pairwise _ (by decide),
    namesAt_of_pairwise _ (by decide)]
  exact ⟨hnames, hnames'⟩

end Qualify

end VbaModules

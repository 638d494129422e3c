import VbaModules.Proofs.CaseInsensitivity
import VbaModules.Proofs.EntryPoints

/-!
# Private names of a qualified module

The private names of a qualified module are the qualified private names of the module, in the same
order (`Qualify.privateNames_qualify`). No definition is lost or added by the clauses that are put
in, nor by the new names. Definitions are found line by line (`definedNames_append`), so a clause
only matters to its own line. That line defines the external procedure and nothing else, with or
without the clause (`exists_declare_of_declaresExternal`). The new names are no keywords, so all
definitions are found where they were, and they are the same words exactly if the old ones are.
-/

namespace VbaModules

open Token Text Lexer ClassFile

/-! ### Definitions line by line -/

/-- The names at all private definitions, in order and each as often as it is defined. -/
def definedNames (tokens : List Token) : List String :=
  namesAt tokens (privatePositions tokens)

/-- The names of a list move with the tokens. -/
theorem laterNames_add (k position depth : Nat) (ts : List Token) :
    laterNames (k + position) depth ts = (laterNames position depth ts).map (k + ·) := by
  induction ts generalizing position depth with
  | nil => rfl
  | cons t ts ih =>
    rw [laterNames, laterNames]
    simp only [Nat.add_assoc, ih]
    split_ifs
    · rfl
    · rfl
    · cases ts.findIdx? (!·.isBlank) <;> simp
    · rfl

/-- They are found in the tokens of the list. -/
theorem lt_of_mem_laterNames {position depth i : Nat} {ts : List Token}
    (h : i ∈ laterNames position depth ts) : i < position + ts.length := by
  induction ts generalizing position depth with
  | nil => cases h
  | cons t ts ih =>
    have hlater : ∀ {depth}, i ∈ laterNames (position + 1) depth ts →
        i < position + (t :: ts).length := by
      intro depth hmem
      have hlt := ih hmem
      rw [List.length_cons]
      omega
    rw [laterNames] at h
    split_ifs at h
    · exact hlater h
    · exact hlater h
    · rcases List.mem_append.mp h with hnext | hmem
      · obtain ⟨k, hk, rfl⟩ := Option.map_eq_some_iff.mp (Option.mem_toList.mp hnext)
        obtain ⟨hlt, -, -⟩ := List.findIdx?_eq_some_iff_getElem.mp hk
        rw [List.length_cons]
        omega
      · exact hlater hmem
    · exact hlater h

/-- The names of a list: the first, and those behind commas in its line. -/
theorem listedNames_eq (tokens : List Token) (first : Nat) :
    listedNames tokens first =
      first :: laterNames (first + 1) 0 (slice tokens first (lineEnd tokens first)).tail := by
  rw [listedNames, slice, slice, List.tail_drop]

theorem lt_length_of_mem_listedNames {tokens : List Token} {first i : Nat}
    (hfirst : first < tokens.length) (h : i ∈ listedNames tokens first) : i < tokens.length := by
  rw [listedNames_eq] at h
  rcases List.mem_cons.mp h with rfl | hlater
  · exact hfirst
  · have hlt := lt_of_mem_laterNames hlater
    have hend := lineEnd_bounds hfirst.le
    rw [List.length_tail, length_slice hend.2] at hlt
    omega

/-- Private names are defined in the tokens. -/
theorem lt_length_of_mem_privatePositions {tokens : List Token} {i : Nat}
    (h : i ∈ privatePositions tokens) : i < tokens.length := by
  rcases List.mem_append.mp h with hdefinition | hlisted
  · exact lt_length_of_mem_lastPositions hdefinition
  · obtain ⟨first, hfirst, hi⟩ := List.mem_flatMap.mp hlisted
    exact lt_length_of_mem_listedNames
      (lt_length_of_mem_lastPositions (List.mem_of_mem_filter hfirst)) hi

section Append

variable {as bs : List Token}

/-- A list in the first lines ends in them. -/
theorem listedNames_append_left (h : wholeLines as = true) {first : Nat}
    (hfirst : first < as.length) (bs : List Token) :
    listedNames (as ++ bs) first = listedNames as first := by
  rw [listedNames_eq, listedNames_eq, slice_lineEnd_append_left h hfirst]

/-- A list in later lines does not depend on earlier ones. -/
theorem listedNames_append_right (as bs : List Token) (first : Nat) :
    listedNames (as ++ bs) (as.length + first) =
      (listedNames bs first).map (as.length + ·) := by
  rw [listedNames_eq, listedNames_eq, slice_lineEnd_append_right, List.map_cons, Nat.add_assoc,
    laterNames_add]

/-- Private symbols are defined in the first lines and in the rest. -/
theorem privatePositions_append_perm (h : wholeLines as = true) :
    (privatePositions (as ++ bs)).Perm
      (privatePositions as ++ (privatePositions bs).map (as.length + ·)) := by
  have hdefinitions : (lastPositions privateDefinitions (as ++ bs)).Perm _ :=
    lastPositions_append_perm (by decide) (by decide) h
  have hlists : (lastPositions privateLists (as ++ bs)).Perm _ :=
    lastPositions_append_perm (by decide) (by decide) h
  -- lists of variables end with their lines, so each is the same in its part
  have hlisted : (((lastPositions privateLists (as ++ bs)).filter fun i =>
        (nameAt? (as ++ bs) i).isSome).flatMap (listedNames (as ++ bs))).Perm
      (((lastPositions privateLists as).filter fun i => (nameAt? as i).isSome).flatMap
          (listedNames as) ++
        (((lastPositions privateLists bs).filter fun i => (nameAt? bs i).isSome).flatMap
          (listedNames bs)).map (as.length + ·)) := by
    refine ((hlists.filter _).flatMap_right _).trans (.of_eq ?_)
    rw [List.filter_append, List.flatMap_append, List.filter_map, List.flatMap_map,
      List.map_flatMap]
    congr 1
    · have hfilter : (lastPositions privateLists as).filter
          (fun i => (nameAt? (as ++ bs) i).isSome) =
            (lastPositions privateLists as).filter fun i => (nameAt? as i).isSome :=
        List.filter_congr fun i hi => by
          rw [nameAt?_append_left (lt_length_of_mem_lastPositions hi)]
      rw [hfilter]
      exact List.flatMap_congr fun i hi => listedNames_append_left h
        (lt_length_of_mem_lastPositions (List.mem_of_mem_filter hi)) bs
    · simp only [Function.comp_def, nameAt?_append_right, listedNames_append_right]
  refine (hdefinitions.append hlisted).trans ?_
  rw [privatePositions, privatePositions, List.map_append, List.append_assoc, List.append_assoc]
  refine List.Perm.append_left _ ?_
  rw [← List.append_assoc, ← List.append_assoc]
  exact List.perm_append_comm.append_right _

/-- **Private definitions are found line by line.** -/
theorem definedNames_append (h : wholeLines as = true) (bs : List Token) :
    definedNames (as ++ bs) = definedNames as ++ definedNames bs :=
  namesAt_append (privatePositions_append_perm h) fun _ => lt_length_of_mem_privatePositions

theorem definedNames_nil : definedNames [] = [] := by
  have hnone : privatePositions [] = [] :=
    List.eq_nil_iff_forall_not_mem.mpr fun i hi =>
      Nat.not_lt_zero i (lt_length_of_mem_privatePositions hi)
  rw [definedNames, hnone, namesAt_nil]

/-- A line may also be the last, without its end. -/
theorem definedNames_line_append (hends : bs ≠ [] → endsLine as = true) :
    definedNames (as ++ bs) = definedNames as ++ definedNames bs := by
  by_cases hrest : bs = []
  · rw [hrest, definedNames_nil, List.append_nil, List.append_nil]
  · exact definedNames_append (wholeLines_of_endsLine (hends hrest)) bs

end Append

/-! ### Lines of external procedures -/

/-- Patterns are searched one after the other. -/
theorem lastPositions_append (patterns patterns' : List Pattern) (tokens : List Token) :
    lastPositions (patterns ++ patterns') tokens =
      lastPositions patterns tokens ++ lastPositions patterns' tokens :=
  List.flatMap_append

/-- In a line a pattern has one match, which ends at one place. -/
theorem ClassFile.IsLine.lastPositions_eq_singleton {line : List Token} (h : IsLine line)
    {p : Pattern} {m : Match} (hm : p.IsMatch true line m) (hstays : p.staysInLine = true)
    (hends : Pattern.endsTaking p.elements = true) : lastPositions [p] line = [m.stop - 1] := by
  rw [lastPositions, List.flatMap_singleton, h.lineMatches_eq_singleton hstays hends hm,
    List.map_singleton]

/-- Patterns that exclude the one which matches in a line find nothing there. -/
theorem ClassFile.IsLine.lastPositions_eq_nil {line : List Token} (h : IsLine line) {p : Pattern}
    {m : Match} (hm : p.IsMatch true line m) (hends : Pattern.endsTaking p.elements = true)
    {patterns : List Pattern}
    (hexcludes : ∀ p' ∈ patterns, Pattern.endsTaking p'.elements = true ∧ p'.excludes p = true) :
    lastPositions patterns line = [] := by
  refine List.flatMap_eq_nil_iff.mpr fun p' hp' => List.map_eq_nil_iff.mpr ?_
  obtain ⟨hends', hexcludes⟩ := hexcludes p' hp'
  refine List.eq_nil_iff_forall_not_mem.mpr fun m' hm' => ?_
  have hmatch := Pattern.isMatch_of_mem_matchesFrom hm'
  exact hmatch.start_ne hm hends' hends hexcludes (h.start_eq hends' hends hmatch hm)

namespace Qualify

/-- The second word of a line that declares an external procedure is `Declare`. -/
theorem exists_declare {opening : List Token} (h : privateExternal.Covers opening) :
    ∃ t gap u more, opening = t :: (gap ++ u :: more) ∧ t.isBlank = false ∧
      (Element.words ["private"]).accepts t = true ∧ (∀ b ∈ gap, b.isBlank = true) ∧
      u.isBlank = false ∧ (Element.words ["declare"]).accepts u = true := by
  obtain ⟨first, hfirst, hblank⟩ := h.exists_first
  obtain ⟨indent, t, us, n, rfl, hindent, ht, haccepts, hmore⟩ :=
    Pattern.exists_of_align_cons h.align_eq rfl
  obtain ⟨gap, u, more, _, rfl, hgap, hu, haccepts', -⟩ := Pattern.exists_of_align_cons hmore rfl
  obtain rfl : indent = [] := by
    cases indent with
    | nil => rfl
    | cons b indent =>
      obtain rfl : b = first := Option.some.inj hfirst
      rw [hindent b List.mem_cons_self] at hblank
      cases hblank
  exact ⟨t, gap, u, more, rfl, ht, haccepts, hgap, hu, haccepts'⟩

/-- The start of a private declaration of variables, up to the first of them. -/
def privateVariables : Pattern :=
  ⟨[.words ["private"], .maybe ["withevents"], .anything]⟩

/-- A declaration list that begins with `Private Declare` would name `Declare`. -/
theorem align_privateVariables {t u : Token} {gap : List Token} (ht : t.isBlank = false)
    (haccepts : (Element.words ["private"]).accepts t = true)
    (hgap : ∀ b ∈ gap, b.isBlank = true) (hu : u.isBlank = false)
    (haccepts' : (Element.words ["declare"]).accepts u = true) (more : List Token) :
    Pattern.align privateVariables.elements (t :: (gap ++ u :: more)) = some (gap.length + 2) := by
  have hother : (Element.maybe ["withevents"]).accepts u = false := by
    refine Element.accepts_eq_false_of_disjoint ?_ haccepts'
    decide
  have hany : Element.anything.accepts u = true := by
    have hbreak : u.isLineBreak = false := by
      by_contra hbreak
      simp [Element.accepts, Element.words, Alternative.accepts, hbreak] at haccepts'
    simp [Element.accepts, Element.anything, Alternative.accepts, hbreak]
  have hdrop : (gap ++ u :: more).dropWhile isBlank = u :: more := by
    rw [List.dropWhile_append_of_pos hgap, List.dropWhile_cons_of_neg (by simp [hu])]
  have htake : (gap ++ u :: more).takeWhile isBlank = gap := by
    rw [List.takeWhile_append_of_pos hgap, List.takeWhile_cons_of_neg (by simp [hu]),
      List.append_nil]
  have hrest : Pattern.align [.maybe ["withevents"], .anything] (gap ++ u :: more) =
      some (gap.length + 1) := by
    rw [Pattern.align, hdrop, List.head?_cons, Option.any_some, hother, if_neg Bool.false_ne_true,
      if_pos (show (Element.maybe ["withevents"]).optional = true from rfl), Pattern.align, hdrop,
      List.head?_cons, Option.any_some, hany, if_pos rfl, htake]
    rfl
  rw [privateVariables, Pattern.align_cons_of_not_blank ht, haccepts, if_pos rfl, hrest,
    Option.map_some]
  congr 1
  omega

/-- In a line that declares an external procedure, the searches for private definitions find its
name, and the searches for declaration lists find the word `Declare`. -/
theorem exists_positions_of_declaresExternal {head : List Token} {name : Token}
    (h : DeclaresExternal head name) :
    ∃ i j u, head[i]? = some name ∧ head[j]? = some u ∧
      (Element.words ["declare"]).accepts u = true ∧
      ∀ {rest : List Token}, IsLine (head ++ rest) →
        lastPositions privateDefinitions (head ++ rest) = [i] ∧
        lastPositions privateLists (head ++ rest) = [j] := by
  obtain ⟨indent, opening, part, rfl, hindent, hcovers, hname, -⟩ := h.exists_parts
  obtain ⟨t, gap, u, more, hopening, ht, haccepts, hgap, hu, haccepts'⟩ := exists_declare hcovers
  refine ⟨indent.length + opening.length - 1, indent.length + (gap.length + 1), u, ?_, ?_,
    haccepts', fun {rest} hline => ?_⟩
  · rw [getElem?_stop_of_append hcovers.length_pos, hname]
  · rw [List.getElem?_append_right (by omega), Nat.add_sub_cancel_left, hopening]
    simp
  · have hparts : indent ++ (opening ++ part) ++ rest = indent ++ (opening ++ (part ++ rest)) := by
      simp
    rw [hparts] at hline ⊢
    have hexternal : privateExternal.IsMatch true (indent ++ (opening ++ (part ++ rest)))
        ⟨indent.length, indent.length + opening.length⟩ :=
      (hline.isMatch_iff endsTaking_privateExternal).mpr
        ⟨indent, opening, part ++ rest, rfl, hindent, hcovers, rfl⟩
    have hvariables : privateVariables.IsMatch true (indent ++ (opening ++ (part ++ rest)))
        ⟨indent.length, indent.length + (gap.length + 2)⟩ := by
      refine ⟨by simp, hexternal.exists_first, hexternal.beginsLine, ?_⟩
      rw [List.drop_left, hopening, Nat.add_sub_cancel_left, List.cons_append, List.append_assoc,
        List.cons_append]
      exact align_privateVariables ht haccepts hgap hu haccepts' _
    -- in each family one pattern matches at the start of the line, and it excludes the others
    constructor
    · have hsplit : privateDefinitions = privateDefinitions.take 2 ++ [privateExternal] := rfl
      rw [hsplit, lastPositions_append,
        hline.lastPositions_eq_nil hexternal endsTaking_privateExternal (by decide),
        hline.lastPositions_eq_singleton hexternal (by decide) endsTaking_privateExternal]
      rfl
    · have hsplit : privateLists = [privateVariables] ++ privateLists.drop 1 := rfl
      rw [hsplit, lastPositions_append,
        hline.lastPositions_eq_singleton hvariables (by decide) (by decide),
        hline.lastPositions_eq_nil hexternal endsTaking_privateExternal (by decide)]
      rfl

/-- **A line that declares an external procedure** defines its name and nothing else, for the word
`Declare` is no name. -/
theorem exists_declare_of_declaresExternal {head : List Token} {name : Token}
    (h : DeclaresExternal head name) :
    ∃ u : Token, (Element.words ["declare"]).accepts u = true ∧
      ∀ {rest : List Token}, IsLine (head ++ rest) →
        (u.isName = true → u.text ∈ definedNames (head ++ rest)) ∧
        (u.isName = false →
          definedNames (head ++ rest) = if name.isName then [name.text] else []) := by
  obtain ⟨i, j, u, hi, hj, haccepts, hpositions⟩ := exists_positions_of_declaresExternal h
  have hget : ∀ {k : Nat} {t : Token} {rest : List Token}, head[k]? = some t →
      nameAt? (head ++ rest) k = if t.isName then some t.text else none := by
    intro k t rest hk
    rw [nameAt?, List.getElem?_append_left (List.getElem?_eq_some_iff.mp hk).1, hk,
      Option.filter_some]
    split <;> rfl
  refine ⟨u, haccepts, fun {rest} hline => ⟨fun hname => ?_, fun hname => ?_⟩⟩
  · refine mem_namesAt_iff.mpr ⟨j, List.mem_append_right _ (List.mem_flatMap.mpr ⟨j, ?_, ?_⟩), ?_⟩
    · rw [(hpositions hline).2, List.filter_singleton, hget hj, hname]
      exact List.mem_singleton_self j
    · exact List.mem_cons_self
    · rw [hget hj, hname]
      rfl
  · have hlists : (lastPositions privateLists (head ++ rest)).filter
        (fun i => (nameAt? (head ++ rest) i).isSome) = [] := by
      rw [(hpositions hline).2, List.filter_singleton, hget hj, hname]
      rfl
    have honly : privatePositions (head ++ rest) = [i] := by
      rw [privatePositions, hlists, (hpositions hline).1]
      rfl
    rw [definedNames, honly, namesAt_of_pairwise _ (List.pairwise_singleton _ i),
      List.filterMap_cons, hget hi, List.filterMap_nil]
    cases name.isName <;> rfl

/-- **Clauses define nothing.** -/
theorem definedNames_aliased {tokens : List Token}
    (hfree : ∀ name ∈ definedNames tokens, Keyword.contains name = false) :
    definedNames (aliased tokens) = definedNames tokens := by
  induction tokens using line_induction with
  | nil => rw [aliased_nil]
  | line line rest hline hends ih =>
    rw [definedNames_line_append hends, List.forall_mem_append] at hfree
    rw [aliased_line_append hends, definedNames_line_append (endsLine_aliased hline hends),
      definedNames_line_append hends, ih hfree.2]
    congr 1
    rcases aliased_cases hline with ⟨head, name, more, rfl, hdeclares, -, heq⟩ | ⟨-, heq⟩
    · have hline' := (isLine_aliased hline).1
      rw [heq, List.append_assoc] at hline' ⊢
      obtain ⟨u, haccepts, hdefined⟩ := exists_declare_of_declaresExternal hdeclares
      -- a name would be defined here, and what is defined is no keyword
      have hname : u.isName = false := by
        by_contra hname
        have hmem := (hdefined hline).1 (by simpa using hname)
        have hkeyword : Keyword.contains u.text = true :=
          contains_of_mem (show "Declare" ∈ Keyword.all by decide)
            ((sameWord_iff.mp (sameWord_of_accepts_words haccepts)).trans (by decide))
        rw [hfree.1 _ hmem] at hkeyword
        cases hkeyword
      rw [(hdefined hline').2 hname, (hdefined hline).2 hname]
    · rw [heq]

/-! ### Renamed definitions -/

section Renamed

variable {module : String} {tokens : List Token}

/-- Neither a private name nor a qualified one is a mark of declaration lists. -/
theorem keepsMarks_renameToken (hfree : ∀ s ∈ privateNames tokens, isFreeWord s = true)
    (t : Token) :
    KeepsMarks (renameToken (table module tokens).get?) t := by
  intro mark hmark
  rcases private_or_not tokens t with ⟨s, hs, hname, hsame⟩ | hnot
  · have hplain : ∀ mark ∈ ["(", ")", ","], '_' ∉ mark.toList ∧ isFreeWord mark = false := by
      decide
    have hmarks : ∀ mark ∈ ["(", ")", ","], ∀ word : String, foldCase word = mark ↔ word = mark :=
      fun mark hmark word => keepsMarks_fold ⟨.name, word⟩ mark hmark
    have hqualified : qualifiedName module s ≠ mark := by
      rintro rfl
      exact (hplain _ hmark).1 (by simp [qualifiedName])
    have hword : t.text ≠ mark := by
      intro heq
      have hs' : s = mark := by
        rw [← hmarks mark hmark, ← sameWord_iff.mp hsame, hmarks mark hmark, heq]
      have hfalse := (hplain mark hmark).2
      rw [← hs', hfree s hs] at hfalse
      cases hfalse
    rw [renameToken_eq_of_private hname hs hsame]
    exact iff_of_false hqualified hword
  · rw [renameToken_eq_self hnot]

/-- **Renaming keeps the private definitions**, and their names are renamed with the rest. -/
theorem definedNames_renameToken (hfree : ∀ s ∈ privateNames tokens, isFreeWord s = true)
    (ts : List Token) :
    definedNames (renameTokens (table module tokens).get? ts) =
      (definedNames ts).map fun name => ((table module tokens).get? name).getD name := by
  have hkeyword : ∀ s ∈ privateNames tokens, Keyword.contains s = false :=
    fun s hs => (isFreeWord_iff.mp (hfree s hs)).2
  have hasks : ∀ p ∈ privateDefinitions ++ privateLists, ∀ e ∈ p.elements,
      e.asksForKeywords = true := by decide
  have halike : ∀ p ∈ privateDefinitions ++ privateLists,
      p.AcceptsAlike (renameToken (table module tokens).get?) :=
    fun p hp => acceptsAlike_renameToken hkeyword (hasks p hp)
  have hpositions : privatePositions (renameTokens (table module tokens).get? ts) =
      privatePositions ts :=
    (keepsKinds_renameToken _).privatePositions_map
      (fun p hp => halike p (List.mem_append_left _ hp))
      (fun p hp => halike p (List.mem_append_right _ hp))
      fun t _ => keepsMarks_renameToken hfree t
  rw [definedNames, definedNames, hpositions, namesAt, namesAt, List.map_filterMap]
  exact List.filterMap_congr fun i _ => nameAt?_renameTokens _ ts i

end Renamed

/-- Every name has a first spelling. -/
theorem exists_firstSpelling {names : List String} {name : String} (h : name ∈ names) :
    ∃ s ∈ firstSpellings names, sameWord name s = true := by
  induction names with
  | nil => cases h
  | cons first names ih =>
    by_cases hsame : sameWord name first = true
    · exact ⟨first, List.mem_cons_self, hsame⟩
    · rcases List.mem_cons.mp h with rfl | hmem
      · exact absurd (sameWord_iff.mpr rfl) hsame
      · obtain ⟨s, hs, hname⟩ := ih hmem
        refine ⟨s, List.mem_cons_of_mem _ (List.mem_filter.mpr ⟨hs, ?_⟩), hname⟩
        rw [Bool.not_eq_true', sameWord_comm, ← sameWord_congr hname (sameWord_iff.mpr rfl)]
        simpa using hsame

/-- **The private names of a qualified module** are its private names, qualified. -/
theorem privateNames_qualify (module text : String) :
    privateNames (qualify module (lex text)) =
      (privateNames (lex text)).map (qualifiedName module) := by
  have hfree : ∀ s ∈ privateNames (lex text), isFreeWord s = true :=
    fun s hs => isFreeWord_of_mem_privateNames hs
  -- every name that is defined is replaced by its first spelling, qualified
  have hqualified : ∀ name ∈ definedNames (lex text), ∃ s ∈ privateNames (lex text),
      sameWord name s = true ∧
        ((table module (lex text)).get? name).getD name = qualifiedName module s := by
    intro name hname
    obtain ⟨s, hs, hsame⟩ := exists_firstSpelling hname
    exact ⟨s, hs, hsame, getD_get?_table_of_mem hs hsame⟩
  have hkeyword : ∀ name ∈ definedNames (lex text), Keyword.contains name = false := by
    intro name hname
    obtain ⟨s, hs, hsame, -⟩ := hqualified name hname
    rw [Keyword.contains, Keyword.editorSpelling?, sameWord_iff.mp hsame]
    exact (isFreeWord_iff.mp (hfree s hs)).2
  have hsame : ∀ a ∈ definedNames (lex text), ∀ b ∈ definedNames (lex text),
      sameWord (((table module (lex text)).get? a).getD a)
        (((table module (lex text)).get? b).getD b) = sameWord a b := by
    intro a ha b hb
    obtain ⟨s, -, has, hsa⟩ := hqualified a ha
    obtain ⟨s', -, hbs, hsb⟩ := hqualified b hb
    rw [hsa, hsb, sameWord_qualifiedName, sameWord_congr has hbs]
  calc privateNames (qualify module (lex text))
      = firstSpellings (definedNames
          (renameTokens (table module (lex text)).get? (aliased (lex text)))) := by
        rw [qualify_eq_map]
        rfl
    _ = firstSpellings ((definedNames (lex text)).map fun name =>
          ((table module (lex text)).get? name).getD name) := by
        rw [definedNames_renameToken hfree, definedNames_aliased hkeyword]
    _ = (privateNames (lex text)).map fun name =>
          ((table module (lex text)).get? name).getD name := firstSpellings_map hsame
    _ = (privateNames (lex text)).map (qualifiedName module) :=
        List.map_congr_left fun s hs => getD_get?_table_of_mem hs (sameWord_iff.mpr rfl)

end Qualify

end VbaModules

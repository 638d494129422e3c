import VbaModules.Proofs.ExternalLines

/-!
# Qualifying keeps entry points

An external procedure is found in its library by its entry point: the literal of its `Alias` clause,
or its name if it has none. Qualifying renames the procedure, so its line must give the entry point
in a clause afterwards. It does (`qualify_keepsEntryPoints`): the line still declares an external
procedure, a clause that is there stays as it is, and a clause that is missing is put in with the
name as it was. Nothing is put in anywhere else, and nothing at all if a module is qualified a
second time.

Qualifying goes line by line (`lines_qualify`). First the missing clauses are put in, which depends
on each line alone, and then the names are replaced, which leaves all keywords and literals.
-/

namespace VbaModules

open Token Text Lexer ClassFile

/-! ### Lines of changed tokens -/

namespace ClassFile

/-- The lines of tokens are lines. -/
theorem isLine_of_mem_lines {tokens line : List Token} (h : line ∈ lines tokens) : IsLine line := by
  induction tokens using line_induction with
  | nil => cases h
  | line first rest hfirst hends ih =>
    rw [lines_append hfirst hends] at h
    rcases List.mem_cons.mp h with rfl | hmem
    · exact hfirst
    · exact ih hmem

variable {f : Token → Token}

/-- A line stays one line under a change that keeps kinds. -/
theorem IsLine.map (hf : KeepsKinds f) {line : List Token} (h : IsLine line) :
    IsLine (line.map f) := by
  induction h with
  | last t => exact .last (f t)
  | cons ht _ ih => exact .cons (by rwa [hf.isLineBreak_eq]) ih

theorem endsLine_map (hf : KeepsKinds f) (tokens : List Token) :
    endsLine (tokens.map f) = endsLine tokens := by
  rw [endsLine, endsLine, List.getLast?_map, Option.any_map]
  simp only [hf.isLineBreak_eq]

/-- Lines are cut at the same places. -/
theorem lines_map (hf : KeepsKinds f) (tokens : List Token) :
    lines (tokens.map f) = (lines tokens).map (List.map f) := by
  induction tokens using line_induction with
  | nil => rfl
  | line line rest hline hends ih =>
    rw [List.map_append, lines_append (hline.map hf), ih, lines_append hline hends, List.map_cons]
    intro hrest
    rw [endsLine_map hf]
    exact hends fun hnil => hrest (by rw [hnil]; rfl)

end ClassFile

namespace Qualify

/-! ### Lines with their clauses -/

section Line

variable {line : List Token}

/-- An alias clause breaks no line. -/
theorem isLineBreak_eq_false_of_mem_aliasClause {entryPoint : String} {t : Token}
    (h : t ∈ aliasClause entryPoint) : t.isLineBreak = false := by
  simp only [aliasClause, List.mem_cons, List.not_mem_nil, or_false] at h
  rcases h with rfl | rfl | rfl | rfl <;> rfl

/-- A line is as it was or has a clause put in after the library. -/
theorem aliased_cases (h : IsLine line) :
    (∃ head name rest, line = head ++ rest ∧ DeclaresExternal head name ∧
      opensAlias rest = false ∧ aliased line = head ++ aliasClause name.text ++ rest) ∨
      unaliased line = [] ∧ aliased line = line := by
  cases hmissing : unaliased line with
  | nil => exact .inr ⟨rfl, by rw [aliased, hmissing]; rfl⟩
  | cons e more =>
    obtain ⟨head, name, rest, rfl, hdeclares, halias, -⟩ :=
      (mem_unaliased_iff h).mp (hmissing ▸ List.mem_cons_self)
    have haliased := aliased_of_declaresExternal h hdeclares
    rw [halias, if_neg Bool.false_ne_true] at haliased
    exact .inl ⟨head, name, rest, rfl, hdeclares, halias, haliased⟩

/-- The literal of the library does not end a line. -/
theorem DeclaresExternal.exists_concat {head : List Token} {name : Token}
    (h : DeclaresExternal head name) :
    ∃ most literal, head = most ++ [literal] ∧ literal.isLineBreak = false := by
  obtain ⟨indent, opening, part, rfl, -, -, -, hpart⟩ := h.exists_parts
  obtain ⟨gap, word, gap', literal, rfl, -, -, -, hliteral⟩ := hpart.exists_parts
  refine ⟨indent ++ (opening ++ (gap ++ word :: gap')), literal, by simp, ?_⟩
  rw [isLineBreak, hliteral]
  rfl

/-- With its clause a line is still one line. -/
theorem isLine_insert {head clause rest : List Token} {name : Token}
    (h : IsLine (head ++ rest)) (hdeclares : DeclaresExternal head name)
    (hclause : ∀ t ∈ clause, t.isLineBreak = false) :
    IsLine (head ++ clause ++ rest) ∧
      endsLine (head ++ clause ++ rest) = endsLine (head ++ rest) := by
  -- the line cannot end before the clause, which comes after a literal
  obtain ⟨most, literal, rfl, hliteral⟩ := hdeclares.exists_concat
  obtain ⟨-, hline⟩ := isLine_iff.mp h
  have hmost : ∀ t ∈ most, t.isLineBreak = false := by
    intro t ht
    refine hline t ?_
    rw [List.append_assoc, List.dropLast_append_of_ne_nil (by simp)]
    exact List.mem_append_left _ ht
  have hhead : ∀ t ∈ most ++ [literal] ++ clause, t.isLineBreak = false := by
    simp only [List.forall_mem_append, List.forall_mem_singleton]
    exact ⟨⟨hmost, hliteral⟩, hclause⟩
  by_cases hrest : rest = []
  · subst hrest
    rw [List.append_nil, List.append_nil]
    refine ⟨isLine_iff.mpr ⟨by simp, fun t ht => hhead t ((List.dropLast_sublist _).mem ht)⟩, ?_⟩
    have hends : ∀ {ts : List Token}, (∀ t ∈ ts, t.isLineBreak = false) → endsLine ts = false := by
      intro ts hts
      rw [endsLine, Option.any_eq_false]
      exact fun t ht => by simp [hts t (List.mem_of_getLast? ht)]
    rw [hends hhead, hends fun t ht => hhead t (List.mem_append_left _ ht)]
  · refine ⟨isLine_iff.mpr ⟨by simp, fun t ht => ?_⟩, ?_⟩
    · rw [List.dropLast_append_of_ne_nil hrest, List.mem_append] at ht
      refine ht.elim (hhead t) fun hmem => hline t ?_
      rw [List.dropLast_append_of_ne_nil hrest]
      exact List.mem_append_right _ hmem
    · rw [endsLine, endsLine, List.getLast?_append_of_ne_nil _ hrest,
        List.getLast?_append_of_ne_nil _ hrest]

/-- A line with its clause is one line, and ends as it did. -/
theorem isLine_aliased (h : IsLine line) :
    IsLine (aliased line) ∧ endsLine (aliased line) = endsLine line := by
  rcases aliased_cases h with ⟨head, name, rest, rfl, hdeclares, -, haliased⟩ | ⟨-, haliased⟩
  · rw [haliased]
    exact isLine_insert h hdeclares fun t => isLineBreak_eq_false_of_mem_aliasClause
  · rw [haliased]
    exact ⟨h, rfl⟩

end Line

theorem unaliased_nil : unaliased [] = [] := by
  refine List.eq_nil_iff_forall_not_mem.mpr fun e he => ?_
  obtain ⟨m, hm, -⟩ := List.mem_filterMap.mp he
  have hmatch := Pattern.isMatch_of_mem_matchesFrom hm
  exact absurd (hmatch.start_lt_stop.trans_le hmatch.stop_le) (Nat.not_lt_zero _)

theorem aliased_nil : aliased [] = [] := by
  rw [aliased, unaliased_nil]
  rfl

/-- Clauses are put in one line at a time. -/
theorem aliased_line_append {line rest : List Token} (hends : rest ≠ [] → endsLine line = true) :
    aliased (line ++ rest) = aliased line ++ aliased rest := by
  by_cases hrest : rest = []
  · rw [hrest, aliased_nil, List.append_nil, List.append_nil]
  · exact aliased_append (wholeLines_of_endsLine (hends hrest)) rest

/-- If lines follow a line, then its clause does not keep it from ending. -/
theorem endsLine_aliased {line rest : List Token} (h : IsLine line)
    (hends : rest ≠ [] → endsLine line = true) :
    aliased rest ≠ [] → endsLine (aliased line) = true := by
  intro hne
  rw [(isLine_aliased h).2]
  refine hends ?_
  rintro rfl
  exact hne aliased_nil

/-- **Each line gets its clause.** -/
theorem lines_aliased (tokens : List Token) :
    lines (aliased tokens) = (lines tokens).map aliased := by
  induction tokens using line_induction with
  | nil =>
    rw [aliased_nil]
    rfl
  | line line rest hline hends ih =>
    rw [aliased_line_append hends,
      lines_append (isLine_aliased hline).1 (endsLine_aliased hline hends), ih,
      lines_append hline hends, List.map_cons]

/-- **No clause is missing any more.** -/
theorem unaliased_aliased (tokens : List Token) : unaliased (aliased tokens) = [] := by
  induction tokens using line_induction with
  | nil => rw [aliased_nil, unaliased_nil]
  | line line rest hline hends ih =>
    have hone : unaliased (aliased line) = [] := by
      rcases aliased_cases hline with ⟨head, name, more, rfl, hdeclares, -, heq⟩ | ⟨hnone, heq⟩
      · have hline' := (isLine_aliased hline).1
        rw [heq, List.append_assoc] at hline' ⊢
        exact unaliased_eq_nil hline' hdeclares rfl
      · rw [heq, hnone]
    rw [aliased_line_append hends]
    by_cases hrest : aliased rest = []
    · rw [hrest, List.append_nil, hone]
    · rw [unaliased_append (wholeLines_of_endsLine (endsLine_aliased hline hends hrest)), hone, ih]
      rfl

/-! ### Renamed lines -/

/-- A change of tokens **keeps declarations** of external procedures if it changes names only and
none of the keywords of these lines. -/
structure KeepsDeclarations (f : Token → Token) : Prop extends KeepsKinds f where
  acceptsAlike : privateExternal.AcceptsAlike f
  spells_lib : ∀ t, (f t).spells "lib" = t.spells "lib"
  spells_alias : ∀ t, (f t).spells "alias" = t.spells "alias"
  eq_self : ∀ t, t.isName = false → f t = t
  eq_self_of_alias : ∀ t, t.spells "alias" = true → f t = t

section KeepsDeclarations

variable {f : Token → Token}

/-- A clause is told by kinds and by its keyword. -/
theorem clause_map_iff (hf : KeepsKinds f) {keyword : String}
    (hspells : ∀ t, (f t).spells keyword = t.spells keyword) {ts : List Token} :
    Clause keyword (ts.map f) ↔ Clause keyword ts := by
  have hblanks : ∀ {gap : List Token}, (∀ t ∈ gap.map f, t.isBlank = true) ↔
      ∀ t ∈ gap, t.isBlank = true := by
    intro gap
    simp only [List.forall_mem_map, hf.isBlank_eq]
  constructor
  · intro h
    obtain ⟨gap, word, gap', literal, heq, hgap, hword, hgap', hliteral⟩ := h.exists_parts
    obtain ⟨gap, rest, rfl, rfl, hrest⟩ := List.map_eq_append_iff.mp heq
    obtain ⟨word, more, rfl, rfl, hmore⟩ := List.map_eq_cons_iff.mp hrest
    obtain ⟨gap', last, rfl, rfl, hlast⟩ := List.map_eq_append_iff.mp hmore
    obtain ⟨literal, rfl, rfl⟩ := List.map_eq_singleton_iff.mp hlast
    rw [hspells] at hword
    rw [hf.kind_eq] at hliteral
    exact ⟨gap, word, gap', literal, rfl, hblanks.mp hgap, hword, hblanks.mp hgap', hliteral⟩
  · intro h
    obtain ⟨gap, word, gap', literal, rfl, hgap, hword, hgap', hliteral⟩ := h.exists_parts
    refine ⟨gap.map f, f word, gap'.map f, f literal, by simp, hblanks.mpr hgap, ?_,
      hblanks.mpr hgap', ?_⟩
    · rw [hspells, hword]
    · rw [hf.kind_eq, hliteral]

variable (h : KeepsDeclarations f)
include h

/-- Where an alias clause follows, one follows after the change. -/
theorem KeepsDeclarations.opensAlias_map (ts : List Token) :
    opensAlias (ts.map f) = opensAlias ts := by
  rw [opensAlias, opensAlias, List.dropWhile_map, h.isBlank_comp, List.head?_map, Option.any_map]
  simp only [h.spells_alias]

/-- **A declaration stays a declaration.** -/
theorem KeepsDeclarations.declaresExternal_map {head : List Token} {name : Token}
    (hdeclares : DeclaresExternal head name) : DeclaresExternal (head.map f) (f name) := by
  obtain ⟨indent, opening, part, rfl, hindent, hcovers, hname, hpart⟩ := hdeclares.exists_parts
  obtain ⟨t, ht, hblank⟩ := hcovers.exists_first
  refine ⟨indent.map f, opening.map f, part.map f, by simp, ?_, ⟨⟨f t, ?_, ?_⟩, ?_⟩, ?_, ?_⟩
  · simpa only [List.forall_mem_map, h.isBlank_eq] using hindent
  · rw [List.head?_map, ht, Option.map_some]
  · rw [h.isBlank_eq, hblank]
  · rw [h.align_map h.acceptsAlike, hcovers.align_eq, List.length_map]
  · rw [List.getLast?_map, hname, Option.map_some]
  · exact (clause_map_iff h.toKeepsKinds h.spells_lib).mpr hpart

/-- No clause is missing after the change if none was before. -/
theorem KeepsDeclarations.unaliased_map {tokens : List Token} (hnone : unaliased tokens = []) :
    unaliased (tokens.map f) = [] := by
  refine List.eq_nil_iff_forall_not_mem.mpr fun e he => ?_
  obtain ⟨m, hm, hmissing⟩ := List.mem_filterMap.mp he
  rw [h.lineMatches_map h.acceptsAlike] at hm
  rw [← Prod.eta e, unaliased?_eq_some_iff, h.lineEnd_map, slice_map] at hmissing
  obtain ⟨name, part, rest, hname, -, hslice, hpart, halias, -⟩ := hmissing
  rw [List.getElem?_map, Option.map_eq_some_iff] at hname
  obtain ⟨name, hname, rfl⟩ := hname
  obtain ⟨part, rest, hparts, rfl, rfl⟩ := List.map_eq_append_iff.mp hslice
  rw [clause_map_iff h.toKeepsKinds h.spells_lib] at hpart
  rw [h.opensAlias_map] at halias
  have hsome : unaliased? tokens m = some (m.stop + part.length, name.text) :=
    unaliased?_eq_some_iff.mpr ⟨name, part, rest, hname, rfl, hparts, hpart, halias, rfl⟩
  have hmem : (m.stop + part.length, name.text) ∈ unaliased tokens :=
    List.mem_filterMap.mpr ⟨m, hm, hsome⟩
  rw [hnone] at hmem
  cases hmem

end KeepsDeclarations

section Table

variable {module : String} {tokens : List Token}
  (hfree : ∀ s ∈ privateNames tokens, Keyword.contains s = false)
include hfree

/-- Renaming makes no defining word and takes none away. -/
theorem spells_renameToken {word : String} (hword : word ∈ definingWords) (t : Token) :
    (renameToken (table module tokens).get? t).spells (foldCase word) =
      t.spells (foldCase word) := by
  rcases private_or_not tokens t with ⟨s, hs, hname, hsame⟩ | hnot
  · rw [renameToken_eq_of_private hname hs hsame, spells, spells,
      sameWord_definingWord_of_private hfree hs hsame hword,
      sameWord_definingWord_of_qualifiedName module s hword]
  · rw [renameToken_eq_self hnot]

/-- A defining word is not renamed. -/
theorem renameToken_eq_self_of_spells {word : String} (hword : word ∈ definingWords) {t : Token}
    (h : t.spells (foldCase word) = true) : renameToken (table module tokens).get? t = t := by
  rcases private_or_not tokens t with ⟨s, hs, -, hsame⟩ | hnot
  · rw [spells, sameWord_definingWord_of_private hfree hs hsame hword, Bool.and_false] at h
    cases h
  · exact renameToken_eq_self hnot

/-- **Renaming private names keeps external declarations.** -/
theorem keepsDeclarations_renameToken :
    KeepsDeclarations (renameToken (table module tokens).get?) := by
  have hlib : foldCase "Lib" = "lib" := by decide
  have halias : foldCase "Alias" = "alias" := by decide
  have hasks : ∀ e ∈ privateExternal.elements, e.asksForKeywords = true := by decide
  refine ⟨keepsKinds_renameToken _, acceptsAlike_renameToken hfree hasks, fun t => ?_, fun t => ?_,
    fun t ht => ?_, fun t ht => ?_⟩
  · rw [← hlib]
    exact spells_renameToken hfree (by decide) t
  · rw [← halias]
    exact spells_renameToken hfree (by decide) t
  · rw [renameToken, if_neg (by simp [ht])]
  · rw [← halias] at ht
    exact renameToken_eq_self_of_spells hfree (by decide) ht

end Table

/-! ### Qualified lines -/

/-- Renaming commutes with adding clauses, as there are no names in these. -/
theorem map_addAliases (replacement? : String → Option String) (missing : List (Nat × String))
    (tokens : List Token) :
    (addAliases missing tokens).map (renameToken replacement?) =
      addAliases missing (renameTokens replacement? tokens) := by
  induction missing with
  | nil => rfl
  | cons e missing ih =>
    -- a clause has no name in it
    have hclause : (aliasClause e.2).map (renameToken replacement?) = aliasClause e.2 := rfl
    rw [addAliases_cons, addAliases_cons, ← ih, List.map_append, List.map_append, List.map_take,
      List.map_drop, hclause]

/-- **Qualifying is putting in clauses and renaming.** -/
theorem qualify_eq_map (module : String) (tokens : List Token) :
    qualify module tokens = (aliased tokens).map (renameToken (table module tokens).get?) := by
  rw [aliased, map_addAliases, qualify]

/-- **Qualifying goes line by line.** -/
theorem lines_qualify (module : String) (tokens : List Token) :
    lines (qualify module tokens) = (lines tokens).map fun line =>
      (aliased line).map (renameToken (table module tokens).get?) := by
  rw [qualify_eq_map, lines_map (keepsKinds_renameToken _), lines_aliased, List.map_map]
  rfl

/-- How a line **keeps its entry point** when its names are replaced. A line that declares a private
external procedure still does, and of the same library. If there is no `Alias` clause behind the
library, one with the name as it was is put in there; if there is one, nothing is put in, and the
clause is unchanged. In any other line nothing is put in. -/
structure KeepsEntryPoint (rename : Token → Token) (line line' : List Token) : Prop where
  declares : ∀ {head rest : List Token} {name : Token}, line = head ++ rest →
    DeclaresExternal head name →
    DeclaresExternal (head.map rename) (rename name) ∧ (head.map rename).getLast? = head.getLast?
  missing : ∀ {head rest : List Token} {name : Token}, line = head ++ rest →
    DeclaresExternal head name → opensAlias rest = false →
    line' = head.map rename ++ aliasClause name.text ++ rest.map rename
  present : ∀ {head rest : List Token} {name : Token}, line = head ++ rest →
    DeclaresExternal head name → opensAlias rest = true →
    line' = head.map rename ++ rest.map rename
  clause : ∀ {head clause rest : List Token} {name : Token}, line = head ++ (clause ++ rest) →
    DeclaresExternal head name → Clause "alias" clause →
    line' = head.map rename ++ clause ++ rest.map rename
  other : (∀ head name rest, line = head ++ rest → ¬ DeclaresExternal head name) →
    line' = line.map rename

/-- An alias clause is one, whatever follows it. -/
theorem Clause.opensAlias {clause : List Token} (h : Clause "alias" clause) (rest : List Token) :
    opensAlias (clause ++ rest) = true := by
  obtain ⟨gap, word, gap', literal, rfl, hgap, hword, -, -⟩ := h.exists_parts
  rw [Qualify.opensAlias, List.append_assoc, List.dropWhile_append_of_pos hgap, List.cons_append,
    List.dropWhile_cons_of_neg (by simp [isBlank_eq_false_of_spells hword])]
  exact hword

/-- The clause that is added is an alias clause. -/
theorem clause_aliasClause (entryPoint : String) : Clause "alias" (aliasClause entryPoint) :=
  ⟨[⟨.blank, " "⟩], ⟨.reserved, "Alias"⟩, [⟨.blank, " "⟩],
    ⟨.string, "\"" ++ entryPoint ++ "\""⟩, rfl, by simp [isBlank], by decide, by simp [isBlank],
    rfl⟩

section Line

variable {f : Token → Token} (hf : KeepsDeclarations f)
include hf

theorem KeepsDeclarations.map_gap {gap : List Token} (h : ∀ t ∈ gap, t.isBlank = true) :
    gap.map f = gap := by
  refine (List.map_congr_left fun t ht => hf.eq_self t ?_).trans (List.map_id gap)
  have hblank := h t ht
  rw [isBlank, beq_iff_eq] at hblank
  rw [isName, hblank]
  rfl

/-- An alias clause is not changed. -/
theorem KeepsDeclarations.map_clause {clause : List Token} (h : Clause "alias" clause) :
    clause.map f = clause := by
  obtain ⟨gap, word, gap', literal, rfl, hgap, hword, hgap', hliteral⟩ := h.exists_parts
  have hname : literal.isName = false := by
    rw [isName, hliteral]
    rfl
  rw [List.map_append, List.map_cons, List.map_append, hf.map_gap hgap, hf.map_gap hgap',
    hf.eq_self_of_alias word hword, List.map_singleton, hf.eq_self literal hname]

/-- The library of an external procedure stays. -/
theorem KeepsDeclarations.getLast?_map {head : List Token} {name : Token}
    (h : DeclaresExternal head name) : (head.map f).getLast? = head.getLast? := by
  obtain ⟨indent, opening, part, rfl, -, -, -, hpart⟩ := h.exists_parts
  obtain ⟨gap, word, gap', literal, rfl, -, -, -, hliteral⟩ := hpart.exists_parts
  have hlast : (indent ++ (opening ++ (gap ++ word :: (gap' ++ [literal])))).getLast? =
      some literal := by
    simp [List.getLast?_cons]
  have hname : literal.isName = false := by
    rw [isName, hliteral]
    rfl
  rw [List.getLast?_map, hlast, Option.map_some, hf.eq_self literal hname]

/-- **A line keeps its entry point** under such a change, if its clause was added first. -/
theorem KeepsDeclarations.keepsEntryPoint {line : List Token} (h : IsLine line) :
    KeepsEntryPoint f line ((aliased line).map f) where
  declares _ hdeclares := ⟨hf.declaresExternal_map hdeclares, hf.getLast?_map hdeclares⟩
  missing := by
    rintro head rest name rfl hdeclares hnone
    rw [aliased_of_declaresExternal h hdeclares, hnone, if_neg (by simp), List.map_append,
      List.map_append, hf.map_clause (clause_aliasClause _)]
  present := by
    rintro head rest name rfl hdeclares hopens
    rw [aliased_of_declaresExternal h hdeclares, hopens, if_pos rfl, List.append_nil,
      List.map_append]
  clause := by
    rintro head clause rest name rfl hdeclares hclause
    rw [aliased_of_declaresExternal h hdeclares, hclause.opensAlias, if_pos rfl, List.append_nil,
      List.map_append, List.map_append, hf.map_clause hclause, List.append_assoc]
  other hnone := by rw [aliased_of_forall_not h hnone]

end Line

/-- **Qualifying keeps the entry points** of external procedures, line by line, and puts in no
clause when it is done again. -/
theorem qualify_keepsEntryPoints (module text : String) :
    List.Forall₂ (KeepsEntryPoint (renameToken (table module (lex text)).get?))
        (lines (lex text)) (lines (qualify module (lex text))) ∧
      ∀ module', qualify module' (qualify module (lex text)) =
        renameTokens (table module' (qualify module (lex text))).get?
          (qualify module (lex text)) := by
  have hkeeps : KeepsDeclarations (renameToken (table module (lex text)).get?) :=
    keepsDeclarations_renameToken fun s hs =>
      (isFreeWord_iff.mp (isFreeWord_of_mem_privateNames hs)).2
  constructor
  · rw [lines_qualify, List.forall₂_map_right_iff]
    exact List.forall₂_same.mpr fun line hline => hkeeps.keepsEntryPoint (isLine_of_mem_lines hline)
  · intro module'
    have hnone : unaliased (qualify module (lex text)) = [] := by
      rw [qualify_eq_map]
      exact hkeeps.unaliased_map (unaliased_aliased _)
    rw [qualify, hnone]
    rfl

end Qualify

end VbaModules

import VbaModules.Proofs.AliasClauses
import VbaModules.Proofs.AttachedRuns
import VbaModules.Proofs.Conservation
import VbaModules.Proofs.MergedHeader
import VbaModules.Proofs.NameIsolation

/-!
# The blocks of a merged module are read apart

The text of a merged module is put together from a header, marks and blocks. Each of these pieces is
lexed as if it stood alone (`lex_merge_eq_flatMap`), however a block ends: a literal, a remark or a
directive that is left open ends with the line, and a line continuation takes only the first of the
two line feeds after the block.

A byte order mark is a blank at the very start of a text only, so no piece may begin with one. It is
enough that the texts of the sources hold none, since everything in a block is taken from them, from
the names of the modules or from the few characters that qualifying adds.
-/

namespace VbaModules

open Lexer Text

/-! ### Characters of tokens -/

theorem Lexer.mem_charsOf {tokens : List Token} {t : Token} (ht : t ∈ tokens) {c : Char}
    (hc : c ∈ t.text.toList) : c ∈ charsOf tokens :=
  List.mem_flatMap.mpr ⟨t, ht, hc⟩

theorem Lexer.charsOf_lex (text : String) : charsOf (lex text) = text.toList := by
  rw [charsOf, ← Token.toList_textOf, textOf_lex]

namespace Qualify

/-- The characters that qualifying adds on its own account. -/
def addedChars : List Char :=
  ['_', ' ', 'A', 'l', 'i', 'a', 's', '"']

theorem mem_charsOf_aliasClause {entryPoint : String} {c : Char}
    (h : c ∈ charsOf (aliasClause entryPoint)) : c ∈ entryPoint.toList ∨ c ∈ addedChars := by
  have hword : "Alias".toList = ['A', 'l', 'i', 'a', 's'] := by decide
  simp only [aliasClause, charsOf_cons, charsOf_nil, List.mem_append, hword,
    String.toList_append] at h
  simp only [addedChars]
  grind

theorem mem_charsOf_renameTokens {module : String} {tokens : List Token} {c : Char}
    (h : c ∈ charsOf (renameTokens (table module tokens).get? tokens)) :
    c ∈ charsOf tokens ∨ c ∈ module.toList ∨ c ∈ addedChars := by
  obtain ⟨u, hu, hc⟩ := List.mem_flatMap.mp h
  obtain ⟨t, ht, rfl⟩ := List.mem_map.mp hu
  rw [renameToken] at hc
  split at hc
  next =>
    cases hget : (table module tokens).get? t.text with
    | none =>
      rw [hget] at hc
      exact .inl (mem_charsOf ht hc)
    | some replacement =>
      rw [hget] at hc
      obtain ⟨s, hs, -, rfl⟩ := get?_table_eq_some_iff.mp hget
      obtain ⟨i, -, name, hname, -, rfl⟩ := exists_position_of_mem_privateNames hs
      -- the new name is made of the name of the module, an underscore and a name of the tokens
      have hchars : c ∈ module.toList ++ ['_'] ++ name.text.toList := by
        simpa [qualifiedName] using hc
      rw [List.mem_append, List.mem_append] at hchars
      rcases hchars with (hmodule | hmark) | hsymbol
      · exact .inr (.inl hmodule)
      · exact .inr (.inr (List.mem_cons.mpr (.inl (List.mem_singleton.mp hmark))))
      · exact .inl (mem_charsOf (List.mem_of_getElem? hname) hsymbol)
  next => exact .inl (mem_charsOf ht hc)

/-- **Qualifying adds few characters**: those of the name of the module, and some of its own. -/
theorem mem_charsOf_qualify {module : String} {tokens : List Token} {c : Char}
    (h : c ∈ charsOf (qualify module tokens)) :
    c ∈ charsOf tokens ∨ c ∈ module.toList ∨ c ∈ addedChars := by
  obtain ⟨t, ht, hc⟩ := List.mem_flatMap.mp h
  rcases mem_addAliases ht with hrenamed | ⟨e, he, hclause⟩
  · exact mem_charsOf_renameTokens (mem_charsOf hrenamed hc)
  · obtain ⟨m, -, hlacks⟩ := exists_lacksClause_of_mem_unaliased he
    obtain ⟨name, hname, htext⟩ := hlacks.exists_mem
    rcases mem_charsOf_aliasClause (mem_charsOf hclause hc) with hentry | hadded
    · exact .inl (mem_charsOf hname (htext ▸ hentry))
    · exact .inr (.inr hadded)

end Qualify

theorem Section.mem_charsOf_of_mem_block {s : Section} {c : Char} (h : c ∈ s.block.toList) :
    c ∈ charsOf s.tokens := by
  rw [block, trim, trimEnd, trimStart, withoutReturns, String.toList_ofList, String.toList_ofList,
    String.toList_ofList, List.mem_reverse] at h
  have htext := List.mem_reverse.mp ((List.dropWhile_sublist _).mem h)
  have hkept := List.mem_of_mem_filter ((List.dropWhile_sublist _).mem htext)
  rwa [text, Token.toList_textOf] at hkept

/-! ### Where the sections of a merged module come from -/

theorem mem_of_mem_attachUnknown {carry : List Token} {sections : List Section} {s : Section}
    (h : s ∈ attachUnknown carry sections) {t : Token} (ht : t ∈ s.tokens) :
    t ∈ carry ∨ t ∈ sections.flatMap Section.tokens := by
  have hmem : t ∈ (attachUnknown carry sections).flatMap Section.tokens :=
    List.mem_flatMap.mpr ⟨s, h, ht⟩
  cases sections with
  | nil => cases h
  | cons u rest => rwa [flatMap_tokens_attachUnknown, List.mem_append] at hmem

namespace Assembly

section Assembled

variable {bundle : Bundle} {name? : Option String} {result : Assembly} {first : Prepared}
  {rest : List Prepared}

theorem Assembled.exists_mem_placed (h : Assembled bundle name? result first rest) {b : Bucket}
    {s : Section} (hs : (b, s) ∈ result.sections) :
    ∃ p ∈ first :: rest, ∃ isFirst, s ∈ p.placed isFirst b := by
  rw [sections, h.result_eq, List.mem_flatMap] at hs
  obtain ⟨⟨bucket, held⟩, hbucket, hmem⟩ := hs
  obtain ⟨bucket, -, heq⟩ := List.mem_map.mp hbucket
  obtain ⟨rfl, rfl⟩ := Prod.mk.inj heq
  obtain ⟨s, hs, heq⟩ := List.mem_map.mp hmem
  obtain ⟨rfl, rfl⟩ := Prod.mk.inj heq
  rw [bucketSections_eq_placed, List.mem_append, List.mem_flatMap] at hs
  rcases hs with hfirst | ⟨p, hp, hrest⟩
  · exact ⟨first, List.mem_cons_self, true, hfirst⟩
  · exact ⟨p, List.mem_cons_of_mem _ hp, false, hrest⟩

/-- **Every section has a source**: it is marked with the origin of the source, is shown under the
name of the source, and holds qualified tokens of the source. -/
theorem Assembled.exists_source (h : Assembled bundle name? result first rest) {b : Bucket}
    {s : Section} (hs : (b, s) ∈ result.sections) :
    ∃ origin tokens name, (origin, tokens) ∈ bundle.entries ∧
      VbaModules.declaredName? tokens = some name ∧ s.origin = some origin ∧
      result.sourceName origin = name ∧ ∀ t ∈ s.tokens, t ∈ Qualify.qualify name tokens := by
  obtain ⟨p, hp, isFirst, hplaced⟩ := h.exists_mem_placed hs
  obtain ⟨⟨origin, tokens⟩, hentry, hprepare⟩ := h.exists_prepare_eq_ok hp
  have horigin := Prepared.origin_of_mem_placed hprepare hplaced
  obtain ⟨name, hname, rfl⟩ := prepare_eq_ok_iff.mp hprepare
  have hlisted : (origin, name) ∈ result.moduleNames.entries := by
    rw [h.entries_moduleNames]
    exact List.mem_map.mpr ⟨_, hp, rfl⟩
  refine ⟨origin, tokens, name, hentry, hname, horigin, ?_, fun t ht => ?_⟩
  · rw [sourceName, Dictionary.get?_eq_some_iff.mpr hlisted, Option.getD_some]
  · have hmem := mem_of_mem_attachUnknown (List.mem_of_mem_filter hplaced) ht
    rw [Prepared.flatMap_tokens_named] at hmem
    exact hmem.resolve_left List.not_mem_nil

end Assembled

/-- A piece after the header is the mark or the block of some section. -/
theorem exists_section_of_mem_layoutFrom {m : Assembly} {current : Option String}
    {sections : List (Bucket × Section)} {piece : Piece}
    (h : piece ∈ m.layoutFrom current sections) :
    ∃ b s, (b, s) ∈ sections ∧
      (piece = .mark (m.sourceName (s.origin.getD "")) ∨ piece = .block s.block) := by
  fun_induction layoutFrom m current sections with
  | case1 => cases h
  | case2 current b s rest hempty ih =>
    obtain ⟨b', s', hs', hpiece⟩ := ih h
    exact ⟨b', s', List.mem_cons_of_mem _ hs', hpiece⟩
  | case3 current b s rest hempty hmark ih =>
    rcases List.mem_cons.mp h with rfl | hblock
    · exact ⟨b, s, List.mem_cons_self, .inl rfl⟩
    · rcases List.mem_cons.mp hblock with rfl | hrest
      · exact ⟨b, s, List.mem_cons_self, .inr rfl⟩
      · obtain ⟨b', s', hs', hpiece⟩ := ih hrest
        exact ⟨b', s', List.mem_cons_of_mem _ hs', hpiece⟩
  | case4 current b s rest hempty hmark ih =>
    rcases List.mem_cons.mp h with rfl | hrest
    · exact ⟨b, s, List.mem_cons_self, .inr rfl⟩
    · obtain ⟨b', s', hs', hpiece⟩ := ih hrest
      exact ⟨b', s', List.mem_cons_of_mem _ hs', hpiece⟩

end Assembly

/-! ### Pieces end their lines -/

namespace Piece

/-- Two line feeds end a line, whatever stands before them. -/
theorem endsItsLine_block (text : String) : EndsItsLine (block text).render :=
  .append _ '\n' (by decide) rfl

theorem mem_of_head?_block {text : String} {c : Char}
    (h : (block text).render.toList.head? = some c) : c ∈ text.toList ∨ c = '\n' := by
  have hfeeds : ∀ d ∈ "\n\n".toList, d = '\n' := by simp
  have hchars : (block text).render.toList = text.toList ++ "\n\n".toList :=
    String.toList_append
  have hmem := List.mem_of_head? h
  rw [hchars, List.mem_append] at hmem
  exact hmem.imp_right (hfeeds c)

/-- A mark is a remark and a line break. -/
theorem toList_mark (module : String) :
    (mark module).render.toList =
      charsOf [⟨.comment, "'*************** " ++ module⟩, ⟨.lineBreak, "\n"⟩] := by
  simp only [charsOf_cons, charsOf_nil, List.append_nil]
  exact String.toList_append

theorem head?_mark (module : String) : (mark module).render.toList.head? = some '\'' := by
  have hchars : ("'*************** " ++ module).toList =
      "'*************** ".toList ++ module.toList := String.toList_append
  rw [toList_mark, charsOf_cons, hchars]
  rfl

theorem cuts_mark {module : String} (h : ∀ c ∈ module.toList, isBreakChar c = false) :
    Cuts .start [⟨.comment, "'*************** " ++ module⟩, ⟨.lineBreak, "\n"⟩] := by
  have hstars : ∀ c ∈ "*************** ".toList, isBreakChar c = false := by simp [isBreakChar]
  have hremark : ("'*************** " ++ module).toList =
      '\'' :: ("*************** ".toList ++ module.toList) := String.toList_append
  refine .cons ?_ (.cons (.lineBreak (by simp [IsBreak]) (by simp [Unsplit])) (.nil _))
  rw [hremark]
  refine .comment (fun c hc => ?_) (notNext_cons.mpr rfl)
  exact (List.mem_append.mp hc).elim (hstars c) (h c)

theorem endsItsLine_mark {module : String} (h : ∀ c ∈ module.toList, isBreakChar c = false) :
    EndsItsLine (mark module).render where
  getLast?_eq := by
    rw [toList_mark, charsOf_cons, charsOf_cons, charsOf_nil, List.append_nil,
      List.getLast?_append]
    rfl
  endsLine_scan := by
    rw [toList_mark, (cuts_mark h).scan_eq]
    rfl

end Piece

/-! ### The text of a merged module -/

/-- A character that qualifying does not add, and that the text of a module does not hold, is not in
the qualified module. -/
theorem not_mem_charsOf_qualify {text name : String} {c : Char} (hadded : c ∉ Qualify.addedChars)
    (hplain : c ∉ text.toList) (hname : declaredName? (lex text) = some name) :
    c ∉ charsOf (Qualify.qualify name (lex text)) := by
  intro hmem
  rcases Qualify.mem_charsOf_qualify hmem with htext | hmodule | hmember
  · rw [charsOf_lex] at htext
    exact hplain htext
  · obtain ⟨t, ht, -, rfl⟩ := exists_mem_of_declaredName? hname
    have htext := mem_charsOf ht hmodule
    rw [charsOf_lex] at htext
    exact hplain htext
  · exact hadded hmember

/-- Every piece of a module merged from texts ends its line, and none begins with a byte order mark
if the texts hold none. -/
theorem endsItsLine_of_mem_layout {texts : List (String × String)} {name? : Option String}
    {m : Assembly} (hm : Assembly.ofBundle (Bundle.ofTexts texts) name? = .ok m) {piece : Piece}
    (hpiece : piece ∈ m.layout) :
    EndsItsLine piece.render ∧ ((∀ source ∈ texts, '\uFEFF' ∉ source.2.toList) →
      piece.render.toList.head? ≠ some '\uFEFF') := by
  rcases List.mem_cons.mp hpiece with rfl | hlater
  · refine ⟨endsItsLine_namingText m.name, fun _ => ?_⟩
    change (namingText m.name).toList.head? ≠ _
    rw [head?_namingText]
    decide
  obtain ⟨first, rest, hassembled⟩ := Assembly.ofBundle_eq_ok_iff.mp hm
  obtain ⟨b, s, hs, hshape⟩ := Assembly.exists_section_of_mem_layoutFrom hlater
  obtain ⟨origin, tokens, name, hentry, hname, horigin, hsource, htokens⟩ :=
    hassembled.exists_source hs
  obtain ⟨text, htext, rfl⟩ := Bundle.exists_text_of_mem_ofTexts hentry
  rcases hshape with rfl | rfl
  · rw [horigin, Option.getD_some, hsource]
    refine ⟨Piece.endsItsLine_mark (fitsLiteral_of_declaredName? hname).isBreakChar_eq_false,
      fun _ => ?_⟩
    rw [Piece.head?_mark]
    decide
  · refine ⟨Piece.endsItsLine_block s.block, fun hplain hhead => ?_⟩
    rcases Piece.mem_of_head?_block hhead with hblock | hfeed
    · obtain ⟨t, ht, hmark⟩ := List.mem_flatMap.mp (Section.mem_charsOf_of_mem_block hblock)
      exact not_mem_charsOf_qualify (by decide) (hplain _ htext) hname
        (mem_charsOf (htokens t ht) hmark)
    · exact absurd hfeed (by decide)

/-- **The pieces of a merged module are read apart**: if texts without byte order marks are merged,
the tokens of the merged text are those of the header, of the marks and of the blocks, each piece
lexed by itself. -/
theorem lex_merge_eq_flatMap {texts : List (String × String)} {name? : Option String}
    {out : String} (hplain : ∀ source ∈ texts, '\uFEFF' ∉ source.2.toList)
    (hmerge : merge (Bundle.ofTexts texts) name? = .ok out) :
    ∃ m, Assembly.ofBundle (Bundle.ofTexts texts) name? = .ok m ∧
      out = String.join (m.layout.map Piece.render) ∧
      lex out = m.layout.flatMap fun piece => lex piece.render := by
  obtain ⟨m, hm, rfl⟩ := merge_eq_ok_iff.mp hmerge
  have hpieces : ∀ text ∈ m.layout.map Piece.render,
      EndsItsLine text ∧ text.toList.head? ≠ some '\uFEFF' := by
    intro text htext
    obtain ⟨piece, hpiece, rfl⟩ := List.mem_map.mp htext
    obtain ⟨hends, hmark⟩ := endsItsLine_of_mem_layout hm hpiece
    exact ⟨hends, hmark hplain⟩
  refine ⟨m, hm, rfl, ?_⟩
  rw [Assembly.render, lex_join hpieces, List.flatMap_map]

/-! ### Blocks that are left open -/

/-- A module of two variables: the first declaration ends in a line continuation, and in the second
a literal is left open. -/
def openText : String :=
  namingText "Grid" ++ "Private Wide As Long _\n\nPrivate Title = \"Grid\n"

/-- Neither the continuation nor the literal reaches into what is written next. -/
theorem lex_merge_openText :
    (∀ source ∈ [("grid.bas", openText)], '\uFEFF' ∉ source.2.toList) ∧
      ∃ out m, merge (Bundle.ofTexts [("grid.bas", openText)]) none = .ok out ∧
        Assembly.ofBundle (Bundle.ofTexts [("grid.bas", openText)]) none = .ok m ∧
        lex out = m.layout.flatMap fun piece => lex piece.render := by
  have hname : declaredName? (lex openText) = some "Grid" := by
    rw [openText, lex_namingText_append (by decide) (by decide)]
    exact declaredName?_namingLine_append _ _
  have hplain : ∀ source ∈ [("grid.bas", openText)], '\uFEFF' ∉ source.2.toList := by
    intro source hsource
    obtain rfl := List.mem_singleton.mp hsource
    have happend : ∀ {a b : String}, '\uFEFF' ∉ a.toList → '\uFEFF' ∉ b.toList →
        '\uFEFF' ∉ (a ++ b).toList := by
      intro a b ha hb
      rw [String.toList_append, List.mem_append, not_or]
      exact ⟨ha, hb⟩
    exact happend (happend (happend (by decide) (by decide)) (by decide)) (by decide)
  obtain ⟨-, out, hout⟩ := exists_merge_singleton "grid.bas" hname none
  obtain ⟨m, hm, -, hlex⟩ := lex_merge_eq_flatMap hplain hout
  exact ⟨hplain, out, m, hout, hm, hlex⟩

end VbaModules

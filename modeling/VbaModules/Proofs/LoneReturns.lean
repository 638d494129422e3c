import VbaModules.Proofs.IsolatedBlocks
import VbaModules.Proofs.TrimmedBlocks

/-!
# Lone carriage returns join the lines of a block

A carriage return without a line feed ends a line for the lexer. So a module whose line feeds are
all turned into carriage returns has the same tokens up to the texts of blanks and line breaks
(`Lexer.lex_withLoneReturns`), and it is taken apart and put together in the same way. But a block
is written without any carriage returns, and nothing is put in their place: the header and the marks
of the merged module are the same, and the lines of each block are joined
(`merge_ofTexts_withLoneReturns`). Nothing changes exactly if every block is a single line.

Line feeds are found in blanks and line breaks only (`Token.OneLine`), also after qualifying, so
leaving out those of the tokens is leaving out those of the text. Since a line feed is white, it
does not matter whether this is done before or after trimming (`Text.trim_withoutFeeds`), and no
block becomes empty.
-/

namespace VbaModules

open Text Lexer

/-! ### Line feeds turned into carriage returns -/

/-- The character, or a carriage return for a line feed. -/
def Text.turnFeed (c : Char) : Char :=
  if c = '\n' then '\r' else c

/-- The text with every line feed turned into a carriage return. -/
def Text.withLoneReturns (s : String) : String :=
  String.ofList (s.toList.map turnFeed)

/-- The text with every line feed removed. -/
def Text.withoutFeeds (s : String) : String :=
  String.ofList (s.toList.filter (· != '\n'))

theorem Text.toList_withLoneReturns (s : String) :
    (withLoneReturns s).toList = s.toList.map turnFeed := by
  rw [withLoneReturns, String.toList_ofList]

theorem Text.toList_withoutFeeds (s : String) :
    (withoutFeeds s).toList = s.toList.filter (· != '\n') := by
  rw [withoutFeeds, String.toList_ofList]

theorem Text.turnFeed_of_ne {c : Char} (h : c ≠ '\n') : turnFeed c = c :=
  if_neg h

/-- No line feed is left. -/
theorem Text.turnFeed_ne_feed (c : Char) : turnFeed c ≠ '\n' := by
  rw [turnFeed]
  split
  · decide
  · assumption

namespace Lexer

variable {state : LineState} {kind : Token.Kind} {text rest cs : List Char}

/-- A turned line feed still breaks lines, and nothing else begins to. -/
theorem isBreakChar_turnFeed (c : Char) : isBreakChar (turnFeed c) = isBreakChar c := by
  rw [turnFeed]
  split
  next hfeed => rw [hfeed]; rfl
  next => rfl

/-- Text within a line is not changed. -/
theorem map_turnFeed_of_plain (h : ∀ c ∈ cs, isBreakChar c = false) : cs.map turnFeed = cs := by
  have hsame : ∀ c ∈ cs, turnFeed c = id c := fun c hc =>
    turnFeed_of_ne fun hfeed => by simpa [hfeed, isBreakChar] using h c hc
  rw [List.map_congr_left hsame, List.map_id]

/-- No line break is divided where no line feed follows. -/
theorem unsplit_map_turnFeed (text rest : List Char) : Unsplit text (rest.map turnFeed) := by
  intro _ c hc
  rw [List.head?_map] at hc
  obtain ⟨d, -, rfl⟩ := Option.map_eq_some_iff.mp hc
  simpa using turnFeed_ne_feed d

/-- The first line is the same. -/
theorem exists_sameLine_turnFeed (rest : List Char) :
    ∃ line tail, rest = line ++ tail ∧ rest.map turnFeed = line ++ tail.map turnFeed ∧
      SameLine line tail (tail.map turnFeed) := by
  obtain ⟨line, tail, rfl, -, hline, hends⟩ := exists_run (!isBreakChar ·) rest
  have hplain : ∀ c ∈ line, isBreakChar c = false := by simpa using hline
  refine ⟨line, tail, rfl, by rw [List.map_append, map_turnFeed_of_plain hplain], hplain, hends,
    ?_, by simp⟩
  cases tail with
  | nil => exact hends
  | cons c tail =>
    rw [notNext_cons, ← isBreakChar_turnFeed] at hends
    exact notNext_cons.mpr hends

/-- A line break without a carriage return is turned into a line break. -/
theorem IsBreak.map_turnFeed (h : IsBreak text) (hplain : '\r' ∉ text) :
    IsBreak (text.map turnFeed) := by
  rcases h with rfl | rfl | rfl
  · exact .inr (.inr rfl)
  · simp at hplain
  · simp at hplain

/-- White space stays white space, with the line continuations in it. -/
theorem Spacing.map_turnFeed (h : Spacing cs) (hplain : '\r' ∉ cs) : Spacing (cs.map turnFeed) := by
  induction h with
  | nil => exact .nil
  | @blank c cs hc _ ih =>
    rw [List.map_cons, turnFeed_of_ne (ne_of_class hc (by decide))]
    exact .blank hc (ih fun hmem => hplain (List.mem_cons_of_mem _ hmem))
  | @continuation gap lineBreak cs hgap hbreak _ ih =>
    simp only [List.mem_cons, List.mem_append, not_or] at hplain
    have hblanks : ∀ c ∈ gap, isBreakChar c = false :=
      fun c hc => isBreakChar_eq_false_of_isBlankChar (hgap c hc)
    rw [List.map_cons, List.map_append, List.map_append, map_turnFeed_of_plain hblanks,
      turnFeed_of_ne (by decide)]
    exact .continuation hgap (hbreak.map_turnFeed hplain.2.2.1) (ih hplain.2.2.2)

/-- **A lexeme stays a lexeme with lone carriage returns** in it and after it. -/
theorem Lexeme.map_turnFeed (h : Lexeme state kind text rest) (hplain : '\r' ∉ text) :
    Lexeme state kind (text.map turnFeed) (rest.map turnFeed) := by
  have hafter : Lexeme state kind text (rest.map turnFeed) := by
    obtain ⟨line, tail, rfl, hturned, hline⟩ := exists_sameLine_turnFeed rest
    rw [hturned]
    refine h.of_sameLine hline fun _ => ?_
    rw [← hturned]
    exact unsplit_map_turnFeed text _
  by_cases hbreak : kind = .lineBreak
  · subst hbreak
    obtain ⟨htext, -⟩ := lexeme_lineBreak_iff.mp h
    exact .lineBreak (htext.map_turnFeed hplain) (unsplit_map_turnFeed _ _)
  by_cases hblank : kind = .blank
  · subst hblank
    obtain ⟨c, cs, rfl, hc, hcs, -, -⟩ := h.exists_spacing_of_blank
    obtain ⟨-, -, -, -, -, hends, -⟩ := hafter.exists_spacing_of_blank
    rw [List.map_cons, turnFeed_of_ne (ne_of_class hc (by decide))]
    exact .blank hc (hcs.map_turnFeed fun hmem => hplain (List.mem_cons_of_mem _ hmem)) hends
      (unsplit_map_turnFeed _ _)
  rwa [map_turnFeed_of_plain (h.isBreakChar_eq_false hblank hbreak)]

end Lexer

/-! ### Tokens with lone carriage returns -/

/-- The token with the line feeds of the line breaks in it turned into carriage returns. A token
that is neither blank nor a line break stays as it is. -/
def Token.turnFeeds (t : Token) : Token :=
  if t.isBlank || t.isLineBreak then { t with text := withLoneReturns t.text } else t

/-- Turning line feeds changes only blanks and line breaks. -/
theorem keepsCode_turnFeeds : KeepsCode Token.turnFeeds where
  kind_eq t := by
    rw [Token.turnFeeds]
    split <;> rfl
  eq_self t hblank hbreak := by
    rw [Token.turnFeeds, hblank, hbreak]
    rfl
  eq_blank := rfl

/-- No parenthesis or comma comes or goes. -/
theorem Token.Unmarked.keepsMarks_turnFeeds {t : Token} (h : t.Unmarked) :
    KeepsMarks Token.turnFeeds t := by
  refine keepsCode_turnFeeds.keepsMarks h fun hspace => ?_
  rw [keepsCode_turnFeeds.isBlank_eq, keepsCode_turnFeeds.isLineBreak_eq] at hspace
  rw [Token.turnFeeds, if_pos hspace, toList_withLoneReturns]
  intro c hc
  obtain ⟨d, hd, rfl⟩ := List.mem_map.mp hc
  rw [turnFeed]
  split
  · decide
  · exact h hspace d hd

namespace Lexer

/-- The lexer reads a text with turned line feeds as it reads the text, with the line feeds of its
tokens turned. -/
theorem respaces_turnFeeds :
    Respaces Token.turnFeeds (List.map turnFeed) fun cs => '\r' ∉ cs where
  toKeepsCode := keepsCode_turnFeeds
  append_eq text rest := List.map_append
  eq_self_of_plain _ := map_turnFeed_of_plain
  toList_text t hspace := by rw [Token.turnFeeds, if_pos hspace, toList_withLoneReturns]
  of_append text rest h hmem := h (List.mem_append_right _ hmem)
  lexeme _ _ text rest h hplain :=
    h.map_turnFeed fun hmem => hplain (List.mem_append_left _ hmem)
  head?_eq_mark_iff cs _ := by
    cases cs with
    | nil => rfl
    | cons c cs =>
      simp only [List.map_cons, List.head?_cons, Option.some.injEq]
      by_cases hc : c = '\n'
      · subst hc
        decide
      · rw [turnFeed_of_ne hc]

/-- **The tokens of a text with lone carriage returns** are those of the text with the line feeds
turned into carriage returns. -/
theorem lex_withLoneReturns {text : String} (h : '\r' ∉ text.toList) :
    lex (withLoneReturns text) = (lex text).map Token.turnFeeds :=
  respaces_turnFeeds.lex_eq h (toList_withLoneReturns text)

end Lexer

/-- A bundle of texts with lone carriage returns. -/
theorem Bundle.ofTexts_withLoneReturns {texts : List (String × String)}
    (h : ∀ source ∈ texts, '\r' ∉ source.2.toList) :
    Bundle.ofTexts (texts.map fun source => (source.1, withLoneReturns source.2)) =
      (Bundle.ofTexts texts).mapValues fun _ tokens => tokens.map Token.turnFeeds := by
  rw [Bundle.ofTexts, Bundle.ofTexts, ← Dictionary.ofList_map, List.map_map, List.map_map]
  congr 1
  refine List.map_congr_left fun source hsource => ?_
  simp only [Function.comp_apply, lex_withLoneReturns (h source hsource)]

/-! ### Tokens of one line -/

/-- The token is **of one line** unless it is blank or a line break: its text has no character of a
line break. -/
def Token.OneLine (t : Token) : Prop :=
  t.isBlank = false → t.isLineBreak = false → ∀ c ∈ t.text.toList, isBreakChar c = false

/-- A token that is read is in one line, unless it is white space. -/
theorem Lexer.oneLine_of_mem_lex {text : String} {t : Token} (ht : t ∈ lex text) : t.OneLine := by
  have hmem := ht
  rw [lex_eq_splitNames] at hmem
  rcases mem_splitNames hmem with hmem | rfl | ⟨u, -, name, -, rfl⟩
  · intro hblank hbreak
    rcases exists_lexeme_of_mem_scanModule hmem with rfl | ⟨state, rest, hlexeme⟩
    · cases hblank
    · exact hlexeme.isBreakChar_eq_false (beq_eq_false_iff_ne.mp hblank)
        (beq_eq_false_iff_ne.mp hbreak)
  · intro _ _
    simp [quoteToken, isBreakChar]
  · exact fun _ _ => (fitsLiteral_of_mem_lex ht rfl).isBreakChar_eq_false

namespace Qualify

/-- The entry point that a clause is to name is the text of a token of code. -/
theorem exists_code_of_mem_unaliased {tokens : List Token} {e : Nat × String}
    (h : e ∈ unaliased tokens) :
    ∃ t ∈ tokens, t.isBlank = false ∧ t.isLineBreak = false ∧ t.text = e.2 := by
  obtain ⟨m, hm, he⟩ := List.mem_filterMap.mp h
  obtain ⟨t, ht, hblank, hbreak⟩ := Pattern.exists_last_of_mem_matchesFrom (by decide) hm
  obtain ⟨name, hname, he⟩ := Option.bind_eq_some_iff.mp he
  obtain ⟨lib, -, he⟩ := Option.bind_eq_some_iff.mp he
  obtain ⟨_, -, he⟩ := Option.bind_eq_some_iff.mp he
  obtain ⟨library, -, he⟩ := Option.bind_eq_some_iff.mp he
  obtain ⟨_, -, he⟩ := Option.bind_eq_some_iff.mp he
  obtain ⟨_, -, heq⟩ := Option.bind_eq_some_iff.mp he
  obtain rfl : t = name := Option.some.inj (ht.symm.trans hname)
  exact ⟨t, List.mem_of_getElem? ht, hblank, hbreak, congrArg Prod.snd (Option.some.inj heq)⟩

/-- A qualified name is in one line, if its parts are. -/
theorem isBreakChar_eq_false_of_mem_qualifiedName {module s : String}
    (hmodule : ∀ c ∈ module.toList, isBreakChar c = false)
    (hs : ∀ c ∈ s.toList, isBreakChar c = false) :
    ∀ c ∈ (qualifiedName module s).toList, isBreakChar c = false := by
  intro c hc
  have hchars : c ∈ module.toList ++ ['_'] ++ s.toList := by simpa [qualifiedName] using hc
  simp only [List.mem_append, List.mem_singleton] at hchars
  rcases hchars with (hmem | rfl) | hmem
  · exact hmodule c hmem
  · decide
  · exact hs c hmem

/-- The tokens of an alias clause are in one line. -/
theorem oneLine_of_mem_aliasClause {entryPoint : String} {t : Token}
    (hplain : ∀ c ∈ entryPoint.toList, isBreakChar c = false) (h : t ∈ aliasClause entryPoint) :
    t.OneLine := by
  simp only [aliasClause, List.mem_cons, List.not_mem_nil, or_false] at h
  rcases h with rfl | rfl | rfl | rfl
  · exact fun hblank => by cases hblank
  · intro _ _
    simp [isBreakChar]
  · exact fun hblank => by cases hblank
  · intro _ _ c hc
    have hchars : c ∈ ['"'] ++ entryPoint.toList ++ ['"'] := by simpa using hc
    simp only [List.mem_append, List.mem_singleton] at hchars
    rcases hchars with (rfl | hmem) | rfl
    · decide
    · exact hplain c hmem
    · decide

/-- **Qualifying leaves the tokens in their lines.** -/
theorem oneLine_of_mem_qualify {text name : String} (hname : declaredName? (lex text) = some name)
    {t : Token} (ht : t ∈ qualify name (lex text)) : t.OneLine := by
  rcases mem_addAliases ht with hrenamed | ⟨e, he, hclause⟩
  · obtain ⟨u, hu, rfl⟩ := List.mem_map.mp hrenamed
    rw [renameToken]
    split
    next =>
      cases hget : (table name (lex text)).get? u.text with
      | none => exact oneLine_of_mem_lex hu
      | some replacement =>
        obtain ⟨s, hs, -, rfl⟩ := get?_table_eq_some_iff.mp hget
        obtain ⟨module, hmodule, hkind, rfl⟩ := exists_mem_of_declaredName? hname
        exact fun _ _ => isBreakChar_eq_false_of_mem_qualifiedName
          (fitsLiteral_of_mem_lex hmodule hkind).isBreakChar_eq_false
          (FitsLiteral.of_isFreeWord (isFreeWord_of_mem_privateNames hs)).isBreakChar_eq_false
    next => exact oneLine_of_mem_lex hu
  · obtain ⟨u, hu, hblank, hbreak, hentry⟩ := exists_code_of_mem_unaliased he
    have hplain := oneLine_of_mem_lex hu hblank hbreak
    rw [hentry] at hplain
    exact oneLine_of_mem_aliasClause hplain hclause

end Qualify

/-! ### Blocks without line feeds -/

/-- Leaving out characters that would be dropped anyhow can be done before or after. -/
theorem dropWhile_filter_not {α : Type} {p q : α → Bool} (h : ∀ a, q a = false → p a = true)
    (as : List α) : (as.filter q).dropWhile p = (as.dropWhile p).filter q := by
  induction as with
  | nil => rfl
  | cons a as ih =>
    cases hq : q a with
    | false => rw [List.filter_cons_of_neg (by simp [hq]), ih, List.dropWhile_cons_of_pos (h a hq)]
    | true =>
      rw [List.filter_cons_of_pos hq]
      cases hp : p a with
      | true => rw [List.dropWhile_cons_of_pos hp, List.dropWhile_cons_of_pos hp, ih]
      | false =>
        rw [List.dropWhile_cons_of_neg (by simp [hp]), List.dropWhile_cons_of_neg (by simp [hp]),
          List.filter_cons_of_pos hq]

/-- It does not matter to a trimmed text when its line feeds are taken out, since they are white
space. -/
theorem Text.trim_withoutFeeds (s : String) : trim (withoutFeeds s) = withoutFeeds (trim s) := by
  have hwhite : ∀ c : Char, (c != '\n') = false → isWhite c = true := by
    intro c hc
    rw [bne_eq_false_iff_eq.mp hc]
    decide
  rw [← String.toList_inj, trim, trim, trimEnd, trimEnd, trimStart, trimStart]
  simp only [String.toList_ofList, toList_withoutFeeds, dropWhile_filter_not hwhite,
    ← List.filter_reverse]

/-- Turned into carriage returns, the line feeds are left out with these. -/
theorem filter_map_turnFeed (cs : List Char) :
    (cs.map turnFeed).filter (· != '\r') = (cs.filter (· != '\r')).filter (· != '\n') := by
  induction cs with
  | nil => rfl
  | cons c cs ih =>
    rw [List.map_cons, List.filter_cons, List.filter_cons, ih]
    by_cases hfeed : c = '\n'
    · subst hfeed
      rfl
    · rw [turnFeed_of_ne hfeed]
      split
      · exact (List.filter_cons_of_pos (by simpa using hfeed)).symm
      · rfl

/-- **A block is written without its line feeds**, if they have been turned into carriage returns.
-/
theorem Section.block_mapTokens_turnFeeds {s : Section} (h : ∀ t ∈ s.tokens, t.OneLine) :
    (s.mapTokens Token.turnFeeds).block = withoutFeeds s.block := by
  have htoken : ∀ t ∈ s.tokens, t.turnFeeds.text.toList.filter (· != '\r') =
      (t.text.toList.filter (· != '\r')).filter (· != '\n') := by
    intro t ht
    cases hspace : t.isBlank || t.isLineBreak with
    | true =>
      rw [Token.turnFeeds, if_pos hspace, toList_withLoneReturns]
      exact filter_map_turnFeed t.text.toList
    | false =>
      rw [Bool.or_eq_false_iff] at hspace
      rw [keepsCode_turnFeeds.eq_self t hspace.1 hspace.2, eq_comm, List.filter_eq_self]
      intro c hc
      have hplain := h t ht hspace.1 hspace.2 c (List.mem_of_mem_filter hc)
      refine bne_iff_ne.mpr fun hfeed => ?_
      rw [hfeed] at hplain
      cases hplain
  have htext : withoutReturns (s.mapTokens Token.turnFeeds).text =
      withoutFeeds (withoutReturns s.text) := by
    rw [← String.toList_inj, toList_withoutFeeds, Token.toList_withoutReturns,
      Token.toList_withoutReturns, text, text, Token.toList_textOf, Token.toList_textOf, mapTokens,
      List.flatMap_map, List.filter_flatMap, List.filter_flatMap, List.filter_flatMap]
    exact List.flatMap_congr htoken
  rw [block, block, htext, trim_withoutFeeds]

/-- A block does not begin with a line feed, so something is left of it. -/
theorem Section.withoutFeeds_block_eq_empty_iff (s : Section) :
    withoutFeeds s.block = "" ↔ s.block = "" := by
  obtain ⟨-, -, -, -, -, htrimmed⟩ := exists_trim (withoutReturns s.text)
  rw [← block] at htrimmed
  rw [← String.toList_inj, ← String.toList_inj, toList_withoutFeeds]
  cases hchars : s.block.toList with
  | nil => rfl
  | cons c cs =>
    have hwhite := htrimmed.head c (by rw [hchars]; rfl)
    have hc : (c != '\n') = true := bne_iff_ne.mpr fun hfeed => by
      rw [hfeed] at hwhite
      cases hwhite
    rw [List.filter_cons_of_pos (p := (· != '\n')) hc]
    simp

/-! ### Texts of merged modules -/

/-- Taking out line feeds makes no text longer. -/
theorem Text.length_withoutFeeds_le (s : String) : (withoutFeeds s).length ≤ s.length := by
  rw [withoutFeeds, String.length_ofList, ← String.length_toList]
  exact List.length_filter_le _ _

/-- It leaves a text as long as it is exactly if there are none. -/
theorem Text.length_withoutFeeds_eq_iff {s : String} :
    (withoutFeeds s).length = s.length ↔ '\n' ∉ s.toList := by
  rw [withoutFeeds, String.length_ofList, ← String.length_toList,
    List.length_filter_eq_length_iff]
  constructor
  · intro h hmem
    exact bne_iff_ne.mp (h _ hmem) rfl
  · intro h c hc
    exact bne_iff_ne.mpr fun heq => h (heq ▸ hc)

/-- A piece is no longer without line feeds, and as long only if it is not a block with some. -/
theorem Piece.length_mapBlock_withoutFeeds (piece : Piece) :
    (piece.mapBlock withoutFeeds).render.length ≤ piece.render.length ∧
      ((piece.mapBlock withoutFeeds).render.length = piece.render.length →
        ∀ text, piece = .block text → '\n' ∉ text.toList) := by
  cases piece with
  | header name =>
    rw [mapBlock_header]
    exact ⟨le_rfl, fun _ _ heq => by cases heq⟩
  | mark module =>
    rw [mapBlock_mark]
    exact ⟨le_rfl, fun _ _ heq => by cases heq⟩
  | block text =>
    have hrender : ∀ text, (block text).render.length = text.length + "\n\n".length :=
      fun text => String.length_append text _
    rw [mapBlock_block, hrender, hrender]
    refine ⟨Nat.add_le_add_right (length_withoutFeeds_le text) _, fun hlength text' heq => ?_⟩
    obtain rfl := block.inj heq
    exact length_withoutFeeds_eq_iff.mp (Nat.add_right_cancel hlength)

/-- The joined pieces do not get longer, and get shorter unless no block has a line feed in it. -/
theorem length_join_mapBlock_withoutFeeds (pieces : List Piece) :
    (String.join (pieces.map fun piece => (piece.mapBlock withoutFeeds).render)).length ≤
        (String.join (pieces.map Piece.render)).length ∧
      ((String.join (pieces.map fun piece => (piece.mapBlock withoutFeeds).render)).length =
          (String.join (pieces.map Piece.render)).length →
        ∀ text, .block text ∈ pieces → '\n' ∉ text.toList) := by
  induction pieces with
  | nil => simp
  | cons piece pieces ih =>
    obtain ⟨hle, heq⟩ := piece.length_mapBlock_withoutFeeds
    simp only [List.map_cons, String.join_cons, String.length_append, List.mem_cons]
    refine ⟨by omega, fun hsum text htext => ?_⟩
    rcases htext with hfirst | hrest
    · exact heq (by omega) text hfirst.symm
    · exact ih.2 (by omega) text hrest

/-- The text of some pieces is the same without the line feeds of the blocks exactly if there are
none. -/
theorem join_mapBlock_withoutFeeds_eq_iff (pieces : List Piece) :
    String.join (pieces.map fun piece => (piece.mapBlock withoutFeeds).render) =
        String.join (pieces.map Piece.render) ↔
      ∀ text, .block text ∈ pieces → '\n' ∉ text.toList := by
  constructor
  · intro h
    exact (length_join_mapBlock_withoutFeeds pieces).2 (congrArg String.length h)
  · intro h
    refine congrArg String.join (List.map_congr_left fun piece hpiece => ?_)
    cases piece with
    | header name => rfl
    | mark module => rfl
    | block text =>
      have hsame : withoutFeeds text = text := by
        rw [← String.toList_inj, toList_withoutFeeds, List.filter_eq_self]
        exact fun c hc => bne_iff_ne.mpr fun heq => h text hpiece (heq ▸ hc)
      rw [Piece.mapBlock_block, hsame]

/-! ### Merging texts with lone carriage returns -/

section Merging

variable {sources : List (String × String)}
  (hplain : ∀ source ∈ sources, '\r' ∉ source.2.toList) (name? : Option String)
include hplain

/-- Texts with turned line feeds are put together as the texts are, with the line feeds of their
tokens turned. -/
theorem ofBundle_ofTexts_withLoneReturns :
    Assembly.ofBundle (Bundle.ofTexts (sources.map fun source =>
        (source.1, withLoneReturns source.2))) name? =
      (Assembly.ofBundle (Bundle.ofTexts sources) name?).map
        (Assembly.mapTokens Token.turnFeeds) := by
  rw [Bundle.ofTexts_withLoneReturns hplain]
  exact keepsCode_turnFeeds.ofBundle_mapValues name? fun entry hentry t ht =>
    (Bundle.unmarked_ofTexts entry hentry t ht).keepsMarks_turnFeeds

omit hplain in
/-- The merged text then has the same pieces, with blocks without line feeds. -/
theorem render_mapTokens_turnFeeds {m : Assembly}
    (hm : Assembly.ofBundle (Bundle.ofTexts sources) name? = .ok m) :
    (m.mapTokens Token.turnFeeds).render =
      String.join (m.layout.map fun piece => (piece.mapBlock withoutFeeds).render) := by
  obtain ⟨first, rest, hassembled⟩ := Assembly.ofBundle_eq_ok_iff.mp hm
  refine Assembly.render_mapTokens (fun b s hs => ?_) fun b s _ =>
    s.withoutFeeds_block_eq_empty_iff
  obtain ⟨origin, tokens, name, hentry, hname, -, -, hmem⟩ := hassembled.exists_source hs
  obtain ⟨text, -, htokens⟩ := Bundle.exists_text_of_mem_ofTexts hentry
  simp only at htokens
  subst htokens
  exact Section.block_mapTokens_turnFeeds fun t ht =>
    Qualify.oneLine_of_mem_qualify hname (hmem t ht)

/-- What is merged from texts with turned line feeds, by the pieces of what is merged from the
texts. -/
theorem merge_withLoneReturns_eq :
    merge (Bundle.ofTexts (sources.map fun source => (source.1, withLoneReturns source.2))) name? =
      (Assembly.ofBundle (Bundle.ofTexts sources) name?).map fun m =>
        String.join (m.layout.map fun piece => (piece.mapBlock withoutFeeds).render) := by
  rw [merge, ofBundle_ofTexts_withLoneReturns hplain]
  cases hm : Assembly.ofBundle (Bundle.ofTexts sources) name? with
  | error e => rfl
  | ok m => exact congrArg Except.ok (render_mapTokens_turnFeeds name? hm)

/-- The merged text is the same exactly if no block in it has a line feed. -/
theorem merge_withLoneReturns_eq_merge_iff :
    merge (Bundle.ofTexts (sources.map fun source => (source.1, withLoneReturns source.2))) name? =
        merge (Bundle.ofTexts sources) name? ↔
      ∀ m, Assembly.ofBundle (Bundle.ofTexts sources) name? = .ok m →
        ∀ text, .block text ∈ m.layout → '\n' ∉ text.toList := by
  rw [merge_withLoneReturns_eq hplain, merge]
  cases hm : Assembly.ofBundle (Bundle.ofTexts sources) name? with
  | error e => simp [Except.map]
  | ok m =>
    simp only [Except.map, Except.ok.injEq, forall_eq']
    exact join_mapBlock_withoutFeeds_eq_iff m.layout

/-- **Lone carriage returns join the lines of a block.** If no text has a carriage return, then
turning every line feed of every text into one changes neither the error if the texts cannot be
merged nor the header and the marks of the merged module, and it leaves out the line feeds of each
block. So what is merged is the same exactly if every block is a single line. -/
theorem merge_ofTexts_withLoneReturns :
    merge (Bundle.ofTexts (sources.map fun source => (source.1, withLoneReturns source.2))) name? =
        ((Assembly.ofBundle (Bundle.ofTexts sources) name?).map fun m =>
          String.join (m.layout.map fun piece => (piece.mapBlock withoutFeeds).render)) ∧
      (merge (Bundle.ofTexts (sources.map fun source =>
            (source.1, withLoneReturns source.2))) name? =
          merge (Bundle.ofTexts sources) name? ↔
        ∀ m, Assembly.ofBundle (Bundle.ofTexts sources) name? = .ok m →
          ∀ text, .block text ∈ m.layout → '\n' ∉ text.toList) :=
  ⟨merge_withLoneReturns_eq hplain name?, merge_withLoneReturns_eq_merge_iff hplain name?⟩

end Merging

/-! ### A module with a block of two lines -/

/-- A module with two statements after the line that names it. -/
def statementTexts : List (String × String) :=
  [("grid.bas", "Attribute VB_Name = \"Grid\"\nBeep\nStop")]

def statements : List Token :=
  [⟨.name, "Beep"⟩, ⟨.lineBreak, "\n"⟩, ⟨.reserved, "Stop"⟩]

/-- What is read of the module, and what is written of its statements. -/
theorem reading_statementTexts :
    statementTexts.map (fun source => (source.1, lex source.2)) =
        [("grid.bas", namingLine "Grid" ++ statements)] ∧
      declaredName? (namingLine "Grid" ++ statements) = some "Grid" ∧
      Qualify.qualify "Grid" (namingLine "Grid" ++ statements) = namingLine "Grid" ++ statements ∧
      Candidate.all (namingLine "Grid" ++ statements) = [⟨0, 10, .attributeLine⟩] ∧
      (Section.mk statements .unknown (some "grid.bas") false).block = "Beep\nStop" := by
  decide +kernel

theorem contribution_statements (b : Bucket) :
    (Prepared.named "grid.bas" "Grid" (namingLine "Grid" ++ statements)).contribution b =
      if b = .others then [⟨statements, .unknown, some "grid.bas", false⟩] else [] := by
  obtain ⟨-, -, hqualify, hall, -⟩ := reading_statementTexts
  simp only [Prepared.contribution, Prepared.named, qualifiedSections, Partition.sectionsOf,
    Partition.sections, hqualify, Partition.spans_eq_coverFrom_absorb hall (by decide)]
  cases b <;> rfl

/-- The module has one block of two lines. -/
theorem exists_layout_statementTexts :
    ∃ m, Assembly.ofBundle (Bundle.ofTexts statementTexts) none = .ok m ∧
      m.layout = [.header "Grid", .mark "Grid", .block "Beep\nStop"] := by
  obtain ⟨hread, hname, -, -, hblock⟩ := reading_statementTexts
  obtain ⟨m, h⟩ : ∃ m, Assembly.Assembled (Bundle.ofTexts statementTexts) none m
      (.named "grid.bas" "Grid" (namingLine "Grid" ++ statements)) [] := by
    refine ⟨_, ?_, by simp, rfl⟩
    rw [Bundle.entries_ofTexts hread (by decide)]
    exact .cons (prepare_eq_ok_iff.mpr ⟨_, hname, rfl⟩) .nil
  have hsections : m.sections = [(.others, ⟨statements, .unknown, some "grid.bas", false⟩)] := by
    rw [h.result_eq]
    simp only [Assembly.sections, bucketSections, contribution_statements]
    rfl
  have hname : m.name = "Grid" := by
    rw [h.result_eq]
    rfl
  refine ⟨m, Assembly.ofBundle_eq_ok_iff.mpr ⟨_, _, h⟩, ?_⟩
  rw [Assembly.layout, hname, hsections, Assembly.layoutFrom, hblock, if_neg (by decide),
    if_pos (by decide), h.result_eq]
  rfl

theorem plain_statementTexts : ∀ source ∈ statementTexts, '\r' ∉ source.2.toList := by
  decide

/-- The two statements are joined to one word. -/
theorem merge_withLoneReturns_statementTexts :
    (∀ source ∈ statementTexts, '\r' ∉ source.2.toList) ∧
      merge (Bundle.ofTexts (statementTexts.map fun source =>
          (source.1, withLoneReturns source.2))) none =
        .ok (String.join
          ([.header "Grid", .mark "Grid", .block "BeepStop"].map Piece.render)) := by
  have hjoined : withoutFeeds "Beep\nStop" = "BeepStop" := by decide
  obtain ⟨m, hm, hlayout⟩ := exists_layout_statementTexts
  refine ⟨plain_statementTexts, ?_⟩
  rw [(merge_ofTexts_withLoneReturns plain_statementTexts none).1, hm, Except.map, hlayout]
  simp only [List.map_cons, List.map_nil, Piece.mapBlock_header, Piece.mapBlock_mark,
    Piece.mapBlock_block, hjoined]

/-- So what is merged is not the same with lone carriage returns. -/
theorem merge_withLoneReturns_ne :
    (∀ source ∈ statementTexts, '\r' ∉ source.2.toList) ∧
      merge (Bundle.ofTexts (statementTexts.map fun source =>
          (source.1, withLoneReturns source.2))) none ≠
        merge (Bundle.ofTexts statementTexts) none := by
  obtain ⟨m, hm, hlayout⟩ := exists_layout_statementTexts
  refine ⟨plain_statementTexts, fun hsame => ?_⟩
  refine (merge_withLoneReturns_eq_merge_iff plain_statementTexts none).mp hsame m hm "Beep\nStop"
    ?_ (by decide)
  rw [hlayout]
  simp

end VbaModules

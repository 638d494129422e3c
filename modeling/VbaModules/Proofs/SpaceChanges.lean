import Mathlib.Data.Option.Basic
import VbaModules.Merge.Layout
import VbaModules.Proofs.Lexemes
import VbaModules.Proofs.WordSections

/-!
# Changing blanks and line breaks

A change of tokens keeps the code if it changes the texts of blanks and line breaks only
(`KeepsCode`). Merging commutes with such a change: what is merged from changed tokens is what is
merged from the tokens, with its sections changed, and the error is the same if there is one
(`KeepsCode.ofBundle_mapValues`).

Sections are found by words, so they are the same sections with their tokens changed. Beyond that,
merging reads the texts of names, the words of option statements and the marks that divide the names
of a declaration list. Blanks and line breaks have no marks in them (`Token.Unmarked`), and the
clauses that are added to a module have single blanks, which are not to be changed. Where the
changed text shows is in the blocks that are written in the end (`Assembly.render_mapTokens`).
-/

namespace VbaModules

open Text

/-- A change of tokens **keeps the code** if every token is of the same kind afterwards, and the
same token unless it is blank or a line break. A single blank is not changed either. -/
structure KeepsCode (f : Token → Token) : Prop extends KeepsKinds f where
  eq_self : ∀ t, t.isBlank = false → t.isLineBreak = false → f t = t
  eq_blank : f ⟨.blank, " "⟩ = ⟨.blank, " "⟩

/-! ### Marks -/

/-- The token is not blank or a line break with a mark of declaration lists in it. No token that the
lexer makes is one. -/
def Token.Unmarked (t : Token) : Prop :=
  (t.isBlank || t.isLineBreak) = true → ∀ c ∈ t.text.toList, c ∉ ['(', ')', ',']

/-- White space is not spelled like a parenthesis or a comma. -/
theorem Token.Unmarked.text_ne {t : Token} (h : t.Unmarked)
    (hspace : (t.isBlank || t.isLineBreak) = true) {c : Char} (hc : c ∈ ['(', ')', ','])
    {mark : String} (hmark : mark.toList = [c]) : t.text ≠ mark := by
  rintro rfl
  exact h hspace c (by simp [hmark]) hc

/-- A change that puts no marks into blanks and line breaks keeps the marks. -/
theorem KeepsCode.keepsMarks {f : Token → Token} (hf : KeepsCode f) {t : Token} (h : t.Unmarked)
    (h' : (f t).Unmarked) : KeepsMarks f t := by
  cases hspace : t.isBlank || t.isLineBreak with
  | false =>
    rw [Bool.or_eq_false_iff] at hspace
    intro mark _
    rw [hf.eq_self t hspace.1 hspace.2]
  | true =>
    have hspace' : ((f t).isBlank || (f t).isLineBreak) = true := by
      rwa [hf.isBlank_eq, hf.isLineBreak_eq]
    have hneither : ∀ {c : Char} {mark : String}, c ∈ ['(', ')', ','] → mark.toList = [c] →
        ((f t).text = mark ↔ t.text = mark) := fun hc hmark =>
      iff_of_false (h'.text_ne hspace' hc hmark) (h.text_ne hspace hc hmark)
    intro mark hmark
    simp only [List.mem_cons, List.not_mem_nil, or_false] at hmark
    rcases hmark with rfl | rfl | rfl
    · exact hneither (show '(' ∈ _ by decide) rfl
    · exact hneither (show ')' ∈ _ by decide) rfl
    · exact hneither (show ',' ∈ _ by decide) rfl

namespace KeepsCode

variable {f : Token → Token} (hf : KeepsCode f)
include hf

/-- A change of white space keeps all words. -/
theorem keepsWords : KeepsWords f where
  kind_eq := hf.kind_eq
  foldCase_text t hblank hbreak := by rw [hf.eq_self t hblank hbreak]

/-! ### Reading on -/

/-- The lexer remembers the same of a line after a changed token. -/
theorem after_eq (state : Lexer.LineState) (t : Token) : state.after (f t) = state.after t := by
  cases hspace : t.isBlank || t.isLineBreak with
  | false =>
    rw [Bool.or_eq_false_iff] at hspace
    rw [hf.eq_self t hspace.1 hspace.2]
  | true =>
    rw [Lexer.LineState.after, Lexer.LineState.after, hf.kind_eq]
    simp only [Token.isBlank, Token.isLineBreak, Bool.or_eq_true, beq_iff_eq] at hspace
    rcases hspace with hkind | hkind <;> rw [hkind]

/-- The line that names the module is still found. -/
theorem beginsNameLine_map (ts : List Token) :
    Lexer.beginsNameLine (ts.map f) = Lexer.beginsNameLine ts := by
  match ts with
  | [] => rfl
  | [_] => rfl
  | [_, _] => rfl
  | a :: s :: v :: ts =>
    simp only [List.map_cons, Lexer.beginsNameLine, hf.kind_eq, hf.keepsWords.spells_eq,
      hf.isBlank_eq]

/-- Literals are not changed, and where a name line begins is told by words. -/
theorem splitNames_map (due : Nat) (ts : List Token) :
    Lexer.splitNames due (ts.map f) = (Lexer.splitNames due ts).map f := by
  have hliteral : ∀ {t : Token} {due : Nat}, (t.kind == .string && due != 0) = true → f t = t := by
    intro t due h
    have hkind := Lexer.kind_eq_string_of_due h
    exact hf.eq_self t (by simp [Token.isBlank, hkind]) (by simp [Token.isLineBreak, hkind])
  fun_induction Lexer.splitNames due ts with
  | case1 due => simp [Lexer.splitNames]
  | case2 due t ts hbreak ih =>
    rw [List.map_cons, Lexer.splitNames, if_pos (by rwa [hf.isLineBreak_eq]), ih, List.map_cons]
  | case3 due t ts hbreak hstring name hname ih =>
    have hquote : f Lexer.quoteToken = Lexer.quoteToken := hf.eq_self _ rfl rfl
    have hnamed : f ⟨.name, name⟩ = ⟨.name, name⟩ := hf.eq_self _ rfl rfl
    rw [List.map_cons, hliteral hstring, Lexer.splitNames, if_neg hbreak, if_pos hstring, hname]
    simp only [ih, List.map_cons, hquote, hnamed]
  | case4 due t ts hbreak hstring hname ih =>
    rw [List.map_cons, hliteral hstring, Lexer.splitNames, if_neg hbreak, if_pos hstring, hname]
    simp only [ih, List.map_cons, hliteral hstring]
  | case5 due t ts hbreak hstring hbegins ih =>
    rw [List.map_cons, Lexer.splitNames, if_neg (by rwa [hf.isLineBreak_eq]),
      if_neg (by rwa [hf.kind_eq]), if_pos (by rwa [← List.map_cons, hf.beginsNameLine_map]), ih,
      List.map_cons]
  | case6 due t ts hbreak hstring hbegins ih =>
    rw [List.map_cons, Lexer.splitNames, if_neg (by rwa [hf.isLineBreak_eq]),
      if_neg (by rwa [hf.kind_eq]), if_neg (by rwa [← List.map_cons, hf.beginsNameLine_map]), ih,
      List.map_cons]

/-! ### Names -/

/-- A change of white space makes no name, and takes none away. -/
theorem isName_eq (t : Token) : (f t).isName = t.isName := by
  rw [Token.isName, Token.isName, hf.kind_eq]

/-- Names are not changed. -/
theorem eq_self_of_isName {t : Token} (h : t.isName = true) : f t = t := by
  have hkind : t.kind = .name := by simpa [Token.isName] using h
  exact hf.eq_self t (by simp [Token.isBlank, hkind]) (by simp [Token.isLineBreak, hkind])

/-- The same names stand at the same positions. -/
theorem nameAt?_map (tokens : List Token) (position : Nat) :
    nameAt? (tokens.map f) position = nameAt? tokens position := by
  rw [nameAt?, nameAt?, List.getElem?_map]
  cases tokens[position]? with
  | none => rfl
  | some t =>
    cases hname : t.isName with
    | false => simp [Option.filter, hf.isName_eq, hname]
    | true => rw [Option.map_some, hf.eq_self_of_isName hname]

/-- The module still declares the same name, or fails with the same error. -/
theorem declaredName_map (origin : String) (tokens : List Token) :
    declaredName origin (tokens.map f) = declaredName origin tokens := by
  rw [declaredName, declaredName, declaredName?, declaredName?, hf.keepsWords.lineMatches_map]
  simp only [hf.nameAt?_map]

/-- The private names stay the same, if parentheses and commas stay what they are. -/
theorem privateNames_map {tokens : List Token} (h : ∀ t ∈ tokens, KeepsMarks f t) :
    privateNames (tokens.map f) = privateNames tokens := by
  rw [privateNames, privateNames, namesAt, namesAt, hf.keepsWords.privatePositions_map h,
    funext (hf.nameAt?_map tokens)]

/-! ### Qualified tokens -/

/-- The same external procedures lack an alias clause. -/
theorem unaliased_map (tokens : List Token) :
    Qualify.unaliased (tokens.map f) = Qualify.unaliased tokens := by
  rw [Qualify.unaliased, Qualify.unaliased, hf.keepsWords.lineMatches_map]
  refine List.filterMap_congr fun m hm => ?_
  obtain ⟨t, ht, hblank, hbreak⟩ := Pattern.exists_last_of_mem_matchesFrom (by decide) hm
  have hname : (tokens.map f)[m.stop - 1]? = tokens[m.stop - 1]? := by
    rw [List.getElem?_map, ht, Option.map_some, hf.eq_self t hblank hbreak]
  have hspells : ∀ word, (fun t : Token => (f t).spells word) = (·.spells word) :=
    fun word => funext fun t => hf.keepsWords.spells_eq t word
  have hnext : ∀ (next : Option Nat) (word : String),
      (next.bind fun i => tokens[i]?.map f).any (·.spells word) =
        (next.bind fun i => tokens[i]?).any (·.spells word) := by
    intro next word
    cases next with
    | none => rfl
    | some i => rw [Option.bind_some, Option.any_map, hspells, Option.bind_some]
  rw [Qualify.unaliased?, Qualify.unaliased?, hname]
  simp only [hf.lineEnd_map, hf.nextNonBlank?_map, List.getElem?_map, Option.any_map, hspells,
    hf.kind_eq, hnext]

/-- Renaming and changing white space do not get into each other's way. -/
theorem renameToken_comm (replacement? : String → Option String) (t : Token) :
    renameToken replacement? (f t) = f (renameToken replacement? t) := by
  cases hname : t.isName with
  | true =>
    have hrenamed : (renameToken replacement? t).isName = true := by
      rw [renameToken, if_pos hname]
      exact hname
    rw [hf.eq_self_of_isName hname, hf.eq_self_of_isName hrenamed]
  | false =>
    rw [renameToken, renameToken, hf.isName_eq, hname]
    rfl

/-- A changed module gets the same clauses at the same places, and the clauses themselves are not
changed. -/
theorem addAliases_map (missing : List (Nat × String)) (tokens : List Token) :
    Qualify.addAliases missing (tokens.map f) = (Qualify.addAliases missing tokens).map f := by
  have hclause : ∀ entryPoint, (Qualify.aliasClause entryPoint).map f =
      Qualify.aliasClause entryPoint := by
    intro entryPoint
    simp only [Qualify.aliasClause, List.map_cons, List.map_nil, hf.eq_blank]
    rw [hf.eq_self ⟨.reserved, "Alias"⟩ rfl rfl, hf.eq_self ⟨.string, _⟩ rfl rfl]
  rw [Qualify.addAliases, Qualify.addAliases]
  induction missing with
  | nil => rfl
  | cons entry missing ih =>
    rw [List.foldr_cons, ih, List.foldr_cons]
    simp only [List.map_append, List.map_take, List.map_drop, hclause]

section Marked

variable {tokens : List Token} (h : ∀ t ∈ tokens, KeepsMarks f t)
include h

/-- The table of qualified names is read off the private names alone. -/
theorem table_map (module : String) :
    Qualify.table module (tokens.map f) = Qualify.table module tokens := by
  rw [Qualify.table, Qualify.table, hf.privateNames_map h]

/-- **Qualifying commutes with a change of white space.** -/
theorem qualify_map (module : String) :
    Qualify.qualify module (tokens.map f) = (Qualify.qualify module tokens).map f := by
  rw [Qualify.qualify, Qualify.qualify, hf.unaliased_map, hf.table_map h, ← hf.addAliases_map,
    renameTokens, renameTokens, List.map_map, List.map_map]
  congr 2
  funext t
  exact hf.renameToken_comm _ t

/-- As many names are qualified as before. -/
theorem countQualified_map (module : String) :
    Qualify.countQualified module (tokens.map f) = Qualify.countQualified module tokens := by
  rw [Qualify.countQualified, Qualify.countQualified, hf.table_map h, countRenamed, countRenamed,
    List.countP_map]
  congr 1
  funext t
  cases hname : t.isName with
  | true => rw [Function.comp_apply, hf.eq_self_of_isName hname]
  | false => simp [renameToken, hf.isName_eq, hname]

end Marked

/-- The normal form of an option statement does not show its white space. -/
theorem normalForm_map (tokens : List Token) :
    OptionStatement.normalForm (tokens.map f) = OptionStatement.normalForm tokens := by
  have hfiller : (fun t : Token => !t.isFiller) ∘ f = fun t => !t.isFiller := by
    funext t
    rw [Function.comp_apply, Token.isFiller, Token.isFiller, hf.kind_eq]
  -- what is left of the tokens are words
  have hwords : ∀ t ∈ tokens.filter (!·.isFiller), f t = t := by
    intro t ht
    have hkept := (List.mem_filter.mp ht).2
    simp only [Token.isFiller, Bool.not_eq_true', Bool.or_eq_false_iff] at hkept
    exact hf.eq_self t hkept.1.1 hkept.2
  have hkept : (tokens.map f).filter (!·.isFiller) = tokens.filter (!·.isFiller) := by
    rw [List.filter_map, hfiller, List.map_congr_left hwords, List.map_id']
  rw [OptionStatement.normalForm, OptionStatement.normalForm, hkept]

end KeepsCode

/-! ### Prepared sources -/

/-- The source with the tokens of its sections changed one by one. -/
def Prepared.mapTokens (f : Token → Token) (p : Prepared) : Prepared :=
  { p with sections := p.sections.map (Section.mapTokens f) }

/-- A changed source is prepared as the source itself, and then changed. -/
theorem KeepsCode.prepare_map {f : Token → Token} (hf : KeepsCode f) (origin : String)
    {tokens : List Token} (h : ∀ t ∈ tokens, KeepsMarks f t) :
    prepare origin (tokens.map f) = (prepare origin tokens).map (Prepared.mapTokens f) := by
  have hsections : ∀ name,
      (qualifiedSections origin name (tokens.map f)).map Proxy.resolve =
        ((qualifiedSections origin name tokens).map Proxy.resolve).map (Section.mapTokens f) := by
    intro name
    rw [qualifiedSections, qualifiedSections, hf.qualify_map h, hf.keepsWords.sectionsOf_map,
      List.map_map, List.map_map]
    exact List.map_congr_left fun s _ => hf.keepsWords.resolve_mapTokens s
  rw [prepare, prepare, hf.declaredName_map]
  cases declaredName origin tokens with
  | error e => rfl
  | ok name =>
    simp only [Except.map, hf.countQualified_map h, hsections]
    rfl

/-! ### Merged modules -/

/-- Where a section of unknown kind is not the last one, its tokens go to the next. -/
theorem attachUnknown_cons_cons (carry : List Token) (s r : Section) (rest : List Section) :
    attachUnknown carry (s :: r :: rest) =
      if s.kind = .unknown then attachUnknown (carry ++ s.tokens) (r :: rest)
      else { s with tokens := carry ++ s.tokens } :: attachUnknown [] (r :: rest) :=
  rfl

/-- Sections of unknown kind are attached by kind alone, whatever their tokens are. -/
theorem attachUnknown_mapTokens (f : Token → Token) (carry : List Token) (sections : List Section) :
    attachUnknown (carry.map f) (sections.map (Section.mapTokens f)) =
      (attachUnknown carry sections).map (Section.mapTokens f) := by
  induction sections generalizing carry with
  | nil => rfl
  | cons s rest ih =>
    cases rest with
    | nil =>
      simp only [List.map_cons, List.map_nil, attachUnknown, Section.mapTokens, List.map_append]
    | cons r rest =>
      rw [List.map_cons] at ih
      rw [List.map_cons, List.map_cons, attachUnknown_cons_cons, attachUnknown_cons_cons]
      by_cases hkind : s.kind = .unknown
      · have hkind' : (s.mapTokens f).kind = .unknown := hkind
        rw [if_pos hkind, if_pos hkind', ← ih, List.map_append]
        rfl
      · have hkind' : (s.mapTokens f).kind ≠ .unknown := hkind
        rw [if_neg hkind, if_neg hkind', List.map_cons, ← ih]
        simp only [Section.mapTokens, List.map_append, List.map_nil]

/-- The same sections go into the same buckets. -/
theorem Prepared.contribution_mapTokens (f : Token → Token) (p : Prepared) (bucket : Bucket) :
    (p.mapTokens f).contribution bucket = (p.contribution bucket).map (Section.mapTokens f) := by
  have hattach := attachUnknown_mapTokens f [] p.sections
  rw [List.map_nil] at hattach
  rw [contribution, contribution, mapTokens, hattach, List.filter_map]
  rfl

/-- The buckets of all sources together hold the changed sections in the same order. -/
theorem bucketSections_mapTokens (f : Token → Token) (first : Prepared) (rest : List Prepared)
    (bucket : Bucket) :
    bucketSections (first.mapTokens f) (rest.map (Prepared.mapTokens f)) bucket =
      (bucketSections first rest bucket).map (Section.mapTokens f) := by
  rw [bucketSections, bucketSections, Prepared.contribution_mapTokens, List.map_append]
  congr 1
  split
  · rfl
  · rw [List.flatMap_map, List.map_flatMap]
    simp only [Prepared.contribution_mapTokens]

/-- The merged module with the tokens of its sections changed one by one. -/
def Assembly.mapTokens (f : Token → Token) (m : Assembly) : Assembly :=
  { m with buckets := m.buckets.map fun (bucket, sections) =>
      (bucket, sections.map (Section.mapTokens f)) }

/-- A traversal that fails in the same places, with its results changed one by one. -/
theorem mapM_eq_map_mapM {α β γ ε : Type} {f : α → Except ε β} {f' : α → Except ε γ} {g : β → γ}
    {as : List α} (h : ∀ a ∈ as, f' a = (f a).map g) :
    as.mapM f' = (as.mapM f).map (List.map g) := by
  induction as with
  | nil => rfl
  | cons a as ih =>
    obtain ⟨ha, has⟩ := List.forall_mem_cons.mp h
    rw [List.mapM_cons, List.mapM_cons, ha, ih has]
    cases f a with
    | error e => rfl
    | ok b =>
      cases as.mapM f with
      | error e => rfl
      | ok bs => rfl

namespace KeepsCode

variable {f : Token → Token} (hf : KeepsCode f)
include hf

/-- Changed sources are put together as the sources are, or fail with the same error. -/
theorem ofPrepared_mapTokens (name? : Option String) (sources : List Prepared) :
    Assembly.ofPrepared name? (sources.map (Prepared.mapTokens f)) =
      (Assembly.ofPrepared name? sources).map (Assembly.mapTokens f) := by
  cases sources with
  | nil => rfl
  | cons first rest =>
    have hoptions : ∀ p : Prepared,
        OptionStatement.ofSections (p.mapTokens f).sections =
          OptionStatement.ofSections p.sections :=
      fun p => OptionStatement.ofSections_mapTokens hf.normalForm_map p.sections
    have hconflict : ∀ options,
        Assembly.conflicting? options (rest.map (Prepared.mapTokens f)) =
          (Assembly.conflicting? options rest).map (Prepared.mapTokens f) := by
      intro options
      rw [Assembly.conflicting?, Assembly.conflicting?, List.find?_map]
      simp only [Function.comp_def, hoptions]
    rw [List.map_cons, Assembly.ofPrepared, Assembly.ofPrepared]
    simp only [hoptions, hconflict]
    cases Assembly.conflicting? (OptionStatement.ofSections first.sections) rest with
    | some p =>
      simp only [Option.map_some, hoptions]
      rfl
    | none =>
      simp only [Option.map_none, bucketSections_mapTokens, Except.map, Assembly.mapTokens,
        List.map_map, List.map_cons]
      rfl

/-- **Merging commutes with a change of blanks and line breaks.** -/
theorem ofBundle_mapValues {bundle : Bundle} (name? : Option String)
    (h : ∀ entry ∈ bundle.entries, ∀ t ∈ entry.2, KeepsMarks f t) :
    Assembly.ofBundle (bundle.mapValues fun _ tokens => tokens.map f) name? =
      (Assembly.ofBundle bundle name?).map (Assembly.mapTokens f) := by
  have hprepare : ((bundle.mapValues fun _ tokens => tokens.map f).entries.mapM
        fun entry => prepare entry.1 entry.2) =
      (bundle.entries.mapM fun entry => prepare entry.1 entry.2).map
        (List.map (Prepared.mapTokens f)) := by
    rw [Dictionary.mapValues, List.mapM_map]
    exact mapM_eq_map_mapM fun entry hentry => hf.prepare_map entry.1 (h entry hentry)
  rw [Assembly.ofBundle, Assembly.ofBundle, hprepare]
  cases bundle.entries.mapM fun entry => prepare entry.1 entry.2 with
  | error e => rfl
  | ok sources => exact hf.ofPrepared_mapTokens name? sources

end KeepsCode

/-! ### The text of a merged module -/

/-- The piece with the text of a block changed. -/
def Piece.mapBlock (g : String → String) : Piece → Piece
  | block text => block (g text)
  | piece => piece

@[simp]
theorem Piece.mapBlock_header (g : String → String) (name : String) :
    (header name).mapBlock g = header name :=
  rfl

@[simp]
theorem Piece.mapBlock_mark (g : String → String) (module : String) :
    (mark module).mapBlock g = mark module :=
  rfl

@[simp]
theorem Piece.mapBlock_block (g : String → String) (text : String) :
    (block text).mapBlock g = block (g text) :=
  rfl

namespace Assembly

variable {f : Token → Token} {g : String → String}

/-- The layout has the same pieces in the same order, if the blocks change as `g` says and none
becomes empty or stops being so. -/
theorem layoutFrom_mapTokens (m : Assembly) (current : Option String)
    {sections : List (Bucket × Section)}
    (hblock : ∀ b s, (b, s) ∈ sections → (s.mapTokens f).block = g s.block)
    (hempty : ∀ b s, (b, s) ∈ sections → (g s.block = "" ↔ s.block = "")) :
    (m.mapTokens f).layoutFrom current (sections.map fun (bucket, s) => (bucket, s.mapTokens f)) =
      (m.layoutFrom current sections).map (Piece.mapBlock g) := by
  induction sections generalizing current with
  | nil => rfl
  | cons entry rest ih =>
    obtain ⟨bucket, s⟩ := entry
    have hrest := fun current => ih current
      (fun b s hs => hblock b s (List.mem_cons_of_mem _ hs))
      (fun b s hs => hempty b s (List.mem_cons_of_mem _ hs))
    have horigin : (s.mapTokens f).origin = s.origin := rfl
    rw [List.map_cons, layoutFrom, layoutFrom]
    simp only [hblock bucket s List.mem_cons_self, hempty bucket s List.mem_cons_self, hrest,
      horigin]
    split
    · rfl
    · split <;> rfl

/-- **A change of blanks and line breaks shows in the blocks only**, if it leaves none of them
empty. -/
theorem render_mapTokens {m : Assembly}
    (hblock : ∀ b s, (b, s) ∈ m.sections → (s.mapTokens f).block = g s.block)
    (hempty : ∀ b s, (b, s) ∈ m.sections → (g s.block = "" ↔ s.block = "")) :
    (m.mapTokens f).render =
      String.join (m.layout.map fun piece => (piece.mapBlock g).render) := by
  have hsections : (m.mapTokens f).sections =
      m.sections.map fun (bucket, s) => (bucket, s.mapTokens f) := by
    rw [sections, sections, mapTokens, List.flatMap_map, List.map_flatMap]
    simp only [List.map_map]
    rfl
  rw [render, layout, layout, hsections, layoutFrom_mapTokens m none hblock hempty, List.map_cons,
    List.map_cons, List.map_map]
  rfl

end Assembly

end VbaModules

import Mathlib.Data.List.Find
import Mathlib.Data.List.Forall2
import VbaModules.Proofs.FirstElements
import VbaModules.Proofs.LosslessLexing
import VbaModules.Proofs.NamingLines
import VbaModules.Proofs.Respelling
import VbaModules.Proofs.WrittenFiles

/-!
# One spelling over all modules

A speller that has gone through some modules has settled a spelling for every free name in them, and
the texts that come out are the texts that went in, in these spellings
(`Speller.spellTexts_spec`). A text in another letter case has the same tokens in that case
(`Lexer.lex_textOf_of_fold`), so reading such a text again gives the settled tokens, and two laws
follow:

* Only letter case changes, and each free name has one spelling over all modules
  (`Speller.spellTexts_uniform`).
* A second run changes nothing (`Speller.spellTexts_spellTexts`). With the table of the first run
  this holds since every name is settled on the spelling it has. A run with a new table settles the
  names once more, but in the style of the first run, and a style leaves its own spellings as they
  are; all the while its table agrees with the one at the end of the first run. The same is said of
  files: what a run writes back is what a check then reads, and it finds nothing to do
  (`Speller.exists_perform_spellFiles`).
-/

namespace VbaModules

open Text

/-! ### Reading tokens in another letter case -/

/-- Folding a text is folding its tokens. -/
theorem Text.foldCase_textOf (tokens : List Token) :
    foldCase (Token.textOf tokens) = Token.textOf (tokens.map Token.fold) := by
  rw [← String.toList_inj, toList_foldCase, Token.toList_textOf, Token.toList_textOf,
    List.map_flatMap, List.flatMap_map]
  simp only [Token.fold, toList_foldCase]

/-- Tokens are known by their folded forms and their text. -/
theorem Token.eq_of_map_fold_eq {ts us : List Token} (hfold : ts.map Token.fold = us.map Token.fold)
    (htext : textOf ts = textOf us) : ts = us := by
  rw [← String.toList_inj, toList_textOf, toList_textOf] at htext
  induction ts generalizing us with
  | nil => simpa using hfold.symm
  | cons t ts ih =>
    cases us with
    | nil => simp at hfold
    | cons u us =>
      obtain ⟨hfirst, hrest⟩ := List.cons.inj hfold
      obtain ⟨hkind, hword⟩ := Token.mk.inj hfirst
      have hlength : t.text.toList.length = u.text.toList.length := by
        have hchars := congrArg (fun s => s.toList.length) hword
        simpa using hchars
      obtain ⟨hhead, htail⟩ := List.append_inj htext hlength
      rw [ih hrest htail, show t = u from congrArg₂ Token.mk hkind (String.toList_inj.mp hhead)]

/-- **Tokens in another letter case are read as they are.** -/
theorem Lexer.lex_textOf_of_fold {text : String} {tokens : List Token}
    (h : tokens.map Token.fold = (lex text).map Token.fold) :
    lex (Token.textOf tokens) = tokens := by
  have hword : foldCase (Token.textOf tokens) = foldCase text := by
    rw [foldCase_textOf, h, ← foldCase_textOf, textOf_lex]
  refine Token.eq_of_map_fold_eq ?_ (textOf_lex _)
  rw [← lex_foldCase, hword, lex_foldCase, h]

/-! ### Keywords of a module -/

namespace Lexer

/-- A reserved word is a keyword. -/
theorem Lexeme.contains_of_reserved {state : LineState} {word : String} {rest : List Char}
    (h : Lexeme state .reserved word.toList rest) : Keyword.contains word = true := by
  generalize hkind : Token.Kind.reserved = kind at h
  generalize hword : word.toList = cs at h
  cases h with
  | word =>
    rw [wordKind, ← hword, String.ofList_toList] at hkind
    by_contra hcontains
    rw [if_neg hcontains] at hkind
    cases hkind
  | _ => cases hkind

/-- A reserved token is a keyword. -/
theorem contains_of_mem_lex {text : String} {t : Token} (h : t ∈ lex text)
    (hkind : t.kind = .reserved) : Keyword.contains t.text = true := by
  rw [lex_eq_splitNames] at h
  rcases mem_splitNames h with hmem | rfl | ⟨u, -, name, -, rfl⟩
  · rcases exists_lexeme_of_mem_scanModule hmem with rfl | ⟨state, rest, hlexeme⟩
    · cases hkind
    · rw [hkind] at hlexeme
      exact hlexeme.contains_of_reserved
  · cases hkind
  · cases hkind

end Lexer

namespace Speller

/-! ### A run over modules -/

/-- The texts of modules in their spellings, one after the other by the same speller. -/
def spellTexts (s : Speller) : List String → List String × Speller
  | [] => ([], s)
  | text :: texts =>
    let (spelled, s) := s.spellText text
    let (rest, s) := s.spellTexts texts
    (spelled :: rest, s)

/-- The text of a module in the spellings that are settled. -/
def settledText (s : Speller) (text : String) : String :=
  Token.textOf (s.settledTokens none (Lexer.lex text))

/-- A run over texts spells the first one and goes on with the table that it left. -/
theorem spellTexts_cons (s : Speller) (text : String) (texts : List String) :
    s.spellTexts (text :: texts) =
      let rest := (s.spellText text).2.spellTexts texts
      ((s.spellText text).1 :: rest.1, rest.2) :=
  rfl

/-- Tokens whose names are settled are spelled alike by any later table. -/
theorem SettledIn.settledTokens_eq {s s' : Speller} (h : s.SettledIn s') {before : Option Token}
    {tokens : List Token} (hsettles : s.Settles before tokens) :
    s'.settledTokens before tokens = s.settledTokens before tokens := by
  refine List.mapIdx_eq_mapIdx_iff.mpr fun i hi => h.settledToken_eq fun hname hfree => ?_
  exact hsettles i _ (List.getElem?_eq_getElem hi) hname hfree

/-- What is settled in a table is settled in any later one. -/
theorem Settles.mono {s s' : Speller} {before : Option Token} {tokens : List Token}
    (h : s.Settles before tokens) (hs : s.SettledIn s') : s'.Settles before tokens := by
  intro i t ht hname hfree
  obtain ⟨spelling, hspelling⟩ := h i t ht hname hfree
  exact ⟨spelling, hs.settled? hspelling⟩

/-- **One module**: its text is in the spellings that are settled afterwards. -/
theorem spellText_spec {s : Speller} (hs : s.Faithful) {text : String}
    (htext : AsciiNames (Lexer.lex text)) :
    (s.spellText text).1 = (s.spellText text).2.settledText text ∧ s.Grown (s.spellText text).2 ∧
      (s.spellText text).2.Faithful ∧ (s.spellText text).2.Settles none (Lexer.lex text) := by
  obtain ⟨hspelled, hrest⟩ := spellAfter_spec hs htext (Eq.refl (Option.map Token.fold none))
  exact ⟨congrArg Token.textOf hspelled, hrest⟩

/-- **A run over modules**: their spellings are those settled at its end. -/
theorem spellTexts_spec {s : Speller} (hs : s.Faithful) {texts : List String}
    (htexts : ∀ text ∈ texts, AsciiNames (Lexer.lex text)) :
    (s.spellTexts texts).1 = texts.map (s.spellTexts texts).2.settledText ∧
      s.Grown (s.spellTexts texts).2 ∧ (s.spellTexts texts).2.Faithful ∧
      ∀ text ∈ texts, (s.spellTexts texts).2.Settles none (Lexer.lex text) := by
  induction texts generalizing s with
  | nil => exact ⟨rfl, .refl s, hs, by simp⟩
  | cons text texts ih =>
    obtain ⟨htext, htexts⟩ := List.forall_mem_cons.mp htexts
    obtain ⟨hfirst, hgrown, hfaithful, hsettles⟩ := spellText_spec hs htext
    obtain ⟨hrest, hmore, hfaithful', hsettles'⟩ := ih hfaithful htexts
    rw [spellTexts_cons]
    refine ⟨?_, hgrown.trans hmore, hfaithful',
      List.forall_mem_cons.mpr ⟨hsettles.mono hmore.toSettledIn, hsettles'⟩⟩
    have hsame := congrArg Token.textOf (hmore.toSettledIn.settledTokens_eq hsettles)
    exact congrArg₂ List.cons (hfirst.trans hsame.symm) hrest

/-! ### Modules in settled spellings -/

/-- Each token is spelled by itself, given whether it is an entry point. -/
theorem getElem?_settledTokens (s : Speller) (tokens : List Token) (i : Nat) :
    (s.settledTokens none tokens)[i]? =
      tokens[i]?.map (s.settledToken (isEntryPointAt tokens i)) :=
  List.getElem?_mapIdx

section Settled

variable {s : Speller} (hs : s.Faithful) {tokens : List Token} (htokens : AsciiNames tokens)
include hs htokens

/-- A faithful table changes nothing but letter case. -/
theorem Faithful.map_fold_settledTokens :
    (s.settledTokens none tokens).map Token.fold = tokens.map Token.fold := by
  refine List.ext_getElem? fun i => ?_
  rw [List.getElem?_map, List.getElem?_map, getElem?_settledTokens]
  cases ht : tokens[i]? with
  | none => rfl
  | some t =>
    rw [Option.map_some, Option.map_some, Option.map_some]
    exact congrArg some (hs.fold_settledToken _ (htokens t (List.mem_of_getElem? ht)))

/-- Entry points stay entry points. -/
theorem Faithful.isEntryPointAt_settledTokens (i : Nat) :
    isEntryPointAt (s.settledTokens none tokens) i = isEntryPointAt tokens i := by
  rw [isEntryPointAt, isEntryPointAt, ← isEntryPointAfter_map_fold,
    hs.map_fold_settledTokens htokens, isEntryPointAfter_map_fold]

end Settled

/-- **A spelled text is read as the spelled tokens**, since the lexer does not see letter case. -/
theorem Faithful.lex_settledText {s : Speller} (hs : s.Faithful) {text : String}
    (htext : AsciiNames (Lexer.lex text)) :
    Lexer.lex (s.settledText text) = s.settledTokens none (Lexer.lex text) :=
  Lexer.lex_textOf_of_fold (hs.map_fold_settledTokens htext)

/-! ### Spelling a second time -/

/-- A token that the speller `s` **leaves as it is**, with a table that `final` has outgrown. -/
structure LeftBy (s final : Speller) (entryPoint : Bool) (t : Token) : Prop where
  keyword : t.kind = .reserved → (Keyword.editorSpelling? t.text).getD t.text = t.text
  settled : t.kind = .name → entryPoint = false → final.settled? t.text = some t.text
  chosen : t.kind = .name → entryPoint = false → s.settled? t.text = none →
    s.choose t.text = t.text

/-- What is left as it is by a table is left so by any later one. -/
theorem LeftBy.mono {s s' final : Speller} {entryPoint : Bool} {t : Token}
    (h : LeftBy s final entryPoint t) (hs : s.SettledIn s') : LeftBy s' final entryPoint t := by
  refine ⟨h.keyword, h.settled, fun hname hfree hnone => ?_⟩
  rw [hs.choose_eq]
  exact h.chosen hname hfree (hs.settled?_eq_none hnone)

/-- A name that is spelled as settled at the end is settled on that spelling. -/
theorem settle_eq_self {s final : Speller} (hle : s.SettledIn final) {name : String}
    (hfinal : final.settled? name = some name)
    (hchosen : s.settled? name = none → s.choose name = name) :
    (s.settle name).1 = name ∧ (s.settle name).2.SettledIn final := by
  cases hsettled : s.settled? name with
  | some spelling =>
    have hsame := hle.settled? hsettled
    rw [hfinal, Option.some.injEq] at hsame
    rw [settle_of_some hsettled]
    exact ⟨hsame.symm, hle⟩
  | none =>
    rw [settle_of_none hsettled, hchosen hsettled]
    refine ⟨rfl, hle.style_eq, fun {other spelling} hother => ?_⟩
    rw [settled?_insert] at hother
    split at hother
    next hlower => rw [final.settled?_congr hlower, hfinal, ← hother]
    next => exact hle.settled? hother

/-- Spelling leaves a token as it is if the last table does, and the table stays between the two. -/
theorem respell_eq_self {s final : Speller} (hle : s.SettledIn final) {before : Option Token}
    {t : Token} {after : List Token} (ht : LeftBy s final (isEntryPoint before after) t) :
    (s.respell before t after).1 = t ∧ s.SettledIn (s.respell before t after).2 ∧
      (s.respell before t after).2.SettledIn final := by
  obtain ⟨kind, text⟩ := t
  cases kind with
  | reserved => exact ⟨congrArg (Token.mk .reserved) (ht.keyword rfl), .refl s, hle⟩
  | name =>
    cases hentry : isEntryPoint before after with
    | true =>
      have hkept : s.respell before ⟨.name, text⟩ after = (⟨.name, text⟩, s) := if_pos hentry
      rw [hkept]
      exact ⟨rfl, .refl s, hle⟩
    | false =>
      have hspelled : s.respell before ⟨.name, text⟩ after =
          (⟨.name, (s.settle text).1⟩, (s.settle text).2) := if_neg (by simp [hentry])
      obtain ⟨hsame, hle'⟩ := settle_eq_self hle (ht.settled rfl hentry) (ht.chosen rfl hentry)
      rw [hspelled]
      exact ⟨congrArg (Token.mk .name) hsame, s.settledIn_settle text, hle'⟩
  | _ => exact ⟨rfl, .refl s, hle⟩

/-- The same for a row of tokens, by induction on the row. -/
theorem spellAfter_eq_self {s final : Speller} (hle : s.SettledIn final) {before : Option Token}
    {ts : List Token}
    (hts : ∀ i t, ts[i]? = some t → LeftBy s final (isEntryPointAfter before ts i) t) :
    (spellAfter before s ts).1 = ts ∧ s.SettledIn (spellAfter before s ts).2 ∧
      (spellAfter before s ts).2.SettledIn final := by
  induction ts generalizing s before with
  | nil => exact ⟨rfl, .refl s, hle⟩
  | cons t ts ih =>
    have ht : LeftBy s final (isEntryPoint before ts) t := hts 0 t rfl
    obtain ⟨hfirst, hgrown, hle'⟩ := respell_eq_self hle ht
    have hrest : ∀ i u, ts[i]? = some u → LeftBy (s.respell before t ts).2 final
        (isEntryPointAfter (if t.isBlank then before else some t) ts i) u := by
      intro i u hu
      rw [← isEntryPointAfter_cons_succ]
      exact (hts (i + 1) u hu).mono hgrown
    obtain ⟨hmore, hgrown', hle''⟩ := ih hle' hrest
    rw [spellAfter_cons]
    simp only [hfirst]
    exact ⟨congrArg (t :: ·) hmore, hgrown.trans hgrown', hle''⟩

/-- **A second run** changes nothing, whether its table is empty or filled. -/
theorem spellTexts_eq_self {s final : Speller} (hle : s.SettledIn final) {texts : List String}
    (htexts : ∀ text ∈ texts, ∀ i t, (Lexer.lex text)[i]? = some t →
      LeftBy s final (isEntryPointAt (Lexer.lex text) i) t) :
    (s.spellTexts texts).1 = texts := by
  induction texts generalizing s with
  | nil => rfl
  | cons text texts ih =>
    obtain ⟨htext, htexts⟩ := List.forall_mem_cons.mp htexts
    obtain ⟨hfirst, hgrown, hle'⟩ := spellAfter_eq_self hle htext
    have hrest := ih hle' fun text htext i t ht => (htexts text htext i t ht).mono hgrown
    rw [spellTexts_cons]
    exact congrArg₂ List.cons ((congrArg Token.textOf hfirst).trans (Lexer.textOf_lex text)) hrest

end Speller

theorem Command.spellFiles_cons {m : Type → Type} [Monad m] [Host m]
    (writeBack : Bool) (s : Speller) (path : String) (files : List String) :
    Command.spellFiles (m := m) writeBack s (path :: files) = do
      let text ← Command.read path
      if (s.spellText text).1 = text then
        Command.spellFiles writeBack (s.spellText text).2 files
      else if writeBack then
        Command.write path (s.spellText text).1
        Command.reportLine (path ++ ": recased")
        Command.spellFiles writeBack (s.spellText text).2 files
      else
        Command.reportLine (path ++ ": casing differs")
        let _ ← Command.spellFiles writeBack (s.spellText text).2 files
        return false :=
  rfl

namespace Speller

/-! ### Settled tokens are left as they are -/

/-- A text **spells a name freely** if the name is one of its tokens and no entry point. -/
def SpellsFreely (text name : String) : Prop :=
  ∃ i, (Lexer.lex text)[i]? = some ⟨.name, name⟩ ∧ isEntryPointAt (Lexer.lex text) i = false

/-- A text **in another letter case** that differs only where the speller may change something: it
is the same word for word and has the same tokens with the same bounds, its free names are those of
the text, and the tokens that are neither keywords nor free names have not changed. -/
structure Recased (text out : String) : Prop where
  sameWord : sameWord text out = true
  kinds_eq : (Lexer.lex out).map Token.kind = (Lexer.lex text).map Token.kind
  lengths_eq : (Lexer.lex out).map (·.text.length) = (Lexer.lex text).map (·.text.length)
  spellsFreely : ∀ name, SpellsFreely text name →
    ∃ spelling, VbaModules.Text.sameWord name spelling = true ∧ SpellsFreely out spelling
  kept : ∀ i t, (Lexer.lex text)[i]? = some t → t.kind ≠ .reserved →
    (t.kind = .name → isEntryPointAt (Lexer.lex text) i = true) → (Lexer.lex out)[i]? = some t

section Settled

variable {s : Speller} (hs : s.Faithful) {text : String} (htext : AsciiNames (Lexer.lex text))
include hs htext

/-- A token of a spelled text is a token of the text, spelled. -/
theorem Faithful.exists_of_lex_settledText {i : Nat} {u : Token}
    (hu : (Lexer.lex (s.settledText text))[i]? = some u) :
    ∃ t, (Lexer.lex text)[i]? = some t ∧
      s.settledToken (isEntryPointAt (Lexer.lex text) i) t = u := by
  rw [hs.lex_settledText htext, getElem?_settledTokens, Option.map_eq_some_iff] at hu
  exact hu

/-- Entry points of a spelled text stand where those of the text stand. -/
theorem Faithful.isEntryPointAt_settledText (i : Nat) :
    isEntryPointAt (Lexer.lex (s.settledText text)) i = isEntryPointAt (Lexer.lex text) i := by
  rw [hs.lex_settledText htext, hs.isEntryPointAt_settledTokens htext]

/-- **A free name is spelled as settled.** -/
theorem Faithful.settled?_of_spellsFreely (hsettles : s.Settles none (Lexer.lex text))
    {name : String} (h : SpellsFreely (s.settledText text) name) :
    IsAscii name ∧ s.settled? name = some name := by
  obtain ⟨i, hu, hfree⟩ := h
  obtain ⟨t, ht, heq⟩ := hs.exists_of_lex_settledText htext hu
  rw [hs.isEntryPointAt_settledText htext] at hfree
  have hname : t.kind = .name := by rw [← s.kind_settledToken, heq]
  obtain ⟨spelling, hspelling⟩ := hsettles i t ht hname hfree
  obtain ⟨hascii, hsame⟩ := hs (htext t (List.mem_of_getElem? ht) hname) hspelling
  have hspelled : spelling = name := by
    simpa only [settledToken, hname, hfree, hspelling, Bool.false_eq_true, if_false,
      Option.getD_some] using congrArg Token.text heq
  rw [← hspelled]
  exact ⟨hascii, (s.settled?_congr (lower_eq_of_sameWord hsame)).trans hspelling⟩

/-- **A keyword has the editor's spelling.** -/
theorem Faithful.editorSpelling?_settledText {u : Token}
    (hu : u ∈ Lexer.lex (s.settledText text)) (hreserved : u.kind = .reserved) :
    (Keyword.editorSpelling? u.text).getD u.text = u.text := by
  obtain ⟨i, hi⟩ := List.mem_iff_getElem?.mp hu
  obtain ⟨t, -, rfl⟩ := hs.exists_of_lex_settledText htext hi
  rw [kind_settledToken] at hreserved
  simp only [settledToken, hreserved]
  cases hword : Keyword.editorSpelling? t.text with
  | none => rw [Option.getD_none, hword, Option.getD_none]
  | some spelling =>
    rw [Option.getD_some, Keyword.editorSpelling?_of_editorSpelling? hword, Option.getD_some]

/-- What an earlier table leaves as it is. -/
theorem Faithful.leftBy_settledText (hsettles : s.Settles none (Lexer.lex text)) {first : Speller}
    (hgrown : first.Grown s) {i : Nat} {u : Token}
    (hu : (Lexer.lex (s.settledText text))[i]? = some u) :
    LeftBy first s (isEntryPointAt (Lexer.lex (s.settledText text)) i) u := by
  have hsettled : u.kind = .name → isEntryPointAt (Lexer.lex (s.settledText text)) i = false →
      IsAscii u.text ∧ s.settled? u.text = some u.text := by
    intro hname hfree
    refine hs.settled?_of_spellsFreely htext hsettles ⟨i, ?_, hfree⟩
    rw [hu, ← hname]
  refine ⟨hs.editorSpelling?_settledText htext (List.mem_of_getElem? hu),
    fun hname hfree => (hsettled hname hfree).2, fun hname hfree hnone => ?_⟩
  obtain ⟨hascii, hsome⟩ := hsettled hname hfree
  exact hgrown.choose_eq hascii hnone hsome

/-- A spelled text is the text in another letter case. -/
theorem Faithful.recased_settledText : Recased text (s.settledText text) := by
  have hfold : (Lexer.lex (s.settledText text)).map Token.fold =
      (Lexer.lex text).map Token.fold := by
    rw [hs.lex_settledText htext, hs.map_fold_settledTokens htext]
  have hlength (t : Token) : t.fold.text.length = t.text.length := by
    rw [← String.length_toList, ← String.length_toList, Token.fold, toList_foldCase,
      List.length_map]
  -- kinds and lengths are those of the folded tokens, which have not changed
  refine ⟨?_, ?_, ?_, ?_, fun i t ht hreserved hentry => ?_⟩
  · rw [sameWord_iff, settledText, foldCase_textOf, hs.map_fold_settledTokens htext,
      ← foldCase_textOf, Lexer.textOf_lex]
  · have hkinds := congrArg (List.map Token.kind) hfold
    rwa [List.map_map, List.map_map] at hkinds
  · have hlengths := congrArg (List.map (·.text.length)) hfold
    simpa only [List.map_map, Function.comp_def, hlength] using hlengths
  · rintro name ⟨i, ht, hfree⟩
    have hword := congrArg Token.text
      (hs.fold_settledToken false (htext _ (List.mem_of_getElem? ht)))
    refine ⟨(s.settled? name).getD name, sameWord_iff.mpr hword.symm, i, ?_, ?_⟩
    · rw [hs.lex_settledText htext, getElem?_settledTokens, ht, hfree]
      rfl
    · rw [hs.isEntryPointAt_settledText htext, hfree]
  · rw [hs.lex_settledText htext, getElem?_settledTokens, ht, Option.map_some, settledToken]
    split
    next h => exact absurd h hreserved
    next h => rw [hentry h, if_pos rfl]
    next => rfl

end Settled

/-! ### Spelling files -/

/-- A module whose names are all settled leaves the table as it is. -/
theorem Faithful.spellText_of_settles {s : Speller} (hs : s.Faithful) {text : String}
    (htext : AsciiNames (Lexer.lex text)) (h : s.Settles none (Lexer.lex text)) :
    s.spellText text = (s.settledText text, s) := by
  have htable : (s.spellText text).2 = s :=
    h.spellAfter_snd hs htext (Eq.refl (Option.map Token.fold none))
  obtain ⟨hspelled, -⟩ := spellText_spec hs htext
  rw [htable] at hspelled
  exact Prod.ext hspelled htable

/-- A text **in the spellings** of a speller: they are settled for all its names, and it has
them. -/
structure Spells (s : Speller) (text : String) : Prop where
  ascii : AsciiNames (Lexer.lex text)
  settles : s.Settles none (Lexer.lex text)
  settledText_eq : s.settledText text = text

/-- What a table spells as it is, any later one does. -/
theorem Spells.mono {s s' : Speller} {text : String} (h : s.Spells text) (hs : s.SettledIn s') :
    s'.Spells text := by
  refine ⟨h.ascii, h.settles.mono hs, ?_⟩
  rw [settledText, hs.settledTokens_eq h.settles]
  exact h.settledText_eq

/-- Such a text is not changed, and neither is the table. -/
theorem Spells.spellText_eq {s : Speller} {text : String} (h : s.Spells text) (hs : s.Faithful) :
    s.spellText text = (text, s) := by
  rw [hs.spellText_of_settles h.ascii h.settles, h.settledText_eq]

/-- What comes of settled names is in the spellings of the speller. -/
theorem Faithful.spells_settledText {s : Speller} (hs : s.Faithful) {text : String}
    (htext : AsciiNames (Lexer.lex text)) (h : s.Settles none (Lexer.lex text)) :
    s.Spells (s.settledText text) := by
  have hascii : AsciiNames (Lexer.lex (s.settledText text)) := by
    intro u hu hname
    obtain ⟨i, hi⟩ := List.mem_iff_getElem?.mp hu
    cases hfree : isEntryPointAt (Lexer.lex (s.settledText text)) i with
    | false => exact (hs.settled?_of_spellsFreely htext h ⟨i, by rw [hi, ← hname], hfree⟩).1
    | true =>
      obtain ⟨t, ht, rfl⟩ := hs.exists_of_lex_settledText htext hi
      rw [hs.isEntryPointAt_settledText htext] at hfree
      rw [kind_settledToken] at hname
      have hkept : s.settledToken (isEntryPointAt (Lexer.lex text) i) t = t := by
        simp only [settledToken, hname, hfree, if_true]
      rw [hkept]
      exact htext t (List.mem_of_getElem? ht) hname
  have hsettles : s.Settles none (Lexer.lex (s.settledText text)) := by
    intro i u hu hname hfree
    exact ⟨u.text, (hs.settled?_of_spellsFreely htext h ⟨i, by rw [hu, ← hname], hfree⟩).2⟩
  have hsame : (s.spellTexts [s.settledText text]).1 = [s.settledText text] := by
    refine spellTexts_eq_self (.refl s) fun out hout i u hu => ?_
    rw [List.mem_singleton] at hout
    rw [hout] at hu ⊢
    exact hs.leftBy_settledText htext h (.refl s) hu
  simp only [spellTexts_cons, hs.spellText_of_settles hascii hsettles, List.cons.injEq] at hsame
  exact ⟨hascii, hsettles, hsame.1⟩

/-- The file at a path **holds a text**, as it is or in spellings that are settled. -/
structure Holds (s : Speller) (d : Directory) (path text : String) : Prop where
  ascii : AsciiNames (Lexer.lex text)
  readText_eq : d.readText path = .ok text ∨
    d.readText path = .ok (s.settledText text) ∧ s.Settles none (Lexer.lex text)

/-- What a table finds in a file as it should be, any later one does. -/
theorem Holds.mono {s s' : Speller} {d : Directory} {path text : String}
    (h : s.Holds d path text) (hs : s.SettledIn s') : s'.Holds d path text := by
  refine ⟨h.ascii, ?_⟩
  rcases h.readText_eq with hread | ⟨hread, hsettles⟩
  · exact .inl hread
  · rw [settledText, hs.settledTokens_eq hsettles]
    exact .inr ⟨hread, hsettles.mono hs⟩

/-- A file that is written in its spelling, maybe by another path, holds its text. -/
theorem Holds.of_written {s : Speller} (hs : s.Faithful) {d d' : Directory}
    {path text held : String} (h : s.Holds d path text) (hheld : AsciiNames (Lexer.lex held))
    (hne : (s.spellText held).1 ≠ held)
    (hwritten : ∀ read, d.readText path = .ok read → d'.readText path = .ok read ∨
      read = held ∧ d'.readText path = .ok (s.spellText held).1) :
    (s.spellText held).2.Holds d' path text := by
  obtain ⟨hspelled, hgrown, -, hsettles⟩ := spellText_spec hs hheld
  rcases h.readText_eq with hread | ⟨hread, hsettled⟩
  · refine ⟨h.ascii, ?_⟩
    rcases hwritten text hread with hkept | ⟨rfl, hnew⟩
    · exact .inl hkept
    · rw [hspelled] at hnew
      exact .inr ⟨hnew, hsettles⟩
  · rcases hwritten _ hread with hkept | ⟨heq, -⟩
    · exact Holds.mono ⟨h.ascii, .inr ⟨hkept, hsettled⟩⟩ hgrown.toSettledIn
    · -- what is in its spelling is not written again
      have hspells := hs.spells_settledText h.ascii hsettled
      rw [heq] at hspells
      exact absurd (congrArg Prod.fst (hspells.spellText_eq hs)) hne

section Files

variable {s : Speller} {desk : Desk} {path text : String}
  (hread : desk.directory.readText path = .ok text)
include hread

/-- A file in its spelling is left as it is. -/
theorem perform_spellFiles_of_eq (hsame : (s.spellText text).1 = text) (writeBack : Bool)
    (paths : List String) :
    desk.perform (Command.spellFiles writeBack s (path :: paths)) =
      desk.perform (Command.spellFiles writeBack (s.spellText text).2 paths) := by
  rw [Command.spellFiles_cons, Desk.perform_bind (Desk.perform_read hread), if_pos hsame]

/-- A file in another spelling is written, and reported. -/
theorem perform_spellFiles_of_ne (hne : (s.spellText text).1 ≠ text) {directory : Directory}
    (hwrite : desk.directory.writeText path (s.spellText text).1 = .ok directory)
    (paths : List String) :
    desk.perform (Command.spellFiles true s (path :: paths)) =
      Desk.perform ⟨directory, desk.output, desk.errors ++ (path ++ ": recased" ++ "\n")⟩
        (Command.spellFiles true (s.spellText text).2 paths) := by
  rw [Command.spellFiles_cons, Desk.perform_bind (Desk.perform_read hread), if_neg hne, if_pos rfl,
    Desk.perform_bind (Desk.perform_write hwrite), Desk.perform_bind (Desk.perform_reportLine _ _)]

end Files

/-- **Writing spellings back**: the command ends well, its files hold the spelled texts, and files
in their spellings are left as they are. -/
theorem exists_perform_spellFiles {s : Speller} (hs : s.Faithful) {desk : Desk}
    {paths texts : List String} (hholds : List.Forall₂ (s.Holds desk.directory) paths texts) :
    ∃ desk', desk.perform (Command.spellFiles true s paths) = (.ok true, desk') ∧
      List.Forall₂ (fun path out => desk'.directory.readText path = .ok out) paths
        (s.spellTexts texts).1 ∧
      ∀ path out, desk.directory.readText path = .ok out → s.Spells out →
        desk'.directory.readText path = .ok out := by
  induction paths generalizing s desk texts with
  | nil =>
    obtain rfl := List.forall₂_nil_left_iff.mp hholds
    exact ⟨desk, rfl, .nil, fun path out hread _ => hread⟩
  | cons path paths ih =>
    obtain ⟨text, texts, hfirst, hrest, rfl⟩ := List.forall₂_cons_left_iff.mp hholds
    obtain ⟨hspelled, hgrown, hfaithful, hsettles⟩ := spellText_spec hs hfirst.ascii
    have hout : (s.spellText text).2.Spells (s.spellText text).1 := by
      rw [hspelled]
      exact hfaithful.spells_settledText hfirst.ascii hsettles
    rcases hfirst.readText_eq with hread | ⟨hread, hsettled⟩
    · by_cases hsame : (s.spellText text).1 = text
      · obtain ⟨desk', hperform, hreads, hkept⟩ :=
          ih hfaithful (hrest.imp fun _ _ h => h.mono hgrown.toSettledIn)
        refine ⟨desk', ?_, ?_, fun other out hother hspells =>
          hkept other out hother (hspells.mono hgrown.toSettledIn)⟩
        · rw [perform_spellFiles_of_eq hread hsame, hperform]
        · rw [← hsame] at hread
          exact .cons (hkept path _ hread hout) hreads
      · obtain ⟨directory, hwrite, hwritten, hothers⟩ :=
          Directory.exists_writeText hread (s.spellText text).1
        obtain ⟨desk', hperform, hreads, hkept⟩ :=
          @ih _ hfaithful ⟨directory, desk.output, _⟩ texts
            (hrest.imp fun other _ h => h.of_written hs hfirst.ascii hsame (hothers other))
        refine ⟨desk', ?_, .cons (hkept path _ hwritten hout) hreads,
          fun other out hother hspells => ?_⟩
        · rw [perform_spellFiles_of_ne hread hsame hwrite, hperform]
        · -- the file was not in its spelling, so this is another file
          rcases hothers other out hother with hother' | ⟨rfl, -⟩
          · exact hkept other out hother' (hspells.mono hgrown.toSettledIn)
          · exact absurd (congrArg Prod.fst (hspells.spellText_eq hs)) hsame
    · -- the file was written before by another path
      have hspells := hs.spells_settledText hfirst.ascii hsettled
      have hagain := hspells.spellText_eq hs
      obtain ⟨desk', hperform, hreads, hkept⟩ := ih hs hrest
      refine ⟨desk', ?_, ?_, hkept⟩
      · rw [perform_spellFiles_of_eq hread (congrArg Prod.fst hagain), hagain, hperform]
      · rw [spellTexts_cons, hs.spellText_of_settles hfirst.ascii hsettled]
        exact .cons (hkept path _ hread hspells) hreads

/-- The command has nothing to say about files whose texts the speller leaves as they are. -/
theorem perform_spellFiles_of_spellTexts {s : Speller} {desk : Desk} {paths texts : List String}
    (hread : List.Forall₂ (fun path text => desk.directory.readText path = .ok text) paths texts)
    (hsame : (s.spellTexts texts).1 = texts) (writeBack : Bool) :
    desk.perform (Command.spellFiles writeBack s paths) = (.ok true, desk) := by
  induction hread generalizing s with
  | nil => rfl
  | @cons path text paths texts hpath _ ih =>
    rw [spellTexts_cons] at hsame
    obtain ⟨hfirst, hrest⟩ := List.cons.inj hsame
    rw [perform_spellFiles_of_eq hpath hfirst, ih hrest]

/-! ### Running the speller over modules, once and twice -/

/-- The names in an ASCII text are in ASCII. -/
theorem asciiNames_of_isAscii {text : String} (h : IsAscii text) :
    AsciiNames (Lexer.lex text) := by
  intro t ht _ c hc
  refine h c ?_
  rw [← Lexer.textOf_lex text, Token.toList_textOf]
  exact List.mem_flatMap.mpr ⟨t, ht, hc⟩

/-- **Spelling is a fixpoint**: a second run over what has come out of the first changes nothing.
It may go on with the speller of the first run or begin with a new one. So the command that looks
for other spellings finds none in files that the command has written before, in any directory and
by whatever paths they are given. -/
theorem spellTexts_spellTexts (style : Option NameStyle) {overrides texts : List String}
    (hoverrides : ∀ name ∈ overrides, IsAscii name)
    (htexts : ∀ text ∈ texts, AsciiNames (Lexer.lex text)) :
    let speller := (ofStyle style).override overrides
    let spelled := (speller.spellTexts texts).1
    let after := (speller.spellTexts texts).2
    (after.spellTexts spelled).1 = spelled ∧ (speller.spellTexts spelled).1 = spelled ∧
      ∀ (desk : Desk) (paths : List String),
        List.Forall₂ (fun path text => desk.directory.readText path = .ok text) paths texts →
        ∃ desk', desk.perform (Command.spellFiles true speller paths) = (.ok true, desk') ∧
          List.Forall₂ (fun path out => desk'.directory.readText path = .ok out) paths spelled ∧
          desk'.perform (Command.spellFiles false speller paths) = (.ok true, desk') := by
  obtain ⟨heq, hgrown, hfaithful, hsettles⟩ :=
    spellTexts_spec (faithful_override hoverrides style) htexts
  have hagain {first : Speller}
      (hfirst : first.Grown (((ofStyle style).override overrides).spellTexts texts).2) :
      (first.spellTexts (((ofStyle style).override overrides).spellTexts texts).1).1 =
        (((ofStyle style).override overrides).spellTexts texts).1 := by
    rw [heq]
    refine spellTexts_eq_self hfirst.toSettledIn fun out hout i u hu => ?_
    obtain ⟨text, htext, rfl⟩ := List.mem_map.mp hout
    exact hfaithful.leftBy_settledText (htexts text htext) (hsettles text htext) hfirst hu
  refine ⟨hagain (.refl _), hagain hgrown, fun desk paths hread => ?_⟩
  have hholds : List.Forall₂ (((ofStyle style).override overrides).Holds desk.directory)
      paths texts := by
    have hboth := (List.forall₂_and_left texts paths).mpr ⟨htexts, hread.flip⟩
    exact (hboth.imp fun text path h => ⟨h.1, .inl h.2⟩).flip
  obtain ⟨desk', hperform, hreads, -⟩ :=
    exists_perform_spellFiles (faithful_override hoverrides style) hholds
  exact ⟨desk', hperform, hreads, perform_spellFiles_of_spellTexts hreads (hagain hgrown) false⟩

/-- Two modules that spell a name and an entry point in several ways. -/
def camelTexts : List String :=
  ["declare sub Total lib \"k\" ()\nSub TOTAL(Rows)\nEND SUB\n", "Total ROWS\n"]

/-- A desk with two files of given texts. -/
def deskOf (grid row : String) : Desk :=
  ⟨⟨[], [(["grid.bas"], grid.toUTF8), (["row.bas"], row.toUTF8)]⟩, "", ""⟩

theorem readText_deskOf (grid row : String) :
    List.Forall₂ (fun path text => (deskOf grid row).directory.readText path = .ok text)
      ["grid.bas", "row.bas"] [grid, row] :=
  .cons (Directory.readText_of_name (by decide) (by decide) (by decide) (by decide) rfl)
    (.cons (Directory.readText_of_name (by decide) (by decide) (by decide) (by decide) rfl) .nil)

/-- The two modules are spelled in their files, and then nothing is left to be spelled. -/
theorem spellTexts_spellTexts_camel :
    let speller := (ofStyle (some .camel)).override ["ROWS", "rowS"]
    let spelled := (speller.spellTexts camelTexts).1
    (∀ name ∈ ["ROWS", "rowS"], IsAscii name) ∧
      (∀ text ∈ camelTexts, AsciiNames (Lexer.lex text)) ∧
      (speller.spellTexts spelled).1 = spelled ∧
      ∃ desk', (deskOf camelTexts[0] camelTexts[1]).perform
          (Command.spellFiles true speller ["grid.bas", "row.bas"]) = (.ok true, desk') ∧
        List.Forall₂ (fun path out => desk'.directory.readText path = .ok out)
          ["grid.bas", "row.bas"] spelled ∧
        desk'.perform (Command.spellFiles false speller ["grid.bas", "row.bas"]) =
          (.ok true, desk') := by
  have hoverrides : ∀ name ∈ ["ROWS", "rowS"], IsAscii name := by
    simp only [List.forall_mem_cons]
    exact ⟨by decide, by decide, by simp⟩
  have htexts : ∀ text ∈ camelTexts, AsciiNames (Lexer.lex text) := by
    simp only [camelTexts, List.forall_mem_cons]
    exact ⟨asciiNames_of_isAscii (by decide), asciiNames_of_isAscii (by decide), by simp⟩
  obtain ⟨-, hagain, hfiles⟩ := spellTexts_spellTexts (some .camel) hoverrides htexts
  exact ⟨hoverrides, htexts, hagain, hfiles _ _ (readText_deskOf _ _)⟩

/-- **Spelling changes letter case only, and makes it uniform.** Keywords get the spelling of the
editor, free names get one spelling over all modules, which is their last override if they have
one, and everything else stays. -/
theorem spellTexts_uniform (style : Option NameStyle) {overrides texts : List String}
    (hoverrides : ∀ name ∈ overrides, IsAscii name)
    (htexts : ∀ text ∈ texts, AsciiNames (Lexer.lex text)) :
    let spelled := (((ofStyle style).override overrides).spellTexts texts).1
    List.Forall₂ Recased texts spelled ∧
      (∀ out ∈ spelled, ∀ t ∈ Lexer.lex out, t.kind = .reserved →
        Keyword.editorSpelling? t.text = some t.text) ∧
      (∀ out ∈ spelled, ∀ out' ∈ spelled, ∀ name name', SpellsFreely out name →
        SpellsFreely out' name' → sameWord name name' = true → name = name') ∧
      ∀ out ∈ spelled, ∀ name, SpellsFreely out name → ∀ last,
        overrides.reverse.find? (sameWord · name) = some last → name = last := by
  obtain ⟨heq, hgrown, hfaithful, hsettles⟩ :=
    spellTexts_spec (faithful_override hoverrides style) htexts
  -- every name that comes out is settled on the spelling it has
  have hsettled : ∀ out ∈ (((ofStyle style).override overrides).spellTexts texts).1,
      ∀ name, SpellsFreely out name → IsAscii name ∧
        (((ofStyle style).override overrides).spellTexts texts).2.settled? name = some name := by
    intro out hout name hname
    rw [heq] at hout
    obtain ⟨text, htext, rfl⟩ := List.mem_map.mp hout
    exact hfaithful.settled?_of_spellsFreely (htexts text htext) (hsettles text htext) hname
  refine ⟨?_, fun out hout t ht hreserved => ?_, ?_, ?_⟩
  · rw [heq, List.forall₂_map_right_iff, List.forall₂_same]
    exact fun text htext => hfaithful.recased_settledText (htexts text htext)
  · rw [heq] at hout
    obtain ⟨text, htext, rfl⟩ := List.mem_map.mp hout
    have hkept := hfaithful.editorSpelling?_settledText (htexts text htext) ht hreserved
    obtain ⟨spelling, hspelling⟩ :=
      Option.isSome_iff_exists.mp (Lexer.contains_of_mem_lex ht hreserved)
    rw [hspelling, Option.getD_some] at hkept
    rw [hspelling, hkept]
  · intro out hout out' hout' name name' hname hname' hsame
    have hlower := lower_eq_of_sameWord hsame
    have hagree := settled?_congr (((ofStyle style).override overrides).spellTexts texts).2 hlower
    rw [(hsettled out hout name hname).2, (hsettled out' hout' name' hname').2] at hagree
    exact Option.some.inj hagree
  · intro out hout name hname last hlast
    obtain ⟨hascii, hsome⟩ := hsettled out hout name hname
    -- overrides are found by their lower-case forms, which in ASCII tell words apart
    have hfind : overrides.reverse.find? (lower · == lower name) = some last := by
      rw [← hlast]
      refine List.find?_congr fun override hmem => ?_
      rw [Bool.eq_iff_iff, beq_iff_eq]
      exact lower_eq_iff_sameWord (hoverrides override (List.mem_reverse.mp hmem)) hascii
    have hfirst : ((ofStyle style).override overrides).settled? name = some last := by
      rw [settled?_override, hfind, Option.some_or]
    rw [hgrown.settled? hfirst] at hsome
    exact (Option.some.inj hsome).symm

/-- The name of a module is spelled freely. -/
theorem spellsFreely_namingText {name : String} (h : Lexer.FitsLiteral name) (rest : String) :
    SpellsFreely (namingText name ++ rest) name := by
  rw [SpellsFreely, Lexer.lex_namingText_append_eq h]
  exact ⟨7, rfl, rfl⟩

/-- Two modules with the same name in other letters. -/
def namesakeTexts : List String :=
  [namingText "Rows" ++ "f 1\n", namingText "rows" ++ "g ROWS\n"]

/-- Both texts spell the same name freely, each in its own way. -/
theorem spellsFreely_namesakeTexts : ∀ text ∈ namesakeTexts,
    ∃ name, SpellsFreely text name ∧ sameWord name "rowS" = true := by
  simp only [namesakeTexts, List.forall_mem_cons]
  exact ⟨⟨_, spellsFreely_namingText (.of_isQuotable (by decide)) _, by decide⟩,
    ⟨_, spellsFreely_namingText (.of_isQuotable (by decide)) _, by decide⟩, by simp⟩

/-- A name with two overrides, in modules that spell it in other ways: both spell it as the last
override does. -/
theorem spellTexts_uniform_last :
    let speller := (ofStyle (some .pascal)).override ["ROWS", "rowS"]
    (∀ name ∈ ["ROWS", "rowS"], IsAscii name) ∧
      (∀ text ∈ namesakeTexts, AsciiNames (Lexer.lex text)) ∧
      ∀ out ∈ (speller.spellTexts namesakeTexts).1, SpellsFreely out "rowS" ∧
        ∀ name, SpellsFreely out name → sameWord "rowS" name = true → name = "rowS" := by
  have hoverrides : ∀ name ∈ ["ROWS", "rowS"], IsAscii name := by
    simp only [List.forall_mem_cons]
    exact ⟨by decide, by decide, by simp⟩
  have htexts : ∀ text ∈ namesakeTexts, AsciiNames (Lexer.lex text) := by
    simp only [namesakeTexts, List.forall_mem_cons]
    exact ⟨asciiNames_of_isAscii (by decide), asciiNames_of_isAscii (by decide), by simp⟩
  obtain ⟨hrecased, -, -, hlast⟩ := spellTexts_uniform (some .pascal) hoverrides htexts
  refine ⟨hoverrides, htexts, fun out hout => ?_⟩
  have hspelling : ∀ name, SpellsFreely out name → sameWord "rowS" name = true →
      name = "rowS" := by
    intro name hname hsame
    refine hlast out hout name hname _ ?_
    simp [hsame]
  obtain ⟨text, htext, hfrom⟩ := exists_mem_of_forall₂ hrecased.flip hout
  obtain ⟨name, hname, hsame⟩ := spellsFreely_namesakeTexts text htext
  obtain ⟨spelling, hsame', hfree⟩ := hfrom.spellsFreely name hname
  have hword : sameWord "rowS" spelling = true := by
    rw [sameWord_iff, ← sameWord_iff.mp hsame, sameWord_iff.mp hsame']
  exact ⟨hspelling spelling hfree hword ▸ hfree, hspelling⟩

end Speller

end VbaModules

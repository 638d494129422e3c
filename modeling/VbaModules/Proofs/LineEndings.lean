import VbaModules.Proofs.DroppedReturns
import VbaModules.Proofs.LineLocality
import VbaModules.Proofs.LosslessLexing

/-!
# Merging does not depend on the line endings

Modules may end their lines with line feeds or with a carriage return before each line feed, also in
any mix. What is merged from them is the same, and so is the error if they cannot be merged
(`merge_ofTexts_withReturns`).

If every carriage return of a text stands before a line feed (`ReturnsPaired`), they all are in
blanks and line breaks, since no other token reaches over the end of a line. Which tokens there are
is not changed by removing the carriage returns, because the lexer looks no further than to the end
of the line. So lexing the text without them gives the tokens with them dropped
(`Lexer.lex_withoutReturns`), and of that merging takes no notice.
-/

namespace VbaModules

open Text

namespace Lexer

/-! ### Paired carriage returns -/

/-- Every carriage return stands directly before a line feed. -/
def ReturnsPaired : List Char → Prop
  | [] => True
  | c :: cs => (c = '\r' → cs.head? = some '\n') ∧ ReturnsPaired cs

instance decidableReturnsPaired : (cs : List Char) → Decidable (ReturnsPaired cs)
  | [] => inferInstanceAs (Decidable True)
  | c :: cs =>
    have := decidableReturnsPaired cs
    inferInstanceAs (Decidable ((c = '\r' → cs.head? = some '\n') ∧ ReturnsPaired cs))

/-- The characters without the carriage returns. -/
def returnless (cs : List Char) : List Char :=
  cs.filter (· != '\r')

section ReturnsPaired

variable {text rest cs : List Char}

/-- In the rest of a text carriage returns are paired as well. -/
theorem ReturnsPaired.of_append (h : ReturnsPaired (text ++ rest)) : ReturnsPaired rest := by
  induction text with
  | nil => exact h
  | cons c text ih => exact ih h.2

/-- A cut that divides no line break has no carriage return before it. -/
theorem ReturnsPaired.getLast?_ne (h : ReturnsPaired (text ++ rest)) (hcut : Unsplit text rest) :
    text.getLast? ≠ some '\r' := by
  intro hlast
  obtain ⟨before, rfl⟩ := List.getLast?_eq_some_iff.mp hlast
  rw [List.append_assoc] at h
  have hfeed : rest.head? = some '\n' := h.of_append.1 rfl
  simpa using hcut hlast '\n' hfeed

@[simp]
theorem returnless_append (text rest : List Char) :
    returnless (text ++ rest) = returnless text ++ returnless rest :=
  List.filter_append text rest

theorem returnless_cons_of_ne {c : Char} (hc : c ≠ '\r') (cs : List Char) :
    returnless (c :: cs) = c :: returnless cs :=
  List.filter_cons_of_pos (by simpa using hc)

/-- Text within a line has no carriage returns to lose. -/
theorem returnless_of_forall (h : ∀ c ∈ cs, isBreakChar c = false) : returnless cs = cs := by
  refine List.filter_eq_self.mpr fun c hc => ?_
  exact bne_iff_ne.mpr fun heq => by simpa [heq, isBreakChar] using h c hc

/-- A text without carriage returns tears no line break apart. -/
theorem unsplit_returnless (text rest : List Char) : Unsplit (returnless text) rest :=
  unsplit_of_forall (p := (· != '\r')) (fun _ hc => (List.mem_filter.mp hc).2) (by decide) rest

/-- The end of a line stays the end of a line. -/
theorem ReturnsPaired.exists_feed (h : ReturnsPaired rest) (hends : AtLineEnd rest)
    (hne : rest ≠ []) : ∃ more, returnless rest = '\n' :: more := by
  obtain ⟨c, rest, rfl⟩ := List.exists_cons_of_ne_nil hne
  rw [AtLineEnd, notNext_cons, Bool.not_eq_false'] at hends
  rcases eq_of_isBreakChar hends with rfl | rfl
  · obtain ⟨more, rfl⟩ := List.head?_eq_some_iff.mp (h.1 rfl)
    exact ⟨returnless more, rfl⟩
  · exact ⟨returnless rest, rfl⟩

/-- The first line is the same without carriage returns. -/
theorem ReturnsPaired.exists_sameLine (h : ReturnsPaired rest) :
    ∃ line tail, rest = line ++ tail ∧ returnless rest = line ++ returnless tail ∧
      SameLine line tail (returnless tail) := by
  obtain ⟨line, tail, rfl, -, hline, hends⟩ := exists_run (!isBreakChar ·) rest
  have hplain : ∀ c ∈ line, isBreakChar c = false := by simpa using hline
  refine ⟨line, tail, rfl, by rw [returnless_append, returnless_of_forall hplain], hplain, hends,
    ?_, ?_⟩
  · by_cases hne : tail = []
    · subst hne
      exact notNext_nil _
    · obtain ⟨more, hmore⟩ := h.of_append.exists_feed hends hne
      rw [hmore]
      exact notNext_cons.mpr (by decide)
  · constructor
    · rintro rfl
      rfl
    · intro hnil
      by_contra hne
      obtain ⟨more, hmore⟩ := h.of_append.exists_feed hends hne
      rw [hnil] at hmore
      cases hmore

end ReturnsPaired

/-! ### Lexemes without carriage returns -/

section Lexemes

variable {state : LineState} {kind : Token.Kind} {text rest : List Char}

/-- A literal does not go beyond its line. -/
theorem LiteralTail.isBreakChar_eq_false {isClosed : Bool} {cs : List Char}
    (h : LiteralTail isClosed cs) : ∀ c ∈ cs, isBreakChar c = false := by
  induction h with
  | unclosed => simp
  | closed => simp [isBreakChar]
  | pair _ ih => simpa [isBreakChar] using ih
  | char _ hbreak _ ih => exact List.forall_mem_cons.mpr ⟨hbreak, ih⟩

/-- **Only blanks and line breaks reach over the end of a line.** -/
theorem Lexeme.isBreakChar_eq_false (h : Lexeme state kind text rest) (hblank : kind ≠ .blank)
    (hbreak : kind ≠ .lineBreak) : ∀ c ∈ text, isBreakChar c = false := by
  have hletters : ∀ {word : List Char}, (∀ c ∈ word, isWordChar c = true) →
      ∀ c ∈ word, isBreakChar c = false :=
    fun hword c hc => isBreakChar_eq_false_of_isWordChar (hword c hc)
  cases h with
  | lineBreak => exact absurd rfl hbreak
  | blank => exact absurd rfl hblank
  | literal hcs _ => exact List.forall_mem_cons.mpr ⟨by decide, hcs.isBreakChar_eq_false⟩
  | comment hcs _ => exact List.forall_mem_cons.mpr ⟨by decide, hcs⟩
  | remark _ hword _ _ hcs _ =>
    exact List.forall_mem_append.mpr ⟨hletters (forall_isWordChar_of_isIdentifier hword), hcs⟩
  | directive _ hcs _ => exact List.forall_mem_cons.mpr ⟨by decide, hcs.isBreakChar_eq_false⟩
  | numberSign => simp [isBreakChar]
  | radix hcs => exact List.forall_mem_cons.mpr ⟨by decide, hcs.isBreakChar_eq_false⟩
  | ampersand => simp [isBreakChar]
  | word hcs _ _ => exact hletters (forall_isWordChar_of_isIdentifier hcs)
  | number hc hcs _ =>
    exact hletters (List.forall_mem_cons.mpr ⟨(isAlpha_eq_false_of_isDigit hc).2, hcs⟩)
  | other hc =>
    simp only [isOther, Bool.not_eq_true', Bool.or_eq_false_iff] at hc
    exact List.forall_mem_singleton.mpr hc.1.1.1.1.1.1

/-- A line break without its carriage return is a line feed, unless it is a carriage return alone.
-/
theorem returnless_of_isBreak {lineBreak : List Char} (h : IsBreak lineBreak)
    (hlast : lineBreak.getLast? ≠ some '\r') : returnless lineBreak = ['\n'] := by
  rcases h with rfl | rfl | rfl
  · rfl
  · rfl
  · exact absurd rfl hlast

/-- White space stays white space without paired carriage returns, with the line continuations in
it. -/
theorem Spacing.returnless_of_paired {cs : List Char} (h : Spacing cs)
    (hpaired : ReturnsPaired (cs ++ rest)) (hcut : Unsplit cs rest) : Spacing (returnless cs) := by
  induction h with
  | nil => exact .nil
  | @blank c cs hc _ ih =>
    rw [returnless_cons_of_ne (ne_of_class hc (by decide))]
    exact .blank hc (ih hpaired.2 (show Unsplit ([c] ++ cs) rest from hcut).of_append)
  | @continuation gap lineBreak cs hgap hbreak hcs ih =>
    have hwhole : '_' :: (gap ++ (lineBreak ++ cs)) = ('_' :: gap ++ lineBreak) ++ cs := by simp
    have hblanks : ∀ c ∈ gap, isBreakChar c = false :=
      fun c hc => isBreakChar_eq_false_of_isBlankChar (hgap c hc)
    have hrest : Unsplit cs rest := by
      rw [hwhole] at hcut
      exact hcut.of_append
    have hlineBreak : ReturnsPaired (lineBreak ++ (cs ++ rest)) := by
      have hgapped : ReturnsPaired (gap ++ (lineBreak ++ (cs ++ rest))) := by
        simpa using hpaired.2
      exact hgapped.of_append
    -- spacing does not begin with a line feed, so the line break is not divided
    have hbreakCut : Unsplit lineBreak (cs ++ rest) := by
      refine fun hlast => hcs.notNext_feed fun hnil => hcut ?_
      rw [hwhole, hnil, List.append_nil, List.getLast?_append, hlast]
      rfl
    rw [returnless_cons_of_ne (by decide), returnless_append, returnless_append,
      returnless_of_forall hblanks,
      returnless_of_isBreak hbreak (hlineBreak.getLast?_ne hbreakCut)]
    exact .continuation hgap (.inl rfl) (ih hlineBreak.of_append hrest)

/-- **A lexeme stays a lexeme without the carriage returns** in it and after it. -/
theorem Lexeme.returnless_of_paired (h : Lexeme state kind text rest)
    (hpaired : ReturnsPaired (text ++ rest)) :
    Lexeme state kind (returnless text) (returnless rest) := by
  -- what follows is exchanged first, since its line is the same; then the lexeme itself
  have hafter : Lexeme state kind text (returnless rest) := by
    obtain ⟨line, tail, rfl, hdropped, hline⟩ := hpaired.of_append.exists_sameLine
    rw [hdropped]
    exact h.of_sameLine hline fun hcut hlast => absurd hlast (hpaired.getLast?_ne hcut)
  by_cases hbreak : kind = .lineBreak
  · subst hbreak
    obtain ⟨htext, hcut⟩ := lexeme_lineBreak_iff.mp h
    rw [returnless_of_isBreak htext (hpaired.getLast?_ne hcut)]
    exact .lineBreak (.inl rfl) fun hlast => by cases hlast
  by_cases hblank : kind = .blank
  · subst hblank
    obtain ⟨c, cs, rfl, hc, hcs, -, hcut⟩ := h.exists_spacing_of_blank
    obtain ⟨-, -, -, -, -, hends, -⟩ := hafter.exists_spacing_of_blank
    rw [returnless_cons_of_ne (ne_of_class hc (by decide))]
    exact .blank hc (hcs.returnless_of_paired hpaired.2 hcut) hends (unsplit_returnless _ _)
  rwa [returnless_of_forall (h.isBreakChar_eq_false hblank hbreak)]

end Lexemes

/-! ### Tokens with other blanks and line breaks -/

/-- A change of tokens is a **change of spacing** for the texts with a property if it changes the
blanks and line breaks in the way that `g` changes characters, and what has been a lexeme is one
afterwards. Nothing but blanks and line breaks is changed by `g`. -/
structure Respaces (f : Token → Token) (g : List Char → List Char) (P : List Char → Prop) : Prop
    extends KeepsCode f where
  append_eq : ∀ text rest, g (text ++ rest) = g text ++ g rest
  eq_self_of_plain : ∀ cs, (∀ c ∈ cs, isBreakChar c = false) → g cs = cs
  toList_text : ∀ t, (t.isBlank || t.isLineBreak) = true → (f t).text.toList = g t.text.toList
  of_append : ∀ text rest, P (text ++ rest) → P rest
  lexeme : ∀ state kind text rest, Lexeme state kind text rest → P (text ++ rest) →
    Lexeme state kind (g text) (g rest)
  head?_eq_mark_iff : ∀ cs, P cs → ((g cs).head? = some '\uFEFF' ↔ cs.head? = some '\uFEFF')

section Tokens

variable {state : LineState} {t : Token} {ts : List Token}

section Respaces

variable {f : Token → Token} {g : List Char → List Char} {P : List Char → Prop}
  (hf : Respaces f g P)
include hf

/-- The text of a changed lexeme is the text, changed. -/
theorem Respaces.toList_text_of_lexeme {rest : List Char}
    (h : Lexeme state t.kind t.text.toList rest) : (f t).text.toList = g t.text.toList := by
  cases hspace : t.isBlank || t.isLineBreak with
  | true => exact hf.toList_text t hspace
  | false =>
    rw [Bool.or_eq_false_iff] at hspace
    rw [hf.eq_self t hspace.1 hspace.2, hf.eq_self_of_plain]
    exact h.isBreakChar_eq_false (beq_eq_false_iff_ne.mp hspace.1) (beq_eq_false_iff_ne.mp hspace.2)

/-- A row of lexemes stays one. -/
theorem Respaces.cuts_map (h : Cuts state ts) (hchars : P (charsOf ts)) :
    Cuts state (ts.map f) ∧ charsOf (ts.map f) = g (charsOf ts) := by
  induction h with
  | nil state => exact ⟨.nil state, (hf.eq_self_of_plain [] (by simp)).symm⟩
  | @cons state t ts hlexeme _ ih =>
    rw [charsOf_cons] at hchars
    obtain ⟨hcuts, hrest⟩ := ih (hf.of_append _ _ hchars)
    have htext := hf.toList_text_of_lexeme hlexeme
    rw [List.map_cons, charsOf_cons, charsOf_cons, hf.append_eq, htext, hrest]
    refine ⟨.cons ?_ ?_, rfl⟩
    · rw [hf.kind_eq, htext, hrest]
      exact hf.lexeme _ _ _ _ hlexeme hchars
    · rwa [hf.after_eq]

/-- The changed text is read as the changed tokens. -/
theorem Respaces.scan_eq {cs : List Char} (h : P cs) (state : LineState) :
    scan state (g cs) = (scan state cs).map f := by
  obtain ⟨hcuts, hchars⟩ := hf.cuts_map (cuts_scan state cs) (by rwa [charsOf_scan])
  rw [charsOf_scan] at hchars
  rw [← hchars, hcuts.scan_eq]

/-- The same for a module, which may begin with a byte order mark. -/
theorem Respaces.scanModule_eq {cs : List Char} (h : P cs) :
    scanModule (g cs) = (scanModule cs).map f := by
  by_cases hmark : cs.head? = some '\uFEFF'
  · obtain ⟨cs, rfl⟩ := List.head?_eq_some_iff.mp hmark
    have hsingle : g ['\uFEFF'] = ['\uFEFF'] := hf.eq_self_of_plain _ (by simp [isBreakChar])
    have htoken : f markToken = markToken := by
      have htext : (f markToken).text = "\uFEFF" := by
        rw [← String.toList_inj, hf.toList_text markToken rfl]
        exact hsingle
      have hkind := hf.kind_eq markToken
      cases hsame : f markToken with
      | mk kind text =>
        rw [hsame] at htext hkind
        simp only at htext hkind
        rw [htext, hkind]
        rfl
    have hchars : g ('\uFEFF' :: cs) = '\uFEFF' :: g cs := by
      rw [← List.singleton_append, hf.append_eq, hsingle, List.singleton_append]
    rw [hchars, scanModule_mark, scanModule_mark, hf.scan_eq (hf.of_append ['\uFEFF'] cs h),
      List.map_cons, htoken]
  · have hmark' := mt (hf.head?_eq_mark_iff cs h).mp hmark
    rw [scanModule_of_head?_ne hmark, scanModule_of_head?_ne hmark', hf.scan_eq h]

/-- **The tokens of a text with other spacing** are those of the text with the blanks and line
breaks changed. -/
theorem Respaces.lex_eq {text text' : String} (h : P text.toList)
    (htext : text'.toList = g text.toList) : lex text' = (lex text).map f := by
  rw [lex_eq_splitNames, lex_eq_splitNames, htext, hf.scanModule_eq h, hf.splitNames_map]

end Respaces

/-! ### Tokens without carriage returns -/

/-- The lexer reads a text without paired carriage returns as it reads the text, with those of its
tokens dropped. -/
theorem respaces_dropReturns : Respaces Token.dropReturns returnless ReturnsPaired where
  toKeepsCode := keepsCode_dropReturns
  append_eq := returnless_append
  eq_self_of_plain _ := returnless_of_forall
  toList_text t hspace := by
    rw [Token.dropReturns, if_pos hspace, Token.toList_withoutReturns]
    rfl
  of_append _ _ := ReturnsPaired.of_append
  lexeme _ _ _ _ := Lexeme.returnless_of_paired
  head?_eq_mark_iff cs hpaired := by
    cases cs with
    | nil => rfl
    | cons c cs =>
      by_cases hc : c = '\r'
      · -- a line feed comes first then
        obtain ⟨more, rfl⟩ := List.head?_eq_some_iff.mp (hpaired.1 hc)
        subst hc
        simp [returnless]
      · rw [returnless_cons_of_ne hc]
        exact Iff.rfl

/-- **The tokens of a text without carriage returns** are those of the text with the carriage
returns dropped, if they all stand before line feeds. -/
theorem lex_withoutReturns {text : String} (hpaired : ReturnsPaired text.toList) :
    lex (withoutReturns text) = (lex text).map Token.dropReturns :=
  respaces_dropReturns.lex_eq hpaired (Token.toList_withoutReturns text)

/-- A blank is no parenthesis or comma. -/
theorem not_mem_marks_of_isBlankChar {c : Char} (hc : isBlankChar c = true) :
    c ∉ ['(', ')', ','] := by
  have hblank : ∀ mark, isBlankChar mark = false → c ≠ mark := by
    rintro mark hmark rfl
    rw [hc] at hmark
    cases hmark
  simp only [List.mem_cons, List.not_mem_nil, or_false, not_or]
  exact ⟨hblank '(' (by decide), hblank ')' (by decide), hblank ',' (by decide)⟩

theorem IsBreak.not_mem_marks {text : List Char} (h : IsBreak text) :
    ∀ c ∈ text, c ∉ ['(', ')', ','] := by
  rcases h with rfl | rfl | rfl <;> simp

/-- There are no parentheses or commas in white space. -/
theorem Spacing.not_mem_marks {cs : List Char} (h : Spacing cs) :
    ∀ c ∈ cs, c ∉ ['(', ')', ','] := by
  induction h with
  | nil => simp
  | blank hc _ ih => exact List.forall_mem_cons.mpr ⟨not_mem_marks_of_isBlankChar hc, ih⟩
  | continuation hgap hbreak _ ih =>
    refine List.forall_mem_cons.mpr ⟨by decide, ?_⟩
    simp only [List.forall_mem_append]
    exact ⟨fun c hc => not_mem_marks_of_isBlankChar (hgap c hc), hbreak.not_mem_marks, ih⟩

/-- White space that is read has none of them in it. -/
theorem Lexeme.unmarked {rest : List Char} (h : Lexeme state t.kind t.text.toList rest) :
    t.Unmarked := by
  intro hspace
  simp only [Token.isBlank, Token.isLineBreak, Bool.or_eq_true, beq_iff_eq] at hspace
  rcases hspace with hkind | hkind
  · rw [hkind] at h
    obtain ⟨c, cs, htext, hc, hcs, -, -⟩ := h.exists_spacing_of_blank
    rw [htext]
    exact List.forall_mem_cons.mpr ⟨not_mem_marks_of_isBlankChar hc, hcs.not_mem_marks⟩
  · rw [hkind] at h
    exact (lexeme_lineBreak_iff.mp h).1.not_mem_marks

/-- The lexer makes no blank or line break with a mark in it. -/
theorem unmarked_of_mem_lex {text : String} (h : t ∈ lex text) : t.Unmarked := by
  rw [lex_eq_splitNames] at h
  rcases mem_splitNames h with hmem | rfl | ⟨u, -, name, -, rfl⟩
  · rcases exists_lexeme_of_mem_scanModule hmem with rfl | ⟨state, rest, hlexeme⟩
    · intro _
      simp [markToken]
    · exact hlexeme.unmarked
  · intro hspace
    cases hspace
  · intro hspace
    cases hspace

end Tokens

end Lexer

/-! ### Texts with other line endings -/

/-- The characters with a carriage return put before every chosen line feed. A line feed is chosen
by its place among the characters, the first of which is at `position`. -/
def withReturnsFrom (chosen : Nat → Bool) (position : Nat) : List Char → List Char
  | [] => []
  | c :: cs =>
    if c = '\n' ∧ chosen position = true then
      '\r' :: c :: withReturnsFrom chosen (position + 1) cs
    else c :: withReturnsFrom chosen (position + 1) cs

/-- The text with a carriage return put before every chosen line feed. -/
def withReturns (chosen : Nat → Bool) (text : String) : String :=
  String.ofList (withReturnsFrom chosen 0 text.toList)

/-- Carriage returns that are put before line feeds are paired. -/
theorem returnsPaired_withReturnsFrom {cs : List Char} (h : '\r' ∉ cs) (chosen : Nat → Bool)
    (position : Nat) : Lexer.ReturnsPaired (withReturnsFrom chosen position cs) := by
  induction cs generalizing position with
  | nil => trivial
  | cons c cs ih =>
    rw [List.mem_cons, not_or] at h
    have hrest := ih h.2 (position + 1)
    rw [withReturnsFrom]
    split
    next hfeed => exact ⟨fun _ => by rw [hfeed.1]; rfl, fun hc => absurd hc.symm h.1, hrest⟩
    next => exact ⟨fun hc => absurd hc.symm h.1, hrest⟩

/-- Taking them out again gives the text back. -/
theorem returnless_withReturnsFrom {cs : List Char} (h : '\r' ∉ cs) (chosen : Nat → Bool)
    (position : Nat) : Lexer.returnless (withReturnsFrom chosen position cs) = cs := by
  induction cs generalizing position with
  | nil => rfl
  | cons c cs ih =>
    rw [List.mem_cons, not_or] at h
    have hrest := ih h.2 (position + 1)
    have hkept := Lexer.returnless_cons_of_ne (Ne.symm h.1)
      (withReturnsFrom chosen (position + 1) cs)
    rw [withReturnsFrom]
    split
    next =>
      rw [Lexer.returnless, List.filter_cons_of_neg (by simp), ← Lexer.returnless, hkept, hrest]
    next => rw [hkept, hrest]

/-- The tokens are told apart from those of the text before by carriage returns only. -/
theorem lex_withReturns {text : String} (h : '\r' ∉ text.toList) (chosen : Nat → Bool) :
    (Lexer.lex (withReturns chosen text)).map Token.dropReturns = Lexer.lex text := by
  have hlist : (withReturns chosen text).toList = withReturnsFrom chosen 0 text.toList :=
    String.toList_ofList
  have hpaired : Lexer.ReturnsPaired (withReturns chosen text).toList := by
    rw [hlist]
    exact returnsPaired_withReturnsFrom h chosen 0
  have hback : withoutReturns (withReturns chosen text) = text := by
    rw [← String.toList_inj, Token.toList_withoutReturns, hlist]
    exact returnless_withReturnsFrom h chosen 0
  rw [← Lexer.lex_withoutReturns hpaired, hback]

/-! ### Bundles of such texts -/

/-- Changing values commutes with entering one. -/
theorem assign_map {α β : Type} (g : α → β) (key : String) (value : α)
    (entries : List (String × α)) :
    assign key (g value) (entries.map fun (k, v) => (k, g v)) =
      (assign key value entries).map fun (k, v) => (k, g v) := by
  induction entries with
  | nil => rfl
  | cons e rest ih =>
    obtain ⟨k, v⟩ := e
    rw [List.map_cons, assign, assign]
    split
    · rfl
    · rw [ih, List.map_cons]

/-- A dictionary of changed values is the dictionary with its values changed. -/
theorem Dictionary.ofList_map {α β : Type} (g : α → β) (entries : List (String × α)) :
    ofList (entries.map fun (k, v) => (k, g v)) = (ofList entries).mapValues fun _ => g := by
  have hinsert : ∀ (d : Dictionary α) (k : String) (v : α),
      (d.mapValues fun _ => g).insert k (g v) = (d.insert k v).mapValues fun _ => g := by
    intro d k v
    simp only [insert, mapValues, assign_map]
  have hfold : ∀ d : Dictionary α,
      (entries.map fun (k, v) => (k, g v)).foldl (fun d (key, value) => d.insert key value)
          (d.mapValues fun _ => g) =
        (entries.foldl (fun d (key, value) => d.insert key value) d).mapValues fun _ => g := by
    induction entries with
    | nil => exact fun _ => rfl
    | cons e rest ih =>
      intro d
      obtain ⟨k, v⟩ := e
      rw [List.map_cons, List.foldl_cons, List.foldl_cons, ← ih (d.insert k v), ← hinsert]
  exact hfold empty

/-- An entry is the one that was entered, or was there before. -/
theorem mem_of_mem_assign {α : Type} {key : String} {value : α} {entries : List (String × α)}
    {e : String × α} (h : e ∈ assign key value entries) : e = (key, value) ∨ e ∈ entries := by
  induction entries with
  | nil => exact .inl (List.mem_singleton.mp h)
  | cons e' rest ih =>
    obtain ⟨k, v⟩ := e'
    rw [assign] at h
    split at h
    next hkey =>
      rcases List.mem_cons.mp h with rfl | hrest
      · exact .inl (by rw [hkey])
      · exact .inr (List.mem_cons_of_mem _ hrest)
    next =>
      rcases List.mem_cons.mp h with rfl | hrest
      · exact .inr List.mem_cons_self
      · exact (ih hrest).imp id (List.mem_cons_of_mem _)

/-- A dictionary has no entries but those it was made from. -/
theorem Dictionary.mem_of_mem_ofList {α : Type} {entries : List (String × α)} {e : String × α}
    (h : e ∈ (ofList entries).entries) : e ∈ entries := by
  have hfold : ∀ d : Dictionary α,
      e ∈ (entries.foldl (fun d (key, value) => d.insert key value) d).entries →
      e ∈ d.entries ∨ e ∈ entries := by
    clear h
    induction entries with
    | nil => exact fun _ h => .inl h
    | cons e' rest ih =>
      intro d h
      rcases ih _ h with hmem | hrest
      · rcases mem_of_mem_assign hmem with rfl | hold
        · exact .inr List.mem_cons_self
        · exact .inl hold
      · exact .inr (List.mem_cons_of_mem _ hrest)
  rcases hfold empty h with hnil | hmem
  · cases hnil
  · exact hmem

/-- The modules of a bundle of texts are read from these texts. -/
theorem Bundle.exists_text_of_mem_ofTexts {texts : List (String × String)}
    {entry : String × List Token} (h : entry ∈ (Bundle.ofTexts texts).entries) :
    ∃ text, (entry.1, text) ∈ texts ∧ entry.2 = Lexer.lex text := by
  obtain ⟨source, hsource, rfl⟩ := List.mem_map.mp (Dictionary.mem_of_mem_ofList h)
  exact ⟨source.2, hsource, rfl⟩

/-- No white space in a bundle of texts has a parenthesis or comma in it. -/
theorem Bundle.unmarked_ofTexts {texts : List (String × String)} :
    ∀ entry ∈ (Bundle.ofTexts texts).entries, ∀ t ∈ entry.2, t.Unmarked := by
  intro entry hentry t ht
  obtain ⟨text, -, hlex⟩ := exists_text_of_mem_ofTexts hentry
  rw [hlex] at ht
  exact Lexer.unmarked_of_mem_lex ht

/-- **Merging does not depend on the line endings**: if no text has a carriage return, then putting
one before any of the line feeds of any of the texts changes neither what is merged from them nor
the error if they cannot be merged. -/
theorem merge_ofTexts_withReturns {sources : List (String × String)}
    (hplain : ∀ source ∈ sources, '\r' ∉ source.2.toList) (chosen : Nat → Nat → Bool)
    (name? : Option String) :
    merge (Bundle.ofTexts (sources.mapIdx fun i source =>
        (source.1, withReturns (chosen i) source.2))) name? =
      merge (Bundle.ofTexts sources) name? := by
  have htexts : (sources.mapIdx fun i source => (source.1, withReturns (chosen i) source.2)).map
        (fun source => (source.1, (Lexer.lex source.2).map Token.dropReturns)) =
      sources.map fun source => (source.1, Lexer.lex source.2) := by
    refine List.ext_getElem? fun i => ?_
    rw [List.getElem?_map, List.getElem?_mapIdx, List.getElem?_map]
    cases hsource : sources[i]? with
    | none => rfl
    | some source =>
      have htext := lex_withReturns (hplain source (List.mem_of_getElem? hsource)) (chosen i)
      simp only [Option.map_some, htext]
  have hbundle : (Bundle.ofTexts (sources.mapIdx fun i source =>
        (source.1, withReturns (chosen i) source.2))).mapValues
          (fun _ tokens => tokens.map Token.dropReturns) = Bundle.ofTexts sources := by
    rw [Bundle.ofTexts, Bundle.ofTexts, ← htexts, ← Dictionary.ofList_map, List.map_map]
    rfl
  rw [← hbundle, merge_mapValues_dropReturns name? Bundle.unmarked_ofTexts]

/-- Two line endings of the first module are changed, one of them in a line continuation. -/
theorem merge_gridTexts_withReturns :
    merge (Bundle.ofTexts [
        ("grid.bas", "Attribute VB_Name = \"Grid\"\r\nDim _\r\nCount\n"),
        ("row.bas", "Attribute VB_Name = \"Row\"\nDim Count")]) none =
      merge (Bundle.ofTexts [
        ("grid.bas", "Attribute VB_Name = \"Grid\"\nDim _\nCount\n"),
        ("row.bas", "Attribute VB_Name = \"Row\"\nDim Count")]) none := by
  have hplain : ∀ source ∈ [
      ("grid.bas", "Attribute VB_Name = \"Grid\"\nDim _\nCount\n"),
      ("row.bas", "Attribute VB_Name = \"Row\"\nDim Count")], '\r' ∉ source.2.toList := by
    decide
  exact merge_ofTexts_withReturns hplain (fun i position => i == 0 && position < 33) none

end VbaModules

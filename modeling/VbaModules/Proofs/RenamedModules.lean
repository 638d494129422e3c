import VbaModules.Proofs.Introductions
import VbaModules.Proofs.NamingLines
import VbaModules.Proofs.PublicNames

/-!
# The name of a renamed module

Renaming does not spare the line in which a module gives its name: the name there is a name token
like others. A renamed module still gives a name, and it is the renamed one
(`declaredName?_renameTokens`), provided that no replacement is a word of such a line.

The words before the name are safe because they are reserved, except where a name token follows a
quote: there it may be any word. So a naming line is compared up to the quote, and on the way every
token follows a blank or a word that is no quote (`KeepsKinds.align_drop_map`).
-/

namespace VbaModules

open Token Exports Lexer Text

/-! ### Patterns apart from quoted names -/

/-- The token before the start of a line is a line break or blank. -/
theorem previous?_ne_quoteToken_of_beginsLine {tokens : List Token} {i : Nat}
    (h : beginsLine tokens i = true) : previous? tokens i ≠ some quoteToken := by
  cases i with
  | zero => simp [previous?]
  | succ i =>
    intro hquote
    rw [previous?] at hquote
    rw [beginsLine, List.take_add_one, hquote, Option.toList_some, List.foldl_append,
      List.foldl_cons, List.foldl_nil] at h
    cases h

/-- Blanks lead past the quote. -/
theorem previous?_ne_quoteToken_of_blanks {tokens : List Token} {k : Nat}
    (h : previous? tokens k ≠ some quoteToken) :
    previous? tokens (k + ((tokens.drop k).takeWhile isBlank).length) ≠ some quoteToken := by
  rcases hgap : ((tokens.drop k).takeWhile isBlank).length with _ | gap
  · exact h
  · intro hquote
    rw [← Nat.add_assoc, previous?, ← List.getElem?_drop] at hquote
    have hblank := isBlank_of_lt_length_takeWhile (by omega) hquote
    cases hblank

/-- A change **spares the words** of some elements if they accept a changed token exactly if they
accept the token, apart from tokens that follow a quote. -/
def SparesWords (f : Token → Token) (tokens : List Token) (es : List Element) : Prop :=
  ∀ e ∈ es, ∀ i t, tokens[i]? = some t → previous? tokens i ≠ some quoteToken →
    e.accepts (f t) = e.accepts t

/-- Elements that take no quote before the last token never look behind one, so a change that spares
their words does not matter to them. -/
theorem KeepsKinds.align_drop_map {f : Token → Token} (hf : KeepsKinds f) {tokens : List Token}
    {es : List Element} (hspares : SparesWords f tokens es)
    (hquote : ∀ e ∈ es.dropLast, e.accepts quoteToken = false) {k : Nat}
    (hk : previous? tokens k ≠ some quoteToken) :
    Pattern.align es ((tokens.map f).drop k) = Pattern.align es (tokens.drop k) := by
  induction es generalizing k with
  | nil => rfl
  | cons e es ih =>
    obtain ⟨he, hes⟩ := List.forall_mem_cons.mp hspares
    have hquotes : ∀ e ∈ es.dropLast, e.accepts quoteToken = false := by
      intro e' he'
      have hne : es ≠ [] := by
        rintro rfl
        cases he'
      exact hquote e' (by rw [List.dropLast_cons_of_ne_nil hne]; exact List.mem_cons_of_mem e he')
    have hgap : (((tokens.map f).drop k).takeWhile isBlank).length =
        ((tokens.drop k).takeWhile isBlank).length := by
      rw [← List.map_drop, List.takeWhile_map, hf.isBlank_comp, List.length_map]
    have hnext : (((tokens.map f).drop k).dropWhile isBlank).head?.any e.accepts =
        ((tokens.drop k).dropWhile isBlank).head?.any e.accepts := by
      rw [← List.map_drop, List.dropWhile_map, hf.isBlank_comp, List.head?_map, Option.any_map]
      cases hhead : ((tokens.drop k).dropWhile isBlank).head? with
      | none => rfl
      | some t =>
        rw [← getElem?_length_takeWhile, List.getElem?_drop] at hhead
        exact he _ t hhead (previous?_ne_quoteToken_of_blanks hk)
    rw [Pattern.align, Pattern.align, hgap, hnext, List.drop_drop, List.drop_drop,
      ih hes hquotes hk]
    split
    next hacc =>
      cases es with
      | nil => rfl
      | cons e' es =>
        -- the token taken is no quote, so the search goes on outside a literal
        have hnot := hquote e List.mem_cons_self
        rw [ih hes hquotes]
        rw [← Nat.add_assoc, previous?, ← List.getElem?_drop, getElem?_length_takeWhile]
        intro hhead
        rw [hhead, Option.any_some, hnot] at hacc
        cases hacc
    next => rfl

/-! ### Naming lines -/

/-- The words of a naming line up to the quote. -/
def namingWords : List String :=
  ["attribute", "vb_name", "=", "\""]

theorem elements_nameLine :
    nameLine.elements = (namingWords.map fun word => .words [word]) ++ [.anything] :=
  rfl

/-- The words of a naming line are reserved or no identifiers. -/
theorem isFreeWord_of_mem_namingWords {word : String} (h : word ∈ namingWords) :
    isFreeWord word = false := by
  have hattribute : Keyword.contains "attribute" = true :=
    contains_of_mem (show "Attribute" ∈ Keyword.all by decide) (by decide)
  have hname : Keyword.contains "vb_name" = true :=
    contains_of_mem (show "VB_Name" ∈ Keyword.all by decide) (by decide)
  rw [← Bool.not_eq_true, isFreeWord_iff]
  rintro ⟨hidentifier, hfree⟩
  simp only [namingWords, List.mem_cons, List.not_mem_nil, or_false] at h
  rcases h with rfl | rfl | rfl | rfl
  · exact absurd hfree (by simp [hattribute])
  · exact absurd hfree (by simp [hname])
  · exact absurd hidentifier (by decide)
  · exact absurd hidentifier (by decide)

/-- Letter case does not make a word reserved. -/
theorem isFreeWord_of_sameWord {s word : String} (hword : sameWord s word = true)
    (h : isFreeWord s = true) : isFreeWord word = true := by
  obtain ⟨hidentifier, hcontains⟩ := isFreeWord_iff.mp h
  rw [sameWord_iff] at hword
  refine isFreeWord_iff.mpr ⟨?_, ?_⟩
  · rw [← isIdentifier_map_toLower, ← toList_foldCase, ← hword, toList_foldCase,
      isIdentifier_map_toLower, hidentifier]
  · rw [← contains_foldCase, ← hword, contains_foldCase, hcontains]

theorem sameWord_eq_false_of_isFreeWord {s word : String} (h : isFreeWord s = true)
    (hword : isFreeWord word = false) : sameWord s word = false := by
  by_contra hsame
  rw [Bool.not_eq_false] at hsame
  rw [isFreeWord_of_sameWord hsame h] at hword
  cases hword

/-- A renaming **avoids naming words** if none of its replacements is a word of a naming line. -/
def AvoidsNamingWords (replacement? : String → Option String) : Prop :=
  ∀ name renamed, replacement? name = some renamed →
    ∀ word ∈ namingWords, sameWord renamed word = false

theorem accepts_words_eq_false {word : String} {t : Token} (h : sameWord t.text word = false) :
    (Element.words [word]).accepts t = false := by
  by_contra hacc
  rw [Bool.not_eq_false] at hacc
  rw [sameWord_of_accepts_words hacc] at h
  cases h

/-- A name token that does not follow a quote is a free word, and so it is no word of a naming line
before the renaming nor after it. -/
theorem sparesWords_renameToken {replacement? : String → Option String}
    (havoids : AvoidsNamingWords replacement?) (text : String) :
    SparesWords (renameToken replacement?) (lex text)
      (namingWords.map fun word => .words [word]) := by
  intro e he i t ht hprevious
  obtain ⟨word, hword, rfl⟩ := List.mem_map.mp he
  cases hname : t.isName with
  | false => rw [renameToken, if_neg (by simp [hname])]
  | true =>
    have hfree : isFreeWord t.text = true :=
      (nameToken_of_lex ht (by simpa [isName] using hname)).resolve_right
        fun h => hprevious h.1
    have hbefore := sameWord_eq_false_of_isFreeWord hfree (isFreeWord_of_mem_namingWords hword)
    have hafter : sameWord (renameToken replacement? t).text word = false := by
      rw [renameToken, if_pos hname]
      cases hget : replacement? t.text with
      | none => exact hbefore
      | some renamed => exact havoids t.text renamed hget word hword
    rw [accepts_words_eq_false hbefore, accepts_words_eq_false hafter]

theorem align_nameLine_map {f : Token → Token} (hf : KeepsKinds f) {tokens : List Token}
    (hspares : SparesWords f tokens (namingWords.map fun word => .words [word])) {k : Nat}
    (hk : beginsLine tokens k = true) :
    Pattern.align nameLine.elements ((tokens.map f).drop k) =
      Pattern.align nameLine.elements (tokens.drop k) := by
  have hany : ∀ ts, Pattern.align [.anything] (ts.map f) = Pattern.align [.anything] ts :=
    hf.align_map (by simp [Element.anything, Element.accepts, Alternative.accepts,
      hf.isLineBreak_eq])
  rw [elements_nameLine, Pattern.align_append, Pattern.align_append,
    hf.align_drop_map hspares (by decide) (previous?_ne_quoteToken_of_beginsLine hk)]
  simp only [← List.map_drop, hany]

/-- A change that spares the words of naming lines keeps these lines. -/
theorem isMatch_nameLine_map_iff {f : Token → Token} (hf : KeepsKinds f) {tokens : List Token}
    (hspares : SparesWords f tokens (namingWords.map fun word => .words [word])) {m : Match} :
    nameLine.IsMatch true (tokens.map f) m ↔ nameLine.IsMatch true tokens m := by
  constructor
  · rintro ⟨hlt, ⟨t, ht, hblank⟩, hline, halign⟩
    rw [hf.beginsLine_map] at hline
    rw [align_nameLine_map hf hspares (hline rfl)] at halign
    rw [List.getElem?_map] at ht
    obtain ⟨u, hu, rfl⟩ := Option.map_eq_some_iff.mp ht
    exact ⟨hlt, ⟨u, hu, by rwa [hf.isBlank_eq] at hblank⟩, hline, halign⟩
  · rintro ⟨hlt, ⟨t, ht, hblank⟩, hline, halign⟩
    rw [← align_nameLine_map hf hspares (hline rfl)] at halign
    rw [← hf.beginsLine_map] at hline
    exact ⟨hlt, ⟨f t, by rw [List.getElem?_map, ht]; rfl, by rwa [hf.isBlank_eq]⟩, hline, halign⟩

/-- **A renamed module gives the renamed name.** -/
theorem declaredName?_renameTokens {replacement? : String → Option String}
    (havoids : AvoidsNamingWords replacement?) (text : String) :
    declaredName? (renameTokens replacement? (lex text)) =
      (declaredName? (lex text)).map fun name => (replacement? name).getD name := by
  have hlines : nameLine.lineMatches (renameTokens replacement? (lex text)) =
      nameLine.lineMatches (lex text) :=
    Pattern.lineMatches_congr fun m =>
      isMatch_nameLine_map_iff (Qualify.keepsKinds_renameToken _)
        (sparesWords_renameToken havoids text)
  rw [declaredName?, declaredName?, hlines, List.map_findSome?]
  simp only [Function.comp_def, Qualify.nameAt?_renameTokens]

end VbaModules

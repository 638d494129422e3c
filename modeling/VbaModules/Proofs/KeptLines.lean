import VbaModules.Conversion.ClassFile
import VbaModules.Proofs.FoldedLexing
import VbaModules.Proofs.NamesByLine
import VbaModules.Proofs.NamingLines
import VbaModules.Proofs.PublicNames

/-!
# The lines that a class keeps

A module that becomes a class loses the lines that speak of its name, and references to other
modules in it are qualified. The tokens that are left need not be those of their text: a line break
may have come to stand before a line feed, a name after an ampersand may have become a number, and
a byte order mark is a blank no longer. But they are **legible** (`Lexer.Legible`), which is to say
that a reader who comes upon a word or a blank will find it in one token
(`ClassFile.allLegible_withoutNameLines`).

Two facts carry this. A line is read with no more than its own line ahead, so that taking out others
makes no difference, and a qualified name begins with a letter like the name before
(`Lexer.OpensLike`). And the names that were taken out of literals are all in lines that are lost.
-/

namespace VbaModules

open Lexer Text

/-! ### Tokens that introduce a name -/

/-- Two of the tokens, with a blank between them, are the words that **introduce a name**. -/
def Token.IntroduceName (tokens : List Token) : Prop :=
  ∃ before a s v after, tokens = before ++ a :: s :: v :: after ∧ a.spells "attribute" = true ∧
    s.isBlank = true ∧ v.spells "vb_name" = true

/-- What introduces a name still does with more tokens around it. -/
theorem Token.IntroduceName.cons {tokens : List Token} (h : IntroduceName tokens) (t : Token) :
    IntroduceName (t :: tokens) := by
  obtain ⟨before, a, s, v, after, rfl, hwords⟩ := h
  exact ⟨t :: before, a, s, v, after, rfl, hwords⟩

/-! ### Lines of tokens -/

/-- Tokens that end with a line break are whole lines. -/
theorem Token.wholeLines_of_endsLine {tokens : List Token} (h : endsLine tokens = true) :
    wholeLines tokens = true := by
  rw [endsLine] at h
  rw [wholeLines]
  cases hlast : tokens.getLast? with
  | none => rfl
  | some t => rwa [hlast] at h

/-- Whole lines end with a line break, if there are any. -/
theorem Token.endsLine_of_wholeLines {tokens : List Token} (h : wholeLines tokens = true)
    (hne : tokens ≠ []) : endsLine tokens = true := by
  obtain ⟨last, hlast⟩ : ∃ last, tokens.getLast? = some last :=
    Option.isSome_iff_exists.mp (by simp [hne])
  rw [wholeLines, hlast, Option.all_some] at h
  rw [endsLine, hlast, Option.any_some, h]

/-- The tokens of a text that ends its line are whole lines. -/
theorem Lexer.EndsItsLine.wholeLines_lex {text : String} (h : EndsItsLine text)
    (hmark : text.toList.head? ≠ some '\uFEFF') : Token.wholeLines (lex text) = true := by
  rw [← splitNames_scan_eq_lex hmark]
  exact Token.wholeLines_of_endsLine (endsLine_splitNames.trans h.endsLine_scan)

namespace ClassFile

/-- The tokens of **one line**: a line break can only stand at the end. -/
inductive IsLine : List Token → Prop where
  | last (t : Token) : IsLine [t]
  | cons {t : Token} {ts : List Token} (ht : t.isLineBreak = false) (hts : IsLine ts) :
      IsLine (t :: ts)

theorem IsLine.ne_nil {line : List Token} (h : IsLine line) : line ≠ [] := by
  cases h <;> simp

/-- The first line is split off where it ends. -/
theorem lines_append {line ts : List Token} (h : IsLine line)
    (hends : ts ≠ [] → endsLine line = true) : lines (line ++ ts) = line :: lines ts := by
  induction h with
  | last t =>
    rw [List.singleton_append, lines]
    split
    next => rfl
    next hbreak =>
      obtain rfl : ts = [] := by
        by_contra hts
        exact hbreak (by simpa [endsLine] using hends hts)
      rfl
  | cons ht hline ih =>
    rw [List.cons_append, lines, if_neg (by simp [ht]),
      ih fun hts => endsLine_cons_of_ne_nil hline.ne_nil ▸ hends hts]

/-- Tokens begin with a line, which ends with a line break if there is more after it. -/
theorem exists_isLine {ts : List Token} (h : ts ≠ []) :
    ∃ line rest, ts = line ++ rest ∧ IsLine line ∧ (rest ≠ [] → endsLine line = true) := by
  induction ts with
  | nil => exact absurd rfl h
  | cons t ts ih =>
    cases hbreak : t.isLineBreak with
    | true => exact ⟨[t], ts, rfl, .last t, fun _ => by simpa [endsLine] using hbreak⟩
    | false =>
      by_cases hts : ts = []
      · exact ⟨[t], [], by rw [hts]; rfl, .last t, fun hrest => absurd rfl hrest⟩
      · obtain ⟨line, rest, heq, hline, hends⟩ := ih hts
        refine ⟨t :: line, rest, by rw [heq, List.cons_append], .cons hbreak hline, fun hrest => ?_⟩
        rw [endsLine_cons_of_ne_nil hline.ne_nil, hends hrest]

/-- **Line by line**: what holds of no tokens, and of some tokens with a line before them, holds of
all tokens. -/
@[elab_as_elim]
theorem line_induction {motive : List Token → Prop} (ts : List Token) (nil : motive [])
    (line : ∀ line rest, IsLine line → (rest ≠ [] → endsLine line = true) → motive rest →
      motive (line ++ rest)) : motive ts := by
  induction hn : ts.length using Nat.strongRecOn generalizing ts with
  | ind n ih =>
    by_cases hts : ts = []
    · exact hts ▸ nil
    · obtain ⟨first, rest, rfl, hfirst, hends⟩ := exists_isLine hts
      have hpos := List.length_pos_iff.mpr hfirst.ne_nil
      rw [List.length_append] at hn
      exact line first rest hfirst hends (ih rest.length (by omega) rest rfl)

/-- Naming lines are taken out line by line. -/
theorem withoutNameLines_append {line ts : List Token} (h : IsLine line)
    (hends : ts ≠ [] → endsLine line = true) :
    withoutNameLines (line ++ ts) =
      (if isNameLine line then [] else line) ++ withoutNameLines ts := by
  rw [withoutNameLines, withoutNameLines, lines_append h hends, List.filter_cons]
  cases isNameLine line <;> rfl

/-- The lines that are left do not introduce a name. -/
theorem not_introduceName_withoutNameLines (ts : List Token) :
    ¬Token.IntroduceName (withoutNameLines ts) := by
  rintro ⟨before, a, s, v, rest, heq, ha, hs, hv⟩
  have hword : a.isLineBreak = false := by
    rw [Token.spells, Bool.and_eq_true, Bool.or_eq_true, beq_iff_eq, beq_iff_eq] at ha
    rcases ha.1 with hkind | hkind <;> simp [Token.isLineBreak, hkind]
  have hblank : s.isLineBreak = false := by
    rw [Token.isBlank, beq_iff_eq] at hs
    simp [Token.isLineBreak, hs]
  induction ts using line_induction generalizing before with
  | nil => simp [withoutNameLines, lines] at heq
  | line line ts hline hends ih =>
    rw [withoutNameLines_append hline hends] at heq
    split at heq
    next => exact ih before heq
    next hname =>
      -- if the line ends between the words, one of them is its line break
      have hlast : ∀ u most, line = most ++ [u] → u.isLineBreak = false →
          withoutNameLines ts = [] := by
        rintro u most rfl hu
        by_contra hne
        have hts : ts ≠ [] := by
          rintro rfl
          exact hne rfl
        rw [endsLine, List.getLast?_concat, Option.any_some, hu] at hends
        exact absurd (hends hts) (by simp)
      rcases List.append_eq_append_iff.mp heq with ⟨more, rfl, hrest⟩ | ⟨more, rfl, hrest⟩
      · exact ih more hrest
      · rcases more with _ | ⟨u, _ | ⟨w, _ | ⟨x, more⟩⟩⟩
        · exact ih [] hrest.symm
        · obtain ⟨rfl, hrest⟩ : a = u ∧ s :: v :: rest = withoutNameLines ts := by
            simpa using hrest
          rw [hlast a before rfl hword] at hrest
          cases hrest
        · obtain ⟨rfl, rfl, hrest⟩ : a = u ∧ s = w ∧ v :: rest = withoutNameLines ts := by
            simpa using hrest
          rw [hlast s (before ++ [a]) (by simp) hblank] at hrest
          cases hrest
        · obtain ⟨rfl, -, rfl, -⟩ : a = u ∧ s = w ∧ v = x ∧ rest = more ++ withoutNameLines ts := by
            simpa using hrest
          refine hname ?_
          rw [isNameLine, Bool.and_eq_true, List.any_eq_true, List.any_eq_true]
          exact ⟨⟨a, by simp, ha⟩, ⟨v, by simp, hv⟩⟩

end ClassFile

namespace Lexer

/-! ### What a reader sees of a text ahead -/

/-- The two texts **open alike**: they are the same up to a line break, or up to letters that may
differ, or as a whole. -/
inductive OpensLike : List Char → List Char → Prop where
  | nil : OpensLike [] []
  | lineBreak {c : Char} {cs ds : List Char} (hc : isBreakChar c = true) :
      OpensLike (c :: cs) (c :: ds)
  | letter {c d : Char} {cs ds : List Char} (hc : c.isAlpha = true) (hd : d.isAlpha = true) :
      OpensLike (c :: cs) (d :: ds)
  | char {c : Char} {cs ds : List Char} (h : OpensLike cs ds) : OpensLike (c :: cs) (c :: ds)

/-- Texts that open alike still do behind the same text. -/
theorem OpensLike.append_left {cs ds : List Char} (h : OpensLike cs ds) (text : List Char) :
    OpensLike (text ++ cs) (text ++ ds) := by
  induction text with
  | nil => exact h
  | cons c text ih => exact .char ih

/-- A class that holds all letters or none does not tell the two texts apart. -/
theorem OpensLike.notNext {cs ds : List Char} (h : OpensLike cs ds) {p : Char → Bool}
    (hp : ∀ c d, c.isAlpha = true → d.isAlpha = true → p c = p d) (hnext : NotNext p cs) :
    NotNext p ds := by
  cases h with
  | nil => exact hnext
  | lineBreak => exact hnext
  | letter hc hd =>
    rw [notNext_cons] at hnext ⊢
    rw [hp _ _ hd hc, hnext]
  | char => exact hnext

/-- Blanks ahead of the one text are ahead of the other as well. -/
theorem OpensLike.exists_append {cs gap ds : List Char} (h : OpensLike cs (gap ++ ds))
    (hgap : ∀ c ∈ gap, isBlankChar c = true) : ∃ cs', cs = gap ++ cs' ∧ OpensLike cs' ds := by
  induction gap generalizing cs with
  | nil => exact ⟨cs, rfl, h⟩
  | cons c gap ih =>
    obtain ⟨hc, hgap⟩ := List.forall_mem_cons.mp hgap
    cases h with
    | lineBreak hbreak =>
      rw [isBreakChar_eq_false_of_isBlankChar hc] at hbreak
      cases hbreak
    | letter _ halpha =>
      rw [isBlankChar_eq_false_of_isWordChar (isWordChar_of_isAlpha halpha)] at hc
      cases hc
    | char h =>
      obtain ⟨cs', rfl, h'⟩ := ih h hgap
      exact ⟨cs', rfl, h'⟩

/-- Where no line continuation begins in the one text, none begins in the other. -/
theorem OpensLike.continuation? {cs ds : List Char} (h : OpensLike cs ds)
    (hnone : continuation? cs = none) : continuation? ds = none := by
  by_contra hsome
  obtain ⟨n, hn⟩ := Option.ne_none_iff_exists'.mp hsome
  obtain ⟨gap, lineBreak, rest, rfl, hgap, hbreak, -, -⟩ := exists_continuation hn
  cases h with
  | lineBreak hc => cases hc
  | letter _ hd => cases hd
  | @char _ cs _ h =>
    obtain ⟨tail, rfl, htail⟩ := h.exists_append hgap
    -- the other text has a line break here too
    have hne : lineBreakLength tail ≠ 0 := by
      rw [ne_eq, lineBreakLength_eq_zero_iff]
      rcases hbreak with rfl | rfl | rfl <;> cases htail <;> simp_all [isBreakChar]
    obtain ⟨lineBreak', rest', rfl, -, hbreak', hunsplit'⟩ := exists_lineBreak hne
    rw [continuation?_append hgap hbreak' hunsplit'] at hnone
    cases hnone

/-- Where white space ends before the one text, it ends before the other. -/
theorem OpensLike.spaceEnds {cs ds : List Char} (h : OpensLike cs ds) (hends : SpaceEnds cs) :
    SpaceEnds ds := by
  have hblank : ∀ c : Char, c.isAlpha = true → isBlankChar c = false :=
    fun c hc => isBlankChar_eq_false_of_isWordChar (isWordChar_of_isAlpha hc)
  exact ⟨h.notNext (fun c d hc hd => by rw [hblank c hc, hblank d hd]) hends.1,
    h.continuation? hends.2⟩

/-- Where a word ends before the one text, it ends before the other. -/
theorem OpensLike.notNext_isWordChar {cs ds : List Char} (h : OpensLike cs ds)
    (hnext : NotNext isWordChar cs) : NotNext isWordChar ds :=
  h.notNext (fun c d hc hd => by rw [isWordChar_of_isAlpha hc, isWordChar_of_isAlpha hd]) hnext

/-- A carriage return is not torn from its line feed by putting the other text there. -/
theorem OpensLike.unsplit {text cs ds : List Char} (h : OpensLike cs ds) (hcut : Unsplit text cs) :
    Unsplit text ds := by
  have hfeed : ∀ c : Char, c.isAlpha = true → (c == '\n') = false :=
    fun c hc => beq_eq_false_iff_ne.mpr (ne_of_class hc (by decide))
  exact fun hlast => h.notNext (fun c d hc hd => by rw [hfeed c hc, hfeed d hd]) (hcut hlast)

/-! ### Legible tokens -/

/-- What a token is to a reader who comes upon it where a word may begin, with the text `rest` after
it. Words and blanks end where they seem to end, and nothing else begins with a blank or a letter,
a remark apart. A word may have something after a dot. -/
inductive Legible (t : Token) (rest : List Char) : Prop where
  | lineBreak (hkind : t.kind = .lineBreak) (htext : IsBreak t.text.toList)
  | blank {c : Char} {cs : List Char} (hkind : t.kind = .blank) (htext : t.text.toList = c :: cs)
      (hc : isBlankChar c = true) (hcs : Spacing cs) (hends : SpaceEnds rest)
      (hcut : Unsplit cs rest)
  | word (hkind : t.kind = .name ∨ t.kind = .reserved) (htext : isIdentifier t.text.toList = true)
      (hends : NotNext isWordChar rest)
  | dotted {word cs : List Char} (hkind : t.kind = .name)
      (htext : t.text.toList = word ++ '.' :: cs) (hword : isIdentifier word = true)
      (hcs : ∀ c ∈ cs, isBreakChar c = false)
  | other {c : Char} {cs : List Char} (hname : t.kind ≠ .name) (hbreak : t.kind ≠ .lineBreak)
      (htext : t.text.toList = c :: cs) (hblank : isBlankChar c = false)
      (hletter : c.isAlpha = true → c.toLower = 'r')
      (hplain : ∀ d ∈ c :: cs, isBreakChar d = false)

/-- Tokens that are legible one after the other. -/
def AllLegible (ts : List Token) : Prop :=
  ∀ before t after, ts = before ++ t :: after → Legible t (charsOf after)

/-- Legible tokens are each legible before the texts of those after it. -/
theorem allLegible_cons {t : Token} {ts : List Token} :
    AllLegible (t :: ts) ↔ Legible t (charsOf ts) ∧ AllLegible ts := by
  constructor
  · intro h
    exact ⟨h [] t ts rfl, fun before u after heq => h (t :: before) u after (by simp [heq])⟩
  · rintro ⟨ht, hts⟩ before u after heq
    cases before with
    | nil =>
      obtain ⟨rfl, rfl⟩ := List.cons.inj heq
      exact ht
    | cons b before => exact hts before u after (List.cons.inj heq).2

theorem allLegible_nil : AllLegible [] := by
  intro before t after heq
  simp at heq

/-- A word is a name or a keyword. -/
theorem wordKind_cases (word : List Char) :
    wordKind word = .name ∨ wordKind word = .reserved := by
  rw [wordKind]
  split
  · exact .inr rfl
  · exact .inl rfl

/-- No character of a word is white space. -/
theorem isWhite_eq_false_of_isWordChar {c : Char} (h : isWordChar c = true) :
    isWhite c = false := by
  have hcode : 48 ≤ c.toNat ∧ c.toNat ≤ 122 := by
    rw [isWordChar, Bool.or_eq_true, Char.isAlphanum, Bool.or_eq_true, isAlpha_iff,
      Char.isDigit_iff_toNat, beq_iff_eq] at h
    rcases h with (h | h) | rfl
    · omega
    · simp at h
      omega
    · decide
  simp [isWhite]
  omega

/-- The same words begin with the same letter, but for its case. -/
theorem toLower_eq_of_sameWord {word : List Char} {c : Char} {cs : List Char} {text : String}
    (hword : word = c :: cs) (h : sameWord (String.ofList word) text = true) :
    text.toList.head?.map Char.toLower = some c.toLower := by
  rw [sameWord_iff, ← String.toList_inj, toList_foldCase, toList_foldCase, String.toList_ofList,
    hword] at h
  rw [← List.head?_map, ← h]
  rfl

/-- **A lexeme is legible.** -/
theorem Lexeme.legible {state : LineState} {t : Token} {rest : List Char}
    (h : Lexeme state t.kind t.text.toList rest) : Legible t rest := by
  obtain ⟨kind, text⟩ := t
  have hplain := h.isBreakChar_eq_false
  simp only at h hplain
  generalize htext : text.toList = cs at h hplain
  cases h with
  | lineBreak hbreak _ => exact .lineBreak rfl (htext ▸ hbreak)
  | blank hc hcs hends hcut => exact .blank rfl htext hc hcs hends hcut
  | word hcs hends _ => exact .word (wordKind_cases cs) (htext ▸ hcs) hends
  -- a remark is told from a word by the `r` that it begins with
  | @remark word tail _ _ hword hrem _ _ _ =>
    cases word with
    | nil => cases hword
    | cons c word =>
      have hc := (isIdentifier_cons.mp hword).1
      refine .other (by simp) (by simp) htext
        (isBlankChar_eq_false_of_isWordChar (isWordChar_of_isAlpha hc)) (fun _ => ?_)
        (hplain (by simp) (by simp))
      simpa using (toLower_eq_of_sameWord rfl hrem).symm
  | @other c _ hc =>
    rw [isOther, Bool.not_eq_true'] at hc
    simp only [Bool.or_eq_false_iff] at hc
    refine .other (by simp) (by simp) htext hc.1.1.1.1.1.2 (fun halpha => ?_)
      (hplain (by simp) (by simp))
    rw [isWordChar_of_isAlpha halpha] at hc
    cases hc.2
  | @number c _ _ hc _ _ =>
    obtain ⟨halpha, hword⟩ := isAlpha_eq_false_of_isDigit hc
    refine .other (by simp) (by simp) htext (isBlankChar_eq_false_of_isWordChar hword)
      (fun hc' => ?_) (hplain (by simp) (by simp))
    rw [halpha] at hc'
    cases hc'
  | _ => exact .other (by simp) (by simp) htext (by decide) (by decide) (hplain (by simp) (by simp))

/-- What the lexer cuts off is legible, each token before what follows it. -/
theorem Cuts.allLegible {state : LineState} {ts : List Token} (h : Cuts state ts) :
    AllLegible ts := by
  induction h with
  | nil => exact allLegible_nil
  | cons hlexeme _ ih => exact allLegible_cons.mpr ⟨hlexeme.legible, ih⟩

/-- The tokens of a module are legible, with the byte order mark too. -/
theorem allLegible_scanModule (cs : List Char) : AllLegible (scanModule cs) := by
  unfold scanModule
  split
  next cs =>
    refine allLegible_cons.mpr ⟨?_, (cuts_scan .start cs).allLegible⟩
    exact .other (by simp [markToken]) (by simp [markToken]) (show _ = '\uFEFF' :: [] from rfl)
      (by decide) (by decide) (List.forall_mem_singleton.mpr (by decide))
  next => exact (cuts_scan .start cs).allLegible

/-! ### Lines with qualified names -/

/-- A token as it is, or a name with the name of a module and a dot before it. -/
inductive Qualified (t : Token) : Token → Prop where
  | same : Qualified t t
  | dotted {module name : String} (hkind : t.kind = .name)
      (hmodule : isIdentifier module.toList = true)
      (hname : ∀ c ∈ name.toList, isBreakChar c = false) :
      Qualified t ⟨.name, module ++ "." ++ name⟩

/-- A qualified name is a token of the same kind. -/
theorem Qualified.kind_eq {t u : Token} (h : Qualified t u) : u.kind = t.kind := by
  cases h with
  | same => rfl
  | dotted hkind => exact hkind.symm

theorem Qualified.isLineBreak_eq {t u : Token} (h : Qualified t u) :
    u.isLineBreak = t.isLineBreak := by
  rw [Token.isLineBreak, Token.isLineBreak, h.kind_eq]

/-- Only names are qualified. -/
theorem Qualified.eq_of_kind_ne {t u : Token} (h : Qualified t u) (hkind : t.kind ≠ .name) :
    u = t := by
  cases h with
  | same => rfl
  | dotted hname => exact absurd hname hkind

/-- A token is legible before any text that opens like the one it was read before. -/
theorem Legible.of_opensLike {t : Token} {rest rest' : List Char} (h : Legible t rest)
    (hrest : OpensLike rest rest') : Legible t rest' := by
  cases h with
  | lineBreak hkind htext => exact .lineBreak hkind htext
  | blank hkind htext hc hcs hends hcut =>
    exact .blank hkind htext hc hcs (hrest.spaceEnds hends) (hrest.unsplit hcut)
  | word hkind htext hends => exact .word hkind htext (hrest.notNext_isWordChar hends)
  | dotted hkind htext hword hcs => exact .dotted hkind htext hword hcs
  | other hname hbreak htext hblank hletter hplain =>
    exact .other hname hbreak htext hblank hletter hplain

/-- The characters of a qualified name. -/
theorem toList_qualified (module name : String) :
    (module ++ "." ++ name).toList = module.toList ++ '.' :: name.toList := by
  rw [toList_append_append]
  rfl

/-- A qualified name is legible where the name itself was. -/
theorem Legible.of_qualified {t u : Token} {rest rest' : List Char} (h : Legible t rest)
    (hu : Qualified t u) (hrest : OpensLike rest rest') : Legible u rest' := by
  cases hu with
  | same => exact h.of_opensLike hrest
  | dotted hkind hmodule hname => exact .dotted rfl (toList_qualified _ _) hmodule hname

/-- A legible name begins with a letter. -/
theorem Legible.exists_letter {t : Token} {rest : List Char} (h : Legible t rest)
    (hkind : t.kind = .name) : ∃ c cs, t.text.toList = c :: cs ∧ c.isAlpha = true := by
  cases h with
  | lineBreak hkind' => rw [hkind] at hkind'; cases hkind'
  | blank hkind' => rw [hkind] at hkind'; cases hkind'
  | word _ htext =>
    obtain ⟨c, cs, htext, hc, -⟩ := exists_cons_of_isIdentifier htext
    exact ⟨c, cs, htext, hc⟩
  | dotted _ htext hword =>
    obtain ⟨c, cs, rfl, hc, -⟩ := exists_cons_of_isIdentifier hword
    exact ⟨c, _, htext, hc⟩
  | other hkind' => exact absurd hkind hkind'

/-- A legible line break is one of the three that there are. -/
theorem Legible.isBreak {t : Token} {rest : List Char} (h : Legible t rest)
    (hbreak : t.isLineBreak = true) : IsBreak t.text.toList := by
  rw [Token.isLineBreak, beq_iff_eq] at hbreak
  cases h with
  | lineBreak _ htext => exact htext
  | blank hkind => rw [hbreak] at hkind; cases hkind
  | word hkind => rw [hbreak] at hkind; rcases hkind with hkind | hkind <;> cases hkind
  | dotted hkind => rw [hbreak] at hkind; cases hkind
  | other _ hkind => exact absurd hbreak hkind

/-- Lines with qualified names open like the lines before, if no more than whole lines behind them
have changed. -/
theorem opensLike_charsOf {ts us rest rest' : List Token} (h : List.Forall₂ Qualified ts us)
    (hlegible : AllLegible (ts ++ rest))
    (hends : endsLine ts = true ∨ OpensLike (charsOf rest) (charsOf rest')) :
    OpensLike (charsOf (ts ++ rest)) (charsOf (us ++ rest')) := by
  induction h with
  | nil =>
    rcases hends with hends | hends
    · cases hends
    · exact hends
  | @cons t u ts us htu _ ih =>
    obtain ⟨ht, hts⟩ := allLegible_cons.mp hlegible
    rw [List.cons_append, List.cons_append, charsOf_cons, charsOf_cons]
    cases htu with
    | dotted hkind hmodule _ =>
      obtain ⟨c, cs, htext, hc⟩ := ht.exists_letter hkind
      obtain ⟨d, ds, hmodule, hd, -⟩ := exists_cons_of_isIdentifier hmodule
      rw [htext, toList_qualified, hmodule]
      exact .letter hc hd
    | same =>
      cases ts with
      | cons u' ts' =>
        refine (ih hts ?_).append_left _
        rwa [endsLine_cons_cons] at hends
      | nil =>
        rcases hends with hends | hends
        · -- the last token of the line is its line break
          rcases ht.isBreak (by simpa [endsLine] using hends) with htext | htext | htext <;>
            rw [htext] <;> exact .lineBreak rfl
        · exact (ih hts (.inr hends)).append_left _

/-- **Qualifying names leaves a line legible**, whatever lines are put behind it. -/
theorem AllLegible.of_qualified {ts us rest rest' : List Token} (h : AllLegible (ts ++ rest))
    (hqualified : List.Forall₂ Qualified ts us)
    (hends : endsLine ts = true ∨ rest = [] ∧ rest' = []) (hrest' : AllLegible rest') :
    AllLegible (us ++ rest') := by
  induction hqualified with
  | nil => exact hrest'
  | @cons t u ts us htu hus ih =>
    obtain ⟨ht, hts⟩ := allLegible_cons.mp h
    refine allLegible_cons.mpr ?_
    cases ts with
    | cons t' ts' =>
      rw [endsLine_cons_cons] at hends
      refine ⟨ht.of_qualified htu (opensLike_charsOf hus hts ?_), ih hts hends⟩
      refine hends.imp_right ?_
      rintro ⟨rfl, rfl⟩
      exact .nil
    | nil =>
      cases hus
      refine ⟨?_, hrest'⟩
      rcases hends with hends | ⟨rfl, rfl⟩
      · -- what follows a line break does not matter
        have hbreak : t.isLineBreak = true := by simpa [endsLine] using hends
        have hkind : t.kind = .lineBreak := by simpa [Token.isLineBreak] using hbreak
        rw [htu.eq_of_kind_ne (by simp [hkind])]
        exact .lineBreak hkind (ht.isBreak hbreak)
      · exact ht.of_qualified htu .nil

/-! ### Naming lines are taken out with their literals -/

/-- No literal is taken apart unless the words of a naming line are there. -/
theorem splitNames_eq_self {ts : List Token}
    (h : ¬∃ a ∈ ts, ∃ v ∈ ts, a.kind = .reserved ∧ a.spells "attribute" = true ∧
      v.kind = .reserved ∧ v.spells "vb_name" = true) : splitNames 0 ts = ts := by
  induction ts with
  | nil => rfl
  | cons t ts ih =>
    have hrest : splitNames 0 ts = ts := by
      refine ih fun ⟨a, ha, v, hv, hwords⟩ => h ?_
      exact ⟨a, List.mem_cons_of_mem _ ha, v, List.mem_cons_of_mem _ hv, hwords⟩
    have hbegins : beginsNameLine (t :: ts) = false := by
      by_contra hbegins
      rw [Bool.not_eq_false] at hbegins
      unfold beginsNameLine at hbegins
      split at hbegins
      next a s v us heq =>
        obtain ⟨rfl, rfl⟩ := List.cons.inj heq
        simp only [Bool.and_eq_true, beq_iff_eq] at hbegins
        obtain ⟨⟨⟨⟨hakind, ha⟩, -⟩, hvkind⟩, hv⟩ := hbegins
        exact h ⟨t, by simp, v, by simp, hakind, ha, hvkind, hv⟩
      next => cases hbegins
    rw [splitNames]
    simp [hrest, hbegins]

/-- Only string literals are taken apart. -/
theorem mem_splitNames_of_kind_ne {due : Nat} {ts : List Token} {t : Token} (h : t ∈ ts)
    (hkind : t.kind ≠ .string) : t ∈ splitNames due ts := by
  fun_induction splitNames due ts with
  | case1 => cases h
  | case3 due u ts _ hstring name _ ih =>
    rcases List.mem_cons.mp h with rfl | hmem
    · exact absurd (kind_eq_string_of_due hstring) hkind
    · exact List.mem_cons_of_mem _ (List.mem_cons_of_mem _ (List.mem_cons_of_mem _ (ih hmem)))
  | _ =>
    rename_i ih
    exact (List.mem_cons.mp h).elim (fun heq => heq ▸ List.mem_cons_self)
      fun hmem => List.mem_cons_of_mem _ (ih hmem)

end Lexer

namespace ClassFile

/-- Qualifying names changes nothing but names. -/
theorem mem_of_forall₂_qualified {ts us : List Token} (h : List.Forall₂ Qualified ts us)
    {t : Token} (ht : t ∈ ts) (hkind : t.kind ≠ .name) : t ∈ us := by
  induction h with
  | nil => cases ht
  | cons htu _ ih =>
    rcases List.mem_cons.mp ht with rfl | hmem
    · rw [htu.eq_of_kind_ne hkind]
      exact List.mem_cons_self
    · exact List.mem_cons_of_mem _ (ih hmem)

/-- A line that is kept has no literal that was taken apart. -/
theorem splitNames_eq_self_of_not_isNameLine {ts us : List Token}
    (h : List.Forall₂ Qualified (splitNames 0 ts) us) (hname : isNameLine us = false) :
    splitNames 0 ts = ts := by
  refine splitNames_eq_self ?_
  rintro ⟨a, ha, v, hv, hakind, haspells, hvkind, hvspells⟩
  have hmem : ∀ t ∈ ts, t.kind = .reserved → t ∈ us := fun t ht hkind =>
    mem_of_forall₂_qualified h (mem_splitNames_of_kind_ne ht (by simp [hkind])) (by simp [hkind])
  rw [isNameLine, Bool.and_eq_false_iff, List.any_eq_false, List.any_eq_false] at hname
  rcases hname with hname | hname
  · exact hname a (hmem a ha hakind) haspells
  · exact hname v (hmem v hv hvkind) hvspells

/-- A line stays one line when its literals are taken apart. -/
theorem isLine_splitNames {line : List Token} (h : IsLine line) (due : Nat) :
    IsLine (splitNames due line) := by
  have hquote : quoteToken.isLineBreak = false := rfl
  induction h generalizing due with
  | last t =>
    rw [splitNames]
    split
    · exact .last t
    · split
      · split
        · exact .cons hquote (.cons rfl (.last quoteToken))
        · exact .last t
      · split <;> exact .last t
  | cons ht hts ih =>
    rw [splitNames, if_neg (by simp [ht])]
    split
    · split
      · exact .cons hquote (.cons rfl (.cons hquote (ih _)))
      · exact .cons ht (ih _)
    · split <;> exact .cons ht (ih _)

/-- A line with its names qualified is one line, and ends as it did. -/
theorem isLine_of_forall₂_qualified {line us : List Token} (h : IsLine line)
    (hus : List.Forall₂ Qualified line us) : IsLine us ∧ endsLine us = endsLine line := by
  induction h generalizing us with
  | last t =>
    cases hus with
    | @cons _ u _ _ htu hnil =>
      cases hnil
      exact ⟨.last u, by simp [endsLine, htu.isLineBreak_eq]⟩
  | cons ht hts ih =>
    cases hus with
    | @cons _ u _ us htu hus =>
      obtain ⟨hline, hends⟩ := ih hus
      rw [endsLine_cons_of_ne_nil hts.ne_nil, endsLine_cons_of_ne_nil hline.ne_nil, hends]
      exact ⟨.cons (htu.isLineBreak_eq.trans ht) hline, rfl⟩

/-- **What is left of a module is legible**: its lines without those that name it, with names
qualified. -/
theorem allLegible_withoutNameLines {ts us : List Token} (hlegible : AllLegible ts)
    (h : List.Forall₂ Qualified (splitNames 0 ts) us) : AllLegible (withoutNameLines us) := by
  induction ts using line_induction generalizing us with
  | nil =>
    cases h
    exact allLegible_nil
  | line line rest hline hends ih =>
    have hsplit : splitNames 0 (line ++ rest) = splitNames 0 line ++ splitNames 0 rest := by
      by_cases hrest : rest = []
      · rw [hrest, List.append_nil, splitNames, List.append_nil]
      · exact splitNames_append (hends hrest)
    rw [hsplit] at h
    -- what is qualified is a line and the lines after it, as before
    obtain ⟨us, vs, rfl, hus, hvs⟩ : ∃ us' vs, us = us' ++ vs ∧
        List.Forall₂ Qualified (splitNames 0 line) us' ∧
        List.Forall₂ Qualified (splitNames 0 rest) vs :=
      ⟨_, _, (List.take_append_drop _ us).symm, (List.forall₂_take_append _ _ _ h.flip).flip,
        (List.forall₂_drop_append _ _ _ h.flip).flip⟩
    obtain ⟨husLine, husEnds⟩ := isLine_of_forall₂_qualified (isLine_splitNames hline 0) hus
    rw [endsLine_splitNames] at husEnds
    have hnil : rest = [] → vs = [] := by
      rintro rfl
      cases hvs
      rfl
    have hrest : AllLegible rest := fun before t after heq =>
      hlegible (line ++ before) t after (by rw [heq, List.append_assoc])
    rw [withoutNameLines_append husLine fun hne => husEnds ▸ hends fun h => hne (hnil h)]
    split
    next => exact ih hrest hvs
    next hname =>
      rw [splitNames_eq_self_of_not_isNameLine hus (Bool.not_eq_true _ ▸ hname)] at hus
      refine hlegible.of_qualified hus ?_ (ih hrest hvs)
      by_cases hnone : rest = []
      · exact .inr ⟨hnone, by rw [hnil hnone]; rfl⟩
      · exact .inl (hends hnone)

end ClassFile

end VbaModules

import Mathlib.Data.List.Chain
import VbaModules.Proofs.Lookup
import VbaModules.Proofs.LosslessLexing
import VbaModules.Proofs.Rewording

/-!
# Renamed modules can be written and read again

Renaming changes the texts of tokens, while modules are kept as text. If every name gets another
identifier that is not reserved, nothing is lost on the way: the tokens of the renamed text are the
renamed tokens (`lex_textOf_renameTokens`). The names in the literals of name lines are included.

What has to be shown is that no token is cut off differently because its neighbours have changed.
Seen from before a token, a renamed text is the text before with some whole words exchanged
(`Cuts.reworded`), and that cannot be told by looking ahead. Literals with a radix are the one
exception: an ampersand takes hexadecimal digits out of any word, so no name may stand directly
after one (`NamesApart`).
-/

namespace VbaModules.Lexer

open Text

/-! ### Exchanging the texts of names -/

/-- The literal that holds a name. -/
def literalOf (name : String) : Token :=
  ⟨.string, "\"" ++ name ++ "\""⟩

/-- A literal is its name between quotes. -/
theorem toList_text_literalOf (name : String) :
    (literalOf name).text.toList = '"' :: (name.toList ++ ['"']) := by
  rw [literalOf, String.toList_append, String.toList_append]
  rfl

/-- The tokens differ at most in a name: that of a name token, or the one within a literal. The new
name is an identifier, and the name of a name token is not reserved. -/
inductive Retext : Token → Token → Prop where
  | keep (t : Token) : Retext t t
  | name (name : String) {name' : String} (hname' : isIdentifier name'.toList = true)
      (hfree : Keyword.contains name' = false) : Retext ⟨.name, name⟩ ⟨.name, name'⟩
  | literal (text : String) {name' : String} (hname' : isIdentifier name'.toList = true) :
      Retext ⟨.string, text⟩ (literalOf name')

section Retext

variable {state : LineState} {t u : Token} {ts us : List Token}

/-- Only texts are exchanged, never kinds. -/
theorem Retext.kind_eq (h : Retext t u) : u.kind = t.kind := by
  cases h <;> rfl

/-- Tokens that hold no name stay. -/
theorem Retext.eq_of_kind (h : Retext t u) (hname : t.kind ≠ .name) (hstring : t.kind ≠ .string) :
    u = t := by
  cases h with
  | keep => rfl
  | name => exact absurd rfl hname
  | literal => exact absurd rfl hstring

/-- A token with another text leaves the same state. -/
theorem Retext.after_eq (h : Retext t u) : state.after u = state.after t := by
  cases h <;> rfl

/-- Looking for a word ends at a line break. -/
theorem IsBreak.exists_stopsLook {text : List Char} (h : IsBreak text) :
    ∃ c ∈ text, stopsLook c = true := by
  rcases h with rfl | rfl | rfl <;> exact ⟨_, List.mem_cons_self, by decide⟩

/-- The spacing in a line is blank; if it has continuations, line breaks belong to it. -/
theorem Spacing.forall_or_exists {cs : List Char} (h : Spacing cs) :
    (∀ c ∈ cs, isBlankChar c = true) ∨ ∃ c ∈ cs, stopsLook c = true := by
  induction h with
  | nil => exact .inl (by simp)
  | @blank c cs hc _ ih =>
    rcases ih with hall | ⟨d, hd, hstop⟩
    · exact .inl (List.forall_mem_cons.mpr ⟨hc, hall⟩)
    · exact .inr ⟨d, List.mem_cons_of_mem _ hd, hstop⟩
  | @continuation gap lineBreak cs _ hbreak _ _ =>
    obtain ⟨c, hc, hstop⟩ := hbreak.exists_stopsLook
    exact .inr ⟨c, by simp [hc], hstop⟩

/-- **Three ways to end the look ahead**: some character of a lexeme stops it, or the lexeme is
blank, or the lexeme is a word and ends where no word goes on. -/
theorem Lexeme.stops_or {kind : Token.Kind} {text rest : List Char}
    (h : Lexeme state kind text rest) :
    (∃ c ∈ text, stopsLook c = true) ∨ (∀ c ∈ text, isBlankChar c = true) ∨
      NotNext isWordChar rest := by
  have hhead : ∀ {c : Char} {cs : List Char}, stopsLook c = true →
      ∃ d ∈ c :: cs, stopsLook d = true := fun hc => ⟨_, List.mem_cons_self, hc⟩
  cases h with
  | lineBreak htext _ => exact .inl htext.exists_stopsLook
  | @blank c _ _ hc hcs _ _ =>
    rcases hcs.forall_or_exists with hall | ⟨d, hd, hstop⟩
    · exact .inr (.inl (List.forall_mem_cons.mpr ⟨hc, hall⟩))
    · exact .inl ⟨d, List.mem_cons_of_mem _ hd, hstop⟩
  | literal => exact .inl (hhead (by decide))
  | comment => exact .inl (hhead (by decide))
  | remark _ _ _ _ _ hends =>
    refine .inr (.inr (NotNext.imp hends fun c hc => ?_))
    rw [isBreakChar_eq_false_of_isWordChar hc]
    rfl
  | directive => exact .inl (hhead (by decide))
  | numberSign => exact .inl (hhead (by decide))
  | radix => exact .inl (hhead (by decide))
  | ampersand => exact .inl (hhead (by decide))
  | word _ hends _ => exact .inr (.inr hends)
  | number _ _ hends => exact .inr (.inr hends)
  | other hc =>
    refine .inl (hhead ?_)
    simp only [isOther, Bool.not_eq_true', Bool.or_eq_false_iff] at hc
    exact stopsLook_iff.mpr ⟨hc.1.1.1.1.1.2, hc.2⟩

/-- What stands behind the end of a look is not seen by it. -/
theorem Reworded.append_of_stops {inWord : Bool} {text : List Char}
    (h : ∃ c ∈ text, stopsLook c = true) (cs cs' : List Char) :
    Reworded inWord (text ++ cs) (text ++ cs') := by
  induction text generalizing inWord with
  | nil => simp at h
  | cons c text ih =>
    cases hc : stopsLook c with
    | true => exact .stop hc
    | false =>
      refine .keep (ih ?_)
      simpa [hc] using h

/-- Blanks in front of words that are exchanged change nothing. -/
theorem Reworded.append_of_blanks {text cs cs' : List Char}
    (htext : ∀ c ∈ text, isBlankChar c = true) (h : Reworded false cs cs') :
    Reworded false (text ++ cs) (text ++ cs') := by
  induction text with
  | nil => exact h
  | cons c text ih =>
    obtain ⟨hc, htext⟩ := List.forall_mem_cons.mp htext
    exact .keep (isWordChar_eq_false_of_isBlankChar hc ▸ ih htext)

theorem Reworded.append_of_notNext {inWord : Bool} {cs cs' : List Char} (text : List Char)
    (h : Reworded false cs cs') (hnext : NotNext isWordChar cs) :
    Reworded inWord (text ++ cs) (text ++ cs') := by
  induction text generalizing inWord with
  | nil => exact h.of_notNext hnext inWord
  | cons c text ih => exact .keep ih

/-- In front of a lexeme it is not seen that names after it have changed. -/
theorem Reworded.lexeme_append {kind : Token.Kind} {text cs cs' : List Char}
    (hlexeme : Lexeme state kind text cs) (h : Reworded false cs cs') :
    Reworded false (text ++ cs) (text ++ cs') := by
  rcases hlexeme.stops_or with hstops | hblanks | hnext
  · exact .append_of_stops hstops cs cs'
  · exact h.append_of_blanks hblanks
  · exact h.append_of_notNext text hnext

/-- A class that does not tell letters apart does not tell exchanged words apart. -/
theorem Reworded.notNext_iff {cs cs' : List Char} {inWord : Bool} (h : Reworded inWord cs cs')
    {p : Char → Bool} (hp : ∀ c d, c.isAlpha = true → d.isAlpha = true → p c = p d) :
    NotNext p cs ↔ NotNext p cs' := by
  refine notNext_iff_of_rel h.head_rel ?_
  rintro c d (rfl | ⟨hc, hd⟩)
  · rfl
  · exact hp c d hc hd

/-- **Exchanging names rewords the text.** -/
theorem Cuts.reworded (hcuts : Cuts state ts) (h : List.Forall₂ Retext ts us) :
    Reworded false (charsOf ts) (charsOf us) := by
  induction h generalizing state with
  | nil => exact .nil
  | @cons t u ts us htext _ ih =>
    cases hcuts with
    | cons hlexeme hrest =>
      have hreworded := ih hrest
      rw [charsOf_cons, charsOf_cons]
      cases htext with
      | keep => exact hreworded.lexeme_append hlexeme
      | @name _ name' hname' hfree =>
        obtain ⟨hword, hends⟩ := hlexeme.isIdentifier_of_name
        -- the new name ends where the old one did, as no letters were joined to it
        have hends' : NotNext isWordChar (charsOf us) :=
          (hreworded.notNext_iff fun c d hc hd => by
            rw [isWordChar_of_isAlpha hc, isWordChar_of_isAlpha hd]).mp hends
        exact .name hword hname' (by rwa [String.ofList_toList]) hends hends'
          (hreworded.of_notNext hends true)
      | literal =>
        obtain ⟨⟨cs, htext⟩, -⟩ := hlexeme.exists_eq_of_string
        rw [htext, toList_text_literalOf]
        exact .stop (by decide)

end Retext

/-! ### Literals with a radix and their neighbours -/

/-- Only lexemes of no particular kind begin with an ampersand. -/
theorem Lexeme.kind_eq_unknown {state : LineState} {kind : Token.Kind} {text rest : List Char}
    (h : Lexeme state kind text rest) (hhead : text.head? = some '&') : kind = .unknown := by
  have hword : ∀ {word cs : List Char}, isIdentifier word = true →
      (word ++ cs).head? = some '&' → False := by
    intro word cs hword hhead
    obtain ⟨c, letters, rfl, hc, -⟩ := exists_cons_of_isIdentifier hword
    obtain rfl := Option.some.inj hhead
    exact absurd hc (by decide)
  cases h with
  | lineBreak htext _ => rcases htext with rfl | rfl | rfl <;> cases hhead
  | blank hc _ _ _ =>
    obtain rfl := Option.some.inj hhead
    exact absurd hc (by decide)
  | literal => cases hhead
  | comment => cases hhead
  | remark _ hidentifier _ _ _ _ => exact (hword hidentifier hhead).elim
  | directive => cases hhead
  | word hidentifier _ _ =>
    rw [← List.append_nil text] at hhead
    exact (hword hidentifier hhead).elim
  | _ => rfl

/-! ### Rows of lexemes with other names -/

/-- No name stands directly after a token that begins with an ampersand. -/
def NamesApart (ts : List Token) : Prop :=
  ts.IsChain fun t u =>
    ¬(t.kind = .unknown ∧ t.text.toList.head? = some '&' ∧ u.kind = .name)

instance (ts : List Token) : Decidable (NamesApart ts) :=
  inferInstanceAs (Decidable (ts.IsChain _))

section Rows

variable {state : LineState} {t u : Token} {ts us : List Token}

/-- Unless a name comes first, the text begins with the same character as before. -/
theorem Cuts.head?_charsOf_eq (hcuts : Cuts state ts) (h : List.Forall₂ Retext ts us)
    (hhead : ∀ t ∈ ts.head?, t.kind ≠ .name) : (charsOf us).head? = (charsOf ts).head? := by
  cases h with
  | nil => rfl
  | @cons t u ts us htext _ =>
    cases hcuts with
    | cons hlexeme _ =>
      rw [charsOf_cons, charsOf_cons]
      cases htext with
      | keep =>
        obtain ⟨c, cs, hcs⟩ := List.exists_cons_of_ne_nil hlexeme.text_ne_nil
        rw [hcs]
        rfl
      | name => exact absurd rfl (hhead _ rfl)
      | literal =>
        obtain ⟨⟨cs, hcs⟩, -⟩ := hlexeme.exists_eq_of_string
        rw [hcs, toList_text_literalOf]
        rfl

/-- Unless a name comes first, an ampersand in front of the row begins no literal now if it began
none before. -/
theorem Cuts.radixLength?_charsOf (hcuts : Cuts state ts) (h : List.Forall₂ Retext ts us)
    (hhead : ∀ t ∈ ts.head?, t.kind ≠ .name) (hnone : radixLength? (charsOf ts) = none) :
    radixLength? (charsOf us) = none := by
  rw [radixLength?_eq_none_iff] at hnone ⊢
  intro radix p ys hys hradix
  have hword := isWordChar_of_isAlpha hradix.isAlpha
  cases h with
  | nil => cases hys
  | @cons t u ts us htext htexts =>
    cases hcuts with
    | cons hlexeme hrest =>
      rw [charsOf_cons] at hys hnone
      cases htext with
      | name => exact absurd rfl (hhead _ rfl)
      | literal =>
        rw [toList_text_literalOf] at hys
        obtain ⟨rfl, -⟩ := List.cons.inj hys
        exact absurd hword (by decide)
      | keep =>
        obtain ⟨c, cs, hcs⟩ := List.exists_cons_of_ne_nil hlexeme.text_ne_nil
        rw [hcs] at hlexeme hys hnone
        obtain ⟨rfl, rfl⟩ := List.cons.inj hys
        cases cs with
        | cons d cs =>
          have hdigit : NotNext p (d :: cs ++ charsOf ts) := hnone c p _ rfl hradix
          exact hdigit
        | nil =>
          -- the radix letter is a word of its own, so that no digit follows
          have hends : NotNext isWordChar (charsOf ts) := by
            rcases hlexeme.stops_or with ⟨d, hd, hstop⟩ | hblank | hends
            · obtain rfl := List.mem_singleton.mp hd
              rw [(stopsLook_iff.mp hstop).2] at hword
              cases hword
            · have hc := hblank c List.mem_cons_self
              rw [isBlankChar_eq_false_of_isWordChar hword] at hc
              cases hc
            · exact hends
          have hends' : NotNext isWordChar (charsOf us) :=
            (hrest.reworded htexts).standsFor.notNext_isWordChar.mp hends
          exact hends'.imp fun d hd => hradix.isWordChar_of_digit hd

/-- A new name that is not reserved is cut off as a name again. In particular it introduces no
remark. -/
theorem Lexeme.of_isIdentifier {name : String} {rest : List Char}
    (hname : isIdentifier name.toList = true) (hfree : Keyword.contains name = false)
    (hends : NotNext isWordChar rest) : Lexeme state .name name.toList rest := by
  have hkind : wordKind name.toList = .name := by
    rw [wordKind, String.ofList_toList, hfree]
    rfl
  rw [← hkind]
  refine .word hname hends ?_
  rintro ⟨-, hrem, -⟩
  rw [String.ofList_toList, sameWord_iff] at hrem
  rw [contains_of_mem (show "Rem" ∈ Keyword.all by decide) hrem] at hfree
  cases hfree

/-- **Exchanging names keeps the cuts**, if names stand apart from ampersands. By induction on the
row: seen from before a token, the row after it is reworded only. -/
theorem Cuts.of_retext (hcuts : Cuts state ts) (hapart : NamesApart ts)
    (h : List.Forall₂ Retext ts us) : Cuts state us := by
  induction h generalizing state with
  | nil => exact .nil state
  | @cons t u ts us htext htexts ih =>
    cases hcuts with
    | cons hlexeme hrest =>
      obtain ⟨hnext, hapart⟩ := List.isChain_cons.mp hapart
      have hreworded := hrest.reworded htexts
      refine .cons ?_ (ih (htext.after_eq ▸ hrest) hapart)
      cases htext with
      | keep =>
        refine hlexeme.of_standsFor hreworded.standsFor ?_ ?_
        · intro hunsplit hlast
          -- a letter in the place of another is no line feed
          refine (hreworded.notNext_iff fun c d hc hd => ?_).mp (hunsplit hlast)
          rw [beq_eq_false_iff_ne.mpr (ne_of_class hc (by decide)),
            beq_eq_false_iff_ne.mpr (ne_of_class hd (by decide))]
        · intro hampersand
          -- no name stands next, so the text goes on with the same character
          have hkind := hlexeme.kind_eq_unknown hampersand
          have hhead : ∀ v ∈ ts.head?, v.kind ≠ .name :=
            fun v hv hname => hnext v hv ⟨hkind, hampersand, hname⟩
          have hsame := hrest.head?_charsOf_eq htexts hhead
          refine ⟨fun cs hcs => ?_, hrest.radixLength?_charsOf htexts hhead⟩
          cases hcs with
          | plain hradix hne hdigits hends hmark =>
            refine .plain hradix hne hdigits ?_ ?_
            · rwa [NotNext, hsame]
            · rwa [NotNext, hsame]
          | closed hradix hne hdigits => exact .closed hradix hne hdigits
      | name _ hname' hfree =>
        obtain ⟨-, hends⟩ := hlexeme.isIdentifier_of_name
        exact .of_isIdentifier hname' hfree (hreworded.standsFor.notNext_isWordChar.mp hends)
      | literal _ hname' =>
        obtain ⟨-, hends⟩ := hlexeme.exists_eq_of_string
        have hends' : LiteralEnds true (charsOf us) :=
          hreworded.standsFor.literalEnds.mp (show LiteralEnds true (charsOf ts) from hends)
        rw [toList_text_literalOf]
        exact .literal (literalTail_of_isIdentifier hname') hends'

/-- The same for the tokens of a module, where a byte order mark may stand first. -/
theorem scanModule_charsOf_of_retext {cs : List Char} (hapart : NamesApart (scanModule cs))
    (h : List.Forall₂ Retext (scanModule cs) us) : scanModule (charsOf us) = us := by
  by_cases hmark : cs.head? = some '\uFEFF'
  · obtain ⟨cs, rfl⟩ := List.head?_eq_some_iff.mp hmark
    rw [scanModule_mark] at h hapart
    cases h with
    | cons htext htexts =>
      obtain rfl := htext.eq_of_kind (by decide) (by decide)
      have hcuts := (cuts_scan .start cs).of_retext (List.isChain_cons.mp hapart).2 htexts
      exact congrArg (markToken :: ·) hcuts.scan_eq
  · rw [scanModule_of_head?_ne hmark] at h hapart
    have hcuts := cuts_scan .start cs
    -- a letter in the place of another makes no byte order mark
    have hhead := (hcuts.reworded h).notNext_iff (p := (· == '\uFEFF')) fun c d hc hd => by
      rw [beq_eq_false_iff_ne.mpr (ne_of_class hc (by decide)),
        beq_eq_false_iff_ne.mpr (ne_of_class hd (by decide))]
    rw [charsOf_scan] at hhead
    have hmark' : (charsOf us).head? ≠ some '\uFEFF' := by
      intro hmark'
      have hnext : NotNext (· == '\uFEFF') cs := by
        intro c hc
        refine beq_eq_false_iff_ne.mpr ?_
        rintro rfl
        exact hmark hc
      simpa using hhead.mp hnext _ hmark'
    rw [scanModule_of_head?_ne hmark']
    exact (hcuts.of_retext hapart h).scan_eq

end Rows

/-! ### Name lines with other names -/

section Renaming

variable {replacement? : String → Option String} {t : Token} {ts us : List Token}

theorem renameToken_of_kind_ne (h : t.kind ≠ .name) : renameToken replacement? t = t := by
  rw [renameToken, if_neg (by simpa [Token.isName] using h)]

/-- **Renaming exchanges texts of names**, if the new names are names. -/
theorem retext_renameToken
    (hnew : ∀ name name', replacement? name = some name' →
      isIdentifier name'.toList = true ∧ Keyword.contains name' = false) (t : Token) :
    Retext t (renameToken replacement? t) := by
  obtain ⟨kind, text⟩ := t
  by_cases hkind : kind = .name
  · subst hkind
    cases hname : replacement? text with
    | none =>
      have hsame : renameToken replacement? ⟨.name, text⟩ = ⟨.name, text⟩ := by
        simp [renameToken, Token.isName, hname]
      rw [hsame]
      exact .keep _
    | some name' =>
      have hother : renameToken replacement? ⟨.name, text⟩ = ⟨.name, name'⟩ := by
        simp [renameToken, Token.isName, hname]
      obtain ⟨hidentifier, hfree⟩ := hnew text name' hname
      rw [hother]
      exact .name text hidentifier hfree
  · rw [renameToken_of_kind_ne hkind]
    exact .keep _

/-- A name is read back from its literal. -/
theorem unquoted?_literalOf {name : String} (h : isIdentifier name.toList = true) :
    unquoted? (literalOf name).text = some name := by
  have hne : name ≠ "" := by
    rintro rfl
    cases h
  rw [unquoted?, toList_text_literalOf]
  simp [hne]

/-- Names play no part in where a name line begins. -/
theorem beginsNameLine_of_retext (h : List.Forall₂ Retext ts us) :
    beginsNameLine us = beginsNameLine ts := by
  have hreserved : ∀ {t u : Token} (word : String), Retext t u →
      (u.kind == .reserved && u.spells word) = (t.kind == .reserved && t.spells word) := by
    intro t u word htext
    by_cases hkind : t.kind = .reserved
    · rw [htext.eq_of_kind (by simp [hkind]) (by simp [hkind])]
    · rw [htext.kind_eq, beq_eq_false_iff_ne.mpr hkind, Bool.false_and, Bool.false_and]
  cases h with
  | nil => rfl
  | cons ha h =>
    cases h with
    | nil => rfl
    | cons hs h =>
      cases h with
      | nil => rfl
      | cons hv _ =>
        simp only [beginsNameLine]
        rw [hreserved "attribute" ha, Token.isBlank, Token.isBlank, hs.kind_eq, Bool.and_assoc,
          Bool.and_assoc _ _ (Token.spells _ _), hreserved "vb_name" hv, ← Bool.and_assoc]

/-- **The second pass commutes with renaming**: there is a row with other names that it takes apart
into the renamed tokens. Within a literal it is the name between the quotes that is replaced. -/
theorem exists_retext_splitNames
    (hnew : ∀ name name', replacement? name = some name' →
      isIdentifier name'.toList = true ∧ Keyword.contains name' = false)
    (due : Nat) (ts : List Token) :
    ∃ us, List.Forall₂ Retext ts us ∧
      splitNames due us = renameTokens replacement? (splitNames due ts) := by
  fun_induction splitNames due ts with
  | case1 due => exact ⟨[], .nil, by rw [splitNames]; rfl⟩
  | case2 due t ts hbreak ih =>
    obtain ⟨us, htexts, hsplit⟩ := ih
    refine ⟨t :: us, .cons (.keep t) htexts, ?_⟩
    have hkind : t.kind = .lineBreak := by simpa [Token.isLineBreak] using hbreak
    have hsame : renameToken replacement? t = t := renameToken_of_kind_ne (by rw [hkind]; decide)
    rw [splitNames, if_pos hbreak, hsplit, renameTokens, renameTokens, List.map_cons, hsame]
  | case3 due t ts hbreak hliteral name hname ih =>
    obtain ⟨us, htexts, hsplit⟩ := ih
    have hkind := kind_eq_string_of_due hliteral
    have hquote : renameToken replacement? quoteToken = quoteToken :=
      renameToken_of_kind_ne (by decide)
    -- the literal with the new name, which is the old literal if the name has no replacement
    obtain ⟨u, htext, hukind, hunquoted⟩ : ∃ u, Retext t u ∧ u.kind = .string ∧
        unquoted? u.text = some ((replacement? name).getD name) := by
      cases hreplaced : replacement? name with
      | none => exact ⟨t, .keep t, hkind, hname⟩
      | some name' =>
        obtain ⟨kind, text⟩ := t
        obtain rfl : kind = .string := hkind
        exact ⟨_, .literal text (hnew name name' hreplaced).1, rfl,
          unquoted?_literalOf (hnew name name' hreplaced).1⟩
    have hubreak : ¬u.isLineBreak = true := by simp [Token.isLineBreak, hukind]
    have huliteral : (u.kind == .string && due != 0) = true := by
      rwa [htext.kind_eq]
    refine ⟨u :: us, .cons htext htexts, ?_⟩
    rw [splitNames, if_neg hubreak, if_pos huliteral, hunquoted]
    simp only [hsplit, renameTokens, List.map_cons, hquote]
    rfl
  | case4 due t ts hbreak hliteral hname ih =>
    obtain ⟨us, htexts, hsplit⟩ := ih
    have hkind := kind_eq_string_of_due hliteral
    have hsame : renameToken replacement? t = t := renameToken_of_kind_ne (by rw [hkind]; decide)
    refine ⟨t :: us, .cons (.keep t) htexts, ?_⟩
    rw [splitNames, if_neg hbreak, if_pos hliteral, hname, renameTokens, List.map_cons, hsame]
    exact congrArg (t :: ·) hsplit
  | case5 due t ts hbreak hliteral hbegins ih =>
    obtain ⟨us, htexts, hsplit⟩ := ih
    have htext := retext_renameToken hnew t
    have hline := beginsNameLine_of_retext (.cons htext htexts)
    refine ⟨renameToken replacement? t :: us, .cons htext htexts, ?_⟩
    rw [splitNames, if_neg (by rwa [Token.isLineBreak, htext.kind_eq]),
      if_neg (by rwa [htext.kind_eq]), if_pos (hline.trans hbegins), hsplit]
    rfl
  | case6 due t ts hbreak hliteral hbegins ih =>
    obtain ⟨us, htexts, hsplit⟩ := ih
    have htext := retext_renameToken hnew t
    have hline := beginsNameLine_of_retext (.cons htext htexts)
    refine ⟨renameToken replacement? t :: us, .cons htext htexts, ?_⟩
    rw [splitNames, if_neg (by rwa [Token.isLineBreak, htext.kind_eq]),
      if_neg (by rwa [htext.kind_eq]), if_neg (by rwa [hline]), hsplit]
    rfl

/-- The first token stays, unless it is a literal. -/
theorem head?_splitNames {due : Nat} (h : ∀ t ∈ ts.head?, t.kind ≠ .string) :
    (splitNames due ts).head? = ts.head? := by
  cases ts with
  | nil => rw [splitNames]
  | cons t ts =>
    have hkind : (t.kind == .string) = false := beq_eq_false_iff_ne.mpr (h t rfl)
    rw [splitNames, hkind]
    split
    · rfl
    · split
      next hliteral => cases hliteral
      next => split <;> rfl

/-- Taking literals apart brings no name next to an ampersand and hides none. -/
theorem namesApart_of_splitNames {due : Nat} (h : NamesApart (splitNames due ts)) :
    NamesApart ts := by
  have hcons : ∀ {t : Token} {due : Nat} {ts : List Token},
      NamesApart (t :: splitNames due ts) → (NamesApart (splitNames due ts) → NamesApart ts) →
      NamesApart (t :: ts) := by
    intro t due ts hapart ih
    obtain ⟨hnext, hrest⟩ := List.isChain_cons.mp hapart
    refine List.isChain_cons.mpr ⟨fun u hu => ?_, ih hrest⟩
    rintro ⟨hkind, hampersand, hname⟩
    -- a name that stands first is not taken apart
    have hhead : (splitNames due ts).head? = ts.head? := by
      refine head?_splitNames fun v hv => ?_
      obtain rfl := Option.mem_unique hu hv
      rw [hname]
      decide
    exact hnext u (hhead ▸ hu) ⟨hkind, hampersand, hname⟩
  fun_induction splitNames due ts with
  | case1 => exact .nil
  | case2 due t ts _ ih => exact hcons h ih
  | case3 due t ts _ hliteral name _ ih =>
    have hkind := kind_eq_string_of_due hliteral
    refine List.isChain_cons.mpr ⟨fun u _ hu => ?_, ih h.tail.tail.tail⟩
    rw [hkind] at hu
    cases hu.1
  | case4 due t ts _ _ _ ih => exact hcons h ih
  | case5 due t ts _ _ _ ih => exact hcons h ih
  | case6 due t ts _ _ _ ih => exact hcons h ih

end Renaming

/-! ### Reading a renamed module -/

/-- The tokens that are scanned have the texts of their kinds. -/
theorem grounded_of_mem_scanModule {cs : List Char} {t : Token} (h : t ∈ scanModule cs) :
    Grounded t := by
  unfold scanModule at h
  split at h
  · rcases List.mem_cons.mp h with rfl | hrest
    · exact ⟨by decide, fun hstring => by cases hstring⟩
    · exact grounded_of_mem_scan hrest
  · exact grounded_of_mem_scan h

/-- **A renamed module is read as it was written**: if in the tokens of a module no name stands
directly after a token that begins with an ampersand, and all replacements of a table are
identifiers that are not reserved, then the text of the renamed tokens has just these tokens. -/
theorem lex_textOf_renameTokens {text : String} {table : RenameTable}
    (hapart : NamesApart (lex text))
    (htable : ∀ pair ∈ table.pairs,
      isIdentifier pair.2.toList = true ∧ Keyword.contains pair.2 = false) :
    lex (Token.textOf (renameTokens table.get? (lex text))) =
      renameTokens table.get? (lex text) := by
  have hnew : ∀ name name', table.get? name = some name' →
      isIdentifier name'.toList = true ∧ Keyword.contains name' = false := by
    intro name name' hname
    exact htable (foldCase name, name') (Dictionary.get?_eq_some_iff.mp hname)
  rw [lex_eq_splitNames text] at hapart ⊢
  obtain ⟨us, htexts, hsplit⟩ := exists_retext_splitNames hnew 0 (scanModule text.toList)
  have hscan := scanModule_charsOf_of_retext (namesApart_of_splitNames hapart) htexts
  have hgrounded : ∀ u ∈ us, Grounded u := by
    intro u hu
    rw [← hscan] at hu
    exact grounded_of_mem_scanModule hu
  have htext : (Token.textOf us).toList = charsOf us := Token.toList_textOf us
  rw [← hsplit, textOf_splitNames hgrounded, lex_eq_splitNames, htext, hscan]

/-- The name of a module is replaced in its name line and after an ampersand, from which a blank
sets it apart. -/
theorem lex_textOf_renameTokens_grid :
    NamesApart (lex "Attribute VB_Name = \"Grid\"\r\n& Grid") ∧
    lex (Token.textOf (renameTokens (RenameTable.ofList [("GRID", "Sheet")]).get?
        (lex "Attribute VB_Name = \"Grid\"\r\n& Grid"))) =
      renameTokens (RenameTable.ofList [("GRID", "Sheet")]).get?
        (lex "Attribute VB_Name = \"Grid\"\r\n& Grid") :=
  have hapart : NamesApart (lex "Attribute VB_Name = \"Grid\"\r\n& Grid") := by decide +kernel
  ⟨hapart, lex_textOf_renameTokens hapart (by decide +kernel)⟩

end VbaModules.Lexer

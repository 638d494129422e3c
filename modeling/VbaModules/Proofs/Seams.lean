import VbaModules.Proofs.LineEndings

/-!
# Seams between texts

A text is put together from parts, and the parts are to be lexed each by itself. That goes well if
every part ends its last line: its last character is a line feed, and this line feed is a line break
as a token (`EndsItsLine`). Then nothing that stands open in one part, be it a literal, a remark, a
directive or a continuation, reaches into the next (`lex_append_eq`, `lex_join`).

A line feed is no line break as a token only if it belongs to a continuation, and before such a line
feed stands an underscore, a blank or a carriage return. So two line feeds in a row always end a
line: the first may be swallowed by a continuation, but the second is not.
-/

namespace VbaModules.Lexer

/-! ### The last line feed of a text -/

/-- What can stand before the line feed of a line continuation. -/
def leadsOn (c : Char) : Bool :=
  isBlankChar c || c == '_' || c == '\r'

/-- A line feed at the end of spacing belongs to a line continuation. -/
theorem Spacing.exists_leadsOn {cs before : List Char} (h : Spacing cs)
    (heq : cs = before ++ ['\n']) : ∃ c, before.getLast? = some c ∧ leadsOn c = true := by
  induction h generalizing before with
  | nil => simp at heq
  | @blank b cs hb hcs ih =>
    cases before with
    | nil =>
      obtain ⟨rfl, -⟩ := List.cons.inj heq
      cases hb
    | cons d before =>
      obtain ⟨c, hc, hleads⟩ := ih (List.cons.inj heq).2
      exact ⟨c, by rw [List.getLast?_cons, hc]; rfl, hleads⟩
  | @continuation gap lineBreak cs hgap hbreak hcs ih =>
    have hwhole : '_' :: (gap ++ (lineBreak ++ cs)) = ('_' :: gap) ++ lineBreak ++ cs := by simp
    rw [hwhole] at heq
    rcases List.eq_nil_or_concat' cs with rfl | ⟨most, last, rfl⟩
    · -- the line feed is the one of this continuation
      rw [List.append_nil] at heq
      rcases hbreak with rfl | rfl | rfl
      · obtain ⟨rfl, -⟩ := List.append_inj' heq rfl
        rcases List.eq_nil_or_concat' gap with rfl | ⟨gap, b, rfl⟩
        · exact ⟨'_', rfl, rfl⟩
        · refine ⟨b, ?_, by simp [leadsOn, hgap b (by simp)]⟩
          rw [← List.cons_append, List.getLast?_concat]
      · rw [List.append_cons] at heq
        obtain ⟨rfl, -⟩ := List.append_inj' heq rfl
        exact ⟨'\r', List.getLast?_concat, rfl⟩
      · obtain ⟨-, hlast⟩ := List.append_inj' heq rfl
        cases hlast
    · rw [← List.append_assoc] at heq
      obtain ⟨rfl, hlast⟩ := List.append_inj' heq rfl
      obtain ⟨c, hc, hleads⟩ := ih (by rw [hlast])
      exact ⟨c, by rw [List.getLast?_append, hc]; rfl, hleads⟩

/-- **A line feed ends the line**, unless what stands before it leads on to the next line. By
induction on the row: of its last lexeme only a line break is left. -/
theorem Cuts.endsLine_of_feed {state : LineState} {ts : List Token} (h : Cuts state ts)
    {before : List Char} (hchars : charsOf ts = before ++ ['\n'])
    (hends : ∀ c ∈ before.getLast?, leadsOn c = false) : endsLine ts = true := by
  induction h generalizing before with
  | nil => simp at hchars
  | @cons state t ts hlexeme hrest ih =>
    by_cases hnil : ts = []
    · subst hnil
      rw [charsOf_cons, charsOf_nil, List.append_nil] at hchars
      rw [hchars, charsOf_nil] at hlexeme
      have hkind : t.kind = .lineBreak := by
        by_contra hbreak
        by_cases hblank : t.kind = .blank
        · rw [hblank] at hlexeme
          obtain ⟨b, cs, htext, hb, hcs, -⟩ := hlexeme.exists_spacing_of_blank
          obtain ⟨c, hc, hleads⟩ := (Spacing.blank hb hcs).exists_leadsOn htext.symm
          rw [hends c hc] at hleads
          cases hleads
        · have hfeed := hlexeme.isBreakChar_eq_false hblank hbreak '\n' (by simp)
          cases hfeed
      simp [endsLine, Token.isLineBreak, hkind]
    · rw [endsLine_cons_of_ne_nil hnil]
      -- the line feed belongs to the later lexemes, which have some text
      rcases List.eq_nil_or_concat' (charsOf ts) with hempty | ⟨most, last, hmost⟩
      · cases hrest with
        | nil => exact absurd rfl hnil
        | cons hlexeme' _ =>
          rw [charsOf_cons, List.append_eq_nil_iff] at hempty
          exact absurd hempty.1 hlexeme'.text_ne_nil
      · rw [charsOf_cons, hmost, ← List.append_assoc] at hchars
        obtain ⟨rfl, hlast⟩ := List.append_inj' hchars rfl
        refine ih (by rw [hmost, hlast]) fun c hc => hends c ?_
        rw [Option.mem_def] at hc ⊢
        rw [List.getLast?_append, hc]
        rfl

/-! ### Texts that end their lines -/

/-- A text **ends its line**: its last character is a line feed, and no line continuation takes this
line feed. -/
structure EndsItsLine (text : String) : Prop where
  getLast?_eq : text.toList.getLast? = some '\n'
  endsLine_scan : endsLine (scan .start text.toList) = true

theorem EndsItsLine.of_feed {text : String} {before : List Char}
    (htext : text.toList = before ++ ['\n']) (hends : ∀ c ∈ before.getLast?, leadsOn c = false) :
    EndsItsLine text where
  getLast?_eq := by simp [htext]
  endsLine_scan := (cuts_scan .start text.toList).endsLine_of_feed
    ((charsOf_scan _ _).trans htext) hends

/-- A text ends its line if its last two characters do. -/
theorem EndsItsLine.append (text : String) {ending : String} (c : Char)
    (hending : ending.toList = [c, '\n']) (hc : leadsOn c = false) :
    EndsItsLine (text ++ ending) := by
  have hchars : (text ++ ending).toList = text.toList ++ [c] ++ ['\n'] := by
    rw [String.toList_append, hending, ← List.append_cons]
  refine .of_feed hchars fun d hd => ?_
  rw [List.getLast?_concat, Option.mem_some] at hd
  rwa [← hd]

section EndsItsLine

variable {a b : String}

theorem EndsItsLine.ne_empty (h : EndsItsLine a) : a.toList ≠ [] := by
  intro hnil
  have hlast := h.getLast?_eq
  rw [hnil] at hlast
  cases hlast

/-- What follows a text that ends its line is lexed as if at the start of a line. -/
theorem lex_append_eq (ha : EndsItsLine a) (hmark : a.toList.head? ≠ some '\uFEFF') :
    lex (a ++ b) = lex a ++ splitNames 0 (scan .start b.toList) := by
  have hmark' : (a.toList ++ b.toList).head? ≠ some '\uFEFF' := by
    rwa [List.head?_append_of_ne_nil _ ha.ne_empty]
  have hunsplit : Unsplit a.toList b.toList := by
    intro hreturn
    rw [ha.getLast?_eq] at hreturn
    cases hreturn
  rw [lex_eq_splitNames, lex_eq_splitNames, String.toList_append, scanModule_of_head?_ne hmark,
    scanModule_of_head?_ne hmark', scan_append ha.endsLine_scan hunsplit,
    splitNames_append ha.endsLine_scan]

theorem splitNames_scan_eq_lex (hmark : b.toList.head? ≠ some '\uFEFF') :
    splitNames 0 (scan .start b.toList) = lex b := by
  rw [lex_eq_splitNames, scanModule_of_head?_ne hmark]

end EndsItsLine

/-- **Texts that end their lines are lexed each by itself**, if none of them begins with a byte
order mark. -/
theorem lex_join {texts : List String}
    (h : ∀ text ∈ texts, EndsItsLine text ∧ text.toList.head? ≠ some '\uFEFF') :
    lex (String.join texts) = texts.flatMap lex := by
  induction texts with
  | nil => simp [String.join, lex, scan, splitNames]
  | cons text texts ih =>
    obtain ⟨⟨hends, hmark⟩, hrest⟩ := List.forall_mem_cons.mp h
    have hnext : (String.join texts).toList.head? ≠ some '\uFEFF' := by
      cases texts with
      | nil => simp
      | cons next texts =>
        obtain ⟨hends', hmark'⟩ := hrest next List.mem_cons_self
        rw [String.join_cons, String.toList_append, List.head?_append_of_ne_nil _ hends'.ne_empty]
        exact hmark'
    rw [String.join_cons, lex_append_eq hends hmark, splitNames_scan_eq_lex hnext, ih hrest,
      List.flatMap_cons]

end VbaModules.Lexer

import VbaModules.Proofs.Assembling
import VbaModules.Proofs.NamePositions
import VbaModules.Proofs.NameTokens
import VbaModules.Proofs.Rewording
import VbaModules.Proofs.Seams

/-!
# The line in which a module gives its name

A line `Attribute VB_Name = "..."` reads back as what it says: its tokens are those of `namingLine`,
with the name as a token of its own between the quotes (`Lexer.lex_namingText`), and this is the
name that a module with such a first line gives itself (`declaredName?_namingLine_append`). The name
may be any text that fits into a literal: one that is not empty and has no quote and no line break
in it, for example, so it need not be an identifier.
-/

namespace VbaModules

/-- The text of a line in which a module gives its name. -/
def namingText (name : String) : String :=
  "Attribute VB_Name = \"" ++ name ++ "\"\n"

/-- Whether a text can stand between the quotes of a naming line. -/
def isQuotable (name : String) : Bool :=
  name != "" && name.toList.all fun c => c != '"' && !Lexer.isBreakChar c

namespace Lexer

open Text

theorem FitsLiteral.of_isQuotable {name : String} (h : isQuotable name = true) :
    FitsLiteral name := by
  rw [isQuotable, Bool.and_eq_true, bne_iff_ne, List.all_eq_true] at h
  refine ⟨h.1, true, .of_forall fun c hc => ?_⟩
  simpa using h.2 c hc

/-- The tokens of a naming line before its literal is taken apart. -/
def namingRow (name : String) : List Token :=
  [⟨.reserved, "Attribute"⟩, ⟨.blank, " "⟩, ⟨.reserved, "VB_Name"⟩, ⟨.blank, " "⟩, ⟨.unknown, "="⟩,
    ⟨.blank, " "⟩, ⟨.string, "\"" ++ name ++ "\""⟩, ⟨.lineBreak, "\n"⟩]

theorem Lexeme.of_reserved {state : LineState} {word : String} {rest : List Char}
    (hword : word ∈ Keyword.all) (hidentifier : isIdentifier word.toList = true)
    (hrem : sameWord word "rem" = false) (hends : NotNext isWordChar rest) :
    Lexeme state .reserved word.toList rest := by
  have hkind : wordKind word.toList = .reserved := by
    rw [wordKind, String.ofList_toList, contains_of_mem hword rfl]
    rfl
  rw [← hkind]
  refine .word hidentifier hends ?_
  rintro ⟨-, hrem', -⟩
  rw [String.ofList_toList, hrem] at hrem'
  cases hrem'

theorem Lexeme.space {state : LineState} {c : Char} {rest : List Char}
    (hc : isBlankChar c = false) (hmark : c ≠ '_') : Lexeme state .blank [' '] (c :: rest) := by
  refine .blank rfl .nil ⟨notNext_cons.mpr hc, ?_⟩ (by simp [Unsplit])
  rw [continuation?]
  rintro cs heq
  exact hmark (List.cons.inj heq).1

theorem cuts_namingRow {name : String} (h : FitsLiteral name) :
    Cuts .start (namingRow name) := by
  obtain ⟨isClosed, htail⟩ := h.exists_literalTail
  have hends : LiteralEnds isClosed ['\n'] := by cases isClosed <;> exact notNext_cons.mpr rfl
  have hliteral : ("\"" ++ name ++ "\"").toList = '"' :: (name.toList ++ ['"']) := by simp
  refine .cons (.of_reserved (by decide) (by decide) (by decide) (notNext_cons.mpr rfl)) ?_
  refine .cons (.space rfl (by decide)) ?_
  refine .cons (.of_reserved (by decide) (by decide) (by decide) (notNext_cons.mpr rfl)) ?_
  refine .cons (.space rfl (by decide)) ?_
  refine .cons (.other rfl) ?_
  refine .cons ?_ (.cons ?_ (.cons (.lineBreak (by simp [IsBreak]) (by simp [Unsplit])) (.nil _)))
  · rw [charsOf_cons, hliteral]
    exact .space rfl (by decide)
  · rw [hliteral]
    exact .literal htail hends

theorem splitNames_namingRow {name : String} (h : FitsLiteral name) :
    splitNames 0 (namingRow name) = namingLine name := by
  have hne := h.ne_empty
  have hname : unquoted? ("\"" ++ name ++ "\"") = some name := by
    simp [unquoted?, hne]
  have hattribute : Token.spells ⟨.reserved, "Attribute"⟩ "attribute" = true := by decide
  have hvbName : Token.spells ⟨.reserved, "VB_Name"⟩ "vb_name" = true := by decide
  simp [splitNames, namingRow, namingLine, quoteToken, hname, Token.isLineBreak, Token.isBlank,
    beginsNameLine, hattribute, hvbName]

theorem toList_append_append (a b c : String) :
    (a ++ b ++ c).toList = a.toList ++ (b.toList ++ c.toList) := by
  rw [String.toList_append, String.toList_append, List.append_assoc]

theorem toList_namingText (name : String) :
    (namingText name).toList = charsOf (namingRow name) := by
  have hopening : "Attribute VB_Name = \"".toList =
      "Attribute".toList ++ (" ".toList ++ ("VB_Name".toList ++
        (" ".toList ++ ("=".toList ++ (" ".toList ++ "\"".toList))))) := by decide
  have hclosing : "\"\n".toList = "\"".toList ++ "\n".toList := by decide
  calc (namingText name).toList
      = "Attribute VB_Name = \"".toList ++ (name.toList ++ "\"\n".toList) :=
        toList_append_append _ _ _
    _ = ("Attribute".toList ++ (" ".toList ++ ("VB_Name".toList ++ (" ".toList ++
          ("=".toList ++ (" ".toList ++ "\"".toList)))))) ++
            (name.toList ++ ("\"".toList ++ "\n".toList)) :=
        congrArg₂ (· ++ ·) hopening (congrArg (name.toList ++ ·) hclosing)
    _ = charsOf (namingRow name) := by
        rw [namingRow]
        simp only [charsOf_cons, charsOf_nil, List.append_nil, List.append_assoc,
          toList_append_append "\"" name "\""]

theorem head?_namingText (name : String) : (namingText name).toList.head? = some 'A' := by
  rw [toList_namingText]
  rfl

/-- A naming line ends where it says, whatever the name: before its line feed stands a quote. -/
theorem endsItsLine_namingText (name : String) : EndsItsLine (namingText name) :=
  .append _ '"' (by decide) rfl

/-- **A naming line reads back** as what it says. -/
theorem lex_namingText {name : String} (h : FitsLiteral name) :
    lex (namingText name) = namingLine name := by
  rw [← splitNames_scan_eq_lex (by rw [head?_namingText]; decide), toList_namingText,
    (cuts_namingRow h).scan_eq, splitNames_namingRow h]

/-- The line is read apart from what follows it. -/
theorem lex_namingText_append_eq {name : String} (h : FitsLiteral name) (text : String) :
    lex (namingText name ++ text) = namingLine name ++ splitNames 0 (scan .start text.toList) := by
  rw [lex_append_eq (endsItsLine_namingText name) (by rw [head?_namingText]; decide),
    lex_namingText h]

theorem lex_namingText_append {name text : String} (h : isQuotable name = true)
    (hmark : text.toList.head? ≠ some '\uFEFF') :
    lex (namingText name ++ text) = namingLine name ++ lex text := by
  rw [lex_namingText_append_eq (.of_isQuotable h), splitNames_scan_eq_lex hmark]

end Lexer

/-- A naming line is found where it stands. -/
theorem next?_namingLine_append (name : String) (rest : List Token) :
    nameLine.next? true (namingLine name ++ rest) 0 = some ⟨0, 8⟩ := by
  have hwords : (Element.words ["attribute"]).accepts ⟨.reserved, "Attribute"⟩ = true ∧
      (Element.words ["vb_name"]).accepts ⟨.reserved, "VB_Name"⟩ = true ∧
      (Element.words ["="]).accepts ⟨.unknown, "="⟩ = true ∧
      (Element.words ["\""]).accepts ⟨.unknown, "\""⟩ = true ∧
      Element.anything.accepts ⟨.name, name⟩ = true := by
    refine ⟨?_, ?_, ?_, ?_, rfl⟩ <;> decide
  have halign : Pattern.align nameLine.elements (namingLine name ++ rest) = some 8 := by
    simp [nameLine, namingLine, Pattern.align, Token.isBlank, hwords]
  exact Pattern.next?_eq_some_iff.mpr ⟨le_rfl, ⟨by simp, ⟨_, rfl, rfl⟩, fun _ => rfl, halign⟩,
    fun m _ _ => Nat.zero_le m.start⟩

/-- The name that a module gives in its first line is its name. -/
theorem declaredName?_namingLine_append (name : String) (rest : List Token) :
    declaredName? (namingLine name ++ rest) = some name := by
  rw [declaredName?, Pattern.lineMatches, Pattern.matchesFrom_eq, next?_namingLine_append]
  rfl

/-! ### The name as a token -/

theorem exists_mem_of_declaredName? {tokens : List Token} {name : String}
    (h : declaredName? tokens = some name) : ∃ t ∈ tokens, t.kind = .name ∧ t.text = name := by
  obtain ⟨line, -, hget⟩ := List.exists_of_findSome?_eq_some h
  obtain ⟨t, ht, hname, rfl⟩ := nameAt?_eq_some_iff.mp hget
  exact ⟨t, List.mem_of_getElem? ht, by simpa [Token.isName] using hname, rfl⟩

/-- The name that a module gives itself can be given again. -/
theorem fitsLiteral_of_declaredName? {text name : String}
    (h : declaredName? (Lexer.lex text) = some name) : Lexer.FitsLiteral name := by
  obtain ⟨t, ht, hkind, rfl⟩ := exists_mem_of_declaredName? h
  exact Lexer.fitsLiteral_of_mem_lex ht hkind

end VbaModules

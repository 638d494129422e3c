/-!
# ASCII letters and word characters

Names and keywords are compared without regard to the case of the ASCII letters: `foldCase`
lowers exactly those, and two texts are the same word when their folded forms agree. Letters
outside ASCII are never identified here; for the full case mappings see `Text.lower` and
`Text.upper`.
-/

namespace VbaModules.Text

/-- The text with its ASCII capitals lowered. Every other character stays as it is. -/
def foldCase (s : String) : String :=
  String.ofList (s.toList.map Char.toLower)

/-- Two texts are the **same word** when they differ at most in the case of ASCII letters. -/
def sameWord (a b : String) : Bool :=
  foldCase a == foldCase b

@[simp]
theorem toList_foldCase (s : String) : (foldCase s).toList = s.toList.map Char.toLower := by
  simp [foldCase]

theorem sameWord_iff {a b : String} : sameWord a b = true ↔ foldCase a = foldCase b := by
  simp [sameWord]

/-- The characters an identifier may go on with: ASCII letters, digits and the underscore. -/
def isWordChar (c : Char) : Bool :=
  c.isAlphanum || c == '_'

/-- Digits of a hexadecimal literal. -/
def isHexDigit (c : Char) : Bool :=
  c.isDigit || ('a' ≤ c && c ≤ 'f') || ('A' ≤ c && c ≤ 'F')

/-- Digits of an octal literal. -/
def isOctDigit (c : Char) : Bool :=
  '0' ≤ c && c ≤ '7'

end VbaModules.Text

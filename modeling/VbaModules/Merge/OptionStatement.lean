import VbaModules.Section.Basic
import VbaModules.Text.Lower
import VbaModules.Text.White

/-!
# Option statements

Modules can only be merged if they are written for the same options. Option statements are compared
by a normal form that does not depend on letter case, blanks and comments, and the order of the
statements does not matter.
-/

namespace VbaModules

/-- Whether a token has no part in the meaning of a statement. -/
def Token.isFiller (t : Token) : Bool :=
  t.kind == .blank || t.kind == .comment || t.kind == .lineBreak

namespace OptionStatement

/-- The normal form of an option statement: its words in lower case, divided by single spaces. -/
def normalForm (tokens : List Token) : String :=
  let words := (tokens.filter (!·.isFiller)).map fun t => Text.lower (Text.trim t.text)
  " ".intercalate (words.filter (· != ""))

/-- The normal forms of the option statements among the sections, sorted. -/
def ofSections (sections : List Section) : List String :=
  let options := (sections.filter (·.kind == .optionLine)).map fun s => normalForm s.tokens
  options.mergeSort fun a b => !(b < a)

end OptionStatement

end VbaModules

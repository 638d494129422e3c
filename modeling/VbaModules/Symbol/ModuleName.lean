import VbaModules.Pattern.Scan

/-!
# The name of a module

A module gives its name in a line `Attribute VB_Name = "..."`, where the lexer has split the quoted
value into quote, name, quote.
-/

namespace VbaModules

/-- The line in which a module gives its name, up to the name. -/
def nameLine : Pattern :=
  ⟨[.words ["attribute"], .words ["vb_name"], .words ["="], .words ["\""], .anything]⟩

/-- The text of the name token at a position, if there is one. -/
def nameAt? (tokens : List Token) (position : Nat) : Option String :=
  (tokens[position]?.filter (·.isName)).map Token.text

/-- The name that a module gives itself. -/
def declaredName? (tokens : List Token) : Option String :=
  (nameLine.lineMatches tokens).findSome? fun m => nameAt? tokens (m.stop - 1)

/-- The module with the given origin does not give its name. -/
structure MissingModuleName where
  origin : String
deriving DecidableEq, Repr

/-- The wording of the error. -/
def MissingModuleName.message (e : MissingModuleName) : String :=
  "missing `Attribute VB_Name = \"...\"` declaration in " ++ e.origin

/-- The name that a module gives itself, which it must. -/
def declaredName (origin : String) (tokens : List Token) :
    Except MissingModuleName String :=
  match declaredName? tokens with
  | some name => .ok name
  | none => .error ⟨origin⟩

end VbaModules

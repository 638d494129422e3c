import VbaModules.Text.White
import VbaModules.Token.Basic

/-!
# Class files

The file of a class begins with a header that gives its name and properties. A class whose name was
cut carries the full name of its module in a comment below the header.
-/

namespace VbaModules.ClassFile

/-- The header of a class that is visible to others but not created by them. -/
def header (className : String) : String :=
  "VERSION 1.0 CLASS\nBEGIN\n  MultiUse = -1  'True\nEND\n" ++
    "Attribute VB_Name = \"" ++ className ++ "\"\n" ++
    "Attribute VB_GlobalNameSpace = False\n" ++
    "Attribute VB_Creatable = False\n" ++
    "Attribute VB_PredeclaredId = False\n" ++
    "Attribute VB_Exposed = True\n"

/-- The line that carries the full name of a module. -/
def fullNameLine (module : String) : String :=
  "'zebra NameSpace " ++ module ++ "\n"

/-! ### Reading the full name -/

/-- What follows a word at the start of the text, without the white space between. -/
def afterWord? (word text : String) : Option String :=
  let n := word.length
  if Text.sameWord (String.ofList (text.toList.take n)) word then
    some (Text.trimStart (String.ofList (text.toList.drop n)))
  else none

/-- The full name of a module in a comment. -/
def nameInComment? (comment : String) : Option String :=
  match comment.toList with
  | '\'' :: cs => do
    let rest ← afterWord? "zebra" (Text.trimStart (String.ofList cs))
    let name := Text.trimEnd (← afterWord? "namespace" rest)
    if name = "" then none else some name
  | _ => none

/-- The full name of a module, from the first comment that carries one. -/
def fullName? (tokens : List Token) : Option String :=
  (tokens.filter (·.kind == .comment)).findSome? fun t => nameInComment? t.text

/-! ### Removing the name of a module -/

/-- The tokens cut into lines, each with its line break. -/
def lines : List Token → List (List Token)
  | [] => []
  | t :: ts =>
    if t.isLineBreak then [t] :: lines ts
    else match lines ts with
      | [] => [[t]]
      | line :: rest => (t :: line) :: rest

/-- Whether a line speaks of the name of the module. -/
def isNameLine (line : List Token) : Bool :=
  line.any (·.spells "attribute") && line.any (·.spells "vb_name")

/-- The tokens without the lines that speak of the name of the module. -/
def withoutNameLines (tokens : List Token) : List Token :=
  ((lines tokens).filter (!isNameLine ·)).flatten

end VbaModules.ClassFile

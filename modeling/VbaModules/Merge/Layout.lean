import VbaModules.Merge.Assembly
import VbaModules.Text.Line

/-!
# The text of a merged module

A merged module is written as a header with its name and one block for each section, followed by a
blank line. A mark with the name of the source stands before the blocks of each run from the same
source; option statements get no mark. Lines end with line feeds only.
-/

namespace VbaModules

/-- A part of the text of a merged module. -/
inductive Piece where
  /-- The line with the name of the module. -/
  | header (name : String)
  /-- The line with the name of the source that the next blocks come from. -/
  | mark (module : String)
  /-- The text of a section, followed by a blank line. -/
  | block (text : String)
deriving DecidableEq, Repr

/-- The text of a piece. -/
def Piece.render : Piece → String
  | header name => "Attribute VB_Name = \"" ++ name ++ "\"\n"
  | mark module => "'*************** " ++ module ++ "\n"
  | block text => text ++ "\n\n"

/-- The text of a section as it is written: without carriage returns and without white space around
it. -/
def Section.block (s : Section) : String :=
  Text.trim (Text.withoutReturns s.text)

namespace Assembly

/-- The pieces for the sections, where `current` is the origin of the last block that can have a
mark. Sections without text leave no trace. -/
def layoutFrom (m : Assembly) (current : Option String) : List (Bucket × Section) → List Piece
  | [] => []
  | (bucket, s) :: rest =>
    if s.block = "" then m.layoutFrom current rest
    else if bucket ≠ .options ∧ s.origin ≠ current then
      .mark (m.sourceName (s.origin.getD "")) :: .block s.block :: m.layoutFrom s.origin rest
    else .block s.block :: m.layoutFrom current rest

/-- The pieces of the merged module. -/
def layout (m : Assembly) : List Piece :=
  .header m.name :: m.layoutFrom none m.sections

/-- The text of the merged module. -/
def render (m : Assembly) : String :=
  String.join (m.layout.map Piece.render)

end Assembly

/-- The text of the module merged from a bundle. -/
def merge (bundle : Bundle) (name? : Option String) : Except AssemblyError String :=
  (Assembly.ofBundle bundle name?).map Assembly.render

end VbaModules

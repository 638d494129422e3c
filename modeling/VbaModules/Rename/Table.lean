import VbaModules.Dictionary
import VbaModules.Token.Basic

/-!
# Renaming by a table

A renaming gives some names a replacement and acts on the name tokens of a module; all other
tokens stay. A rename table lists the replacements by name, ignoring ASCII case.
-/

namespace VbaModules

/-- The token with its text replaced, if it is a name that has a replacement. -/
def renameToken (replacement? : String → Option String) (t : Token) : Token :=
  if t.isName then { t with text := (replacement? t.text).getD t.text } else t

/-- The tokens with all names replaced that have a replacement. -/
def renameTokens (replacement? : String → Option String) (tokens : List Token) : List Token :=
  tokens.map (renameToken replacement?)

/-- How many tokens a renaming really changes. A name replaced by itself does not count. -/
def countRenamed (replacement? : String → Option String) (tokens : List Token) : Nat :=
  tokens.countP fun t => renameToken replacement? t != t

/-- Replacements of names, ignoring ASCII case. -/
structure RenameTable where
  /-- The replacements by folded name. -/
  names : Dictionary String

namespace RenameTable

/-- The table without replacements. -/
def empty : RenameTable :=
  ⟨.empty⟩

/-- Adds a replacement; a former one of the same name is lost. -/
def insert (table : RenameTable) (name replacement : String) : RenameTable :=
  ⟨table.names.insert (Text.foldCase name) replacement⟩

/-- The replacements inserted one after the other. -/
def ofList (pairs : List (String × String)) : RenameTable :=
  pairs.foldl (fun table (name, replacement) => table.insert name replacement) empty

/-- The replacement of a name. -/
def get? (table : RenameTable) (name : String) : Option String :=
  table.names.get? (Text.foldCase name)

/-- The folded names with their replacements, in order of insertion. -/
def pairs (table : RenameTable) : List (String × String) :=
  table.names.entries

end RenameTable

end VbaModules

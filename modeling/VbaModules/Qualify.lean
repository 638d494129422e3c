import VbaModules.Rename.Table
import VbaModules.Symbol.Private

/-!
# Qualified private names

Merging modules must keep their private names apart, so every private symbol gets the name of its
module in front, at its definition and wherever it is used. A private external procedure is bound
by its name unless it has an `Alias` clause; it gets one, so that it is still the same procedure
under its new name.
-/

namespace VbaModules.Qualify

/-- A symbol with the name of its module in front. -/
def qualifiedName (module symbol : String) : String :=
  module ++ "_" ++ symbol

/-- The qualified names of the private symbols of a module. -/
def table (module : String) (tokens : List Token) : RenameTable :=
  .ofList ((privateNames tokens).map fun s => (s, qualifiedName module s))

/-! ### Entry points of external procedures -/

/-- For an external procedure without an `Alias` clause, given by the match up to its name: the
position just past the name of its library, and the name of its entry point. -/
def unaliased? (tokens : List Token) (m : Match) : Option (Nat × String) := do
  let name ← tokens[m.stop - 1]?
  let stop := Token.lineEnd tokens m.stop
  let lib ← Token.nextNonBlank? tokens m.stop stop
  guard (tokens[lib]?.any (·.spells "lib"))
  let library ← Token.nextNonBlank? tokens (lib + 1) stop
  guard (tokens[library]?.any (·.kind == .string))
  let next := (Token.nextNonBlank? tokens (library + 1) stop).bind (tokens[·]?)
  guard (!next.any (·.spells "alias"))
  return (library + 1, name.text)

/-- Where the private external procedures of a module lack an `Alias` clause, in order. -/
def unaliased (tokens : List Token) : List (Nat × String) :=
  (privateExternal.lineMatches tokens).filterMap (unaliased? tokens)

/-- The clause that names the entry point of an external procedure. -/
def aliasClause (entryPoint : String) : List Token :=
  [⟨.blank, " "⟩, ⟨.reserved, "Alias"⟩, ⟨.blank, " "⟩, ⟨.string, "\"" ++ entryPoint ++ "\""⟩]

/-- The tokens with clauses inserted at the given positions, which are those before any insertion
and are in order. -/
def addAliases (missing : List (Nat × String)) (tokens : List Token) : List Token :=
  missing.foldr (fun (position, entryPoint) ts =>
    ts.take position ++ aliasClause entryPoint ++ ts.drop position) tokens

/-! ### Qualifying a module -/

/-- The module with its private names qualified. -/
def qualify (module : String) (tokens : List Token) : List Token :=
  addAliases (unaliased tokens) (renameTokens (table module tokens).get? tokens)

/-- How many names `qualify` changes. -/
def countQualified (module : String) (tokens : List Token) : Nat :=
  countRenamed (table module tokens).get? tokens

end VbaModules.Qualify

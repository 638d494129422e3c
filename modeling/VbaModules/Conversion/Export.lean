import VbaModules.Bundle
import VbaModules.Notice
import VbaModules.Origin
import VbaModules.Symbol.Public
import VbaModules.Text.Lower

/-!
# References between modules

Once a standard module is a class, its public symbols are members of an object with the name of the
module, and other modules have to say so. The first module that exports a name keeps it.
-/

namespace VbaModules

/-- A module with its name. -/
structure NamedModule where
  origin : String
  name : String
  tokens : List Token
deriving DecidableEq, Repr

/-- Whether the module is a class module already. -/
def NamedModule.isClass (m : NamedModule) : Bool :=
  Origin.isClass m.origin

/-- A module with its name, which it must give. -/
def NamedModule.read (origin : String) (tokens : List Token) :
    Except MissingModuleName NamedModule :=
  (declaredName origin tokens).map fun name => ⟨origin, name, tokens⟩

/-- The modules up to the first that does not give its name. -/
def leadingModules : List (String × List Token) → List NamedModule
  | [] => []
  | (origin, tokens) :: rest =>
    match NamedModule.read origin tokens with
    | .error _ => []
    | .ok m => m :: leadingModules rest

/-- A public symbol and the module that exports it. -/
structure Exported where
  module : String
  origin : String
  name : String
deriving DecidableEq, Repr

/-- Exported symbols by the lower-case form of their names. -/
abbrev Exports : Type :=
  Dictionary Exported

namespace Exports

/-- Adds a symbol of a module, unless the name is exported already. -/
def offer (m : NamedModule) (exports : Exports) (name : String) : Exports :=
  let key := Text.lower name
  if exports.contains key then exports else exports.insert key ⟨m.name, m.origin, name⟩

/-- The symbols that a module exports. Class modules export none. -/
def symbols (m : NamedModule) : List String :=
  if m.isClass then [] else publicNames m.tokens

/-- The symbols that the modules export. -/
def collect (modules : List NamedModule) : Exports :=
  modules.foldl (fun exports m => (symbols m).foldl (offer m) exports) .empty

/-- The names that a module offers although another module exports them. -/
def clashes (exports : Exports) (m : NamedModule) : List Notice :=
  (symbols m).filterMap fun name =>
    ((exports.get? (Text.lower name)).filter (·.origin != m.origin)).map fun e =>
      .exportedTwice name e.module m.name

/-! ### Qualifying references -/

/-- Whether a token stands for a member of an object: a dot is directly before it. -/
def isMember (previous : Option Token) : Bool :=
  previous.any fun t => t.kind == .unknown && t.text == "."

/-- The symbol of another module that a token refers to, given the token before it. -/
def target? (exports : Exports) (origin : String) (previous : Option Token) (t : Token) :
    Option Exported :=
  if t.isName && !isMember previous then
    (exports.get? (Text.lower t.text)).filter (·.origin != origin)
  else none

/-- Each token with the one before it. -/
def withPrevious (tokens : List Token) : List (Option Token × Token) :=
  (none :: tokens.map some).zip tokens

/-- The tokens of a module with the symbols of other modules qualified by the names of those. -/
def qualify (exports : Exports) (origin : String) (tokens : List Token) : List Token :=
  (withPrevious tokens).map fun (previous, t) =>
    match exports.target? origin previous t with
    | some e => { t with text := e.module ++ "." ++ e.name }
    | none => t

/-- How many tokens of a module refer to other modules. -/
def countReferences (exports : Exports) (origin : String) (tokens : List Token) : Nat :=
  (withPrevious tokens).countP fun (previous, t) => (exports.target? origin previous t).isSome

end Exports

end VbaModules

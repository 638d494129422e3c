import VbaModules.Conversion.ClassFile
import VbaModules.Conversion.Export
import VbaModules.Conversion.ShortName

/-!
# Modules as classes

Each standard module `M` becomes a class `z__M`, and a module of declarations has an object `M` of
that class, so that the members of `M` are reached through it. Class modules stay what they are;
only their references to other modules are qualified.
-/

namespace VbaModules

/-- What the names of generated classes begin with. -/
def generatedMark : String :=
  "z__"

/-- The name of the module that declares one object for each generated class. -/
def objectsModule : String :=
  "z__NameSpaces"

/-- A module as a class. -/
structure ClassModule where
  /-- The name of the module, which is the name of the object too. -/
  module : String
  origin : String
  className : String
  /-- The whole text of the class file. -/
  source : String
  /-- Whether the class was made from a standard module. -/
  converted : Bool
  /-- How many references to other modules were qualified. -/
  references : Nat
deriving DecidableEq, Repr

/-- What there is to say about a class. -/
def ClassModule.notice (c : ClassModule) : Notice :=
  if c.converted then .converted c.origin c.module c.className c.references
  else .qualified c.origin c.module c.references

/-- A class module with its references qualified. -/
def keepClass (exports : Exports) (m : NamedModule) : ClassModule where
  module := m.name
  origin := m.origin
  className := m.name
  source := Token.textOf (exports.qualify m.origin m.tokens)
  converted := false
  references := exports.countReferences m.origin m.tokens

/-- A standard module as a class with the given name. -/
def convertModule (exports : Exports) (className : String) (m : NamedModule) :
    ClassModule where
  module := m.name
  origin := m.origin
  className := className
  source :=
    ClassFile.header className ++
      (if className = generatedMark ++ m.name then "" else ClassFile.fullNameLine m.name) ++
      Token.textOf (ClassFile.withoutNameLines (exports.qualify m.origin m.tokens))
  converted := true
  references := exports.countReferences m.origin m.tokens

/-- The modules as classes. A generated name that has to be cut is none of those taken. -/
def convertAll (exports : Exports) (taken : List String) : List NamedModule → List ClassModule
  | [] => []
  | m :: rest =>
    if m.isClass then keepClass exports m :: convertAll exports taken rest
    else
      let className := ShortName.shorten (generatedMark ++ m.name) taken
      convertModule exports className m ::
        convertAll exports (ShortName.take className taken) rest

/-- The classes for the modules of a bundle. -/
def convertBundle (bundle : Bundle) : Except MissingModuleName (List ClassModule) := do
  let modules ← bundle.entries.mapM fun (origin, tokens) => NamedModule.read origin tokens
  let classNames := (modules.filter (·.isClass)).map (·.name)
  let taken := classNames.foldl (fun taken name => ShortName.take name taken) []
  return convertAll (.collect modules) taken modules

/-- What there is to say about the conversion. Names that are exported twice are reported also if
the conversion fails. -/
def conversionNotices (bundle : Bundle) : List Notice :=
  let modules := leadingModules bundle.entries
  let clashes := modules.flatMap (Exports.collect modules).clashes
  match convertBundle bundle with
  | .error _ => clashes
  | .ok classes => clashes ++ classes.map (·.notice)

/-- The module that declares one object for each generated class. -/
def objectDeclarations (classes : List ClassModule) : String :=
  "Attribute VB_Name = \"" ++ objectsModule ++ "\"\nOption Explicit\n\n" ++
    String.join ((classes.filter (·.converted)).map fun c =>
      "Public " ++ c.module ++ " As New " ++ c.className ++ "\n")

end VbaModules

import VbaModules.Bundle
import VbaModules.Notice
import VbaModules.Origin
import VbaModules.Rename.Rule
import VbaModules.Symbol.ModuleName

/-!
# Renaming a bundle

Rules are applied to every module of a bundle. On request the class modules get names of their own
beforehand, which set them apart from generated classes. That can fail, and then no module is
changed.
-/

namespace VbaModules

/-- The greatest length of a module name. -/
def maxModuleName : Nat :=
  31

/-- What the names of renamed class modules begin with. -/
def classMark : String :=
  "z_"

/-- Why a bundle cannot be renamed. -/
inductive RenamingError where
  /-- A class module does not give its name. -/
  | missingName (e : MissingModuleName)
  /-- The new name of a class module would be too long. -/
  | nameTooLong (origin name renamed : String)
deriving DecidableEq, Repr

/-- The wording of the error. -/
def RenamingError.message : RenamingError → String
  | missingName e => e.message
  | nameTooLong origin name renamed =>
    s!"cannot rename class {name} in {origin}: {renamed} is longer than 31 characters"

/-- The new name of a module, or none if it keeps its name: a module that is no class module does,
and so does a class module that is marked already or that some rule covers. -/
def classRenaming? (rules : RuleList) (origin : String) (tokens : List Token) :
    Except RenamingError (Option (String × String)) :=
  if Origin.isClass origin then
    match declaredName origin tokens with
    | .error e => .error (.missingName e)
    | .ok name =>
      let renamed := classMark ++ name
      if classMark.toList.isPrefixOf name.toList || rules.covers name then .ok none
      else if renamed.length > maxModuleName then .error (.nameTooLong origin name renamed)
      else .ok (some (name, renamed))
  else .ok none

/-- The new names of the class modules of a bundle. -/
def classTable (rules : RuleList) (bundle : Bundle) : Except RenamingError RenameTable := do
  let renames ← bundle.entries.mapM fun (origin, tokens) => classRenaming? rules origin tokens
  return .ofList (renames.filterMap id)

/-- The rules to apply to a bundle: the given ones and, on request, those for its class modules. -/
def bundleRules (rules : RuleList) (renameClasses : Bool) (bundle : Bundle) :
    Except RenamingError RuleList :=
  if renameClasses then (classTable rules bundle).map rules.addTable else .ok rules

namespace Bundle

/-- The bundle with the rules applied to every module. -/
def applyRules (rules : RuleList) (bundle : Bundle) : Bundle :=
  bundle.mapValues fun _ tokens => renameTokens rules.replacementFor? tokens

/-- How many names the rules change in each module, by origin. -/
def changesBy (rules : RuleList) (bundle : Bundle) : List (String × Nat) :=
  bundle.entries.map fun (origin, tokens) => (origin, countRenamed rules.replacementFor? tokens)

/-- What comes of renaming a bundle. -/
structure Renamed where
  bundle : Bundle
  /-- How many names have changed. -/
  changed : Nat
  notices : List Notice

/-- The bundle with its names replaced by the rules, those for the class modules added if asked
for. -/
def rename (bundle : Bundle) (rules : RuleList) (renameClasses : Bool) :
    Except RenamingError Renamed :=
  (bundleRules rules renameClasses bundle).map fun rules =>
    let changes := bundle.changesBy rules
    { bundle := bundle.applyRules rules
      changed := (changes.map (·.2)).foldr (· + ·) 0
      notices := changes.map fun (origin, changed) => .renamed origin changed }

end Bundle

end VbaModules

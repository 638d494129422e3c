import VbaModules.Rename.Table
import VbaModules.Text.Quoted

/-!
# Renaming by rules

A rule covers some names, either one word in any letter case or all that pass a test, and says what
becomes of them. In a list of rules the first one that covers a name decides.
-/

namespace VbaModules

/-- The names that a rule covers. -/
inductive Selection where
  /-- The given word, ignoring ASCII case. -/
  | exact (word : String)
  /-- Every name that passes the test. -/
  | matching (test : String → Bool)

/-- Whether a name is covered. -/
def Selection.covers (selection : Selection) (name : String) : Bool :=
  match selection with
  | .exact word => Text.sameWord word name
  | .matching test => test name

/-- The word that is covered, if it is a single one. -/
def Selection.word? : Selection → Option String
  | .exact word => some word
  | .matching _ => none

/-- A rule: which names, and what becomes of them. -/
structure Rule where
  selection : Selection
  /-- What becomes of a name that is covered. -/
  replace : String → String

/-- The rule that gives one word a replacement. -/
def Rule.exact (word replacement : String) : Rule :=
  ⟨.exact word, fun _ => replacement⟩

/-- A list of rules, the earlier ones with precedence. -/
structure RuleList where
  rules : List Rule

namespace RuleList

/-- The list without rules. -/
def empty : RuleList :=
  ⟨[]⟩

/-- Adds a rule after the others. -/
def add (r : RuleList) (rule : Rule) : RuleList :=
  ⟨r.rules ++ [rule]⟩

/-- Adds a rule for every replacement of a table. -/
def addTable (r : RuleList) (table : RenameTable) : RuleList :=
  ⟨r.rules ++ table.pairs.map fun (name, replacement) => .exact name replacement⟩

/-- Whether some rule covers the name. -/
def covers (r : RuleList) (name : String) : Bool :=
  r.rules.any (·.selection.covers name)

/-- What the first rule that covers the name makes of it. -/
def replacementFor? (r : RuleList) (name : String) : Option String :=
  (r.rules.find? (·.selection.covers name)).map (·.replace name)

/-- A summary of the list: the single words that are covered, and how many rules use a test. -/
def summary (r : RuleList) : String :=
  let exact := r.rules.filterMap (·.selection.word?)
  "RenameRules \x7b exact: [" ++ ", ".intercalate (exact.map Text.quote) ++
    "], predicates: " ++ toString (r.rules.length - exact.length) ++ " \x7d"

end RuleList

end VbaModules

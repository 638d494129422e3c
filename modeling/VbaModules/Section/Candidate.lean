import VbaModules.Pattern.Scan
import VbaModules.Section.Basic

/-!
# Candidate sections

Four searches propose spans of a module independently of each other: conditional-compilation
blocks, blocks of procedures and types, declarations of one line, and the variables and constants
of the module. Their proposals may overlap; how that is settled is the matter of `Partition`.
-/

namespace VbaModules.Candidate

open Token

/-- The last token of a match. -/
def lastToken? (tokens : List Token) (m : Match) : Option Token :=
  tokens[m.stop - 1]?

/-- The last token of a match as a folded word. -/
def lastWord (tokens : List Token) (m : Match) : String :=
  ((lastToken? tokens m).map fun t => Text.foldCase t.text).getD ""

/-! ### Conditional blocks -/

/-- The outermost conditional blocks of the tokens that stand from `position` on, and where the
block is opened that is still open at the end. While inside a block, `opened` holds the position of
its opening directive and how many further blocks are open within it. A closing directive outside
any block is ignored. -/
def conditionalsFrom (position : Nat) (opened : Option (Nat × Nat)) :
    List Token → List Span × Option Nat
  | [] => ([], opened.map (·.1))
  | t :: ts =>
    match t.kind, opened with
    | .conditional .opening, none => conditionalsFrom (position + 1) (some (position, 0)) ts
    | .conditional .opening, some (start, inner) =>
      conditionalsFrom (position + 1) (some (start, inner + 1)) ts
    | .conditional .closing, some (start, 0) =>
      let (spans, unclosed) := conditionalsFrom (position + 1) none ts
      (⟨start, position + 1, .conditional⟩ :: spans, unclosed)
    | .conditional .closing, some (start, inner + 1) =>
      conditionalsFrom (position + 1) (some (start, inner)) ts
    | _, _ => conditionalsFrom (position + 1) opened ts

/-- The outermost conditional blocks. Blocks within blocks are part of the outer one. -/
def conditionals (tokens : List Token) : List Span :=
  (conditionalsFrom 0 none tokens).1

/-- The position of the outermost opening directive that is never closed. -/
def unclosedConditional? (tokens : List Token) : Option Nat :=
  (conditionalsFrom 0 none tokens).2

/-! ### Procedures and types -/

/-- The start of a procedure, enumeration or type. -/
def blockHeader : Pattern :=
  ⟨[.maybe ["private", "public", "friend"], .maybe ["static"],
    .words ["property", "sub", "function", "enum", "type"]]⟩

/-- The end of the block that `keyword` begins. -/
def blockCloser (keyword : String) : Pattern :=
  ⟨[.words ["end"], .words [keyword]]⟩

/-- What the block is that `keyword` begins. -/
def blockKind (keyword : String) : Section.Kind :=
  if keyword = "enum" then .enumeration
  else if keyword = "type" then .userType
  else .procedure

/-- The blocks that begin at `position` or later, each from its header through the next end of its
own keyword. A header without an end hides all that follows it. -/
def blocksFrom (tokens : List Token) (position : Nat) : List Span :=
  match _header : blockHeader.next? true tokens position with
  | none => []
  | some header =>
    let keyword := lastWord tokens header
    match _closer : (blockCloser keyword).next? true tokens header.stop with
    | none => []
    | some closer =>
      ⟨header.start, closer.stop, blockKind keyword⟩ :: blocksFrom tokens closer.stop
termination_by tokens.length - position
decreasing_by
  have := Pattern.next?_bounds _header
  have := Pattern.next?_bounds _closer
  omega

/-- The procedures, enumerations and types of a module. -/
def blocks (tokens : List Token) : List Span :=
  blocksFrom tokens 0

/-! ### Declarations of one line -/

/-- The start of a declaration of an external procedure, of an option or of an attribute. -/
def declarationStart : Pattern :=
  ⟨[.maybe ["private", "public"], .words ["declare", "option", "attribute"]]⟩

/-- What the declaration is that `keyword` begins. -/
def declarationKind (keyword : String) : Section.Kind :=
  if keyword = "declare" then .declaration
  else if keyword = "option" then .optionLine
  else .attributeLine

/-- The lines that declare an external procedure, an option or an attribute. -/
def declarations (tokens : List Token) : List Span :=
  (declarationStart.lineMatches tokens).map fun m =>
    ⟨m.start, lineEnd tokens m.stop, declarationKind (lastWord tokens m)⟩

/-! ### Variables and constants -/

/-- The start of a variable declaration, up to what may be the first name. -/
def variableStart : Pattern :=
  ⟨[.words ["private", "public", "global", "dim", "static"], .maybe ["withevents"], .anything]⟩

/-- The start of a constant declaration, up to the first name. -/
def constantStart : Pattern :=
  ⟨[.maybe ["private", "public", "global"], .words ["const"], .anything]⟩

/-- The words that may follow a visibility keyword without being the name of a variable. -/
def notVariables : List String :=
  ["const", "declare", "enum", "event", "function", "property", "static", "sub", "type"]

/-- Whether a token can be the name of a variable. -/
def canNameVariable (t : Token) : Bool :=
  (t.kind == .name || t.kind == .reserved) && !notVariables.any t.spells

/-- The lines that declare variables or constants of the module, whatever follows the first
name. -/
def globals (tokens : List Token) : List Span :=
  let variableLines := (variableStart.lineMatches tokens).filter fun m =>
    (lastToken? tokens m).any canNameVariable
  (variableLines ++ constantStart.lineMatches tokens).map fun m =>
    ⟨m.start, lineEnd tokens m.stop, .global⟩

/-- The proposals of all four searches. -/
def all (tokens : List Token) : List Span :=
  conditionals tokens ++ blocks tokens ++ declarations tokens ++ globals tokens

end VbaModules.Candidate

import VbaModules.Command.Usage

/-!
# Commands

What the program can be asked to do, and how it is asked on the command line.
-/

namespace VbaModules

/-- Something the program can be asked to do. -/
inductive Command where
  /-- Merge modules, under a name if one is given, to a file or to the standard output. -/
  | merge (name? output? : Option String) (files : List String)
  /-- List the sections of a module. -/
  | sections (file : String)
  /-- List the tokens of a module. -/
  | tokens (file : String)
  /-- Give each name one spelling over all modules. -/
  | spell (style : Option NameStyle) (overrides? : Option String) (write : Bool)
      (files : List String)
  /-- Rename identifiers over all modules. -/
  | rename (rules : List (String × String)) (keepClassNames write : Bool) (files : List String)
  /-- Convert modules to classes in a directory. -/
  | convert (directory : String) (files : List String)
deriving DecidableEq, Repr

namespace Command

/-! ### Forms -/

/-- The form of `merge`. -/
def mergeForm : CommandForm :=
  ⟨[.single "module-name" .text "MODULE_NAME",
    { OptionForm.single "output" .path "OUTPUT" with letter := some 'o' }], true⟩

/-- The form of `sections` and `tokens`. -/
def listForm : CommandForm :=
  ⟨[], false⟩

/-- The form of `case`. -/
def spellForm : CommandForm :=
  ⟨[.single "style" .style "STYLE", .single "overrides" .path "OVERRIDES", .switch "write"], true⟩

/-- The form of `rename`. -/
def renameForm : CommandForm :=
  ⟨[{ OptionForm.single "rule" .rule "RULES" with repeatable := true },
    .switch "keep-class-names", .switch "write"], true⟩

/-- The form of `namespace`. -/
def convertForm : CommandForm :=
  ⟨[{ OptionForm.single "out-dir" .path "OUT_DIR" with required := true }], true⟩

/-- The commands by name, each with its form and its meaning once its words are read. -/
def all : List (String × CommandForm × (Progress → Command)) := [
  ("merge", mergeForm, fun p => .merge (p.value? "module-name") (p.value? "output") p.files),
  ("sections", listForm, fun p => .sections (p.files.headD "")),
  ("tokens", listForm, fun p => .tokens (p.files.headD "")),
  ("case", spellForm, fun p =>
    .spell ((p.value? "style").bind fun s => (NameStyle.parse s).toOption) (p.value? "overrides")
      (p.has "write") p.files),
  ("rename", renameForm, fun p =>
    .rename ((p.valuesOf "rule").filterMap ruleOf?) (p.has "keep-class-names") (p.has "write")
      p.files),
  ("namespace", convertForm, fun p => .convert ((p.value? "out-dir").getD "") p.files)]

/-! ### Reading a command line -/

/-- A request on the command line: a command, or to be told what there is. -/
inductive Request where
  | help
  | command (c : Command)
deriving DecidableEq, Repr

/-- Reads the words that follow the name of a command. -/
def readCommand (form : CommandForm) (make : Progress → Command) (words : List String) :
    Except UsageError Request := do
  let p ← Progress.read form words
  return if p.asksForHelp then .help else .command (make p)

/-- Whether the word names a command. The command `help` tells about the others and itself. -/
def isName (word : String) : Bool :=
  word == "help" || (all.lookup word).isSome

/-- Reads the words that follow `help`: the name of a command, if any, which has no commands of its
own. -/
def readHelp : List String → Except UsageError Request
  | [] => .ok .help
  | name :: words =>
    if isName name then
      match words with
      | [] => .ok .help
      | word :: _ => .error (.unknownCommand word)
    else .error (.unknownCommand name)

/-- Reads an option that stands before any command, where only the one for help has a meaning. -/
def readOption (word : String) : Except UsageError Request :=
  (Progress.start.takeWord ⟨[], false⟩ word).map fun _ => .help

/-- Reads a command line. -/
def parse : List String → Except UsageError Request
  | [] => .error .noCommand
  | ["--"] => .error .noCommand
  | "--" :: word :: _ =>
    .error (if isName word then .unexpectedArgument word else .unknownCommand word)
  | "help" :: words => readHelp words
  | word :: words =>
    match all.lookup word with
    | some (form, make) => readCommand form make words
    | none =>
      if word.startsWith "-" && word != "-" then readOption word else .error (.unknownCommand word)

end Command

end VbaModules

import VbaModules.Casing.Style
import VbaModules.Text.ControlSequence
import VbaModules.Text.White

/-!
# Reading the command line

The words of a command line are read from left to right against the form of a command: its options
and its operands. An option with a value is written `--name value`, `--name=value` or, if it has a
short letter, `-n value`, `-nvalue` or `-n=value`; two hyphens on their own end the options. A value
that is attached to its option is checked at once, one that stands on its own when the next word is
taken up. A word that is no option of the command is refused before that. Every command has the
option `--help`, or `-h`, after which nothing more is read.

Words of the command line appear in messages without the control sequences they may hold.
-/

namespace VbaModules.Command

/-! ### Errors -/

/-- Why a command line is refused. -/
inductive UsageError where
  /-- No command is given. -/
  | noCommand
  /-- There is no command of that name. -/
  | unknownCommand (name : String)
  /-- The command has no such option, or takes no further operand. -/
  | unexpectedArgument (word : String)
  /-- An option or operand has no value. -/
  | missingValue (argument : String)
  /-- The value of an option is refused. -/
  | invalidValue (value argument reason : String)
  /-- An option that takes no value has one. -/
  | unexpectedValue (value argument : String)
  /-- An option is given more than once. -/
  | repeated (argument : String)
  /-- Something that the command needs is not given. -/
  | missingArguments (arguments : List String)
deriving DecidableEq, Repr

/-- What the program is for. -/
def about : String :=
  "Merge, inspect and normalize VBA modules."

/-- The commands in short. -/
def usage : String :=
  about ++ "\n\n" ++
    "Commands:\n" ++
    "  merge      Merge modules into a single `.bas` module\n" ++
    "  sections   Print the sections of a module\n" ++
    "  tokens     Print the tokens of a module\n" ++
    "  case       Enforce consistent identifier casing\n" ++
    "  rename     Rename identifiers across modules\n" ++
    "  namespace  Convert modules into namespaced classes\n"

/-- Where a message points to for more. -/
def seeHelp : String :=
  "\n\nFor more information, try '--help'.\n"

/-- The wording of the error. The reason for refusing a value stands in the running text of the
message, so that a control sequence that it leaves open reaches up to the next highlighted word,
which is the option for help. Each other word is highlighted, and nothing in it reaches beyond
it. -/
def UsageError.message : UsageError → String
  | noCommand => usage
  | unknownCommand name => s!"error: unrecognized subcommand '{Text.shown name}'" ++ seeHelp
  | unexpectedArgument word => s!"error: unexpected argument '{Text.shown word}' found" ++ seeHelp
  | missingValue argument =>
    s!"error: a value is required for '{argument}' but none was supplied" ++ seeHelp
  | invalidValue value argument reason =>
    s!"error: invalid value '{Text.shown value}' for '{argument}'" ++
      Text.shown (": " ++ reason ++ "\n\nFor more information, try '") ++ "--help'.\n"
  | unexpectedValue value argument =>
    s!"error: unexpected value '{Text.shown value}' for '{argument}' found; " ++
      "no more were expected" ++ seeHelp
  | repeated argument =>
    s!"error: the argument '{argument}' cannot be used multiple times" ++ seeHelp
  | missingArguments arguments =>
    "error: the following required arguments were not provided:" ++
      String.join (arguments.map fun argument => s!"\n  {argument}") ++ seeHelp

/-! ### Values -/

/-- What the value of an option or operand stands for. -/
inductive ValueKind where
  | text
  | path
  | style
  | rule
deriving DecidableEq, Repr

/-- A rule in its written form, `OLD=NEW`. Neither side may be blank. -/
def ruleOf? (rule : String) : Option (String × String) :=
  match rule.toList.dropWhile (· != '=') with
  | [] => none
  | _ :: new =>
    let old := rule.toList.takeWhile (· != '=')
    let pair := (Text.trim (String.ofList old), Text.trim (String.ofList new))
    if pair.1 = "" || pair.2 = "" then none else some pair

/-- Why a value for an argument is refused, if it is. -/
def ValueKind.refuse? (kind : ValueKind) (argument value : String) : Option UsageError :=
  match kind with
  | text => none
  | path => if value = "" then some (.missingValue argument) else none
  | style =>
    match NameStyle.parse value with
    | .ok _ => none
    | .error e => some (.invalidValue value argument e.message)
  | rule =>
    match ruleOf? value with
    | some _ => none
    | none => some (.invalidValue value argument ("expected OLD=NEW, got `" ++ value ++ "`"))

/-! ### Forms of commands -/

/-- An option of a command. -/
structure OptionForm where
  name : String
  /-- The letter of the short form. -/
  letter : Option Char
  /-- What the value stands for and how it is called, or none if the option takes no value. -/
  value : Option (ValueKind × String)
  repeatable : Bool
  required : Bool
deriving DecidableEq, Repr

/-- An option as it is shown in messages. -/
def OptionForm.label (o : OptionForm) : String :=
  match o.value with
  | some (_, called) => "--" ++ o.name ++ " <" ++ called ++ ">"
  | none => "--" ++ o.name

/-- An option that takes no value. -/
def OptionForm.switch (name : String) : OptionForm :=
  ⟨name, none, none, false, false⟩

/-- An option with a value, which may be given at most once. -/
def OptionForm.single (name : String) (kind : ValueKind) (called : String) : OptionForm :=
  ⟨name, none, some (kind, called), false, false⟩

/-- The option for help, which every command has. -/
def OptionForm.help : OptionForm :=
  { OptionForm.switch "help" with letter := some 'h' }

/-- The options of a command besides the one for help, and whether it takes one file or any positive
number of them. -/
structure CommandForm where
  options : List OptionForm
  manyFiles : Bool
deriving DecidableEq, Repr

/-- All options of a command. -/
def CommandForm.allOptions (form : CommandForm) : List OptionForm :=
  form.options ++ [.help]

/-- The operand of a command as it is shown in messages. -/
def CommandForm.operandLabel (form : CommandForm) : String :=
  if form.manyFiles then "<FILES>..." else "<FILE>"

/-! ### Reading words -/

/-- The words whose checking is put off until the next word is taken up. -/
inductive Pending where
  | nothing
  /-- An option, with its value if that has come. -/
  | option (o : OptionForm) (value : Option String)
  /-- Files in a row. -/
  | files (paths : List String)
deriving DecidableEq, Repr

/-- What has been read of a command line. -/
structure Progress where
  /-- The options with their values, in order. -/
  values : List (String × String)
  /-- The options without values. -/
  switches : List String
  files : List String
  pending : Pending
deriving DecidableEq, Repr

namespace Progress

/-- Before the first word. -/
def start : Progress :=
  ⟨[], [], [], .nothing⟩

/-- Enters an option with its value. -/
def enter (p : Progress) (o : OptionForm) (value : String) : Except UsageError Progress :=
  if !o.repeatable && (p.values.lookup o.name).isSome then .error (.repeated o.label)
  else match o.value.bind fun (kind, _) => kind.refuse? o.label value with
    | some e => .error e
    | none => .ok { p with values := p.values ++ [(o.name, value)] }

/-- Enters what is pending. -/
def settle (form : CommandForm) (p : Progress) : Except UsageError Progress :=
  match p.pending with
  | .nothing => .ok p
  | .option o none => .error (.missingValue o.label)
  | .option o (some value) => { p with pending := .nothing }.enter o value
  | .files paths =>
    match paths.findSome? (ValueKind.path.refuse? form.operandLabel) with
    | some e => .error e
    | none => .ok { p with files := p.files ++ paths, pending := .nothing }

/-- Takes up an option, with the value that is attached to it if there is one. -/
def takeOption (form : CommandForm) (p : Progress) (o : OptionForm) (attached : Option String) :
    Except UsageError Progress :=
  match o.value, attached with
  | none, some value => .error (.unexpectedValue value o.label)
  | none, none => do
    let p ← p.settle form
    if p.switches.contains o.name then .error (.repeated o.label)
    else .ok { p with switches := p.switches ++ [o.name] }
  | some _, some value => do
    let p ← p.settle form
    p.enter o value
  | some _, none => do
    let p ← p.settle form
    .ok { p with pending := .option o none }

/-- Takes up a file. -/
def takeFile (form : CommandForm) (p : Progress) (path : String) : Except UsageError Progress :=
  match p.pending with
  | .files paths =>
    if form.manyFiles then .ok { p with pending := .files (paths ++ [path]) }
    else .error (.unexpectedArgument path)
  | _ =>
    if !form.manyFiles && !p.files.isEmpty then .error (.unexpectedArgument path)
    else do
      let p ← p.settle form
      .ok { p with pending := .files [path] }

/-- Takes up a word that may be an option. The letter for help needs no look at what follows it in
the same word. -/
def takeWord (form : CommandForm) (p : Progress) (word : String) : Except UsageError Progress :=
  match word.toList with
  | '-' :: '-' :: cs =>
    let name := String.ofList (cs.takeWhile (· != '='))
    let attached := match cs.dropWhile (· != '=') with
      | _ :: value => some (String.ofList value)
      | [] => none
    match form.allOptions.find? (·.name == name) with
    | some o => p.takeOption form o attached
    | none => .error (.unexpectedArgument ("--" ++ name))
  | '-' :: c :: cs =>
    match form.allOptions.find? (·.letter == some c) with
    | some o =>
      p.takeOption form o <| match o.value, cs with
        | none, _ | _, [] => none
        | _, '=' :: value => some (String.ofList value)
        | _, value => some (String.ofList value)
    | none => .error (.unexpectedArgument (String.ofList ['-', c]))
  | _ =>
    match p.pending with
    | .option o none => .ok { p with pending := .option o (some word) }
    | _ => p.takeFile form word

/-- Whether an option without a value is given. -/
def has (p : Progress) (name : String) : Bool :=
  p.switches.contains name

/-- Whether help is asked for. -/
def asksForHelp (p : Progress) : Bool :=
  p.has OptionForm.help.name

/-- Reads all words, or those up to the one that asks for help. After two hyphens on their own every
word is a file. -/
def takeWords (form : CommandForm) (p : Progress) : List String → Except UsageError Progress
  | [] => p.settle form
  | word :: words =>
    if word = "--" then do
      let p ← words.foldlM (takeFile form) p
      p.settle form
    else do
      let p ← p.takeWord form word
      if p.asksForHelp then .ok p else p.takeWords form words

/-- What the command needs and has not been given. -/
def missing (form : CommandForm) (p : Progress) : List String :=
  let options := form.options.filter fun o => o.required && (p.values.lookup o.name).isNone
  options.map (·.label) ++ if p.files.isEmpty then [form.operandLabel] else []

/-- Reads the words of a command. Who asks for help need not give what the command needs. -/
def read (form : CommandForm) (words : List String) : Except UsageError Progress := do
  let p ← start.takeWords form words
  match p.missing form with
  | [] => .ok p
  | arguments => if p.asksForHelp then .ok p else .error (.missingArguments arguments)

/-- The value of an option. -/
def value? (p : Progress) (name : String) : Option String :=
  p.values.lookup name

/-- All values of an option. -/
def valuesOf (p : Progress) (name : String) : List String :=
  (p.values.filter (·.1 == name)).map (·.2)

end Progress

end VbaModules.Command

import VbaModules.Casing.Spelling
import VbaModules.Command.Basic
import VbaModules.Command.Host
import VbaModules.Command.Listing
import VbaModules.Conversion.NameSpace
import VbaModules.Merge.Layout

/-!
# Running commands

Each command reads its files, calls the library and writes what comes of it. It ends well, ends
with a finding, or fails for a reason.
-/

namespace VbaModules

/-- Why a command fails. -/
inductive Failure where
  | file (path : String) (fault : FileFault)
  | merge (e : AssemblyError)
  | rename (e : RenamingError)
  | missingName (e : MissingModuleName)
deriving DecidableEq, Repr

/-- The wording of a failure. -/
def Failure.message : Failure → String
  | file path fault => path ++ ": " ++ fault.message
  | merge e => e.message
  | rename e => e.message
  | missingName e => e.message

/-- The exit codes of the program. -/
inductive Exit where
  /-- All is well. -/
  | success
  /-- The command failed, or has found something to be mended. -/
  | failure
  /-- The command line was refused. -/
  | usage
deriving DecidableEq, Repr

/-- The number of an exit code. -/
def Exit.code : Exit → Nat
  | success => 0
  | failure => 1
  | usage => 2

namespace Command

variable {m : Type → Type} [Monad m] [Host m]

/-! ### Files -/

/-- Tries an operation on a file, which fails for the command too. -/
def onFile {α : Type} (path : String) (operation : m (Except FileFault α)) :
    ExceptT Failure m α := do
  match ← operation with
  | .ok a => return a
  | .error fault => throw (.file path fault)

/-- The text of a file. -/
def read (path : String) : ExceptT Failure m String :=
  onFile path (Host.readText path)

/-- Writes a file. -/
def write (path text : String) : ExceptT Failure m Unit :=
  onFile path (Host.writeText path text)

/-- Writes a line to the error output. -/
def reportLine (line : String) : ExceptT Failure m Unit :=
  Host.report (m := m) (line ++ "\n")

/-- The bundle of the given files. -/
def load (files : List String) : ExceptT Failure m Bundle := do
  let texts ← files.mapM fun path => return (path, ← read path)
  return .ofTexts texts

/-! ### Commands -/

/-- Merges files. -/
def mergeFiles (name? output? : Option String) (files : List String) : ExceptT Failure m Bool := do
  let bundle ← load files
  let text ← (VbaModules.merge bundle name?).mapError Failure.merge
  match output? with
  | some path =>
    write path text
    reportLine s!"{path}: merged {files.length} module(s)"
  | none => Host.print (m := m) text
  return true

/-- Lists the sections of a file. -/
def listSections (file : String) : ExceptT Failure m Bool := do
  let tokens := Lexer.lex (← read file)
  for s in Partition.sections tokens do
    Host.print (m := m) (s.listing ++ "\n")
  return true

/-- Lists the tokens of a file. -/
def listTokens (file : String) : ExceptT Failure m Bool := do
  for t in Lexer.lex (← read file) do
    Host.print (m := m) (t.listing ++ "\n")
  return true

/-- Gives the names in files one spelling each, or tells which files have others. -/
def spellFiles (writeBack : Bool) : Speller → List String → ExceptT Failure m Bool
  | _, [] => return true
  | speller, path :: files => do
    let text ← read path
    let (fixed, speller) := speller.spellText text
    if fixed = text then spellFiles writeBack speller files
    else if writeBack then
      write path fixed
      reportLine s!"{path}: recased"
      spellFiles writeBack speller files
    else
      reportLine s!"{path}: casing differs"
      let _ ← spellFiles writeBack speller files
      return false

/-- The speller with the overrides in a file. -/
def loadSpeller (style : Option NameStyle) (overrides? : Option String) :
    ExceptT Failure m Speller := do
  match overrides? with
  | some path => return (Speller.ofStyle style).override (overrideNames (← read path))
  | none => return .ofStyle style

/-- Renames identifiers in files, or tells which files would change. -/
def renameFiles (rules : List (String × String)) (keepClassNames writeBack : Bool)
    (files : List String) : ExceptT Failure m Bool := do
  let bundle ← load files
  let rules : RuleList := ⟨rules.map fun (old, new) => .exact old new⟩
  let renamed ← (bundle.rename rules (!keepClassNames)).mapError Failure.rename
  for ((origin, before), (_, after)) in bundle.entries.zip renamed.bundle.entries do
    let text := Token.textOf after
    if text != Token.textOf before then
      if writeBack then
        write origin text
        reportLine s!"{origin}: renamed"
      else
        reportLine s!"{origin}: names differ"
  let verb := if writeBack then "renamed" else "to rename"
  reportLine s!"{renamed.changed} name(s) {verb}"
  return true

/-- Converts files to classes in a directory. -/
def convertFiles (directory : String) (files : List String) : ExceptT Failure m Bool := do
  let bundle ← load files
  let classes ← (convertBundle bundle).mapError Failure.missingName
  onFile directory (Host.makeDirectories directory)
  for c in classes do
    write (pathIn directory (c.className ++ ".cls")) c.source
  let name := ShortName.shorten objectsModule (classes.map (·.className))
  write (pathIn directory (name ++ ".bas")) (objectDeclarations classes)
  reportLine s!"{directory}: {classes.length} class(es) written"
  return true

/-- Runs a command. The answer tells whether there is nothing to be mended. -/
def run : Command → ExceptT Failure m Bool
  | .merge name? output? files => mergeFiles name? output? files
  | .sections file => listSections file
  | .tokens file => listTokens file
  | .spell style overrides? writeBack files => do
    spellFiles writeBack (← loadSpeller style overrides?) files
  | .rename rules keepClassNames writeBack files =>
    renameFiles rules keepClassNames writeBack files
  | .convert directory files => convertFiles directory files

/-- Reads a command line and does what it asks for. -/
def execute (words : List String) : m Exit := do
  match parse words with
  | .error e =>
    Host.report e.message
    return .usage
  | .ok .help =>
    Host.print usage
    return .success
  | .ok (.command c) =>
    match ← c.run.run with
    | .ok true => return .success
    | .ok false => return .failure
    | .error e =>
      Host.report (e.message ++ "\n")
      return .failure

end Command

end VbaModules

import VbaModules.Command.Run

/-!
# The program

Runs commands on real files.
-/

namespace VbaModules

/-- The number that the system has for an error of the file system. Some operations give it with
the opposite sign. -/
def systemNumber? (e : IO.Error) : Option Nat :=
  let unsigned (code : UInt32) : Nat :=
    if code.toNat < UInt32.size / 2 then code.toNat else UInt32.size - code.toNat
  match e with
  | .noFileOrDirectory _ code _ | .alreadyExists _ code _ | .inappropriateType _ code _
  | .invalidArgument _ code _ | .permissionDenied _ code _ | .otherError code _ =>
    some (unsigned code)
  | _ => none

/-- The fault behind an error of the file system. -/
def FileFault.ofError (e : IO.Error) : FileFault :=
  match systemNumber? e with
  | some 2 => .notFound
  | some 13 => .other "Permission denied (os error 13)"
  | some 17 => .alreadyExists
  | some 20 => .notDirectory
  | some 21 => .isDirectory
  | some 36 => .nameTooLong
  | _ => .other (toString e)

/-- Tries an action on the file at a path. -/
def attempt {α : Type} (path : String) (action : IO α) : IO (Except FileFault α) := do
  match pathFault? path with
  | some fault => return .error fault
  | none =>
    match ← action.toBaseIO with
    | .ok a => return .ok a
    | .error e => return .error (.ofError e)

/-- Makes a directory that may be there already. -/
def ensureDirectory (path : String) : IO (Except FileFault Unit) := do
  match ← attempt path (IO.FS.createDir path) with
  | .ok () => return .ok ()
  | .error fault =>
    match ← attempt path (IO.FS.readBinFile path) with
    | .error .isDirectory => return .ok ()
    | _ => return .error fault

/-- Makes a directory and those it lies in, whose components are given in reverse order. Only a
directory that is not found is tried again after those it lies in. -/
def ensureDirectories (root path : String) : List String → IO (Except FileFault Unit)
  | [] => return .ok ()
  | _ :: outer => do
    match ← ensureDirectory path with
    | .error .notFound =>
      match ← ensureDirectories root (root ++ "/".intercalate outer.reverse) outer with
      | .ok () => ensureDirectory path
      | .error fault => return .error fault
    | result => return result

instance : Host IO where
  readText path := do
    match ← attempt path (IO.FS.readBinFile path) with
    | .ok content =>
      match String.fromUTF8? content with
      | some text => return .ok text
      | none => return .error .invalidText
    | .error fault => return .error fault
  writeText path text := attempt path (IO.FS.writeFile path text)
  makeDirectories path :=
    let root := if path.startsWith "/" then "/" else ""
    ensureDirectories root path (Origin.components path).reverse
  print text := IO.print text
  report text := IO.eprint text

end VbaModules

/-- Runs the command given by the arguments. -/
def main (words : List String) : IO UInt32 := do
  let exit ← VbaModules.Command.execute (m := IO) words
  return exit.code.toUInt32

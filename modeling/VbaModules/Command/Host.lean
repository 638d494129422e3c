/-!
# Files and streams

What the commands need of the world outside: to read and write text files, to make directories,
and to write to the two output streams. Commands are written for any monad that offers this.
-/

namespace VbaModules

/-- Why an operation on a file fails. -/
inductive FileFault where
  | notFound
  | isDirectory
  | notDirectory
  | alreadyExists
  | nameTooLong
  /-- The path holds the character with code zero. -/
  | nulInName
  /-- The file does not hold valid UTF-8. -/
  | invalidText
  | other (text : String)
deriving DecidableEq, Repr

/-- The wording of a fault. -/
def FileFault.message : FileFault → String
  | notFound => "No such file or directory (os error 2)"
  | isDirectory => "Is a directory (os error 21)"
  | notDirectory => "Not a directory (os error 20)"
  | alreadyExists => "File exists (os error 17)"
  | nameTooLong => "File name too long (os error 36)"
  | nulInName => "file name contained an unexpected NUL byte"
  | invalidText => "stream did not contain valid UTF-8"
  | other text => text

/-- The greatest number of bytes in a path. -/
def maxPath : Nat :=
  4095

/-- Why there can be nothing at a path, whatever files there are. -/
def pathFault? (path : String) : Option FileFault :=
  if path.toList.contains (Char.ofNat 0) then some .nulInName
  else if path.utf8ByteSize > maxPath then some .nameTooLong
  else none

/-- The operations on files and streams. -/
class Host (m : Type → Type) where
  /-- The text of a file. -/
  readText : (path : String) → m (Except FileFault String)
  /-- Makes the text the content of a file. -/
  writeText : (path text : String) → m (Except FileFault Unit)
  /-- Makes a directory and those it lies in, as far as they are not there. -/
  makeDirectories : (path : String) → m (Except FileFault Unit)
  /-- Writes to the standard output. -/
  print : (text : String) → m Unit
  /-- Writes to the error output. -/
  report : (text : String) → m Unit

/-- The path of a name in a directory. A name that is an absolute path stands for itself. -/
def pathIn (directory name : String) : String :=
  if name.startsWith "/" then name
  else if directory = "" || directory.endsWith "/" then directory ++ name
  else directory ++ "/" ++ name

end VbaModules

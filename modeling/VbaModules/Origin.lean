import VbaModules.Text.Ascii

/-!
# Origins of modules

The origin of a module is the path it was read from. Only its extension has a meaning: class
modules are those with the extension `cls`.
-/

namespace VbaModules.Origin

/-- The components of a path that name something: neither empty nor the current directory. -/
def components (path : String) : List String :=
  ((path.toList.splitOnP (· == '/')).map String.ofList).filter fun c => c != "" && c != "."

/-- The name of the file that a path leads to. A path that ends in the parent directory leads to no
file. -/
def fileName? (path : String) : Option String :=
  (components path).getLast?.filter (· != "..")

/-- What follows the last dot of a file name, unless nothing stands before it. -/
def extension? (name : String) : Option String :=
  let reversed := name.toList.reverse
  match reversed.dropWhile (· != '.') with
  | _ :: _ :: _ => some (String.ofList (reversed.takeWhile (· != '.')).reverse)
  | _ => none

/-- Whether the module at a path is a class module. -/
def isClass (path : String) : Bool :=
  ((fileName? path).bind extension?).any fun e => Text.sameWord e "cls"

end VbaModules.Origin

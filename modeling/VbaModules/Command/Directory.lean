import VbaModules.Command.Host
import VbaModules.Origin

/-!
# A directory in memory

A directory with the files and directories in it, as a value, on which commands can be run without
touching any real file. Paths are relative to the directory, or begin at the root with a slash.
Outside of the directory there are only the root and the directories it lies in, and what is written
there does not count as a change to it.
-/

namespace VbaModules

/-- Files and directories by their components. The directory itself has none, those it lies in are
`..`, `../..` and so on, and what is reached from the root begins with `/`. -/
structure Directory where
  folders : List (List String)
  files : List (List String × ByteArray)

namespace Directory

/-- What is found at a place. -/
inductive Entry where
  | folder
  | file (content : ByteArray)

/-- The place of the root. -/
def root : List String :=
  ["/"]

/-- Whether a place lies outside of the directory. -/
def isOutside (place : List String) : Bool :=
  place.head? == some ".." || place.head? == root.head?

/-- What is found at a place, if there is anything. -/
def entryAt? (d : Directory) (place : List String) : Option Entry :=
  match d.files.lookup place with
  | some content => some (.file content)
  | none =>
    if place.all (· == "..") || place == root || d.folders.contains place then some .folder
    else none

/-- The greatest number of bytes in a component of a path. -/
def maxComponent : Nat :=
  255

/-! ### Following paths -/

/-- How a path ends: with the name of something, with a slash, or with a dot for the directory that
it has reached. -/
inductive Ending where
  | name
  | slash
  | dot
deriving DecidableEq, Repr

/-- How the path ends. -/
def endingOf (path : String) : Ending :=
  let steps := (path.toList.splitOnP (· == '/')).filter (!·.isEmpty)
  if steps.getLast? = some ['.'] then .dot
  else if path.endsWith "/" then .slash
  else .name

/-- The place that a path begins at. -/
def beginning (path : String) : List String :=
  if path.startsWith "/" then root else []

/-- The place that a place lies in. The root lies in itself. -/
def outer (place : List String) : List String :=
  if place = root then root
  else if place.all (· == "..") then place ++ [".."]
  else place.dropLast

/-- Follows the components of a path from a place. Every place on the way must be a directory, and
the last one too if `inside` says so. -/
def follow (d : Directory) (inside : Bool) (place : List String) :
    List String → Except FileFault (List String)
  | [] => .ok place
  | component :: rest =>
    if component = ".." then d.follow inside (outer place) rest
    else if component.utf8ByteSize > maxComponent then .error .nameTooLong
    else
      let next := place ++ [component]
      if rest.isEmpty && !inside then .ok next
      else match d.entryAt? next with
        | some .folder => d.follow inside next rest
        | some (.file _) => .error .notDirectory
        | none => .error .notFound

/-- The place that a path leads to. -/
def locate (d : Directory) (path : String) : Except FileFault (List String) :=
  match pathFault? path with
  | some fault => .error fault
  | none => d.follow (endingOf path == .dot) (beginning path) (Origin.components path)

/-! ### Files -/

/-- The text of the file at a path. -/
def readText (d : Directory) (path : String) : Except FileFault String := do
  match d.entryAt? (← d.locate path) with
  | none => .error .notFound
  | some .folder => .error .isDirectory
  | some (.file content) =>
    if endingOf path = .slash then .error .notDirectory
    else match String.fromUTF8? content with
      | some text => .ok text
      | none => .error .invalidText

/-- The directory with a file put at a place, where another may have been. -/
def putFile (d : Directory) (place : List String) (content : ByteArray) : Directory :=
  { d with files := (place, content) :: d.files.filter (·.1 != place) }

/-- The directory with the text as the content of the file at a path. A path that ends with a slash
is refused once the way to its last component is found, whatever that component is. -/
def writeText (d : Directory) (path text : String) : Except FileFault Directory := do
  match pathFault? path, endingOf path with
  | some fault, _ => .error fault
  | none, .slash =>
    let _ ← d.follow true (beginning path) (Origin.components path).dropLast
    .error .isDirectory
  | none, _ =>
    let place ← d.locate path
    match d.entryAt? place with
    | some .folder => .error .isDirectory
    | _ => .ok (d.putFile place text.toUTF8)

/-! ### Directories -/

/-- The directory with one more directory in it, where nothing may have been. -/
def makeFolder (d : Directory) (inside : Bool) (base components : List String) :
    Except FileFault Directory := do
  let place ← d.follow inside base components
  match d.entryAt? place with
  | some _ => .error .alreadyExists
  | none => .ok { d with folders := place :: d.folders }

/-- Whether the components lead from a place to a directory. -/
def isFolder (d : Directory) (base components : List String) : Bool :=
  match d.follow true base components with
  | .ok _ => true
  | .error _ => false

/-- The directory with a directory in it that may be there already. -/
def ensureFolder (d : Directory) (inside : Bool) (base components : List String) :
    Except FileFault Directory :=
  match d.makeFolder inside base components with
  | .ok d => .ok d
  | .error fault => if d.isFolder base components then .ok d else .error fault

/-- The directory with a directory in it and those it lies in, as far as they are not there. The
components are in reverse order. Only a directory that is not found is tried again after those it
lies in. -/
def ensureFolders (d : Directory) (inside : Bool) (base : List String) :
    List String → Except FileFault Directory
  | [] => .ok d
  | component :: outer =>
    match d.ensureFolder inside base (component :: outer).reverse with
    | .error .notFound => do
      let d ← d.ensureFolders false base outer
      d.ensureFolder inside base (component :: outer).reverse
    | result => result

/-- The directory with the directories of a path made as far as they are not there. -/
def makeDirectories (d : Directory) (path : String) : Except FileFault Directory :=
  match pathFault? path with
  | some fault => .error fault
  | none =>
    d.ensureFolders (endingOf path == .dot) (beginning path) (Origin.components path).reverse

/-! ### The directory as a whole -/

/-- The directory with the given files and the directories they lie in. -/
def ofFiles (files : List (String × ByteArray)) : Directory :=
  files.foldl (fun d (path, content) =>
    let place := Origin.components path
    let outer := (List.range place.length).map place.take
    { d.putFile place content with
      folders := d.folders ++ outer.filter fun f => !f.isEmpty && !d.folders.contains f })
    ⟨[], []⟩

/-- The files in the directory that are new or have other content than in `before`, by path and in
that order. -/
def changesSince (d before : Directory) : List (String × ByteArray) :=
  let changed := d.files.filter fun (place, content) =>
    !isOutside place && !(before.files.lookup place).any (·.data == content.data)
  (changed.map fun (place, content) => ("/".intercalate place, content)).mergeSort fun a b =>
    !(b.1 < a.1)

end Directory

/-! ### Running commands in memory -/

/-- A directory and what has been written to the output streams. -/
structure Desk where
  directory : Directory
  output : String
  errors : String

namespace Desk

/-- Does something to the directory that can fail; then the directory stays as it is. -/
def change (f : Directory → Except FileFault Directory) : StateM Desk (Except FileFault Unit) := do
  let desk ← get
  match f desk.directory with
  | .ok directory =>
    set { desk with directory := directory }
    return .ok ()
  | .error fault => return .error fault

instance : Host (StateM Desk) where
  readText path := return (← get).directory.readText path
  writeText path text := change (·.writeText path text)
  makeDirectories path := change (·.makeDirectories path)
  print text := modify fun desk => { desk with output := desk.output ++ text }
  report text := modify fun desk => { desk with errors := desk.errors ++ text }

end Desk

end VbaModules

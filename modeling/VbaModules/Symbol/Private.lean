import VbaModules.Symbol.ModuleName

/-!
# Private symbols

The names a module keeps to itself: those of its private procedures, enumerations, types and
external procedures, every variable of a private declaration, and every constant that is not said
to be public.
-/

namespace VbaModules

/-- The start of a private external procedure, up to its name. -/
def privateExternal : Pattern :=
  ⟨[.words ["private"], .words ["declare"], .maybe ["ptrsafe"], .words ["function", "sub"],
    .anything]⟩

/-- The starts of private definitions of one name, up to the name. -/
def privateDefinitions : List Pattern := [
  ⟨[.words ["private"], .maybe ["static"], .words ["function", "sub", "enum", "const", "type"],
    .anything]⟩,
  ⟨[.words ["private"], .maybe ["static"], .words ["property"], .words ["get", "let", "set"],
    .anything]⟩,
  privateExternal]

/-- The starts of private declarations of several names, up to the first. -/
def privateLists : List Pattern := [
  ⟨[.words ["private"], .maybe ["withevents"], .anything]⟩,
  ⟨[.maybe ["private"], .words ["const"], .anything]⟩]

/-- The positions of the last tokens of all matches of the patterns that begin a line. -/
def lastPositions (patterns : List Pattern) (tokens : List Token) : List Nat :=
  patterns.flatMap fun p => (p.lineMatches tokens).map fun m => m.stop - 1

/-- The positions of the first tokens after the commas of a declaration list, the tokens given
being the rest of its line from `position` on. Commas within parentheses do not count. -/
def laterNames (position depth : Nat) : List Token → List Nat
  | [] => []
  | t :: ts =>
    if t.text = "(" then laterNames (position + 1) (depth + 1) ts
    else if t.text = ")" then laterNames (position + 1) (depth - 1) ts
    else if t.text = "," ∧ depth = 0 then
      ((ts.findIdx? (!·.isBlank)).map (position + 1 + ·)).toList ++
        laterNames (position + 1) depth ts
    else laterNames (position + 1) depth ts

/-- The positions of the names in the declaration list whose first name is at `first`. -/
def listedNames (tokens : List Token) (first : Nat) : List Nat :=
  first :: laterNames (first + 1) 0
    (Token.slice tokens (first + 1) (Token.lineEnd tokens first))

/-- The positions where private symbols are defined. -/
def privatePositions (tokens : List Token) : List Nat :=
  let lists := (lastPositions privateLists tokens).filter fun i => (nameAt? tokens i).isSome
  lastPositions privateDefinitions tokens ++ lists.flatMap (listedNames tokens)

/-- The names at the given positions, in order of position. -/
def namesAt (tokens : List Token) (positions : List Nat) : List String :=
  (positions.mergeSort (· ≤ ·)).filterMap (nameAt? tokens)

/-- The list without the later spellings of a word that has come before. -/
def firstSpellings : List String → List String
  | [] => []
  | name :: names => name :: (firstSpellings names).filter (!Text.sameWord name ·)

/-- The names a module keeps to itself, in order of definition and each as first spelled. -/
def privateNames (tokens : List Token) : List String :=
  firstSpellings (namesAt tokens (privatePositions tokens))

end VbaModules

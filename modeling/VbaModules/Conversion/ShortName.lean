import VbaModules.Rename.ClassName

/-!
# Names that fit

A name that is longer than the editor allows is cut and gets a counter of three digits, the first
one that is still free. A name of exactly the allowed length that ends in three digits is treated
the same way, so that it cannot be mistaken for a name made here.
-/

namespace VbaModules.ShortName

/-- How many characters of a name are kept before the counter. -/
def stemLength : Nat :=
  28

/-- A counter in decimal digits, at least three. -/
def counter (n : Nat) : String :=
  let digits := Nat.toDigits 10 n
  String.ofList (List.replicate (3 - digits.length) '0' ++ digits)

/-- The first characters of a name with a counter. -/
def numbered (name : String) (n : Nat) : String :=
  String.ofList (name.toList.take stemLength) ++ counter n

/-- Whether the name ends in three ASCII digits. -/
def endsInCounter (name : String) : Bool :=
  ((name.toList.reverse.take 3).filter Char.isDigit).length == 3

/-- Whether a name can stay as it is. -/
def fits (name : String) : Bool :=
  name.length < maxModuleName || (name.length == maxModuleName && !endsInCounter name)

/-- The names with counters from one on, as many as are sure to hold one that is not taken. The
counter is taken as unbounded: one of 32 bits would run out when `2 ^ 31 - 1` names with the same
first characters are taken. -/
def numberedNames (name : String) (taken : List String) : List String :=
  (List.range (taken.length + 1)).map fun n => numbered name (n + 1)

/-- The name that fits, given the names that are taken. -/
def shorten (name : String) (taken : List String) : String :=
  if fits name then name
  else ((numberedNames name taken).find? (!taken.contains ·)).getD name

/-- The names that are taken after one more name is given out. -/
def take (name : String) (taken : List String) : List String :=
  if taken.contains name then taken else taken ++ [name]

/-- The names that fit, one after the other, and all names that are taken then. -/
def shortenAll (taken : List String) : List String → List String × List String
  | [] => ([], taken)
  | name :: names =>
    let short := shorten name taken
    let (rest, taken) := shortenAll (take short taken) names
    (short :: rest, taken)

end VbaModules.ShortName

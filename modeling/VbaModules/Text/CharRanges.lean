/-!
# Sets of characters given by ranges

A property of characters is written as the list of the ranges of code points that have it.
-/

namespace VbaModules.Text

/-- Ranges of code points, both ends included. -/
abbrev CharRanges : Type := List (Nat × Nat)

/-- Whether some range holds the character. -/
def CharRanges.contains (ranges : CharRanges) (c : Char) : Bool :=
  ranges.any fun (first, last) => first ≤ c.toNat && c.toNat ≤ last

end VbaModules.Text

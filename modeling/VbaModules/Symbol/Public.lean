import VbaModules.Symbol.Private

/-!
# Public symbols

The names a module offers to others: those of its procedures, enumerations, types and external
procedures that are not private, and of its public constants.
-/

namespace VbaModules

/-- The starts of definitions that other modules may use, up to the name. -/
def publicDefinitions : List Pattern := [
  ⟨[.maybe ["public", "global"], .maybe ["static"], .maybe ["declare"], .maybe ["ptrsafe"],
    .words ["function", "sub", "enum", "type"], .anything]⟩,
  ⟨[.words ["public", "global"], .words ["const"], .anything]⟩,
  ⟨[.maybe ["public"], .maybe ["static"], .words ["property"], .words ["get", "let", "set"],
    .anything]⟩]

/-- The names a module offers to others, as spelled at their definitions and in that order. A name
defined twice is listed twice. -/
def publicNames (tokens : List Token) : List String :=
  namesAt tokens (lastPositions publicDefinitions tokens)

end VbaModules

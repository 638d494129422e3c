import VbaModules.Dictionary
import VbaModules.Token.Lexer

/-!
# Bundles

A bundle holds the tokens of several modules by origin. The order of the modules is the order of
merging.
-/

namespace VbaModules

/-- The tokens of modules, by origin. -/
abbrev Bundle : Type :=
  Dictionary (List Token)

/-- The bundle of the given texts, each with its origin. -/
def Bundle.ofTexts (texts : List (String × String)) : Bundle :=
  Dictionary.ofList (texts.map fun (origin, text) => (origin, Lexer.lex text))

end VbaModules

import VbaModules.Casing.Style
import VbaModules.Dictionary
import VbaModules.Text.Line
import VbaModules.Text.White
import VbaModules.Token.Lexer

/-!
# One spelling for each name

The editor gives all occurrences of a name the spelling that it has seen last, which makes changes
hard to follow. A speller settles on one spelling for each name, over all modules it goes through,
and gives keywords the spelling of the editor.
-/

namespace VbaModules

/-- The names in a list of overrides: one on a line, with comments from a number sign to the end of
the line. -/
def overrideNames (text : String) : List String :=
  let names := (Text.lines text).map fun line =>
    Text.trim (String.ofList (line.toList.takeWhile (· != '#')))
  names.filter (· != "")

/-- The spellings settled so far, and the style for names that come later. -/
structure Speller where
  /-- Without a style a name keeps the spelling of its first occurrence. -/
  style : Option NameStyle
  /-- The spellings by the lower-case form of the name. -/
  spellings : Dictionary String

namespace Speller

/-- A speller that has seen nothing. -/
def ofStyle (style : Option NameStyle) : Speller :=
  ⟨style, .empty⟩

/-- Settles the spellings of the given names, whatever the style. -/
def override (speller : Speller) (names : List String) : Speller :=
  { speller with
    spellings := names.foldl (fun d name => d.insert (Text.lower name) name) speller.spellings }

/-- The spelling of a name that is settled already. -/
def settled? (speller : Speller) (name : String) : Option String :=
  speller.spellings.get? (Text.lower name)

/-- The spelling that the speller would choose for a name it has not seen. -/
def choose (speller : Speller) (name : String) : String :=
  (speller.style.map (·.apply name)).getD name

/-- The spelling of a name, and the speller in which it is settled. -/
def settle (speller : Speller) (name : String) : String × Speller :=
  match speller.settled? name with
  | some spelling => (spelling, speller)
  | none =>
    let spelling := speller.choose name
    (spelling, { speller with spellings := speller.spellings.insert (Text.lower name) spelling })

/-- Whether a name between `before` and the tokens `after` it is that of an external procedure. Its
letter case is a matter of the library, not of the module. -/
def isEntryPoint (before : Option Token) (after : List Token) : Bool :=
  (before.any fun t => t.spells "function" || t.spells "sub") &&
    (after.find? (!·.isBlank)).any (·.spells "lib")

/-- A token in its spelling, given the last token before it that is not blank and the tokens after
it. -/
def respell (speller : Speller) (before : Option Token) (t : Token) (after : List Token) :
    Token × Speller :=
  match t.kind with
  | .reserved => ({ t with text := (Keyword.editorSpelling? t.text).getD t.text }, speller)
  | .name =>
    if isEntryPoint before after then (t, speller)
    else
      let (spelling, speller) := speller.settle t.text
      ({ t with text := spelling }, speller)
  | _ => (t, speller)

/-- Tokens in their spellings, from left to right. Here `before` is the last token before them that
is not blank, in its spelling. -/
def spellAfter (before : Option Token) (speller : Speller) : List Token → List Token × Speller
  | [] => ([], speller)
  | t :: ts =>
    let (spelled, speller) := speller.respell before t ts
    let (rest, speller) := spellAfter (if spelled.isBlank then before else some spelled) speller ts
    (spelled :: rest, speller)

/-- The tokens of a module in their spellings. -/
def spell (speller : Speller) (tokens : List Token) : List Token × Speller :=
  spellAfter none speller tokens

/-- The text of a module with all words in their spellings. -/
def spellText (speller : Speller) (text : String) : String × Speller :=
  let (tokens, speller) := speller.spell (Lexer.lex text)
  (Token.textOf tokens, speller)

end Speller

/-- How many tokens differ between two lists of the same length. -/
def countChanged (before after : List Token) : Nat :=
  (before.zip after).countP fun (a, b) => a != b

end VbaModules

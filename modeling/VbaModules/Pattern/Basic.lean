import VbaModules.Text.White
import VbaModules.Token.Basic

/-!
# Token patterns

A pattern is a row of elements, each of which accepts one token out of some alternatives; an
optional element may also accept nothing. Blanks between the tokens do not count. In the written
form the elements are divided by white space, the alternatives by `|`, and an optional element
stands in brackets: `[private|public] sub|function` describes `Private  Function` as well as a
bare `Sub`. Two alternatives are wildcards: `.*` accepts any token but a line break, and `\n`
accepts a line break.
-/

namespace VbaModules

/-- One way in which a token can be accepted. -/
inductive Alternative where
  /-- Any token but a line break. -/
  | any
  /-- A line break. -/
  | lineBreak
  /-- A token with the given text, ignoring ASCII case. -/
  | word (text : String)
deriving DecidableEq, Repr

/-- An element of a pattern: it accepts a token that some alternative accepts. -/
structure Element where
  alternatives : List Alternative
  optional : Bool
deriving DecidableEq, Repr

/-- A row of elements. -/
structure Pattern where
  elements : List Element
deriving DecidableEq, Repr

/-- Whether the token is accepted. -/
def Alternative.accepts (alternative : Alternative) (t : Token) : Bool :=
  match alternative with
  | .any => !t.isLineBreak
  | .lineBreak => t.isLineBreak
  | .word text => !t.isLineBreak && Text.sameWord t.text text

namespace Element

/-- Whether some alternative accepts the token. -/
def accepts (element : Element) (t : Token) : Bool :=
  element.alternatives.any (·.accepts t)

/-- An element that must be one of the given words. -/
def words (texts : List String) : Element :=
  ⟨texts.map .word, false⟩

/-- An element that may be one of the given words. -/
def maybe (texts : List String) : Element :=
  ⟨texts.map .word, true⟩

/-- An element that must be some token of the line. -/
def anything : Element :=
  ⟨[.any], false⟩

end Element

/-! ### The written form -/

/-- The alternative written as `text`. -/
def Alternative.parse (text : String) : Alternative :=
  if text = ".*" then .any
  else if text = "\\n" then .lineBreak
  else .word (Text.foldCase text)

/-- What stands between a pair of brackets around the whole text. -/
def Element.bracketed? (cs : List Char) : Option (List Char) :=
  match cs with
  | '[' :: inner => if inner.getLast? == some ']' then some inner.dropLast else none
  | _ => none

/-- The element written as `text`. Empty alternatives are left out. -/
def Element.parse (text : String) : Element :=
  let inner := (bracketed? text.toList).getD text.toList
  let alternatives := (inner.splitOnP (· == '|')).filter (!·.isEmpty)
  ⟨alternatives.map fun cs => .parse (String.ofList cs), (bracketed? text.toList).isSome⟩

/-- The pattern written as `text`. -/
def Pattern.parse (text : String) : Pattern :=
  ⟨(Text.words text).map .parse⟩

end VbaModules

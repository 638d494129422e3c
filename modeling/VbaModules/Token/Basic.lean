import VbaModules.Text.Ascii

/-!
# Tokens

A token is a piece of module text together with its kind. Tokens keep their exact text, so the
texts of a token list in a row are the text of the module again (`Token.textOf`).
-/

namespace VbaModules

/-- A conditional-compilation directive. -/
inductive Directive where
  /-- The opening line of a block: `#If`. -/
  | opening
  /-- A further condition: `#ElseIf`. -/
  | elseIf
  /-- The remaining case: `#Else`. -/
  | otherwise
  /-- The closing line of a block: `#End If` or `#EndIf`. -/
  | closing
deriving DecidableEq, Repr

/-- What a token is. -/
inductive Token.Kind where
  /-- An identifier that is not a keyword. -/
  | name
  /-- A keyword, in any letter case. -/
  | reserved
  /-- A string literal with its quotes. -/
  | string
  /-- A comment up to, but not including, the line break. -/
  | comment
  /-- Blanks, line continuations and a leading byte order mark. -/
  | blank
  /-- A line break. -/
  | lineBreak
  /-- A conditional-compilation directive. -/
  | conditional (directive : Directive)
  /-- Anything else: operators, punctuation, numeric literals. -/
  | unknown
deriving DecidableEq, Repr

/-- A piece of module text and its kind. -/
structure Token where
  kind : Token.Kind
  text : String
deriving DecidableEq, Repr

namespace Token

/-- Whether the token is a name or keyword spelled `word`, ignoring ASCII case. -/
def spells (t : Token) (word : String) : Bool :=
  (t.kind == .name || t.kind == .reserved) && Text.sameWord t.text word

/-- Whether the token is blank. -/
def isBlank (t : Token) : Bool :=
  t.kind == .blank

/-- Whether the token is a line break. -/
def isLineBreak (t : Token) : Bool :=
  t.kind == .lineBreak

/-- Whether the token is an identifier. -/
def isName (t : Token) : Bool :=
  t.kind == .name

/-- The texts of the tokens in a row. -/
def textOf (tokens : List Token) : String :=
  String.join (tokens.map Token.text)

/-- The tokens from position `start` up to, but not including, position `stop`. -/
def slice (tokens : List Token) (start stop : Nat) : List Token :=
  (tokens.take stop).drop start

/-- The position just past the line break that ends the line of position `start`, or the number of
tokens when no line break follows. -/
def lineEnd (tokens : List Token) (start : Nat) : Nat :=
  match (tokens.drop start).findIdx? isLineBreak with
  | some offset => start + offset + 1
  | none => tokens.length

/-- Whether a position is at the start of a line, given whether the position before the token `t`
is: a line break makes it so, a blank changes nothing, and any other token ends it. -/
def lineStartAfter (atLineStart : Bool) (t : Token) : Bool :=
  if t.isBlank then atLineStart else t.isLineBreak

/-- Whether only blanks separate a position from the line break before it or from the start of the
tokens. -/
def beginsLine (tokens : List Token) (position : Nat) : Bool :=
  (tokens.take position).foldl lineStartAfter true

/-- The first position from `start` up to `stop` that does not hold a blank. -/
def nextNonBlank? (tokens : List Token) (start stop : Nat) : Option Nat :=
  ((slice tokens start stop).findIdx? (!·.isBlank)).map (start + ·)

@[simp]
theorem toList_textOf (tokens : List Token) :
    (textOf tokens).toList = tokens.flatMap (·.text.toList) := by
  simp [textOf, String.toList_join, List.flatMap_map]

end Token

end VbaModules

import VbaModules.Token.Basic

/-!
# Sections

A section is a contiguous run of the tokens of a module together with what it is: an option
statement, a procedure, a variable declaration and so on. A span is the same thing told by
positions.
-/

namespace VbaModules

/-- What a section is. -/
inductive Section.Kind where
  /-- An `Attribute` line. -/
  | attributeLine
  /-- An `Option` line. -/
  | optionLine
  /-- The declaration of an external procedure. -/
  | declaration
  /-- A function, sub or property with its body. -/
  | procedure
  /-- An enumeration with its members. -/
  | enumeration
  /-- A user-defined type with its members. -/
  | userType
  /-- A conditional-compilation block. -/
  | conditional
  /-- A variable or constant of the module. -/
  | global
  /-- Anything else: blank lines, comments, stray code. -/
  | unknown
deriving DecidableEq, Repr

/-- The word for a kind in listings. -/
def Section.Kind.label : Section.Kind → String
  | attributeLine => "attribute"
  | optionLine => "option"
  | declaration => "declare"
  | procedure => "function"
  | enumeration => "enum"
  | userType => "type"
  | conditional => "#if"
  | global => "global"
  | unknown => "unknown"

/-- A stretch of token positions, `stop` not included, and what it is. -/
structure Span where
  start : Nat
  stop : Nat
  kind : Section.Kind
deriving DecidableEq, Repr

/-- A run of tokens and what it is. -/
structure Section where
  tokens : List Token
  kind : Section.Kind
  /-- Where the tokens come from, if that is known. -/
  origin : Option String
  /-- Whether the section is for its own module only. -/
  isPrivate : Bool
deriving DecidableEq, Repr

/-- A change to some fields of a section. A field that is `none` stays as it is. -/
structure Section.Update where
  kind : Option Section.Kind
  origin : Option String
  isPrivate : Option Bool
  /-- Tokens to put in front of those of the section. -/
  lead : Option (List Token)
deriving DecidableEq, Repr

namespace Section

/-- A section of unknown origin. It is private if one of its first two tokens says so. -/
def ofTokens (tokens : List Token) (kind : Section.Kind) : Section :=
  ⟨tokens, kind, none, (tokens.take 2).any (·.spells "private")⟩

/-- The section with the fields that the update gives. -/
def update (s : Section) (u : Section.Update) : Section where
  tokens := u.lead.getD [] ++ s.tokens
  kind := u.kind.getD s.kind
  origin := u.origin.or s.origin
  isPrivate := u.isPrivate.getD s.isPrivate

/-- The text of the section. -/
def text (s : Section) : String :=
  Token.textOf s.tokens

end Section

end VbaModules

import VbaModules.Section.Basic
import VbaModules.Text.Line
import VbaModules.Text.Quoted
import VbaModules.Text.White

/-!
# Listings

How tokens and sections are shown, one on a line.
-/

namespace VbaModules

/-- The word for a directive in listings. -/
def Directive.label : Directive → String
  | opening => "If"
  | elseIf => "ElseIf"
  | otherwise => "Else"
  | closing => "EndIf"

/-- The word for a kind in listings. -/
def Token.Kind.label : Token.Kind → String
  | name => "Name"
  | reserved => "Reserved"
  | string => "String"
  | comment => "Comment"
  | blank => "Space"
  | lineBreak => "Newline"
  | conditional directive => "Conditional(" ++ directive.label ++ ")"
  | unknown => "Unknown"

/-- The line for a token: its kind and its text in quotes. -/
def Token.listing (t : Token) : String :=
  t.kind.label ++ " " ++ Text.quote t.text

/-- The text with spaces after it, up to the given length. -/
def padRight (length : Nat) (text : String) : String :=
  text ++ String.ofList (List.replicate (length - text.length) ' ')

/-- The line for a section: its kind, whether it is private, and the first line of its text. -/
def Section.listing (s : Section) : String :=
  let visibility := if s.isPrivate then "private" else "-"
  padRight 10 s.kind.label ++ " " ++ padRight 8 visibility ++ " " ++
    (Text.lines (Text.trim s.text)).headD ""

end VbaModules

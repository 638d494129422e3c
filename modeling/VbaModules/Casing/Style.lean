import VbaModules.Text.Ascii
import VbaModules.Text.Lower
import VbaModules.Text.Upper

/-!
# Case styles

A case style says how the first letter of a name is written.
-/

namespace VbaModules

/-- How names are written. -/
inductive NameStyle where
  /-- With a small first letter: `myValue`. -/
  | camel
  /-- With a capital first letter: `MyValue`. -/
  | pascal
deriving DecidableEq, Repr

/-- A text that names no case style. -/
structure UnknownStyle where
  text : String
deriving DecidableEq, Repr

/-- The wording of the error. -/
def UnknownStyle.message (e : UnknownStyle) : String :=
  "unsupported case style `" ++ e.text ++ "`, expected `camel` or `pascal`"

namespace NameStyle

/-- The name of a style. -/
def label : NameStyle → String
  | camel => "camel"
  | pascal => "pascal"

/-- The style with the given name, in any letter case. -/
def parse (text : String) : Except UnknownStyle NameStyle :=
  if Text.sameWord text "camel" then .ok camel
  else if Text.sameWord text "pascal" then .ok pascal
  else .error ⟨text⟩

/-- A name in the given style. In camel case a name all in capitals is kept as it is, unless it is
a single letter. -/
def apply (style : NameStyle) (name : String) : String :=
  match style, name.toList with
  | _, [] => ""
  | camel, [_] => Text.lower name
  | camel, first :: rest =>
    if Text.upper name = name then name else String.ofList (Text.lowerChar first ++ rest)
  | pascal, first :: rest => String.ofList (Text.upperChar first ++ rest)

end NameStyle

end VbaModules

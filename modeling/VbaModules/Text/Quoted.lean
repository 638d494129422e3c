import VbaModules.Text.Printable

/-!
# Quoted text

Texts are shown between double quotes. The quote, the backslash and the common controls have short
escapes, every other character that cannot be shown on its own is given by its code point, and an
apostrophe needs no escape.
-/

namespace VbaModules.Text

/-- The hexadecimal digits of a number, small and without padding. -/
def hexDigits (n : Nat) : String :=
  String.ofList (Nat.toDigits 16 n)

/-- A character as it appears inside a quoted text. -/
def escapeChar (c : Char) : String :=
  if c.toNat = 0 then "\\0"
  else if c = '\t' then "\\t"
  else if c = '\r' then "\\r"
  else if c = '\n' then "\\n"
  else if c = '"' then "\\\""
  else if c = '\\' then "\\\\"
  else if isPrintable c then c.toString
  else "\\u\x7b" ++ hexDigits c.toNat ++ "\x7d"

/-- The text between double quotes, with its characters escaped. -/
def quote (s : String) : String :=
  "\"" ++ String.join (s.toList.map escapeChar) ++ "\""

end VbaModules.Text

/-!
# White space

White space is the Unicode property of that name: the ASCII blanks and line breaks, the next-line
control, the no-break spaces, the typographic spaces and the two separators. The byte order mark
and the zero-width space do not belong to it.
-/

namespace VbaModules.Text

/-- The Unicode property `White_Space`. -/
def isWhite (c : Char) : Bool :=
  let n := c.toNat
  (0x09 ≤ n && n ≤ 0x0d) || n == 0x20 || n == 0x85 || n == 0xa0 || n == 0x1680 ||
    (0x2000 ≤ n && n ≤ 0x200a) || n == 0x2028 || n == 0x2029 || n == 0x202f || n == 0x205f ||
    n == 0x3000

/-- The text without the white space at its start. -/
def trimStart (s : String) : String :=
  String.ofList (s.toList.dropWhile isWhite)

/-- The text without the white space at its end. -/
def trimEnd (s : String) : String :=
  String.ofList (s.toList.reverse.dropWhile isWhite).reverse

/-- The text without the white space at either end. -/
def trim (s : String) : String :=
  trimEnd (trimStart s)

/-- The maximal runs of the text that hold no white space, in order. -/
def words (s : String) : List String :=
  ((s.toList.splitOnP isWhite).filter (!·.isEmpty)).map String.ofList

end VbaModules.Text

/-!
# Lines of a text

A line ends at a line feed, and a carriage return directly before that line feed belongs to the
line break. A carriage return anywhere else is an ordinary character of its line.
-/

namespace VbaModules.Text

/-- The characters of a terminated line, without the carriage return of its line break. -/
private def dropReturn (line : List Char) : List Char :=
  if line.getLast? = some '\r' then line.dropLast else line

/-- The lines of a text without their line breaks. An empty last line is no line. -/
def lines (s : String) : List String :=
  let pieces := s.toList.splitOnP (· == '\n')
  let last := pieces.getLast?.getD []
  let ended := pieces.dropLast.map dropReturn
  (if last.isEmpty then ended else ended ++ [last]).map String.ofList

/-- The text with every carriage return removed. -/
def withoutReturns (s : String) : String :=
  String.ofList (s.toList.filter (· != '\r'))

end VbaModules.Text

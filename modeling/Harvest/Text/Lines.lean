import Harvest.Text.Blank

/-!
# Lines

A line ends with a line feed, alone or after a carriage return, or with the text.
-/

namespace Harvest.Text

/-- A line that a line feed ended, without the carriage return before it. -/
def withoutReturn (line : List Char) : List Char :=
  if line.getLast? = some '\r' then line.dropLast else line

/-- The lines among pieces that line feeds divide; nothing after the last line feed is no line. -/
def linesOf : List (List Char) → List (List Char)
  | [] => []
  | [last] => if last.isEmpty then [] else [last]
  | line :: more => withoutReturn line :: linesOf more

def lines (text : String) : List String :=
  (linesOf (pieces (· = '\n') text.toList)).map String.ofList

end Harvest.Text

import DeadCode.Text.Blank

/-!
The lines of a text. A line ends at a line feed, and one carriage return before it belongs to the
ending; what follows the last line feed is a line only if it is not empty.
-/
namespace DeadCode.Text

/-- Drops one carriage return from the front of a reversed line. -/
def dropReturn : List Char → List Char
  | '\r' :: rest => rest
  | line => line

/-- Splits into lines; the characters already read of the current line come last to first. -/
def linesAfter : List Char → List Char → List (List Char)
  | [], [] => []
  | read, [] => [read.reverse]
  | read, '\n' :: rest => (dropReturn read).reverse :: linesAfter [] rest
  | read, c :: rest => linesAfter (c :: read) rest

def lines (text : List Char) : List (List Char) :=
  linesAfter [] text

/-- The first lines that are not blank, trimmed, at most a given number. -/
def writtenLines : Nat → List (List Char) → List (List Char)
  | 0, _ => []
  | _ + 1, [] => []
  | count + 1, line :: rest =>
    let text := trim line
    if text.isEmpty then writtenLines (count + 1) rest else text :: writtenLines count rest

end DeadCode.Text

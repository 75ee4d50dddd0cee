import DeadCode.Text.Affix
import DeadCode.Text.Blank
import DeadCode.Text.Bytes

/-!
Comment markers at the start of a line, and the counts of braces and parentheses in it.
-/
namespace DeadCode.Source
open DeadCode.Text

/-- Whether a line without its indent is a line comment, other than a documentation comment, or
opens a block comment. -/
def startsWithComment (text : List Char) : Bool :=
  (startsWith text "//" && !startsWith text "///") || startsWith text "/*"

def isDocComment (text : List Char) : Bool :=
  startsWith text "///" || startsWith text "/**"

def markerLength (text : List Char) : Nat :=
  if startsWith text "//" && !startsWith text "///" then (text.takeWhile (· == '/')).length
  else if startsWith text "/*" then 1 + ((text.drop 1).takeWhile (· == '*')).length
  else 0

/-- The text of a line after its indent and a comment marker, with the position where it starts. A
comment loses its closing marker too, if that ends the line. -/
def stripMarker (line : List Char) : List Char × Nat :=
  let lead := byteLength (indent line)
  let text := trimStart line
  let marker := markerLength text
  let body := text.drop marker
  if marker = 0 then (body, lead)
  else
    let inner := (stripTail? body "*/").getD body
    (trimStart inner, lead + marker + byteLength (indent inner))

def endsStatement (text : List Char) : Bool :=
  endsWith (trimEnd text) ";"

/-- A number as 32 bits hold it: from the upper end it goes round to the lower one. -/
def wrap32 (n : Int) : Int := n.bmod Int32.size

theorem wrap32_lt (n : Int) : wrap32 n < 0x80000000 := Int.bmod_lt (by decide)

theorem wrap32_eq_self {n : Int} (least : -0x80000000 ≤ n) (most : n < 0x80000000) : wrap32 n = n :=
  Int.bmod_eq_of_le least most

theorem wrap32_wrap32_add (a b : Int) : wrap32 (wrap32 a + b) = wrap32 (a + b) := Int.bmod_add_bmod

/-- The numbers of opening and closing braces of a line, those in comments and strings included. -/
def braceCounts (line : List Char) : Int × Int :=
  (wrap32 (line.count '{'), wrap32 (line.count '}'))

def parenBalance (text : List Char) : Int :=
  (text.count '(' : Int) - (text.count ')' : Int)

end DeadCode.Source

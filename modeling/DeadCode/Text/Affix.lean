/-!
What a text begins with, ends with and contains.
-/
namespace DeadCode.Text

def startsWith (text : List Char) (lead : String) : Bool :=
  lead.toList.isPrefixOf text

def endsWith (text : List Char) (tail : String) : Bool :=
  tail.toList.isSuffixOf text

def contains (text piece : List Char) : Bool :=
  match text with
  | [] => piece.isEmpty
  | _ :: rest => piece.isPrefixOf text || contains rest piece

theorem contains_iff_infix {text piece : List Char} : contains text piece ↔ piece <:+: text := by
  induction text with
  | nil => rw [contains, List.isEmpty_iff, List.infix_nil]
  | cons c text ih => rw [contains, Bool.or_eq_true, List.isPrefixOf_iff_prefix, ih, List.infix_cons_iff]

def stripLead? (text : List Char) (lead : String) : Option (List Char) :=
  if startsWith text lead then some (text.drop lead.toList.length) else none

def stripTail? (text : List Char) (tail : String) : Option (List Char) :=
  if endsWith text tail then some (text.take (text.length - tail.toList.length)) else none

/-- The pieces of a text between the characters that a test accepts. -/
def splitAt (separates : Char → Bool) : List Char → List (List Char)
  | [] => [[]]
  | c :: rest =>
    if separates c then [] :: splitAt separates rest
    else
      match splitAt separates rest with
      | first :: others => (c :: first) :: others
      | [] => [[c]]

/-- The pieces between separating characters that are not empty. -/
def fields (separates : Char → Bool) (text : List Char) : List (List Char) :=
  (splitAt separates text).filter (!·.isEmpty)

/-- The pieces of a text between the places where a separator stands, found from the left, given how
many characters of a separator are still to be passed and the piece read so far, last to first. -/
def splitOnAfter (separator : List Char) : Nat → List Char → List Char → List (List Char)
  | _, read, [] => [read.reverse]
  | skip + 1, read, _ :: rest => splitOnAfter separator skip read rest
  | 0, read, c :: rest =>
    if separator.isPrefixOf (c :: rest) then
      read.reverse :: splitOnAfter separator (separator.length - 1) [] rest
    else splitOnAfter separator 0 (c :: read) rest

/-- The pieces of a text between the places where a separator stands, found from the left. -/
def splitOn (text : List Char) (separator : String) : List (List Char) :=
  if separator.isEmpty then [text] else splitOnAfter separator.toList 0 [] text

/-- Drops a piece from the front of a text as often as it stands there. -/
def dropLeads (lead text : List Char) : List Char :=
  if _fits : lead.length ≠ 0 ∧ lead.isPrefixOf text then dropLeads lead (text.drop lead.length)
  else text
termination_by text.length
decreasing_by
  have shorter : lead.length ≤ text.length := (List.isPrefixOf_iff_prefix.mp _fits.2).length_le
  simp only [List.length_drop]
  omega

/-- Drops a piece from the end of a text as often as it stands there. -/
def dropTails (tail text : List Char) : List Char :=
  (dropLeads tail.reverse text.reverse).reverse

end DeadCode.Text

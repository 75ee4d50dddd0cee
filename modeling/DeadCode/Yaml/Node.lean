import DeadCode.Yaml.Tag

/-!
The nodes of a YAML document, and what they stand for. Scalars are kept as they are written, and only
their reader decides whether they are texts, numbers or something else.
-/
namespace DeadCode.Yaml

inductive Node where
  | scalar (style : Style) (tag : Option Tag) (text : String)
  | sequence (items : List Node)
  | mapping (entries : List (Node × Node))
  /-- Stands for another node of the document, by its number. -/
  | reference (number : Nat)
deriving Inhabited

namespace Node

/-- Whether a node stands for an empty collection although nothing is written. -/
private def isBlank : Node → Bool
  | scalar .plain _ text => text.isEmpty
  | _ => false

def items? : Node → Option (List Node)
  | sequence items => some items
  | node => if node.isBlank then some [] else none

/-- Any scalar is a text. -/
def text? : Node → Option String
  | scalar _ _ text => some text
  | _ => none

def entries? : Node → Option (List (Node × Node))
  | mapping entries => some entries
  | node => if node.isBlank then some [] else none

/-- The text of a scalar that may stand for a value of a tag. -/
private def valueText? (tag : Tag) : Node → Option String
  | scalar .plain _ text => some text
  | scalar .literal given text => if given = some tag then some text else none
  | _ => none

def flag? (node : Node) : Option Bool := do
  let text ← node.valueText? (.core "bool")
  if ["true", "True", "TRUE"].contains text then some true
  else if ["false", "False", "FALSE"].contains text then some false
  else none

private def isNullText (text : String) : Bool :=
  ["null", "Null", "NULL", "~"].contains text

/-- What a node that may be null holds; `none` if it is tagged as null and is not. -/
def optional? (node : Node) : Option (Option Node) :=
  match node with
  | scalar .plain none text =>
    some (if text.isEmpty || isNullText text then none else some node)
  | scalar .plain (some tag) text =>
    if tag == .core "null" then if isNullText text then some none else none else some (some node)
  | _ => some (some node)

private def numberOf? (base : Nat) (digits : List Char) : Option Nat :=
  if digits.isEmpty then none
  else
    digits.foldlM (fun value c => do
      let digit ← digitValue? c
      if digit < base then some (value * base + digit) else none) 0

/-- A number of 64 bits without a sign: decimal without leading zeros, or with a base in front. -/
def count? (node : Node) : Option Nat := do
  let text := (← node.valueText? (.core "int")).toList
  let digits := if text.head? == some '+' then text.drop 1 else text
  let value ←
    match digits with
    | '0' :: 'x' :: rest => numberOf? 16 rest
    | '0' :: 'o' :: rest => numberOf? 8 rest
    | '0' :: 'b' :: rest => numberOf? 2 rest
    | '0' :: _ :: _ => none
    | _ => numberOf? 10 digits
  if value < UInt64.size then some value else none

/-- A word out of a fixed set; a tag may stand for it. -/
def word? : Node → Option String
  | scalar style tag text =>
    match tag.bind Tag.localName? with
    | some name => if style == .plain && (text.isEmpty || isNullText text) then some name else none
    | none => some text
  | _ => none

end Node
end DeadCode.Yaml

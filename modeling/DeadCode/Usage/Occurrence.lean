import DeadCode.Text.Affix
import DeadCode.Text.Bytes
import DeadCode.Text.Word

/-!
A name in a line of code, with the text on both sides of it.
-/
namespace DeadCode.Usage
open DeadCode.Text

structure Occurrence where
  before : List Char
  name : List Char
  after : List Char
deriving DecidableEq, Repr

/-- The name before the dot that a text ends with, unless the dot is part of a cascade or of a
null-aware access. -/
def qualifierOf? (before : List Char) : Option String := do
  let head ← stripTail? before "."
  if endsWith head "." || endsWith head "?" then none
  else
    let name := (head.reverse.takeWhile isNameChar).reverse
    if name.isEmpty then none else some (String.ofList name)

namespace Occurrence

def ofLine (line : List Char) (start stop : Nat) : Occurrence :=
  ⟨takeBytes start line, slice line start stop, dropBytes stop line⟩

def qualifier? (occurrence : Occurrence) : Option String :=
  qualifierOf? occurrence.before

/-- The qualifier in front of the owner that the occurrence is written with: `none` if that owner
does not stand right before it. -/
def ownerQualifier? (occurrence : Occurrence) (owner : String) : Option (Option String) := do
  let head ← stripTail? occurrence.before "."
  let front ← stripTail? head owner
  if front.getLast?.any isNameChar then none else some (qualifierOf? front)

/-- The occurrences of a text in a line, from the left and without overlaps, with their positions. -/
private def allAfter (name read : List Char) (skip : Nat) : List Char → List (Nat × Occurrence)
  | [] => []
  | c :: rest =>
    match skip with
    | skip + 1 => allAfter name (c :: read) skip rest
    | 0 =>
      if name.isPrefixOf (c :: rest) then
        let before := read.reverse
        (byteLength before, ⟨before, name, (c :: rest).drop name.length⟩) ::
          allAfter name (c :: read) (name.length - 1) rest
      else allAfter name (c :: read) 0 rest

def all (name line : List Char) : List (Nat × Occurrence) :=
  if name.isEmpty then [] else allAfter name [] 0 line

end Occurrence
end DeadCode.Usage

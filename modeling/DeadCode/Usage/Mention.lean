import DeadCode.Source.Declaration
import DeadCode.Source.Line
import DeadCode.Usage.Shape

/-!
The places in a file where known names are used. Definitions, directives, comments and literals do not
count. A variable that is declared with a class as its type and initialized on the same line by that
class counts once.
-/
namespace DeadCode.Usage
open DeadCode.Text DeadCode.Text.Pattern DeadCode.Source

inductive Role where
  | type
  | function
deriving DecidableEq, Repr

structure Mention where
  role : Role
  name : String
  /-- The line, counted from one. -/
  line : Nat
  occurrence : Occurrence
deriving DecidableEq, Repr

structure Names where
  classes : List String
  functions : List String
deriving DecidableEq, Repr

/-- The names in a line of code that no name character stands before, with their positions. -/
def namesIn (code : List Char) : List (Nat × Occurrence) :=
  ((name.findAll code).map fun found =>
    (found.start, Occurrence.ofLine code found.start found.finish.offset)).filter
      fun (_, occurrence) => !occurrence.before.getLast?.any isNameChar

def functionUse (names : Names) (line : Nat) (name : String) (occurrence : Occurrence) :
    List Mention :=
  if names.functions.contains name && (FunctionShape.of? occurrence).isSome then
    [⟨.function, name, line, occurrence⟩]
  else []

/-- The uses among the occurrences of a line, given the names whose next occurrence is already
counted. -/
def mentionsFrom (names : Names) (line : Nat) (withFunctions : Bool) :
    List String → List Occurrence → List Mention
  | _, [] => []
  | consumed, occurrence :: rest =>
    let name := String.ofList occurrence.name
    let asFunction := if withFunctions then functionUse names line name occurrence else []
    if names.classes.contains name then
      if consumed.contains name then mentionsFrom names line withFunctions (consumed.erase name) rest
      else
        match ClassShape.of? occurrence with
        | none => asFunction ++ mentionsFrom names line withFunctions consumed rest
        | some shape =>
          let consumed := if shape = .declarationWithInitializer then name :: consumed else consumed
          ⟨.type, name, line, occurrence⟩ ::
            (asFunction ++ mentionsFrom names line withFunctions consumed rest)
    else asFunction ++ mentionsFrom names line withFunctions consumed rest

def mentionsOfLine (names : Names) (sites : List (Nat × Nat)) (code : List Char) (line : Nat) :
    List Mention :=
  if isBlankText code || isDirectiveLine code then []
  else
    let occurrences := (namesIn code).filterMap fun (start, occurrence) =>
      if sites.contains (line, start) then none else some occurrence
    mentionsFrom names line (!isDeclarationLine code) [] occurrences

def mentions (names : Names) (sites : List (Nat × Nat)) (clean : List SanitizedLine) :
    List Mention :=
  (clean.zipIdx 1).flatMap fun (line, number) => mentionsOfLine names sites line.code number

end DeadCode.Usage

import DeadCode.Library.Access
import DeadCode.Source.FileScan
import DeadCode.Usage.Mention

/-!
Counting the uses of the symbols of a table. A use in the file that declares a symbol counts as
internal, except on the line of the declaration; a use in another file counts only if the symbol can
be written there in that way.
-/
namespace DeadCode.Usage
open DeadCode.Text DeadCode.Source

structure Target where
  key : SymbolKey
  file : Path
  role : Role
  /-- The name that is looked for: of a named constructor the part after the dot. -/
  lookup : String
  /-- The class in front of the name of a named constructor. -/
  ownerPrefix : Option String
  /-- The name that has to be visible: of a constructor that of its class. -/
  visibleName : String
  /-- Whether it is reached through a class or an instance. -/
  isMember : Bool
  declarationLine : Nat
deriving DecidableEq, Repr

namespace Target

def ofClass (key : SymbolKey) (entity : ClassEntity) : Target where
  key := key
  file := entity.file
  role := .type
  lookup := entity.name
  ownerPrefix := none
  visibleName := entity.name
  isMember := false
  declarationLine := entity.line

def ofFunction (key : SymbolKey) (entity : FunctionEntity) : Target :=
  let chars := entity.name.toList
  let isDotted := chars.contains '.'
  { key
    file := entity.file
    role := .function
    lookup := if isDotted then String.ofList ((chars.dropWhile (· != '.')).drop 1) else entity.name
    ownerPrefix := if isDotted then some (String.ofList (chars.takeWhile (· != '.'))) else none
    visibleName := if entity.isConstructor then entity.owner else entity.name
    isMember := entity.isMethod && !entity.isConstructor
    declarationLine := entity.line }

/-- The symbols of a table that can be used: those that are neither commented out nor without a
name. -/
def ofTable (table : SymbolTable) : List Target :=
  (table.classes.entries.filter fun (_, entity) => !entity.commentedOut && !entity.isAnonymous).map
      (fun (key, entity) => ofClass key entity) ++
    (table.functions.entries.filter fun (_, entity) => !entity.commentedOut).map
      fun (key, entity) => ofFunction key entity

/-- The qualifier with which a use of the looked-for name refers to this symbol: `none` if it does
not, because a named constructor needs its class in front. -/
def qualifier? (target : Target) (occurrence : Occurrence) : Option (Option String) :=
  match target.ownerPrefix with
  | some owner => occurrence.ownerQualifier? owner
  | none => some occurrence.qualifier?

def access (target : Target) (visibility : Visibility) (user : Path) : Access :=
  if target.isMember then visibility.resolveMember target.visibleName target.file user
  else visibility.resolve target.visibleName target.file user

def uses (target : Target) (found : List Mention) : List (Nat × Option String) :=
  found.filterMap fun mention =>
    if mention.role = target.role && mention.name == target.lookup then
      (target.qualifier? mention.occurrence).map fun qualifier => (mention.line, qualifier)
    else none

def countIn (target : Target) (visibility : Visibility) (user : Path) (found : List Mention) :
    ExactCounts :=
  match target.uses found with
  | [] => .none
  | uses =>
    if target.file.same user then
      ExactCounts.none.addInternal (uses.countP fun (line, _) => line != target.declarationLine)
    else
      let access := target.access visibility user
      ExactCounts.none.addExternal user (uses.countP fun (_, qualifier) => access.allows qualifier)

end Target

def mergeCounts (counts : SortedMap SymbolKey ExactCounts) (key : SymbolKey) (more : ExactCounts) :
    SortedMap SymbolKey ExactCounts :=
  counts.alter key fun old => (old.getD .none).merge more

/-- Adds what was counted in a file to the counts of a symbol; counts of nothing leave no entry. -/
def addCounts (counts : SortedMap SymbolKey ExactCounts) (key : SymbolKey) (more : ExactCounts) :
    SortedMap SymbolKey ExactCounts :=
  if more.isEmpty then counts else mergeCounts counts key more

structure Counter where
  targets : List Target
  names : Names
  visibility : Visibility
deriving DecidableEq, Repr

namespace Counter

def ofVisibility (visibility : Visibility) : Counter :=
  let targets := Target.ofTable visibility.table
  let namesOf (role : Role) := (targets.filter (·.role == role)).map (·.lookup)
  ⟨targets, ⟨namesOf .type, namesOf .function⟩, visibility⟩

def countFile (counter : Counter) (counts : SortedMap SymbolKey ExactCounts) (file : Path)
    (contents : List Char) : SortedMap SymbolKey ExactCounts :=
  let sites := (scan true file contents).sites
  let found := mentions counter.names sites (sanitize (lines contents))
  counter.targets.foldl
    (fun counts target => addCounts counts target.key (target.countIn counter.visibility file found))
    counts

end Counter
end DeadCode.Usage

import DeadCode.Directive.Basic
import DeadCode.Symbol.Entity

/-!
The declarations and directives of a project. Tables of parts of a project can be merged.
-/
namespace DeadCode

structure SymbolTable where
  classes : SortedMap SymbolKey ClassEntity
  functions : SortedMap SymbolKey FunctionEntity
  /-- Every export, in the order of the files. -/
  exports : List UriDirective
  directives : SortedMap Path FileDirectives
deriving DecidableEq, Repr

namespace SymbolTable

def empty : SymbolTable := ⟨.empty, .empty, [], .empty⟩

instance : Inhabited SymbolTable := ⟨empty⟩

def insertClass (table : SymbolTable) (entity : ClassEntity) : SymbolTable :=
  { table with classes := table.classes.insert entity.key entity }

def insertFunction (table : SymbolTable) (entity : FunctionEntity) : SymbolTable :=
  { table with functions := table.functions.insert entity.key entity }

def insertDirectives (table : SymbolTable) (directives : FileDirectives) : SymbolTable :=
  { table with
    exports := table.exports ++ directives.exports
    directives := table.directives.insert directives.file directives }

/-- Adds the directives of a file from another table; its exports count only for a new file. -/
def mergeDirectives (table : SymbolTable) (entry : Path × FileDirectives) : SymbolTable :=
  { table with
    exports :=
      if table.directives.contains entry.1 then table.exports
      else table.exports ++ entry.2.exports
    directives := table.directives.insert entry.1 entry.2 }

/-- Adds another table, whose entries win over those that are there. -/
def merge (table other : SymbolTable) : SymbolTable :=
  other.directives.entries.foldl mergeDirectives
    { table with
      classes := table.classes.insertAll other.classes
      functions := table.functions.insertAll other.functions }

def isEmpty (table : SymbolTable) : Bool :=
  table.classes.isEmpty && table.functions.isEmpty

/-- Gives each symbol its counts. A count goes to one symbol only: where a class and a function have
the same key, the class takes it. -/
def applyUsage (table : SymbolTable) (counts : SortedMap SymbolKey UsageCounts) : SymbolTable :=
  let countOf (key : SymbolKey) := (counts.get? key).getD .none
  { table with
    classes := table.classes.mapWithKey fun key entity => { entity with usage := countOf key }
    functions := table.functions.mapWithKey fun key entity =>
      { entity with usage := if table.classes.contains key then .none else countOf key } }

end SymbolTable
end DeadCode

import DeadCode.Symbol.Table

/-!
Which library a file belongs to. A library may be spread over part files; the file that lists a part
is its library, and a part that no file lists says itself where it belongs.
-/
namespace DeadCode

structure LibraryIndex where
  libraries : SortedMap Path Path
deriving DecidableEq, Repr

namespace LibraryIndex

/-- The smallest file that declares a library name. -/
def fileOfName? (table : SymbolTable) (name : String) : Option Path :=
  (table.directives.entries.find? fun entry => entry.2.libraryName == some name).map (·.1)

/-- The library that a part names itself. -/
def ownLibrary? (table : SymbolTable) (directives : FileDirectives) : Option Path :=
  match directives.partOf with
  | some (.uri _ resolved) => resolved
  | some (.library name) => fileOfName? table name
  | none => none

/-- The parts that files list, for a part listed twice with the smaller file. -/
def listed (table : SymbolTable) : SortedMap Path Path :=
  table.directives.entries.foldl
    (fun known (file, directives) =>
      directives.parts.foldl (fun known part => known.insertIfNew part file) known)
    .empty

def ofTable (table : SymbolTable) : LibraryIndex :=
  ⟨table.directives.entries.foldl
    (fun known (file, directives) =>
      match ownLibrary? table directives with
      | some library => known.insertIfNew file library
      | none => known)
    (listed table)⟩

/-- The library file that a file belongs to: itself unless it is a part. -/
def libraryOf (index : LibraryIndex) (file : Path) : Path :=
  (index.libraries.get? file).getD file

def sameLibrary (index : LibraryIndex) (a b : Path) : Bool :=
  a.same b || (index.libraryOf a).same (index.libraryOf b)

end LibraryIndex
end DeadCode

import DeadCode.Library.Exports
import DeadCode.Library.Membership
import DeadCode.Package

/-!
Under which names a symbol of one file can be written in another. Private names stay in their
library; other names need an import of the file, or of one that exports it.
-/
namespace DeadCode
open DeadCode.Text

/-- The names of types that need no import. -/
def builtinTypes : List String :=
  ["int", "double", "num", "bool", "String", "Object", "dynamic", "void", "Null", "Never",
   "List", "Map", "Set", "Iterable", "Iterator", "Future", "Stream", "Function", "Type",
   "Symbol", "Record", "Enum", "Comparable", "Pattern", "RegExp", "Match", "Uri", "BigInt",
   "Duration", "DateTime", "Error", "Exception", "StackTrace", "Sink", "StringBuffer"]

structure Access where
  /-- By its name alone. -/
  bare : Bool
  /-- After one of these import names, in ascending order. -/
  prefixes : List String
deriving DecidableEq, Repr

namespace Access

def denied : Access := ⟨false, []⟩

def byName : Access := ⟨true, []⟩

def isVisible (access : Access) : Bool :=
  access.bare || !access.prefixes.isEmpty

/-- Whether the symbol can be written after a qualifier. A qualifier that is no import name is taken
for a receiver. -/
def allows (access : Access) (qualifier : Option String) : Bool :=
  qualifier.any access.prefixes.contains || access.bare

def addName (name : String) : List String → List String
  | [] => [name]
  | other :: rest =>
    match compare name other with
    | .lt => name :: other :: rest
    | .eq => other :: rest
    | .gt => other :: addName name rest

def through (access : Access) (directive : UriDirective) : Access :=
  match directive.asName with
  | some name => { access with prefixes := addName name access.prefixes }
  | none => { access with bare := true }

end Access

structure Visibility where
  table : SymbolTable
  layout : PackageLayout
  libraries : LibraryIndex
  exports : ExportGraph
deriving DecidableEq, Repr

namespace Visibility

def ofTable (table : SymbolTable) (layout : PackageLayout) : Visibility :=
  ⟨table, layout, .ofTable table, .ofTable table⟩

def isPrivate (symbol : String) : Bool := symbol.toList.head? == some '_'

def isCore (file : Path) : Bool :=
  startsWith file.text.toList "dart:" || contains file.text.toList "dart-sdk/lib/".toList

def importsIn (table : SymbolTable) (file : Path) : List UriDirective :=
  ((table.directives.get? file).map (·.imports)).getD []

/-- The imports that hold in a file: its own, and those of its library if it is a part. -/
def importsOf (visibility : Visibility) (file : Path) : List UriDirective :=
  let library := visibility.libraries.libraryOf file
  importsIn visibility.table file ++
    if library.same file then [] else importsIn visibility.table library

/-- Whether a directive points at a file, by its path or by its address. -/
def targets (visibility : Visibility) (directive : UriDirective) (file : Path) : Bool :=
  directive.resolved.any (·.same file) ||
    (startsWith directive.uri.toList "package:" &&
      visibility.layout.uriOf? file == some directive.uri)

/-- Whether an import leads to the file that defines a symbol or to its library, also through
exports. -/
def leadsTo (visibility : Visibility) (symbol : String) (definedIn : Path)
    (directive : UriDirective) : Bool :=
  let library := visibility.libraries.libraryOf definedIn
  visibility.targets directive definedIn || visibility.targets directive library ||
    directive.resolved.any fun start =>
      visibility.exports.reaches symbol start library ||
        visibility.exports.reaches symbol start definedIn

/-- How a symbol defined in one file can be written in another. -/
def resolve (visibility : Visibility) (symbol : String) (definedIn user : Path) : Access :=
  if visibility.libraries.sameLibrary definedIn user then .byName
  else if isPrivate symbol then .denied
  else
    let imports := (visibility.importsOf user).filter fun directive =>
      directive.permits symbol && visibility.leadsTo symbol definedIn directive
    let access := imports.foldl Access.through .denied
    if access.isVisible then access
    else if isCore definedIn || builtinTypes.contains symbol then .byName
    else .denied

/-- How a member of a class can be written: it is reached through its class or an instance, so only
privacy matters. -/
def resolveMember (visibility : Visibility) (symbol : String) (definedIn user : Path) : Access :=
  if isPrivate symbol && !visibility.libraries.sameLibrary definedIn user then .denied else .byName

def isAccessible (visibility : Visibility) (symbol : String) (definedIn user : Path) : Bool :=
  (visibility.resolve symbol definedIn user).isVisible

end Visibility
end DeadCode

import DeadCode.Path

/-!
The directives at the head of a source file: imports, exports, parts and the library's name.
-/
namespace DeadCode

structure UriDirective where
  /-- The address as it is written. -/
  uri : String
  /-- The file of the project that the address stands for. -/
  resolved : Option Path
  /-- The name under which an import is referred to. -/
  asName : Option String
  shown : List String
  hidden : List String
  isExport : Bool
  /-- The file that holds the directive. -/
  source : Path
deriving DecidableEq, Repr

namespace UriDirective

/-- Neither shows nor hides names. -/
def isWildcard (directive : UriDirective) : Bool :=
  directive.shown.isEmpty && directive.hidden.isEmpty

/-- Whether a name comes through: it is shown, unless nothing is, and it is not hidden. -/
def permits (directive : UriDirective) (symbol : String) : Bool :=
  (directive.shown.isEmpty || directive.shown.contains symbol) && !directive.hidden.contains symbol

end UriDirective

/-- What a part says about the library it belongs to. -/
inductive PartOf where
  | uri (text : String) (resolved : Option Path)
  | library (name : String)
deriving DecidableEq, Repr

structure FileDirectives where
  file : Path
  libraryName : Option String
  imports : List UriDirective
  exports : List UriDirective
  parts : List Path
  partOf : Option PartOf
deriving DecidableEq, Repr

namespace FileDirectives

def empty (file : Path) : FileDirectives := ⟨file, none, [], [], [], none⟩

/-- The files of the project that a file exports. -/
def exportTargets (directives : FileDirectives) : List Path :=
  directives.exports.filterMap (·.resolved)

end FileDirectives
end DeadCode

import DeadCode.Symbol.Key
import DeadCode.Symbol.Usage

/-!
Declarations found in source files: class-like ones, and functions with methods and constructors.
-/
namespace DeadCode

/-- The kinds of class-like declarations. -/
inductive Kind where
  | plainClass
  | abstractClass
  | sealedClass
  | baseClass
  | finalClass
  | interfaceClass
  | stateClass
  | statelessWidget
  | statefulWidget
  | enumeration
  | mixin
  | mixinClass
  | extension
  | typeAlias
deriving DecidableEq, Repr

namespace Kind

/-- Every kind, with the name it has in reports and the words for it. -/
def names : List (Kind × String × String) :=
  [(plainClass, "class", "class"), (abstractClass, "abstract_class", "abstract class"),
   (sealedClass, "sealed_class", "sealed class"), (baseClass, "base_class", "base class"),
   (finalClass, "final_class", "final class"), (interfaceClass, "interface_class", "interface class"),
   (stateClass, "state_class", "state class"), (statelessWidget, "stateless_widget", "stateless widget"),
   (statefulWidget, "stateful_widget", "stateful widget"), (enumeration, "enum", "enum"),
   (mixin, "mixin", "mixin"), (mixinClass, "mixin_class", "mixin class"),
   (extension, "extension", "extension"), (typeAlias, "typedef", "typedef")]

/-- The name of a kind in one word. -/
def tag (kind : Kind) : String :=
  ((names.find? (·.1 == kind)).map (·.2.1)).getD ""

/-- The words for a kind in messages. -/
def displayName (kind : Kind) : String :=
  ((names.find? (·.1 == kind)).map (·.2.2)).getD ""

def ofTag? (tag : String) : Option Kind :=
  (names.find? (·.2.1 == tag)).map (·.1)

def isWidget : Kind → Bool
  | statelessWidget | statefulWidget => true
  | _ => false

/-- Whether a declaration of this kind has a body in braces. -/
def hasBody : Kind → Bool
  | typeAlias => false
  | _ => true

end Kind

/-- A class, enum, mixin, extension or typedef. -/
structure ClassEntity where
  name : String
  file : Path
  kind : Kind
  /-- Counted from one. -/
  line : Nat
  /-- The position of the name in its line. -/
  offset : Nat
  entryPoint : Bool
  commentedOut : Bool
  usage : UsageCounts
deriving DecidableEq, Repr

namespace ClassEntity

def key (entity : ClassEntity) : SymbolKey where
  file := entity.file
  owner := ""
  name := entity.name
  position := if entity.commentedOut then some (entity.line, entity.offset) else none

/-- An extension without a name; nothing can refer to it. -/
def isAnonymous (entity : ClassEntity) : Bool :=
  entity.name.toList.head? == some '<'

end ClassEntity

structure FunctionEntity where
  name : String
  /-- The enclosing class, empty at top level. -/
  owner : String
  file : Path
  line : Nat
  offset : Nat
  entryPoint : Bool
  commentedOut : Bool
  /-- Whether the name is one that the framework calls by itself. -/
  framework : Bool
  emptyBody : Bool
  isConstructor : Bool
  isStatic : Bool
  usage : UsageCounts
deriving DecidableEq, Repr

namespace FunctionEntity

def key (entity : FunctionEntity) : SymbolKey where
  file := entity.file
  owner := entity.owner
  name := entity.name
  position := if entity.commentedOut then some (entity.line, entity.offset) else none

def isMethod (entity : FunctionEntity) : Bool := !entity.owner.isEmpty

end FunctionEntity
end DeadCode

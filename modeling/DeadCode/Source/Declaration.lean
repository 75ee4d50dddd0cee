import DeadCode.Text.Affix
import DeadCode.Text.Pattern
import DeadCode.Symbol.Entity
import DeadCode.Source.Comment
import DeadCode.Source.Words

/-!
Class-like declarations at the start of a line. A line is tried against the forms of a declaration
in a fixed order, and the first form that can be read decides, also when the name it gives is a
reserved word and there is no declaration after all. A comment marker in front of the declaration
is read over, so that commented-out declarations are found too.
-/
namespace DeadCode.Source
open DeadCode.Text DeadCode.Text.Pattern

/-- The forms that a declaration can have, in the order in which they are tried. -/
inductive Form where
  | mixinClass
  | plainClass
  | enumeration
  | mixin
  | extensionType
  | namedExtension
  | anonymousExtension
  | typeAlias
deriving DecidableEq, Repr

namespace Form

def all : List Form :=
  [mixinClass, plainClass, enumeration, mixin, extensionType, namedExtension, anonymousExtension,
   typeAlias]

/-- The indent of a line, with a comment marker if it has one. -/
def lead : Pattern :=
  blanks ++ optional ((lit "/" ++ (several (among "/") <|> several (among "*"))) ++ blanks)

def modifiers (words : List String) : Pattern := many (oneOf words ++ gap)

def declared : Pattern := capture "name" name

/-- Type parameters up to the first closing bracket before a brace. -/
def typeParameters : Pattern := lit "<" ++ manyReluctant (except "\x7b") ++ lit ">"

def flatParameters : Pattern := lit "<" ++ many (except ">") ++ lit ">"

def pattern : Form → Pattern
  | mixinClass =>
    lead ++ modifiers ["abstract", "base", "final", "interface", "sealed"] ++ lit "mixin" ++ gap ++
      lit "class" ++ gap ++ declared
  | plainClass =>
    lead ++ capture "modifiers" (modifiers ["abstract", "sealed", "base", "final", "interface",
      "macro", "augment"]) ++ lit "class" ++ gap ++ declared ++ optional (blanks ++ typeParameters) ++
      optional (gap ++ lit "extends" ++ gap ++
        capture "base" (several (char fun c => isWordChar c || c == '$' || c == '.')) ++ blanks ++
        optional typeParameters)
  | enumeration => lead ++ lit "enum" ++ gap ++ declared
  | mixin => lead ++ optional (lit "base" ++ gap) ++ lit "mixin" ++ gap ++ declared
  | extensionType =>
    lead ++ lit "extension" ++ gap ++ lit "type" ++ gap ++ optional (lit "const" ++ gap) ++ declared
  | namedExtension =>
    lead ++ lit "extension" ++ gap ++ declared ++ optional (blanks ++ flatParameters) ++ gap ++
      lit "on" ++ wordEdge
  | anonymousExtension =>
    lead ++ lit "extension" ++ blanks ++ optional (flatParameters ++ blanks) ++ lit "on" ++ gap ++
      capture "name" (severalReluctant (char fun c => isWordChar c || "$.<>?, ".toList.contains c)) ++
      blanks ++ (lit "\x7b" <|> textEnd)
  | typeAlias =>
    lead ++ lit "typedef" ++ gap ++
      optional (several (char fun c => isWordChar c || isBlank c || "$<>?,".toList.contains c) ++ gap) ++
      declared ++ blanks ++ optional (flatParameters ++ blanks) ++ among "=("

def first? (line : List Char) : Option (Form × Reading) :=
  all.findSome? fun form => (form.pattern.atStart? line).map fun reading => (form, reading)

end Form

structure Declaration where
  name : String
  kind : Kind
  /-- The position of the name in the line. -/
  offset : Nat
  /-- Whether no body in braces follows. -/
  bodyless : Bool
deriving DecidableEq, Repr

private def statelessBases : List String :=
  ["StatelessWidget", "ConsumerWidget", "HookWidget", "HookConsumerWidget"]

private def statefulBases : List String :=
  ["StatefulWidget", "ConsumerStatefulWidget", "StatefulHookWidget"]

private def stateBases : List String := ["State", "ConsumerState"]

/-- Whether a name is that of the state of a widget: it ends in `State`, and either is private or
begins with the name of a widget declared before. -/
private def namesState (widgets : List String) (name : String) : Bool :=
  match stripTail? name.toList "State" with
  | none => false
  | some stem =>
    let stem := stem.dropWhile (· == '_')
    !stem.isEmpty && (name.toList.head? == some '_' || widgets.contains (String.ofList stem))

/-- The kind of a class. What it extends decides first, then its name, then its modifiers. -/
def classKind (widgets : List String) (name : String) (modifiers : List Char)
    (base : Option String) : Kind :=
  let isOneOf (bases : List String) := base.any bases.contains
  let has (word : String) := (fields isBlank modifiers).contains word.toList
  if isOneOf statelessBases then .statelessWidget
  else if isOneOf statefulBases then .statefulWidget
  else if isOneOf stateBases then .stateClass
  else if namesState widgets name then .stateClass
  else if has "sealed" then .sealedClass
  else if has "abstract" then .abstractClass
  else if has "interface" then .interfaceClass
  else if has "final" then .finalClass
  else if has "base" then .baseClass
  else .plainClass

def Form.kind (widgets : List String) (name : String) (reading : Reading) : Form → Kind
  | mixinClass => .mixinClass
  | plainClass =>
    classKind widgets name (reading.captured "modifiers")
      ((reading.capture? "base").map fun base => String.ofList base.text)
  | enumeration => .enumeration
  | mixin => .mixin
  | extensionType | namedExtension | anonymousExtension => .extension
  | typeAlias => .typeAlias

def Form.declaration? (widgets : List String) (line : List Char) (form : Form)
    (reading : Reading) : Option Declaration := do
  let found ← reading.capture? "name"
  let name := String.ofList found.text
  if form = anonymousExtension then
    some ⟨"<extension on " ++ String.ofList (trim found.text) ++ ">", .extension, found.start,
      endsStatement (stripMarker line).1⟩
  else if isReserved name then none
  else
    let kind := form.kind widgets name reading
    some ⟨name, kind, found.start, !kind.hasBody || endsStatement (stripMarker line).1⟩

def declaration? (widgets : List String) (line : List Char) : Option Declaration := do
  let (form, reading) ← Form.first? line
  form.declaration? widgets line reading

def directiveLine : Pattern :=
  blanks ++ oneOf ["import", "export", "part", "library"] ++ wordEdge

def isDirectiveLine (line : List Char) : Bool := directiveLine.opens line

def isDeclarationLine (line : List Char) : Bool :=
  isDirectiveLine line || (Form.first? line).isSome

end DeadCode.Source

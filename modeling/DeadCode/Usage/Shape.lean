import DeadCode.Text.Pattern
import DeadCode.Usage.Occurrence

/-!
The shapes in which a name is used. A shape is a condition on the text before and after the name; the
shapes are tried in order and the first one that fits decides. A name in no shape is not used.
-/
namespace DeadCode.Usage
open DeadCode.Text DeadCode.Text.Pattern

/-- The ways to use the name of a class, in the order in which they are tried. -/
inductive ClassShape where
  /-- A variable with an initializer; the class named again in the initializer is the same use. -/
  | declarationWithInitializer
  | constructorCall
  | typeDeclaration
  | staticAccess
  | cast
  | genericArgument
  | parameterOrReturnType
  | inheritance
  | annotation
  | typeLiteral
deriving DecidableEq, Repr

inductive FunctionShape where
  | directCall
  | methodCall
  | nullAwareCall
  | cascadeCall
  | callbackAssignment
  | namedArgumentCallback
  | listenerRegistration
  | callbackArgument
  | tearOff
  | returnedReference
  | listElement
deriving DecidableEq, Repr

/-- Type arguments that may hold neither a semicolon nor an equals sign nor parentheses. -/
private def typeArguments : Pattern := lit "<" ++ many (except ";=()") ++ lit ">"

/-- Type arguments that may hold neither a semicolon nor parentheses. -/
private def looseArguments : Pattern := lit "<" ++ many (except ";()") ++ lit ">"

private def typedName : Pattern :=
  optional typeArguments ++ optional (lit "?") ++ gap ++ name

private def blanksToEnd : Pattern := blanks ++ textEnd

def initializedVariable : Pattern := typedName ++ blanks ++ lit "=" ++ except "=>"

def callAfter : Pattern :=
  blanks ++ optional (lit "<" ++ manyReluctant (except ";()") ++ lit ">" ++ blanks) ++ lit "("

def namedConstructorAfter : Pattern := lit "." ++ name ++ callAfter

def typedNameAfter : Pattern := typedName ++ blanks ++ (among ";,)=\x7d" <|> textEnd)

def memberAfter : Pattern := optional (lit "?") ++ lit "." ++ char isNameStart

def castBefore : Pattern :=
  wordEdge ++ ((lit "is" ++ optional (lit "!")) <|> lit "as") ++ gap ++ textEnd

def genericBefore : Pattern := among "<," ++ blanksToEnd

def genericAfter : Pattern :=
  optional (lit "?") ++ blanks ++ optional (looseArguments ++ blanks) ++
    optional (lit "?" ++ blanks) ++ among ",>"

def returnTypeAfter : Pattern :=
  optional typeArguments ++ optional (lit "?") ++ gap ++ optional (lit "get" ++ gap) ++ name ++
    blanks ++ optional (looseArguments ++ blanks) ++ among "(\x7b="

def parameterBefore : Pattern :=
  among "(\x7b[," ++ blanks ++ many (oneOf ["required", "final", "covariant"] ++ gap) ++ textEnd

def inheritanceBefore : Pattern :=
  wordEdge ++ oneOf ["extends", "with", "implements", "on"] ++ gap ++
    many (several (char fun c => isWordChar c || "$.<>?".toList.contains c) ++ blanks ++ lit "," ++
      blanks) ++ textEnd

def typeLiteralBefore : Pattern :=
  (among "=(,[:" <|> lit "=>" <|> (wordEdge ++ lit "return")) ++ blanksToEnd

def terminatorAfter : Pattern := blanks ++ (among ";,)]\x7d" <|> textEnd)

def declarationBefore : Pattern :=
  wordEdge ++ oneOf ["class", "enum", "mixin", "extension", "typedef", "type"] ++ gap ++ textEnd

namespace ClassShape

def all : List ClassShape :=
  [declarationWithInitializer, constructorCall, typeDeclaration, staticAccess, cast,
   genericArgument, parameterOrReturnType, inheritance, annotation, typeLiteral]

def fits (use : Occurrence) : ClassShape → Bool
  | declarationWithInitializer => initializedVariable.opens use.after
  | constructorCall => callAfter.opens use.after || namedConstructorAfter.opens use.after
  | typeDeclaration => typedNameAfter.opens use.after
  | staticAccess => memberAfter.opens use.after
  | cast => castBefore.occurs use.before
  | genericArgument => genericBefore.occurs use.before && genericAfter.opens use.after
  | parameterOrReturnType =>
    returnTypeAfter.opens use.after || (parameterBefore.occurs use.before && typedName.opens use.after)
  | inheritance => inheritanceBefore.occurs use.before
  | annotation => endsWith use.before "@"
  | typeLiteral => typeLiteralBefore.occurs use.before && terminatorAfter.opens use.after

def tag : ClassShape → String
  | declarationWithInitializer => "declaration_with_initializer"
  | constructorCall => "constructor_call"
  | typeDeclaration => "type_declaration"
  | staticAccess => "static_access"
  | cast => "cast"
  | genericArgument => "generic_argument"
  | parameterOrReturnType => "parameter_or_return_type"
  | inheritance => "inheritance"
  | annotation => "annotation"
  | typeLiteral => "type_literal"

/-- The shape in which a class is used; another declaration of the name is no use. -/
def of? (use : Occurrence) : Option ClassShape :=
  if declarationBefore.occurs use.before then none else all.find? (fits use)

end ClassShape

def listenerBefore : Pattern :=
  lit "." ++ oneOf ["listen", "addListener", "removeListener", "addStatusListener",
    "removeStatusListener", "then", "catchError", "whenComplete", "onError", "handleError",
    "forEach", "map", "where", "any", "every", "fold", "reduce", "sort", "expand", "firstWhere",
    "lastWhere", "takeWhile", "skipWhile", "addPostFrameCallback", "scheduleFrameCallback",
    "periodic", "run", "compute", "microtask", "delayed"] ++ blanks ++ lit "(" ++
    optional (many (except "()") ++ lit ",") ++ blanksToEnd

def assignmentBefore : Pattern := (textStart <|> except "=!<>") ++ lit "=" ++ blanksToEnd

def namedArgumentBefore : Pattern := name ++ blanks ++ lit ":" ++ blanksToEnd

def argumentBefore : Pattern := among "(," ++ blanksToEnd

def listBefore : Pattern := lit "[" ++ blanksToEnd

def returnBefore : Pattern :=
  ((wordEdge ++ lit "return") <|> (wordEdge ++ lit "throw") <|> lit "=>" <|> lit "??") ++ blanksToEnd

def variableAfter : Pattern :=
  blanks ++ ((lit "=" ++ except "=>") <|> among ";,)\x7d" <|> textEnd)

def typeWordBefore : Pattern :=
  (textStart <|> char fun c => isBlank c || "(,\x7b<".toList.contains c) ++
    ((name ++ optional looseArguments ++ optional (lit "?")) <|> oneOf ["var", "final", "const", "late"]) ++
    gap ++ textEnd

def fieldFormalBefore : Pattern := wordEdge ++ oneOf ["this", "super"] ++ lit "." ++ textEnd

/-- Words that may stand before a name without declaring it. -/
def expressionWords : List String :=
  ["return", "throw", "await", "yield", "else", "in", "is", "as", "case", "new", "const", "do"]

def declaresVariable (use : Occurrence) : Bool :=
  let lastWord := String.ofList ((trimEnd use.before).reverse.takeWhile isNameChar).reverse
  fieldFormalBefore.occurs use.before ||
    (variableAfter.opens use.after && !expressionWords.contains lastWord &&
      typeWordBefore.occurs use.before)

namespace FunctionShape

def all : List FunctionShape :=
  [directCall, methodCall, nullAwareCall, cascadeCall, callbackAssignment, namedArgumentCallback,
   listenerRegistration, callbackArgument, tearOff, returnedReference, listElement]

def fits (use : Occurrence) : FunctionShape → Bool
  | directCall => !endsWith use.before "." && callAfter.opens use.after
  | methodCall =>
    endsWith use.before "." && !endsWith use.before "?." && !endsWith use.before ".." &&
      callAfter.opens use.after
  | nullAwareCall => endsWith use.before "?." && callAfter.opens use.after
  | cascadeCall => endsWith use.before ".."
  | callbackAssignment => assignmentBefore.occurs use.before && terminatorAfter.opens use.after
  | namedArgumentCallback => namedArgumentBefore.occurs use.before && terminatorAfter.opens use.after
  | listenerRegistration => listenerBefore.occurs use.before && terminatorAfter.opens use.after
  | callbackArgument => argumentBefore.occurs use.before && terminatorAfter.opens use.after
  | tearOff => endsWith use.before "." && terminatorAfter.opens use.after
  | returnedReference => returnBefore.occurs use.before && terminatorAfter.opens use.after
  | listElement => listBefore.occurs use.before && terminatorAfter.opens use.after

def tag : FunctionShape → String
  | directCall => "direct_call"
  | methodCall => "method_call"
  | nullAwareCall => "null_aware_call"
  | cascadeCall => "cascade_call"
  | callbackAssignment => "callback_assignment"
  | namedArgumentCallback => "named_argument_callback"
  | listenerRegistration => "listener_registration"
  | callbackArgument => "callback_argument"
  | tearOff => "tear_off"
  | returnedReference => "returned_reference"
  | listElement => "list_element"

/-- The shape in which a function is used; the declaration of a variable of that name is no use. -/
def of? (use : Occurrence) : Option FunctionShape :=
  if declaresVariable use then none else all.find? (fits use)

end FunctionShape
end DeadCode.Usage

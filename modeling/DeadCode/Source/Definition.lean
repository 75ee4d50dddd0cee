import DeadCode.Source.Declaration
import DeadCode.Text.Lines

/-!
Definitions of functions, methods and constructors. A line counts as one only if a name with a
parameter list is followed by what opens a body, and nothing around it looks like a call, a closure
or an argument list. The signature may go on over the next lines.
-/
namespace DeadCode.Source
open DeadCode.Text DeadCode.Text.Pattern

structure Definition where
  /-- A named constructor has its class in front. -/
  name : String
  /-- The position of the name in the line. -/
  offset : Nat
  isConstructor : Bool
  isStatic : Bool
  emptyBody : Bool
  isOverride : Bool
deriving DecidableEq, Repr

structure LineContext where
  enclosing : Option String
  /-- Class-like names declared before in the file. -/
  known : List String
  /-- Parentheses left open by the lines before. -/
  parenDepth : Int
deriving DecidableEq, Repr

/-- What follows the parameters of a definition. -/
inductive Opener where
  | brace
  | arrow
  | semicolon
  /-- The initializers of a constructor. -/
  | initializers
deriving DecidableEq, Repr

/-- The lines that a signature may take in addition to its first one. -/
def continuationLimit : Nat := 7

/-- The lines above a definition that are searched for an override annotation. -/
def overrideReach : Nat := 3

def callShape : Pattern :=
  capture "name" name ++ blanks ++
    optional (lit "<" ++ manyReluctant (except "()") ++ lit ">" ++ blanks) ++ lit "("

def annotation : Pattern :=
  lit "@" ++ several (char fun c => isWordChar c || c == '$' || c == '.') ++
    optional (lit "(" ++ many (except "()") ++ lit ")") ++ blanks

def closureBody : Pattern :=
  lit ")" ++ blanks ++ optional ((lit "async" ++ optional (lit "*")) <|> lit "sync*") ++ blanks ++
    lit "\x7b"

def isTypeLike (name : List Char) : Bool :=
  (name.dropWhile (· == '_')).head?.any Char.isUpper

def trailingName? (text : List Char) : Option (List Char) :=
  let name := (text.reverse.takeWhile isNameChar).reverse
  if name.isEmpty then none else some name

def dropAnnotations : Nat → List Char → List Char
  | 0, text => text
  | bound + 1, text =>
    match annotation.atStart? text with
    | some reading => dropAnnotations bound reading.rest
    | none => text

def withoutAnnotations (line : List Char) : List Char :=
  dropAnnotations line.length (trimStart line)

def rejectedByLeader (enclosing : Option String) (text : List Char) : Bool :=
  let text := text.dropWhile fun c => c == '}' || isBlank c
  match (fields (!isNameChar ·) text).map String.ofList with
  | [] => true
  | first :: others =>
    if !startsWith text first then true
    else if statementLeaders.contains first then true
    else if first == "const" then others.head? != enclosing
    else if first == "static" then others.head?.any ["final", "const", "late", "var"].contains
    else false

private def continues (joined next : List Char) : Bool :=
  let tail := trimEnd joined
  let next := trimStart next
  decide (parenBalance joined > 0) ||
    ((endsWith tail ")" || endsWith tail "async") &&
      ["\x7b", "=>", ":", "async", "sync"].any (startsWith next))

/-- Joins the lines of a signature, and gives the lines after it. -/
def stitch : Nat → List Char → List (List Char) → List Char × List (List Char)
  | 0, joined, below => (joined, below)
  | _ + 1, joined, [] => (joined, [])
  | bound + 1, joined, next :: below =>
    if continues joined next then stitch bound (joined ++ ' ' :: trim next) below
    else (joined, next :: below)

/-- Splits a text after an opening parenthesis at the one that closes it, given how many more are
open. -/
def splitAtClose : Nat → List Char → Option (List Char × List Char)
  | _, [] => none
  | 0, ')' :: rest => some ([], rest)
  | depth + 1, ')' :: rest => (splitAtClose depth rest).map fun (a, b) => (')' :: a, b)
  | depth, '(' :: rest => (splitAtClose (depth + 1) rest).map fun (a, b) => ('(' :: a, b)
  | depth, c :: rest => (splitAtClose depth rest).map fun (a, b) => (c :: a, b)

def dropBodyModifier (text : List Char) : List Char :=
  match ["async*", "async", "sync*"].findSome? (stripLead? text) with
  | some rest => trimStart rest
  | none => text

def opener? (isConstructor : Bool) (text : List Char) : Option Opener :=
  if startsWith text "\x7b" then some .brace
  else if startsWith text "=>" then some .arrow
  else if startsWith text ";" then some .semicolon
  else if startsWith text ":" && isConstructor then some .initializers
  else none

def fitsBefore (isConstructor : Bool) (name : List Char) (opener : Opener) (before : List Char) :
    Bool :=
  match before.getLast? with
  | none => isConstructor || !(isTypeLike name || opener == .semicolon)
  | some c =>
    if isNameChar c then
      let word := String.ofList ((trailingName? before).getD [])
      !callLeaders.contains word && (isConstructor || !(["const", "factory"].contains word))
    else if c == '>' then !endsWith before "=>"
    else c == '?' || c == ']'

def nextLineCloses (below : List (List Char)) : Bool :=
  (writtenLines 1 below).any (startsWith · "\x7d")

def hasEmptyBody (opener : Opener) (after : List Char) (below : List (List Char)) : Bool :=
  match opener with
  | .brace =>
    let rest := trimStart (after.drop 1)
    startsWith rest "\x7d" || (rest.isEmpty && nextLineCloses below)
  | .arrow => startsWith (trimStart (after.drop 2)) ";"
  | .initializers => endsWith (trimEnd after) "\x7b\x7d"
  | .semicolon => false

/-- The owner of a named constructor, if the text before a name ends with one: `none` when there is
no dot, `some none` when what stands before the dot rules out a definition. -/
def constructorOwner (enclosing : Option String) (before : List Char) :
    Option (Option (List Char)) :=
  if endsWith before "." && !endsWith before ".." then
    some ((trailingName? before.dropLast).filter fun owner => some (String.ofList owner) == enclosing)
  else none

/-- A definition read from a signature, before its line has been looked at. -/
structure Signature where
  name : String
  /-- The position in the joined text. -/
  offset : Nat
  isConstructor : Bool
  emptyBody : Bool
deriving DecidableEq, Repr

def judge (context : LineContext) (joined : List Char) (below : List (List Char))
    (start : Nat) (name afterOpen : List Char) : Option Signature := do
  let before := trimEnd (takeBytes start joined)
  if parenBalance before > 0 then none
  else
    let (parameters, rest) ← splitAtClose 0 afterOpen
    if contains parameters "=>".toList || closureBody.occurs parameters then none
    else
      let plain := String.ofList name
      let (defined, offset, isNamed) ←
        match constructorOwner context.enclosing before with
        | none => some (plain, start, false)
        | some none => none
        | some (some owner) =>
          some (String.ofList owner ++ "." ++ plain,
            byteLength before.dropLast - byteLength owner, true)
      let isConstructor := isNamed || some plain == context.enclosing
      if !isConstructor && context.known.contains plain then none
      else
        let after := dropBodyModifier (trimStart rest)
        let opener ← opener? isConstructor after
        if fitsBefore isConstructor name opener (trimEnd (takeBytes offset joined)) then
          some ⟨defined, offset, isConstructor, hasEmptyBody opener after below⟩
        else none

/-- Whether the annotation lines right above a line, nearest first, hold an override. -/
def precededByOverride (above : List (List Char)) : Bool :=
  ((writtenLines overrideReach above).takeWhile (startsWith · "@")).any (startsWith · "@override")

def firstSignature? (context : LineContext) (joined : List Char)
    (below : List (List Char)) (limit : Nat) : Option Signature :=
  ((callShape.findAll joined).takeWhile (·.start < limit)).findSome? fun found =>
    let name := found.finish.captured "name"
    if isReserved (String.ofList name) then none
    else judge context joined below found.start name found.finish.rest

/-- The definition on a line, given the lines above it, nearest first, and those below. The lines are
code with literals blanked, or commented-out code without its marker. -/
def definitionAt? (context : LineContext) (above : List (List Char)) (line : List Char)
    (below : List (List Char)) : Option Definition := do
  if context.parenDepth > 0 then none
  else
    let whole := withoutAnnotations line
    let text := trimEnd whole
    if text.isEmpty || !text.contains '(' || isDeclarationLine text then none
    else if rejectedByLeader context.enclosing text then none
    else
      let (joined, after) := stitch continuationLimit text below
      let found ← firstSignature? context joined after (byteLength text)
      some {
        name := found.name
        offset := byteLength line - byteLength whole + found.offset
        isConstructor := found.isConstructor
        isStatic := startsWith text "static "
        emptyBody := found.emptyBody
        isOverride := contains line "@override".toList || precededByOverride above }

def definition? (context : LineContext) (lines : List (List Char)) (index : Nat) :
    Option Definition :=
  match lines.drop index with
  | [] => none
  | line :: below => definitionAt? context (lines.take index).reverse line below

end DeadCode.Source

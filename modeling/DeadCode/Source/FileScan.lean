import DeadCode.Text.Lines
import DeadCode.Source.Line
import DeadCode.Source.Definition
import DeadCode.Source.Scope

/-!
What one source file declares. The lines are gone through once, with the declarations around each
line kept in mind; a line gives a class-like declaration, or else possibly a definition.
-/
namespace DeadCode.Source
open DeadCode.Text DeadCode.Text.Pattern

structure FileScan where
  classes : List ClassEntity
  functions : List FunctionEntity
  /-- Line and offset of every declared name, those of overrides included. -/
  sites : List (Nat × Nat)
deriving DecidableEq, Repr

structure SourceLine where
  /-- Counted from one. -/
  number : Nat
  raw : List Char
  clean : SanitizedLine
  /-- Whether the line stands in a comment. -/
  commented : Bool
  /-- The code to look for definitions in: that of the line, or what its comment says. -/
  text : List Char
  /-- The position of that code in the line. -/
  base : Nat
deriving DecidableEq, Repr

def SourceLine.ofClean (number : Nat) (raw : List Char) (clean : SanitizedLine) : SourceLine :=
  let commented := startsWithComment (trimStart raw) ||
    (!isBlankText raw && clean.isCommentAt (byteLength (indent raw)))
  if commented then
    let (text, base) := stripMarker raw
    ⟨number, raw, clean, true, text, base⟩
  else ⟨number, raw, clean, false, clean.code, 0⟩

def sourceLines (raw : List (List Char)) : List SourceLine :=
  ((raw.zip (sanitize raw)).zipIdx 1).map fun ((line, clean), number) => .ofClean number line clean

/-- An annotation that keeps a declaration although nothing in the sources refers to it. -/
def entryPragma : Pattern :=
  lit "@pragma(" ++ blanks ++ among "'\"" ++
    oneOf ["vm:entry-point", "vm:external-name", "vm:prefer-inline", "vm:never-inline",
      "vm:exact-result-type", "vm:non-nullable-by-default", "flutter:keep-to-string",
      "flutter:keep-to-string-in-subtypes"] ++ among "'\""

def classPragmaReach : Nat := 5

def functionPragmaReach : Nat := 3

/-- Whether a line, or one of the annotation and comment lines right above it, nearest first, has an
entry annotation. -/
def hasEntryPragma (reach : Nat) (above : List (List Char)) (line : List Char) : Bool :=
  let isLead (text : List Char) := ["@", "//", "/*", "*"].any (startsWith text)
  entryPragma.occurs line ||
    ((writtenLines reach above).takeWhile isLead).any entryPragma.occurs

/-- Whether a position stands in a string literal: the line and its code differ there, and not
because of a comment. -/
def insideString (line : SourceLine) (offset : Nat) : Bool :=
  !line.clean.isCommentAt offset && charAt? line.raw offset != charAt? line.clean.code offset

/-- The declaration on a line, and whether it is read from the code with comments blanked. The line
itself is tried first, which finds declarations that are commented out; the code finds those behind
a comment that is closed again. -/
def lineDeclaration? (widgets : List String) (line : SourceLine) : Option (Declaration × Bool) :=
  if isDocComment (trim line.raw) then none
  else
    match (declaration? widgets line.raw).filter (!insideString line ·.offset) with
    | some found => some (found, false)
    | none => (declaration? widgets line.clean.code).map fun found => (found, true)

structure ScanState where
  scope : Scope
  /-- Parentheses left open in live code. -/
  parenDepth : Int
  known : List String
  widgets : List String
  /-- What was found, the latest first. -/
  found : FileScan
deriving DecidableEq, Repr

def ScanState.initial : ScanState := ⟨.outside, 0, [], [], ⟨[], [], []⟩⟩

def ScanState.declare (state : ScanState) (file : Path) (above : List SourceLine)
    (line : SourceLine) (decl : Declaration) (fromCode : Bool) : ScanState :=
  let scope := state.scope.abandon
  let commentedOut :=
    if fromCode then scope.commentedOut
    else line.commented || line.clean.isCommentAt decl.offset || scope.commentedOut
  let (opens, closes) := braceCounts line.raw
  let entity : ClassEntity := {
    name := decl.name, file, kind := decl.kind, line := line.number, offset := decl.offset
    entryPoint := hasEntryPragma classPragmaReach (above.map (·.raw)) line.raw
    commentedOut, usage := .none }
  { scope :=
      if decl.bodyless then scope.passLine opens closes true
      else scope.enter decl.name decl.kind commentedOut opens closes
    parenDepth := state.parenDepth
    known := decl.name :: state.known
    widgets := if decl.kind.isWidget then decl.name :: state.widgets else state.widgets
    found := { state.found with
      classes := entity :: state.found.classes
      sites := (line.number, decl.offset) :: state.found.sites } }

/-- Takes in a definition. Overrides in live code are the framework's business and leave only their
sites. -/
def FileScan.define (found : FileScan) (scope : Scope) (file : Path) (above : List SourceLine)
    (line : SourceLine) (definition : Definition) : FileScan :=
  let offset := line.base + definition.offset
  let ownerPart := definition.name.toList.takeWhile (· != '.')
  let sites :=
    if definition.name.toList.contains '.' then
      (line.number, offset + byteLength ownerPart + 1) :: (line.number, offset) :: found.sites
    else (line.number, offset) :: found.sites
  let commentedOut := line.commented || line.clean.isCommentAt offset || scope.commentedOut
  if definition.isOverride && !commentedOut then { found with sites }
  else
    let owner := scope.enclosing?.getD ""
    let entity : FunctionEntity := {
      name := definition.name, owner, file, line := line.number, offset
      entryPoint := (owner.isEmpty && definition.name == "main") ||
        hasEntryPragma functionPragmaReach (above.map (·.raw)) line.raw
      commentedOut
      framework := isFrameworkMethod definition.name
      emptyBody := definition.emptyBody
      isConstructor := definition.isConstructor
      isStatic := definition.isStatic
      usage := .none }
    { found with functions := entity :: found.functions, sites }

def ScanState.pass (state : ScanState) (withFunctions : Bool) (file : Path)
    (above : List SourceLine) (line : SourceLine) (below : List SourceLine) : ScanState :=
  let context : LineContext := {
    enclosing := state.scope.enclosing?
    known := state.known
    parenDepth := if line.commented then 0 else state.parenDepth }
  let definition :=
    if withFunctions && !isDocComment (trim line.raw) then
      definitionAt? context (above.map (·.text)) line.text (below.map (·.text))
    else none
  let (opens, closes) := braceCounts line.raw
  { state with
    found := match definition with
      | some definition => state.found.define state.scope file above line definition
      | none => state.found
    parenDepth :=
      if line.commented then state.parenDepth
      else max (wrap32 (state.parenDepth + parenBalance line.clean.code)) 0
    scope := state.scope.passLine opens closes (endsStatement line.text) }

def ScanState.step (state : ScanState) (withFunctions : Bool) (file : Path)
    (above : List SourceLine) (line : SourceLine) (below : List SourceLine) : ScanState :=
  match lineDeclaration? state.widgets line with
  | some (decl, fromCode) => state.declare file above line decl fromCode
  | none => state.pass withFunctions file above line below

def scanLines (withFunctions : Bool) (file : Path) :
    ScanState → List SourceLine → List SourceLine → ScanState
  | state, _, [] => state
  | state, above, line :: below =>
    scanLines withFunctions file (state.step withFunctions file above line below) (line :: above) below

def scan (withFunctions : Bool) (file : Path) (contents : List Char) : FileScan :=
  let found := (scanLines withFunctions file .initial [] (sourceLines (lines contents))).found
  ⟨found.classes.reverse, found.functions.reverse, found.sites.reverse⟩

end DeadCode.Source

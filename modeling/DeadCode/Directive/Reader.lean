import DeadCode.Directive.Basic
import DeadCode.Package
import DeadCode.Text.Lines
import DeadCode.Text.Pattern
import DeadCode.Source.Declaration
import DeadCode.Source.Line

/-!
Reading the directives of a file. A directive starts on a line whose code begins with its word, and
goes on until a semicolon in code; comments are left out.
-/
namespace DeadCode.Directive
open DeadCode.Text DeadCode.Text.Pattern DeadCode.Source

/-- The most lines that a directive may take. -/
def lineLimit : Nat := 12

/-- A line up to the first comment in it. -/
def beforeComment (raw : List Char) (clean : SanitizedLine) : List Char :=
  match clean.inComment.findIdx? id with
  | some start => takeBytes start raw
  | none => raw

/-- Joins lines up to the one with a semicolon, and counts the lines to skip after the first. Where
the limit or the file ends the search, the line after the last one joined is skipped as well. -/
def joinStatement : Nat → List Char → Nat → List (List Char × SanitizedLine) → List Char × Nat
  | 0, statement, joined, _ => (statement, joined)
  | _ + 1, statement, joined, [] => (statement, joined)
  | bound + 1, statement, joined, (raw, clean) :: rest =>
    let text := beforeComment raw clean
    let statement := if statement.isEmpty then text else statement ++ ' ' :: text
    if clean.code.contains ';' then (statement, joined)
    else joinStatement bound statement (joined + 1) rest

def statementsFrom : Nat → List (List Char × SanitizedLine) → List (List Char)
  | _, [] => []
  | skip + 1, _ :: rest => statementsFrom skip rest
  | 0, line :: rest =>
    if isDirectiveLine line.2.code then
      let (statement, skip) := joinStatement lineLimit [] 0 (line :: rest)
      statement :: statementsFrom skip rest
    else statementsFrom 0 rest

def statements (contents : List Char) : List (List Char) :=
  let raw := lines contents
  statementsFrom 0 (raw.zip (sanitize raw))

def quoted : Pattern :=
  among "'\"" ++ capture "uri" (several (except "'\"")) ++ among "'\""

/-- A name made of several, with dots between. -/
def dotted : Pattern :=
  capture "name" (several (char fun c => isWordChar c || c == '$' || c == '.'))

def linkPattern : Pattern :=
  blanks ++ capture "word" (oneOf ["import", "export"]) ++ gap ++ quoted ++
    capture "clauses" (many (except ";")) ++ lit ";"

def partOfUriPattern : Pattern :=
  blanks ++ lit "part" ++ gap ++ lit "of" ++ gap ++ quoted ++ blanks ++ lit ";"

def partOfNamePattern : Pattern :=
  blanks ++ lit "part" ++ gap ++ lit "of" ++ gap ++ dotted ++ blanks ++ lit ";"

def partPattern : Pattern :=
  blanks ++ lit "part" ++ gap ++ quoted ++ blanks ++ lit ";"

def libraryPattern : Pattern :=
  blanks ++ lit "library" ++ gap ++ dotted ++ blanks ++ lit ";"

/-- An address that is taken instead under a condition. -/
def conditionPattern : Pattern :=
  wordEdge ++ lit "if" ++ blanks ++ lit "(" ++ many (except ")") ++ lit ")" ++ blanks ++
    among "'\"" ++ many (except "'\"") ++ among "'\""

/-- The pieces of a text, from a position on, outside of the places found in it. -/
def outside (text : List Char) : Nat → List Found → List Char
  | start, [] => dropBytes start text
  | start, found :: rest => slice text start found.start ++ outside text found.finish.offset rest

def withoutConditions (clauses : List Char) : List Char :=
  outside clauses 0 (conditionPattern.findAll clauses)

/-- The clause that the next name belongs to. -/
inductive Clause where
  | idle
  | renaming
  | showing
  | hiding
deriving DecidableEq, Repr

structure Clauses where
  asName : Option String
  shown : List String
  hidden : List String
  current : Clause
deriving DecidableEq, Repr

/-- Takes in a word. An alias takes one name, the lists take all that follow. -/
def Clauses.read (clauses : Clauses) (word : String) : Clauses :=
  match word with
  | "as" => { clauses with current := .renaming }
  | "show" => { clauses with current := .showing }
  | "hide" => { clauses with current := .hiding }
  | "deferred" => clauses
  | name =>
    match clauses.current with
    | .renaming => { clauses with asName := some name, current := .idle }
    | .showing => { clauses with shown := clauses.shown ++ [name] }
    | .hiding => { clauses with hidden := clauses.hidden ++ [name] }
    | .idle => clauses

def Clauses.ofText (text : List Char) : Clauses :=
  ((fields (fun c => isBlank c || c == ',') text).map String.ofList).foldl Clauses.read
    ⟨none, [], [], .idle⟩

/-- Takes in the text of a directive; texts of no known form are passed over. -/
def readStatement (layout : PackageLayout) (directives : FileDirectives) (statement : List Char) :
    FileDirectives :=
  let file := directives.file
  let uriIn (reading : Reading) := String.ofList (reading.captured "uri")
  let nameIn (reading : Reading) := String.ofList (reading.captured "name")
  if let some reading := linkPattern.atStart? statement then
    let uri := uriIn reading
    let clauses := Clauses.ofText (withoutConditions (reading.captured "clauses"))
    let isExport := reading.captured "word" == "export".toList
    let link : UriDirective :=
      ⟨uri, layout.resolve? uri file, clauses.asName, clauses.shown, clauses.hidden, isExport, file⟩
    if isExport then { directives with exports := directives.exports ++ [link] }
    else { directives with imports := directives.imports ++ [link] }
  else if let some reading := partOfUriPattern.atStart? statement then
    let uri := uriIn reading
    { directives with partOf := some (.uri uri (layout.resolve? uri file)) }
  else if let some reading := partOfNamePattern.atStart? statement then
    { directives with partOf := some (.library (nameIn reading)) }
  else if let some reading := partPattern.atStart? statement then
    { directives with parts := directives.parts ++ (layout.resolve? (uriIn reading) file).toList }
  else if let some reading := libraryPattern.atStart? statement then
    { directives with libraryName := some (nameIn reading) }
  else directives

def read (layout : PackageLayout) (file : Path) (contents : List Char) : FileDirectives :=
  (statements contents).foldl (readStatement layout) (.empty file)

end DeadCode.Directive

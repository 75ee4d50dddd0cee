import DeadCode.Text.Blank
import DeadCode.Text.Bytes
import DeadCode.Text.Word

/-!
Lines of Dart source with string literals and comments blanked out. Every character of a line gets
a mark; characters that are not code become as many blanks as they have bytes, so that positions in
the blanked line and in the line itself agree. Expressions interpolated into a string are code.
-/
namespace DeadCode.Source
open DeadCode.Text

/-- What a character belongs to. -/
inductive Mark where
  | code
  | literal
  | comment
deriving DecidableEq, Repr

/-- A construct that the reader of a line is inside of. -/
inductive Mode where
  | code
  /-- A block comment, with the number of comments that are open. -/
  | comment (depth : Nat)
  /-- A string literal; a triple quote lets it run over several lines, a raw one has neither escapes
  nor interpolations. -/
  | string (quote : Char) (triple raw : Bool)
  /-- An interpolated expression, with the number of braces open in it. -/
  | interpolation (depth : Nat)
deriving DecidableEq, Repr

/-- The constructs around a point of the source, the innermost first. -/
abbrev Nest := List Mode

namespace Nest

def outermost : Nest := [.code]

def mode (nest : Nest) : Mode := nest.head?.getD .code

def withMode (nest : Nest) (mode : Mode) : Nest := mode :: nest.tail

/-- At the end of a line the string literals end that may not go on. -/
def endLine (nest : Nest) : Nest :=
  let left := nest.dropWhile fun
    | .string _ triple _ => !triple
    | _ => false
  if left.isEmpty then outermost else left

end Nest

/-- What one character does: its own mark, the marks it settles for the characters after it, and the
constructs around what comes then. -/
structure Step where
  mark : Mark
  ahead : List Mark
  nest : Nest
deriving DecidableEq, Repr

/-- The marks of an opening or closing quote after its first character. -/
def quoteTail (triple : Bool) : List Mark :=
  if triple then [.literal, .literal] else []

def opensTriple (quote : Char) (rest : List Char) : Bool :=
  rest[0]? == some quote && rest[1]? == some quote

def isQuote (c : Char) : Bool := c == '\'' || c == '"'

/-- The effect of a character in code. An `r` right before a quote makes the literal raw, unless it
ends a longer name. -/
def codeStep (nest : Nest) (last : Option Char) (c : Char) (rest : List Char) : Step :=
  match c, rest with
  | '/', '/' :: _ => ⟨.comment, rest.map fun _ => .comment, nest⟩
  | '/', '*' :: _ => ⟨.comment, [.comment], .comment 1 :: nest⟩
  | _, _ =>
    if isQuote c then
      let triple := opensTriple c rest
      ⟨.literal, quoteTail triple, .string c triple false :: nest⟩
    else
      match c, rest with
      | 'r', quote :: after =>
        if isQuote quote && !last.any isNameChar then
          let triple := opensTriple quote after
          ⟨.literal, .literal :: quoteTail triple, .string quote triple true :: nest⟩
        else ⟨.code, [], nest⟩
      | _, _ =>
        match nest.mode, c with
        | .interpolation depth, '{' => ⟨.code, [], nest.withMode (.interpolation (depth + 1))⟩
        | .interpolation 0, '}' => ⟨.literal, [], nest.tail⟩
        | .interpolation (depth + 1), '}' => ⟨.code, [], nest.withMode (.interpolation depth)⟩
        | _, _ => ⟨.code, [], nest⟩

/-- The effect of a character in a block comment. Block comments nest. -/
def commentStep (nest : Nest) (depth : Nat) (c : Char) (rest : List Char) : Step :=
  match c, rest with
  | '/', '*' :: _ => ⟨.comment, [.comment], nest.withMode (.comment (depth + 1))⟩
  | '*', '/' :: _ =>
    ⟨.comment, [.comment], if depth ≤ 1 then nest.tail else nest.withMode (.comment (depth - 1))⟩
  | _, _ => ⟨.comment, [], nest⟩

def stringStep (nest : Nest) (quote : Char) (triple raw : Bool) (c : Char) (rest : List Char) :
    Step :=
  if !raw && c == '\\' then ⟨.literal, [.literal], nest⟩
  else if !raw && c == '$' && rest.head? == some '{' then
    ⟨.literal, [.literal], .interpolation 0 :: nest⟩
  else if c == quote && (!triple || opensTriple quote rest) then
    ⟨.literal, quoteTail triple, nest.tail⟩
  else ⟨.literal, [], nest⟩

def step (nest : Nest) (last : Option Char) (c : Char) (rest : List Char) : Step :=
  match nest.mode with
  | .code => codeStep nest last c rest
  | .interpolation _ => codeStep nest last c rest
  | .comment depth => commentStep nest depth c rest
  | .string quote triple raw => stringStep nest quote triple raw c rest

/-- The marks of a line, one for each character, and the constructs that are open after its last
character. The marks settled ahead are used up first. -/
def marksFrom : List Mark → Nest → Option Char → List Char → List Mark × Nest
  | _, nest, _, [] => ([], nest)
  | mark :: ahead, nest, _, c :: rest =>
    let (marks, after) := marksFrom ahead nest (some c) rest
    (mark :: marks, after)
  | [], nest, last, c :: rest =>
    let now := step nest last c rest
    let (marks, after) := marksFrom now.ahead now.nest (some c) rest
    (now.mark :: marks, after)

/-- What is visible of a character: itself if it is code, otherwise a blank for each of its bytes. -/
def visible (c : Char) : Mark → List Char
  | .code => [c]
  | _ => List.replicate c.utf8Size ' '

structure SanitizedLine where
  code : List Char
  /-- For each byte of the line, whether it is part of a comment. -/
  inComment : List Bool
deriving DecidableEq, Repr

def SanitizedLine.isCommentAt (line : SanitizedLine) (offset : Nat) : Bool :=
  (line.inComment[offset]?).getD false

def SanitizedLine.ofMarks (line : List Char) (marks : List Mark) : SanitizedLine where
  code := (line.zip marks).flatMap fun (c, mark) => visible c mark
  inComment := (line.zip marks).flatMap fun (c, mark) =>
    List.replicate c.utf8Size (mark == .comment)

/-- Blanks out one line, and gives the constructs around the start of the next one. -/
def sanitizeLine (nest : Nest) (line : List Char) : SanitizedLine × Nest :=
  let (marks, after) := marksFrom [] nest none line
  (.ofMarks line marks, after.endLine)

def sanitizeFrom : Nest → List (List Char) → List SanitizedLine
  | _, [] => []
  | nest, line :: rest =>
    let (clean, after) := sanitizeLine nest line
    clean :: sanitizeFrom after rest

def sanitize (lines : List (List Char)) : List SanitizedLine :=
  sanitizeFrom .outermost lines

/-- The maximal runs of bytes that are part of a comment, first position and the one after the
last. -/
def SanitizedLine.commentRuns (line : SanitizedLine) : List (Nat × Nat) :=
  let extend (runs : List (Nat × Nat)) (byte : Bool × Nat) : List (Nat × Nat) :=
    match byte, runs with
    | (false, _), _ => runs
    | (true, i), (start, stop) :: others =>
      if stop == i then (start, i + 1) :: others else (i, i + 1) :: runs
    | (true, i), [] => [(i, i + 1)]
  (line.inComment.zipIdx.foldl extend []).reverse

end DeadCode.Source

import DeadCode.Yaml.Cursor

/-!
The scalars of YAML: plain, quoted and block scalars. Lines of a scalar are folded: one line break
counts as a space, and of several the first one does not count.
-/
namespace DeadCode.Yaml

inductive Style where
  | plain
  | quoted
  | literal
  | folded
deriving DecidableEq, Repr

/-- White space inside a scalar. -/
structure Gap where
  /-- The white space before the first line break. -/
  spaces : List Char
  firstBreak : List Char
  moreBreaks : List Char
  /-- Whether a line has ended. -/
  isBroken : Bool
deriving DecidableEq, Repr

namespace Gap

def none : Gap := ⟨[], [], [], false⟩

def folded (gap : Gap) : List Char :=
  if !gap.isBroken then gap.spaces
  else if gap.firstBreak == ['\n'] then
    if gap.moreBreaks.isEmpty then [' '] else gap.moreBreaks
  else gap.firstBreak ++ gap.moreBreaks

/-- Reads white space, at most a given number of times; fails at a tab that stands before a column
at the start of a line. -/
private def readFrom? (column : Int) : Nat → Gap → Cursor → Option (Gap × Cursor)
  | 0, gap, cursor => some (gap, cursor)
  | bound + 1, gap, cursor =>
    match cursor.rest with
    | [] => some (gap, cursor)
    | c :: _ =>
      if isSpacing c then
        if gap.isBroken && (cursor.column : Int) < column && c == '\t' then Option.none
        else
          let gap := if gap.isBroken then gap else { gap with spaces := gap.spaces ++ [c] }
          readFrom? column bound gap (cursor.advance 1)
      else if isBreak c then
        let (text, cursor) := cursor.lineBreak
        let gap := if gap.isBroken then { gap with moreBreaks := gap.moreBreaks ++ text }
          else { gap with spaces := [], firstBreak := text, isBroken := true }
        readFrom? column bound gap cursor
      else some (gap, cursor)

def read? (column : Int) (gap : Gap) (cursor : Cursor) : Option (Gap × Cursor) :=
  readFrom? column cursor.rest.length gap cursor

end Gap

/-- The characters up to white space or the end of a plain scalar; fails at a colon that is followed
by a bracket or a comma inside brackets. -/
private def plainRun? (inFlow : Bool) : List Char → Option (List Char)
  | [] => some []
  | c :: rest =>
    if isSpacing c || isBreak c then some []
    else if inFlow && c == ':' && rest.head?.any (",?[]\x7b\x7d".toList.contains ·) then none
    else if c == ':' && atGap rest then some []
    else if inFlow && ",[]\x7b\x7d".toList.contains c then some []
    else (plainRun? inFlow rest).map (c :: ·)

private def plainFrom? (inFlow : Bool) (indent : Int) :
    Nat → List Char → Gap → Cursor → Option (List Char × Bool × Cursor)
  | 0, text, gap, cursor => some (text, gap.isBroken, cursor)
  | bound + 1, text, gap, cursor =>
    let stop : List Char × Bool × Cursor := (text, gap.isBroken, cursor)
    if cursor.column == 0 && atDocumentMark cursor.rest then some stop
    else if cursor.rest.head? == some '#' then some stop
    else do
      let run ← plainRun? inFlow cursor.rest
      let (text, gap) := if run.isEmpty then (text, gap) else (text ++ gap.folded ++ run, .none)
      let cursor := cursor.advance run.length
      if cursor.rest.isEmpty || !atGap cursor.rest then some (text, gap.isBroken, cursor)
      else
        let (gap, cursor) ← gap.read? indent cursor
        if !inFlow && (cursor.column : Int) < indent then some (text, gap.isBroken, cursor)
        else plainFrom? inFlow indent bound text gap cursor

/-- Reads a plain scalar that has to stand at some column or behind it; also says whether a line has
ended after it. -/
def readPlain? (inFlow : Bool) (indent : Int) (cursor : Cursor) :
    Option (List Char × Bool × Cursor) :=
  plainFrom? inFlow indent (cursor.rest.length + 1) [] .none cursor

def digitValue? (c : Char) : Option Nat :=
  if '0' ≤ c && c ≤ '9' then some (c.toNat - '0'.toNat)
  else if 'a' ≤ c && c ≤ 'f' then some (c.toNat - 'a'.toNat + 10)
  else if 'A' ≤ c && c ≤ 'F' then some (c.toNat - 'A'.toNat + 10)
  else none

private def codePoint? (digits : List Char) : Option Char := do
  let value ← digits.foldlM (fun value c => (digitValue? c).map (value * 16 + ·)) 0
  if h : value.isValidChar then some (Char.ofNatAux value h) else none

/-- The character of an escape, and the number of characters it takes after the backslash. -/
private def escape? : List Char → Option (Char × Nat)
  | [] => none
  | c :: rest =>
    let coded (count : Nat) : Option (Char × Nat) :=
      if count ≤ rest.length then (codePoint? (rest.take count)).map fun c => (c, count + 1)
      else none
    match c with
    | '0' => some ('\x00', 1)
    | 'a' => some ('\x07', 1)
    | 'b' => some ('\x08', 1)
    | 't' => some ('\t', 1)
    | '\t' => some ('\t', 1)
    | 'n' => some ('\n', 1)
    | 'v' => some ('\x0b', 1)
    | 'f' => some ('\x0c', 1)
    | 'r' => some ('\r', 1)
    | 'e' => some ('\x1b', 1)
    | ' ' => some (' ', 1)
    | '"' => some ('"', 1)
    | '/' => some ('/', 1)
    | '\\' => some ('\\', 1)
    | 'N' => some ('\u0085', 1)
    | '_' => some ('\u00a0', 1)
    | 'L' => some ('\u2028', 1)
    | 'P' => some ('\u2029', 1)
    | 'x' => coded 2
    | 'u' => coded 4
    | 'U' => coded 8
    | _ => none

private def quotedFrom? (quote : Char) : Nat → List Char → Cursor → Option (List Char × Cursor)
  | 0, _, _ => none
  | bound + 1, text, cursor =>
    if cursor.column == 0 && atDocumentMark cursor.rest then none
    else
      match cursor.rest with
      | [] => none
      | c :: rest =>
        if isSpacing c || isBreak c then do
          let (gap, cursor) ← Gap.none.read? 0 cursor
          quotedFrom? quote bound (text ++ gap.folded) cursor
        else if c == quote then
          if quote == '\'' && rest.head? == some quote then
            quotedFrom? quote bound (text ++ [c]) (cursor.advance 2)
          else some (text, cursor.advance 1)
        else if quote == '"' && c == '\\' then
          if rest.head?.any isBreak then do
            let (gap, cursor) ←
              Gap.read? 0 ⟨[], [], [], true⟩ (cursor.advance 1).lineBreak.2
            quotedFrom? quote bound (text ++ gap.folded) cursor
          else do
            let (escaped, count) ← escape? rest
            quotedFrom? quote bound (text ++ [escaped]) (cursor.advance (count + 1))
        else quotedFrom? quote bound (text ++ [c]) (cursor.advance 1)

def readQuoted? (quote : Char) (cursor : Cursor) : Option (List Char × Cursor) :=
  quotedFrom? quote (cursor.rest.length + 1) [] cursor

/-- What becomes of the line breaks at the end of a block scalar. -/
inductive Chomping where
  | strip
  | clip
  | keep
deriving DecidableEq, Repr

private def chomping? : List Char → Option Chomping
  | '+' :: _ => some .keep
  | '-' :: _ => some .strip
  | _ => none

/-- Reads the indentation digit of a block scalar; a zero is refused. -/
private def indentation? (cursor : Cursor) : Option (Nat × Cursor) :=
  match cursor.rest.head? with
  | some c =>
    if c == '0' then none
    else if c.isDigit then some (c.toNat - '0'.toNat, cursor.advance 1)
    else some (0, cursor)
  | none => some (0, cursor)

/-- Reads what follows the indicator of a block scalar: the digit, zero if there is none, and the
treatment of line breaks, in any order. -/
private def blockHeader? (cursor : Cursor) : Option (Nat × Chomping × Cursor) :=
  match chomping? cursor.rest with
  | some chomping => do
    let (digit, cursor) ← indentation? (cursor.advance 1)
    some (digit, chomping, cursor)
  | none => do
    let (digit, cursor) ← indentation? cursor
    if digit = 0 then some (0, .clip, cursor)
    else
      match chomping? cursor.rest with
      | some chomping => some (digit, chomping, cursor.advance 1)
      | none => some (digit, .clip, cursor)

/-- Reads empty lines and indentation up to a column, or any if it is zero. Gives the greatest column
met and the line breaks; fails at a tab in the indentation. -/
private def blockBreaks? (indent : Nat) :
    Nat → Nat → List Char → Cursor → Option (Nat × List Char × Cursor)
  | 0, widest, breaks, cursor => some (widest, breaks, cursor)
  | bound + 1, widest, breaks, cursor =>
    let spaces := (cursor.rest.takeWhile (· == ' ')).length
    let cursor := cursor.advance
      (if indent = 0 then spaces else min spaces (indent - cursor.column))
    let widest := max widest cursor.column
    if (indent = 0 || cursor.column < indent) && cursor.rest.head? == some '\t' then none
    else if cursor.rest.head?.any isBreak then
      let (text, cursor) := cursor.lineBreak
      blockBreaks? indent bound widest (breaks ++ text) cursor
    else some (widest, breaks, cursor)

/-- A block scalar that is being read. -/
private structure Block where
  text : List Char
  /-- The break after the last line. -/
  lastBreak : List Char
  /-- The empty lines after it. -/
  emptyLines : List Char
  /-- Whether the last line begins with white space. -/
  isIndented : Bool

private def Block.add (block : Block) (style : Style) (line : List Char) : Block :=
  let isIndented := line.head?.any isSpacing
  let isFolded := style == .folded && block.lastBreak == ['\n'] && !block.isIndented && !isIndented
  let joint :=
    if !isFolded then block.lastBreak else if block.emptyLines.isEmpty then [' '] else []
  ⟨block.text ++ joint ++ block.emptyLines ++ line, [], [], isIndented⟩

private def blockLines? (style : Style) (indent : Nat) :
    Nat → Block → Cursor → Option (Block × Cursor)
  | 0, block, cursor => some (block, cursor)
  | bound + 1, block, cursor =>
    if cursor.column ≠ indent || cursor.rest.isEmpty then some (block, cursor)
    else do
      let (line, cursor) := cursor.takeWhile (!isBreak ·)
      let block := block.add style line
      let (lastBreak, cursor) := cursor.lineBreak
      let (_, emptyLines, cursor) ← blockBreaks? indent (cursor.rest.length + 1) 0 [] cursor
      blockLines? style indent bound { block with lastBreak, emptyLines } cursor

/-- Reads a block scalar, from behind its indicator, inside a collection of some indentation. -/
def readBlock? (style : Style) (parent : Int) (cursor : Cursor) : Option (List Char × Cursor) := do
  let (digit, chomping, cursor) ← blockHeader? cursor
  let cursor ← cursor.finishLine?
  let given := if digit = 0 then 0 else (if 0 ≤ parent then parent.toNat + digit else digit)
  let (widest, breaks, cursor) ← blockBreaks? given (cursor.rest.length + 1) 0 [] cursor
  let indent := if given = 0 then max (max widest (parent + 1).toNat) 1 else given
  let (block, cursor) ←
    blockLines? style indent (cursor.rest.length + 1) ⟨[], [], breaks, false⟩ cursor
  let text := if chomping = .strip then block.text else block.text ++ block.lastBreak
  some (if chomping = .keep then text ++ block.emptyLines else text, cursor)

end DeadCode.Yaml

import DeadCode.Yaml.Tag

/-!
The tokens of a YAML text. Indentation is turned into tokens that open and close block collections. A
key is known as one only by the colon behind it, so the tokens that announce it are put in front of it
then.
-/
namespace DeadCode.Yaml

inductive Token where
  | version (major minor : Nat)
  | handle (name : String) (start : Tag)
  | documentStart
  | documentEnd
  | blockSequenceStart
  | blockMappingStart
  | blockEnd
  | flowSequenceStart
  | flowSequenceEnd
  | flowMappingStart
  | flowMappingEnd
  | blockEntry
  | flowEntry
  | key
  | value
  | reference (name : String)
  | anchor (name : String)
  | tag (handle : String) (rest : Tag)
  | scalar (style : Style) (text : String)
deriving DecidableEq, Repr

/-- A token that may turn out to begin a key. -/
structure PossibleKey where
  /-- The number of tokens before it. -/
  position : Nat
  /-- Whether nothing else than a key can stand there. -/
  isRequired : Bool
  index : Nat
  line : Nat
  column : Nat
deriving DecidableEq, Repr

/-- A text whose tokens are being read. -/
structure Scanner where
  cursor : Cursor
  tokens : List Token
  /-- Whether a key may begin here. -/
  allowsKey : Bool
  /-- The possible key of the innermost brackets. -/
  possible : Option PossibleKey
  /-- Those of the brackets around them. -/
  outer : List (Option PossibleKey)
  /-- The column of the innermost block collection, negative outside of all. -/
  indent : Int
  indents : List Int
deriving DecidableEq, Repr

namespace Scanner

def start (text : List Char) : Scanner := ⟨.start text, [], true, none, [], -1, []⟩

def inFlow (scanner : Scanner) : Bool := !scanner.outer.isEmpty

def emit (scanner : Scanner) (token : Token) : Scanner :=
  { scanner with tokens := scanner.tokens ++ [token] }

def take (scanner : Scanner) (token : Token) (count : Nat) : Scanner :=
  { scanner.emit token with cursor := scanner.cursor.advance count }

/-- Gives up the possible key; fails if it had to be one. -/
def dropKey? (scanner : Scanner) : Option Scanner :=
  if scanner.possible.any (·.isRequired) then none else some { scanner with possible := none }

/-- Notes that a key may begin here. -/
def noteKey? (scanner : Scanner) : Option Scanner :=
  if !scanner.allowsKey then some scanner
  else do
    let scanner ← scanner.dropKey?
    let cursor := scanner.cursor
    let isRequired := !scanner.inFlow && scanner.indent == cursor.column
    let key : PossibleKey :=
      ⟨scanner.tokens.length, isRequired, cursor.index, cursor.line, cursor.column⟩
    some { scanner with possible := some key }

/-- Whether a possible key is out of reach: it has to stand on the same line, at most 1024 bytes
back. -/
private def isStale (cursor : Cursor) (key : PossibleKey) : Bool :=
  key.line < cursor.line || key.index + 1024 < cursor.index

/-- Gives up the possible keys that are out of reach; fails if one of them had to be one. -/
def dropStaleKeys? (scanner : Scanner) : Option Scanner :=
  let stale := isStale scanner.cursor
  if (scanner.possible :: scanner.outer).any fun key =>
    key.any fun key => key.isRequired && stale key
  then none
  else some { scanner with
    possible := scanner.possible.filter (!stale ·)
    outer := scanner.outer.map fun key => key.filter (!stale ·) }

private def unrollTo (column : Int) : List Int → Int → List Token → List Token × Int × List Int
  | [], indent, tokens => (tokens, indent, [])
  | next :: rest, indent, tokens =>
    if column < indent then unrollTo column rest next (tokens ++ [.blockEnd])
    else (tokens, indent, next :: rest)

/-- Closes the block collections behind a column. -/
def unroll (scanner : Scanner) (column : Int) : Scanner :=
  if scanner.inFlow then scanner
  else
    let (tokens, indent, indents) := unrollTo column scanner.indents scanner.indent scanner.tokens
    { scanner with tokens, indent, indents }

/-- Opens a block collection at a column, unless one is open there. Its token is put at a position. -/
def roll (scanner : Scanner) (column : Nat) (token : Token) (position : Nat) : Scanner :=
  if scanner.inFlow || (column : Int) ≤ scanner.indent then scanner
  else { scanner with
    tokens := scanner.tokens.insertIdx position token
    indent := column
    indents := scanner.indent :: scanner.indents }

/-- Skips white space, comments and line breaks, at most a given number of lines. Where a key may
begin outside of brackets, a tab is no white space. A byte order mark may stand at the start of every
line, and takes a column. -/
private def skipLines : Nat → Scanner → Scanner
  | 0, scanner => scanner
  | bound + 1, scanner =>
    let cursor := scanner.cursor
    let cursor := if cursor.column == 0 && cursor.rest.head? == some '\ufeff' then cursor.advance 1
      else cursor
    let cursor := cursor.skipWhile fun c =>
      c == ' ' || (c == '\t' && (scanner.inFlow || !scanner.allowsKey))
    let cursor := if cursor.rest.head? == some '#' then cursor.skipWhile (!isBreak ·) else cursor
    if cursor.rest.head?.any isBreak then
      skipLines bound { scanner with
        cursor := cursor.lineBreak.2, allowsKey := scanner.allowsKey || !scanner.inFlow }
    else { scanner with cursor }

def toNextToken (scanner : Scanner) : Scanner :=
  skipLines (scanner.cursor.rest.length + 1) scanner

/-- Closes all block collections, where a document or the text ends. -/
def endBlocks? (scanner : Scanner) : Option Scanner := do
  let scanner ← (scanner.unroll (-1)).dropKey?
  some { scanner with allowsKey := false }

private def openBracket? (scanner : Scanner) (token : Token) : Option Scanner := do
  let scanner ← scanner.noteKey?
  some { scanner.take token 1 with
    possible := none, outer := scanner.possible :: scanner.outer, allowsKey := true }

private def closeBracket? (scanner : Scanner) (token : Token) : Option Scanner := do
  let scanner := (← scanner.dropKey?).take token 1
  match scanner.outer with
  | [] => some { scanner with allowsKey := false }
  | possible :: outer => some { scanner with possible, outer, allowsKey := false }

private def readFlowEntry? (scanner : Scanner) : Option Scanner := do
  some { (← scanner.dropKey?).take .flowEntry 1 with allowsKey := true }

/-- Opens a block collection at the cursor, if that is allowed there. -/
private def openBlock? (scanner : Scanner) (token : Token) : Option Scanner :=
  if scanner.inFlow then some scanner
  else if !scanner.allowsKey then none
  else some (scanner.roll scanner.cursor.column token scanner.tokens.length)

private def readBlockEntry? (scanner : Scanner) : Option Scanner := do
  let scanner ← (← scanner.openBlock? .blockSequenceStart).dropKey?
  some { scanner.take .blockEntry 1 with allowsKey := true }

private def readKey? (scanner : Scanner) : Option Scanner := do
  let scanner ← (← scanner.openBlock? .blockMappingStart).dropKey?
  some { scanner.take .key 1 with allowsKey := !scanner.inFlow }

private def readValue? (scanner : Scanner) : Option Scanner :=
  match scanner.possible with
  | some key =>
    let scanner := { scanner with tokens := scanner.tokens.insertIdx key.position .key }
    let scanner := scanner.roll key.column .blockMappingStart key.position
    some { scanner.take .value 1 with possible := none, allowsKey := false }
  | none => do
    let scanner ← scanner.openBlock? .blockMappingStart
    some { scanner.take .value 1 with allowsKey := !scanner.inFlow }

/-- Notes a possible key, reads a token from the cursor, and goes on behind it. -/
private def readAs? (scanner : Scanner) (read? : Cursor → Option (Token × Cursor)) :
    Option Scanner := do
  let scanner ← scanner.noteKey?
  let (token, cursor) ← read? scanner.cursor
  some { scanner.emit token with cursor, allowsKey := false }

/-- The name of an anchor, which something that cannot belong to it has to follow. -/
private def readName? (make : String → Token) (cursor : Cursor) : Option (Token × Cursor) :=
  let (name, cursor) := (cursor.advance 1).takeWhile isWord
  if name.isEmpty then none
  else if atGap cursor.rest || cursor.rest.head?.any ("?:,]\x7d%@\x60".toList.contains ·) then
    some (make (String.ofList name), cursor)
  else none

private def readTagToken? (inFlow : Bool) (cursor : Cursor) : Option (Token × Cursor) :=
  (readTag? inFlow cursor).map fun (handle, rest, cursor) => (.tag handle rest, cursor)

/-- A number of a version, of at most nine digits. -/
private def readNumber? (cursor : Cursor) : Option (Nat × Cursor) :=
  let (digits, cursor) := cursor.takeWhile Char.isDigit
  if digits.isEmpty || 9 < digits.length then none
  else some (digits.foldl (fun value c => value * 10 + (c.toNat - '0'.toNat)) 0, cursor)

private def readDirective? (cursor : Cursor) : Option (Token × Cursor) := do
  let (name, cursor) := (cursor.advance 1).takeWhile isWord
  let spaced := cursor.skipWhile isSpacing
  if !atGap cursor.rest then none
  else
    let (token, cursor) ←
      if name == "YAML".toList then do
        let (major, cursor) ← readNumber? spaced
        if cursor.rest.head? != some '.' then none
        else
          let (minor, cursor) ← readNumber? (cursor.advance 1)
          some (Token.version major minor, cursor)
      else if name == "TAG".toList then
        (readHandleMeaning? spaced).map fun (handle, start, cursor) =>
          (Token.handle handle start, cursor)
      else none
    let cursor ← cursor.finishLine?
    some (token, cursor)

private def readBlockScalar? (scanner : Scanner) (style : Style) : Option Scanner := do
  let scanner ← scanner.dropKey?
  let (text, cursor) ← readBlock? style scanner.indent (scanner.cursor.advance 1)
  some { scanner.emit (.scalar style (String.ofList text)) with cursor, allowsKey := true }

private def readQuotedScalar? (quote : Char) (cursor : Cursor) : Option (Token × Cursor) := do
  let (text, cursor) ← readQuoted? quote (cursor.advance 1)
  some (.scalar .quoted (String.ofList text), cursor)

private def readPlainScalar? (scanner : Scanner) : Option Scanner := do
  let scanner ← scanner.noteKey?
  let (text, isBroken, cursor) ← readPlain? scanner.inFlow (scanner.indent + 1) scanner.cursor
  some { scanner.emit (.scalar .plain (String.ofList text)) with cursor, allowsKey := isBroken }

/-- Whether a plain scalar can begin here. -/
private def startsPlain (inFlow : Bool) : List Char → Bool
  | [] => false
  | c :: rest =>
    (c == '-' && !rest.head?.any isSpacing) ||
      (!inFlow && (c == '?' || c == ':') && !atGap rest) ||
        !(isSpacing c || isBreak c || "-?:,[]\x7b\x7d#&*!|>'\"%@\x60".toList.contains c)

def readToken? (scanner : Scanner) : Option Scanner :=
  let rest := scanner.cursor.rest
  let atLineStart := scanner.cursor.column == 0
  let isIndicator (c : Char) : Bool := rest.head? == some c && atGap (rest.drop 1)
  let isFlowIndicator (c : Char) : Bool :=
    rest.head? == some c && (scanner.inFlow || atGap (rest.drop 1))
  if atLineStart && rest.head? == some '%' then do
    let scanner ← scanner.endBlocks?
    let (token, cursor) ← readDirective? scanner.cursor
    some { scanner.emit token with cursor }
  else if atLineStart && atDocumentMark rest then do
    let token := if rest.head? == some '-' then Token.documentStart else Token.documentEnd
    some ((← scanner.endBlocks?).take token 3)
  else if isIndicator '-' then scanner.readBlockEntry?
  else if isFlowIndicator '?' then scanner.readKey?
  else if isFlowIndicator ':' then scanner.readValue?
  else if startsPlain scanner.inFlow rest then scanner.readPlainScalar?
  else
    match rest.head? with
    | some '[' => scanner.openBracket? .flowSequenceStart
    | some '{' => scanner.openBracket? .flowMappingStart
    | some ']' => scanner.closeBracket? .flowSequenceEnd
    | some '}' => scanner.closeBracket? .flowMappingEnd
    | some ',' => scanner.readFlowEntry?
    | some '*' => scanner.readAs? (readName? .reference)
    | some '&' => scanner.readAs? (readName? .anchor)
    | some '!' => scanner.readAs? (readTagToken? scanner.inFlow)
    | some '|' => if scanner.inFlow then none else scanner.readBlockScalar? .literal
    | some '>' => if scanner.inFlow then none else scanner.readBlockScalar? .folded
    | some '\'' => scanner.readAs? (readQuotedScalar? '\'')
    | some '"' => scanner.readAs? (readQuotedScalar? '"')
    | _ => none

private def tokensFrom? : Nat → Scanner → Option (List Token)
  | 0, _ => none
  | bound + 1, scanner => do
    let scanner ← scanner.toNextToken.dropStaleKeys?
    let scanner := scanner.unroll scanner.cursor.column
    if scanner.cursor.rest.isEmpty then (← scanner.endBlocks?).tokens
    else tokensFrom? bound (← scanner.readToken?)

end Scanner

/-- The tokens of a text; `none` if it is malformed. -/
def Token.scan? (text : List Char) : Option (List Token) :=
  if text.all isAllowed then Scanner.tokensFrom? (text.length + 1) (.start text) else none

end DeadCode.Yaml

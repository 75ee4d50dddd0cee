/-!
The texts of TOML: white space, comments, strings and keys. Each reader takes a piece from the front of
a text and gives what is left, or nothing if the piece is not there or malformed.
-/
namespace DeadCode.Toml

def isSpacing (c : Char) : Bool :=
  c == ' ' || c == '\t'

/-- A character that may stand in comments and strings; control characters may not. -/
def isVisible (c : Char) : Bool :=
  c == '\t' || (' ' ≤ c && c ≠ '\x7f')

def skipSpacing (text : List Char) : List Char :=
  text.dropWhile isSpacing

def lineBreak? : List Char → Option (List Char)
  | '\n' :: rest => some rest
  | '\r' :: '\n' :: rest => some rest
  | _ => none

def skipComment : List Char → List Char
  | '#' :: rest => rest.dropWhile isVisible
  | text => text

/-- Takes the end of a line: white space, a comment, and the line break or the end of the text. -/
def lineEnd? (text : List Char) : Option (List Char) :=
  match skipComment (skipSpacing text) with
  | [] => some []
  | rest => lineBreak? rest

/-- Takes white space, comments and line breaks; a step for each of them. -/
private def skipLinesFrom : Nat → List Char → List Char
  | 0, text => text
  | bound + 1, text =>
    let text := skipSpacing text
    match lineBreak? (skipComment text) with
    | some rest => skipLinesFrom bound rest
    | none => text

def skipLines (text : List Char) : List Char :=
  skipLinesFrom (text.length + 1) text

def digitValue? (c : Char) : Option Nat :=
  if '0' ≤ c && c ≤ '9' then some (c.toNat - '0'.toNat)
  else if 'a' ≤ c && c ≤ 'f' then some (c.toNat - 'a'.toNat + 10)
  else if 'A' ≤ c && c ≤ 'F' then some (c.toNat - 'A'.toNat + 10)
  else none

private def codePoint? (digits : List Char) : Option Char := do
  let value ← digits.foldlM (fun value c => (digitValue? c).map (value * 16 + ·)) 0
  if h : value.isValidChar then some (Char.ofNatAux value h) else none

/-- The character of an escape, and the number of characters it takes after the backslash. -/
private def escape? : List Char → Option (Char × Nat)
  | [] => none
  | c :: rest =>
    let coded (count : Nat) : Option (Char × Nat) :=
      if count ≤ rest.length then (codePoint? (rest.take count)).map fun c => (c, count + 1)
      else none
    match c with
    | 'b' => some ('\x08', 1)
    | 't' => some ('\t', 1)
    | 'n' => some ('\n', 1)
    | 'f' => some ('\x0c', 1)
    | 'r' => some ('\r', 1)
    | '"' => some ('"', 1)
    | '\\' => some ('\\', 1)
    | 'u' => coded 4
    | 'U' => coded 8
    | _ => none

/-- The two kinds of quotes: escapes count only between double ones. -/
inductive Quote where
  | double
  | single
deriving DecidableEq, Repr

def Quote.char : Quote → Char
  | double => '"'
  | single => '\''

private def lineStringFrom? (quote : Quote) :
    Nat → List Char → List Char → Option (List Char × List Char)
  | 0, _, _ => none
  | _ + 1, _, [] => none
  | bound + 1, done, c :: rest =>
    if c == quote.char then some (done, rest)
    else if c == '\\' && quote = .double then do
      let (escaped, count) ← escape? rest
      lineStringFrom? quote bound (done ++ [escaped]) (rest.drop count)
    else if isVisible c then lineStringFrom? quote bound (done ++ [c]) rest
    else none

private def skipBlanks : List Char → List Char
  | '\r' :: '\n' :: rest => skipBlanks rest
  | c :: rest => if isSpacing c || c == '\n' then skipBlanks rest else c :: rest
  | [] => []

/-- The rest of a text behind a backslash that ends a line, and all white space behind that. -/
private def continuation? (text : List Char) : Option (List Char) :=
  (lineBreak? (skipSpacing text)).map skipBlanks

/-- Up to two quotes may stand in a string of several lines, also before the three that end it. -/
private def blockStringFrom? (quote : Quote) :
    Nat → List Char → List Char → Option (List Char × List Char)
  | 0, _, _ => none
  | _ + 1, _, [] => none
  | bound + 1, done, c :: rest =>
    if c == quote.char then
      let count := ((c :: rest).takeWhile (· == c)).length
      if count < 3 then
        blockStringFrom? quote bound (done ++ List.replicate count c) ((c :: rest).drop count)
      else
        let extra := min (count - 3) 2
        some (done ++ List.replicate extra c, (c :: rest).drop (extra + 3))
    else if c == '\\' && quote = .double then
      match continuation? rest with
      | some rest => blockStringFrom? quote bound done rest
      | none => do
        let (escaped, count) ← escape? rest
        blockStringFrom? quote bound (done ++ [escaped]) (rest.drop count)
    else
      match lineBreak? (c :: rest) with
      | some rest => blockStringFrom? quote bound (done ++ ['\n']) rest
      | none =>
        if isVisible c then blockStringFrom? quote bound (done ++ [c]) rest else none

def lineString? (quote : Quote) : List Char → Option (String × List Char)
  | c :: rest =>
    if c == quote.char then
      (lineStringFrom? quote (rest.length + 1) [] rest).map fun (text, rest) =>
        (String.ofList text, rest)
    else none
  | [] => none

/-- Takes a string, of several lines if it begins with three quotes; a line break behind these does
not count. -/
def string? (quote : Quote) (text : List Char) : Option (String × List Char) :=
  if (List.replicate 3 quote.char).isPrefixOf text then
    let body := text.drop 3
    let body := (lineBreak? body).getD body
    (blockStringFrom? quote (body.length + 1) [] body).map fun (text, rest) =>
      (String.ofList text, rest)
  else lineString? quote text

private def isKeyChar (c : Char) : Bool :=
  c.isAlphanum || c == '_' || c == '-'

private def keyPart? (text : List Char) : Option (String × List Char) :=
  match text.head? with
  | some '"' => lineString? .double text
  | some '\'' => lineString? .single text
  | _ =>
    let part := text.takeWhile isKeyChar
    if part.isEmpty then none else some (String.ofList part, text.drop part.length)

private def keyFrom? : Nat → List Char → Option (List String × List Char)
  | 0, _ => none
  | bound + 1, text => do
    let (part, rest) ← keyPart? (skipSpacing text)
    match skipSpacing rest with
    | '.' :: rest => do
      let (parts, rest) ← keyFrom? bound rest
      some (part :: parts, rest)
    | rest => some ([part], rest)

/-- Arrays and tables in braces lie at most so deep in each other, and a key has at most so many
parts. -/
def depthLimit : Nat := 79

/-- Takes a key: parts that dots divide, with white space around them. -/
def key? (text : List Char) : Option (List String × List Char) := do
  let (parts, rest) ← keyFrom? (text.length + 1) text
  if parts.length ≤ depthLimit then some (parts, rest) else none

end DeadCode.Toml

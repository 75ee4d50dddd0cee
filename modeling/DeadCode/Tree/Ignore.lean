import DeadCode.Text.Affix
import DeadCode.Text.Lines
import DeadCode.Text.Pattern

/-!
Ignore files. Each line holds a pattern for paths below the directory of the file; a line that begins
with an exclamation mark takes back what the lines before it ignore, and the last line that fits
decides. Patterns and paths are compared byte by byte, so what fits a single character fits a single
byte of one beyond ASCII.
-/
namespace DeadCode.Ignore
open DeadCode.Text DeadCode.Text.Pattern

/-- The bytes of a text, each as the character of its number. -/
def bytesOf (text : List Char) : List Char :=
  text.flatMap fun c => (String.utf8EncodeChar c).map fun byte => Char.ofNat byte.toNat

/-- A piece of a pattern. -/
inductive Piece where
  | literal (c : Char)
  /-- A byte other than a slash. -/
  | any
  /-- Any bytes other than slashes. -/
  | anyName
  /-- Any directories in front, also none. -/
  | leadingDirectories
  /-- Everything below. -/
  | everythingBelow
  /-- Any directories in between, also none. -/
  | innerDirectories
  | among (negated : Bool) (ranges : List (Char × Char))
  /-- One of several patterns. Without any it stands for nothing. -/
  | choice (alternatives : List Pattern)

private def slash : Pattern := lit "/"

private def anything : Pattern := many (char fun _ => true)

private def choiceOf : List Pattern → Pattern
  | [] => nothing
  | [pattern] => pattern
  | pattern :: others => pattern <|> choiceOf others

/-- The bytes that a range of characters stands for: those of its ends, and the ones between the last
byte of the first end and the first byte of the last. -/
private def byteRanges (first last : Char) : List (Char × Char) :=
  let alone (bytes : List Char) : List (Char × Char) := bytes.map fun byte => (byte, byte)
  let firstBytes := bytesOf [first]
  let lastBytes := bytesOf [last]
  match firstBytes.getLast?, lastBytes.head? with
  | some least, some greatest =>
    if first == last then alone firstBytes
    else alone firstBytes.dropLast ++ (least, greatest) :: alone (lastBytes.drop 1)
  | _, _ => []

def Piece.pattern : Piece → Pattern
  | literal c => (bytesOf [c]).foldr (fun byte rest => char (· == byte) ++ rest) nothing
  | any => except "/"
  | anyName => many (except "/")
  | leadingDirectories => optional slash <|> (anything ++ slash)
  | everythingBelow => slash ++ anything
  | innerDirectories => slash <|> (slash ++ anything ++ slash)
  | among negated ranges =>
    let bytes := ranges.flatMap fun (first, last) => byteRanges first last
    char fun byte => (bytes.any fun (least, greatest) => least ≤ byte && byte ≤ greatest) != negated
  | choice alternatives => choiceOf alternatives

def Piece.isVoid : Piece → Bool
  | choice [] => true
  | _ => false

/-- The pattern of pieces that are given last to first. -/
private def patternOf (pieces : List Piece) : Pattern :=
  pieces.reverse.foldr (fun piece rest => piece.pattern ++ rest) nothing

/-- The pattern of a whole text: two stars alone fit everything. -/
private def wholePattern : List Piece → Pattern
  | [.leadingDirectories] => anything
  | pieces => patternOf pieces

/-- The ranges of a character class that are read so far, last to first, and whether the next
character ends one. -/
structure ClassState where
  ranges : List (Char × Char)
  inRange : Bool
  isFirst : Bool

private def ClassState.read? (state : ClassState) (c : Char) : Option ClassState :=
  if c == '-' && !state.isFirst && !state.inRange then some { state with inRange := true }
  else
    match state.inRange, state.ranges with
    | true, (first, _) :: others =>
      if c < first then none else some ⟨(first, c) :: others, false, false⟩
    | _, ranges => some ⟨(c, c) :: ranges, false, false⟩

/-- What is found after an opening bracket. -/
inductive ClassReading where
  | ranges (ranges : List (Char × Char)) (rest : List Char)
  /-- A range goes backwards. -/
  | malformed
  /-- No bracket closes the class, so the opening one stands for itself. -/
  | unclosed

/-- Reads a character class up to its closing bracket, which does not close it as its first
character. -/
private def readClass : ClassState → List Char → ClassReading
  | _, [] => .unclosed
  | state, c :: rest =>
    if c == ']' && !state.isFirst then
      .ranges (if state.inRange then ('-', '-') :: state.ranges else state.ranges) rest
    else
      match state.read? c with
      | some state => readClass state rest
      | none => .malformed

/-- A choice that is being read: the pieces before it, and its alternatives so far, both last to
first. -/
structure OpenChoice where
  before : List Piece
  alternatives : List Pattern

private def OpenChoice.add (choice : OpenChoice) (pieces : List Piece) : OpenChoice :=
  if pieces.all Piece.isVoid then choice
  else { choice with alternatives := patternOf pieces :: choice.alternatives }

/-- Reads two stars, given the pieces before them, last to first, the character before them, whether
a choice is open, and what follows; the number says how many of the characters that follow belong to
them. -/
private def doubleStar (pieces : List Piece) (last : Option Char) (inChoice : Bool)
    (rest : List Char) : List Piece × Nat :=
  let plain := (.anyName :: .anyName :: pieces, 0)
  if pieces.isEmpty then
    match rest with
    | [] => ([.leadingDirectories], 0)
    | '/' :: _ => ([.leadingDirectories], 1)
    | _ => plain
  else if last != some '/' && !(inChoice && (last == some ',' || last == some '{')) then plain
  else
    let replace (piece : Piece) (taken : Nat) : List Piece × Nat :=
      match pieces with
      | .leadingDirectories :: before => (.leadingDirectories :: before, taken)
      | .everythingBelow :: before => (.everythingBelow :: before, taken)
      | _ :: before => (piece :: before, taken)
      | [] => ([piece], taken)
    match rest with
    | [] => replace .everythingBelow 0
    | '/' :: _ => replace .innerDirectories 1
    | c :: _ => if inChoice && (c == ',' || c == '}') then replace .everythingBelow 0 else plain

/-- Reads a pattern, at most a given number of steps; `none` if it is malformed. -/
private def compileFrom? : Nat → List OpenChoice → List Piece → Option Char → List Char →
    Option Pattern
  | 0, _, _, _, _ => none
  | _ + 1, [], pieces, _, [] => some (wholePattern pieces)
  | _ + 1, _ :: _, _, _, [] => none
  | bound + 1, choices, pieces, last, c :: rest =>
    let go := compileFrom? bound
    match c with
    | '?' => go choices (.any :: pieces) (some c) rest
    | '*' =>
      match rest with
      | '*' :: after =>
        let (pieces, taken) := doubleStar pieces last (!choices.isEmpty) after
        go choices pieces (some (if taken = 0 then '*' else '/')) (after.drop taken)
      | _ => go choices (.anyName :: pieces) (some c) rest
    | '[' =>
      let (negated, body) := match rest with
        | '!' :: body => (true, body)
        | '^' :: body => (true, body)
        | body => (false, body)
      match readClass ⟨[], false, true⟩ body with
      | .ranges ranges after => go choices (.among negated ranges :: pieces) (some ']') after
      | .malformed => none
      | .unclosed => go choices (.literal c :: pieces) (some c) rest
    | '{' => go (⟨pieces, []⟩ :: choices) [] (some c) rest
    | '}' =>
      match choices with
      | [] => none
      | inner :: outer =>
        let closed := inner.add pieces
        go outer (.choice closed.alternatives.reverse :: closed.before) (some c) rest
    | ',' =>
      match choices with
      | [] => go choices (.literal c :: pieces) (some c) rest
      | inner :: outer =>
        go (inner.add pieces :: outer) [] (some c) rest
    | '\\' =>
      match rest with
      | [] => none
      | escaped :: after => go choices (.literal escaped :: pieces) (some escaped) after
    | _ => go choices (.literal c :: pieces) (some c) rest

def compile? (text : List Char) : Option Pattern :=
  compileFrom? (text.length + 1) [] [] none text

/-- What a line of an ignore file says. -/
structure Rule where
  pattern : Pattern
  /-- Takes back what was ignored before. -/
  keeps : Bool
  onlyDirectories : Bool

/-- A pattern without a slash fits at any depth; everything below a directory does not include the
directory. -/
private def anchored (isAbsolute : Bool) (text : List Char) : List Char :=
  let text :=
    if !isAbsolute && !text.contains '/' && !startsWith text "**/" && text != "**".toList then
      "**/".toList ++ text
    else text
  if endsWith text "/**" then text ++ "/*".toList else text

/-- Reads a line; comments, empty lines and malformed patterns say nothing. -/
def Rule.ofLine? (line : List Char) : Option Rule :=
  if startsWith line "#" then none
  else
    let line := if endsWith line "\\ " then line else trimEnd line
    if line.isEmpty then none
    else
      let isEscaped := startsWith line "\\!" || startsWith line "\\#"
      let keeps := !isEscaped && startsWith line "!"
      let line := if isEscaped || keeps then line.drop 1 else line
      let isAbsolute := startsWith line "/"
      let line := if isAbsolute && !isEscaped then line.drop 1 else line
      let onlyDirectories := endsWith line "/"
      let line := if onlyDirectories then line.dropLast else line
      let line := if onlyDirectories && endsWith line "\\" then line.dropLast else line
      (compile? (anchored isAbsolute line)).map fun pattern => ⟨pattern, keeps, onlyDirectories⟩

/-- The rules of an ignore file; a byte order mark in front of them does not count. -/
def rulesOf (contents : String) : List Rule :=
  (lines (contents.toList.dropWhile (· == '\ufeff'))).filterMap Rule.ofLine?

/-- What is decided about a path. -/
inductive Verdict where
  | undecided
  | ignored
  | kept
deriving DecidableEq, Repr

/-- The first of two verdicts that decides. -/
def Verdict.orElse (first second : Verdict) : Verdict :=
  if first = .undecided then second else first

def verdict (rules : List Rule) (path : List Char) (isDirectory : Bool) : Verdict :=
  let bytes := bytesOf path
  let fits (rule : Rule) : Bool :=
    (!rule.onlyDirectories || isDirectory) && (rule.pattern ++ textEnd).opens bytes
  match rules.reverse.find? fits with
  | none => .undecided
  | some rule => if rule.keeps then .kept else .ignored

end DeadCode.Ignore

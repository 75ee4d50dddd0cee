import DeadCode.Text.Blank
import DeadCode.Text.Bytes
import DeadCode.Text.Word

/-!
Text patterns with an order of preference. A pattern read from a point of a text has a list of
outcomes, the preferred one first: a choice prefers its left side, a repetition prefers to go on
(or, when it is reluctant, to stop). What a pattern finds is its first outcome at the leftmost
point that has one. The order decides which of several readings is reported, so it is part of the
meaning of a pattern and not of a way to search.
-/
namespace DeadCode.Text

/-- A labelled piece of the text that was read: the positions at its ends, and what was left of the
text at its start. -/
structure Capture where
  label : String
  start : Nat
  stop : Nat
  source : List Char
deriving DecidableEq, Repr

def Capture.text (capture : Capture) : List Char :=
  takeBytes (capture.stop - capture.start) capture.source

/-- How far a text has been read: the position, the character before it, what is left, and the
pieces captured on the way, the latest first. -/
structure Reading where
  offset : Nat
  last : Option Char
  rest : List Char
  captures : List Capture
deriving DecidableEq, Repr

def Reading.start (text : List Char) : Reading := ⟨0, none, text, []⟩

/-- What was captured last under a label. -/
def Reading.capture? (reading : Reading) (label : String) : Option Capture :=
  reading.captures.find? (·.label == label)

def Reading.captured (reading : Reading) (label : String) : List Char :=
  ((reading.capture? label).map (·.text)).getD []

/-- A condition on the point between two characters. -/
inductive Anchor where
  | textStart
  | textEnd
  | wordEdge
deriving DecidableEq, Repr

/-- Whether a condition holds at a point. A word edge has a word character on exactly one side. -/
def Anchor.holds (anchor : Anchor) (reading : Reading) : Bool :=
  match anchor with
  | .textStart => reading.last.isNone
  | .textEnd => reading.rest.isEmpty
  | .wordEdge => reading.last.any isWordChar != reading.rest.head?.any isWordChar

inductive Pattern where
  | nothing
  | char (accepts : Char → Bool)
  | seq (first second : Pattern)
  | either (left right : Pattern)
  | many (item : Pattern)
  | manyReluctant (item : Pattern)
  | capture (label : String) (inner : Pattern)
  | anchor (condition : Anchor)

namespace Pattern

/-- The outcomes of repeating a step, the longest repetitions first, in front of other outcomes. Only
steps that read something are repeated, so the number of characters left bounds the repetitions. -/
def repeated (step : Reading → List Reading) : Nat → Reading → List Reading → List Reading
  | 0, reading, others => reading :: others
  | bound + 1, reading, others =>
    ((step reading).filter fun next => reading.offset < next.offset).foldr (repeated step bound)
      (reading :: others)

/-- The outcomes of repeating a step, the shortest repetitions first, in front of other outcomes. -/
def repeatedReluctantly (step : Reading → List Reading) :
    Nat → Reading → List Reading → List Reading
  | 0, reading, others => reading :: others
  | bound + 1, reading, others =>
    reading :: ((step reading).filter fun next => reading.offset < next.offset).foldr
      (repeatedReluctantly step bound) others

/-- Every way to read a pattern from a point, in order of preference. -/
def outcomes : Pattern → Reading → List Reading
  | nothing, reading => [reading]
  | char accepts, reading =>
    match reading.rest with
    | [] => []
    | c :: rest =>
      if accepts c then
        [{ reading with offset := reading.offset + c.utf8Size, last := some c, rest := rest }]
      else []
  | seq first second, reading => (first.outcomes reading).flatMap second.outcomes
  | either left right, reading => left.outcomes reading ++ right.outcomes reading
  | many item, reading => repeated item.outcomes reading.rest.length reading []
  | manyReluctant item, reading => repeatedReluctantly item.outcomes reading.rest.length reading []
  | capture label inner, reading =>
    (inner.outcomes reading).map fun next =>
      { next with captures := ⟨label, reading.offset, next.offset, reading.rest⟩ :: next.captures }
  | anchor condition, reading => if condition.holds reading then [reading] else []

def first? (pattern : Pattern) (reading : Reading) : Option Reading :=
  (pattern.outcomes reading).head?

def atStart? (pattern : Pattern) (text : List Char) : Option Reading :=
  pattern.first? (.start text)

def opens (pattern : Pattern) (text : List Char) : Bool :=
  (pattern.atStart? text).isSome

/-- Where a pattern was found: the point at which it begins and the reading at its end. -/
structure Found where
  start : Nat
  finish : Reading

def findFrom? (pattern : Pattern) (offset : Nat) (last : Option Char) :
    List Char → Option Found
  | [] => (pattern.first? ⟨offset, last, [], []⟩).map fun reading => ⟨offset, reading⟩
  | c :: rest =>
    match pattern.first? ⟨offset, last, c :: rest, []⟩ with
    | some reading => some ⟨offset, reading⟩
    | none => findFrom? pattern (offset + c.utf8Size) (some c) rest

/-- The leftmost place where a pattern can be read. -/
def find? (pattern : Pattern) (text : List Char) : Option Found :=
  findFrom? pattern 0 none text

def occurs (pattern : Pattern) (text : List Char) : Bool :=
  (pattern.find? text).isSome

def findAllFrom (pattern : Pattern) (resume offset : Nat) (last : Option Char) :
    List Char → List Found
  | [] => []
  | c :: rest =>
    if offset < resume then findAllFrom pattern resume (offset + c.utf8Size) (some c) rest
    else
      match pattern.first? ⟨offset, last, c :: rest, []⟩ with
      | some reading =>
        ⟨offset, reading⟩ :: findAllFrom pattern reading.offset (offset + c.utf8Size) (some c) rest
      | none => findAllFrom pattern resume (offset + c.utf8Size) (some c) rest

/-- The places where a pattern is found from left to right, each after the end of the one before.
For patterns that read at least one character. -/
def findAll (pattern : Pattern) (text : List Char) : List Found :=
  findAllFrom pattern 0 0 none text

instance : Append Pattern := ⟨seq⟩

instance : OrElse Pattern := ⟨fun left right => either left (right ())⟩

def lit (text : String) : Pattern :=
  text.toList.foldr (fun c rest => seq (char (· == c)) rest) nothing

/-- One of several words, the earlier ones preferred. -/
def oneOf : List String → Pattern
  | [] => char fun _ => false
  | [word] => lit word
  | word :: others => either (lit word) (oneOf others)

def optional (item : Pattern) : Pattern := either item nothing

def several (item : Pattern) : Pattern := seq item (many item)

/-- A pattern one or more times, as rarely as possible. -/
def severalReluctant (item : Pattern) : Pattern := seq item (manyReluctant item)

def among (set : String) : Pattern := char set.toList.contains

def except (set : String) : Pattern := char fun c => !set.toList.contains c

def blank : Pattern := char isBlank

def blanks : Pattern := many blank

/-- At least one character of white space. -/
def gap : Pattern := several blank

/-- A character after the first one of a name. -/
def nameChar : Pattern := char fun c => isWordChar c || c == '$'

/-- A name: it begins with an ASCII letter, an underscore or a dollar sign. -/
def name : Pattern := char isNameStart ++ many nameChar

def textStart : Pattern := anchor .textStart

def textEnd : Pattern := anchor .textEnd

def wordEdge : Pattern := anchor .wordEdge

end Pattern
end DeadCode.Text

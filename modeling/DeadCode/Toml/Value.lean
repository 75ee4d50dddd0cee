import DeadCode.Text.Pattern
import DeadCode.Toml.Text

/-!
The values of TOML, and tables as they grow. A table knows how it came about, since that decides what
may still be added to it: what is written in braces is closed, a dotted key may only enter tables that
dotted keys or longer headers have made, and a header may only name a table that longer headers have
made.
-/
namespace DeadCode.Toml
open DeadCode.Text DeadCode.Text.Pattern

/-- How a table came about. -/
inductive Origin where
  /-- Written in braces. -/
  | inline
  /-- Named by a header. -/
  | header
  /-- On the way to what a header names. -/
  | implied
  /-- On the way to what a dotted key names. -/
  | dotted
deriving DecidableEq, Repr

inductive Value where
  | text (contents : String)
  | integer (number : Int)
  | flag (value : Bool)
  | fraction
  /-- A date, a time or both. -/
  | moment
  | list (items : List Value)
  | table (origin : Origin) (entries : List (String × Value))
  /-- The tables that headers in double brackets have begun. -/
  | tables (items : List (List (String × Value)))
deriving Inhabited

abbrev Entries := List (String × Value)

namespace Entries

def get? (entries : Entries) (key : String) : Option Value :=
  (entries.find? (·.1 == key)).map (·.2)

/-- Gives a key a value, instead of the one it has. -/
def set (entries : Entries) (key : String) (value : Value) : Entries :=
  if entries.any (·.1 == key) then
    entries.map fun entry => if entry.1 == key then (key, value) else entry
  else entries ++ [(key, value)]

/-- Changes the table at a path, making the tables on the way; `none` if something else is there. -/
def change? (dotted : Bool) (change : Origin → Entries → Option Entries) :
    List String → Origin → Entries → Option Entries
  | [], origin, entries => change origin entries
  | key :: path, _, entries =>
    match entries.get? key with
    | none => do
      let origin := if dotted then Origin.dotted else Origin.implied
      let inner ← change? dotted change path origin []
      some (entries.set key (.table origin inner))
    | some (.table origin inner) =>
      if origin = .inline || (dotted && origin = .header) then none
      else do
        let inner ← change? dotted change path origin inner
        some (entries.set key (.table origin inner))
    | some (.tables items) =>
      match items.getLast? with
      | none => none
      | some inner => do
        let inner ← change? dotted change path .header inner
        some (entries.set key (.tables (items.dropLast ++ [inner])))
    | some _ => none

/-- Adds a value under a dotted key. No key is given twice. -/
def add? (entries : Entries) (key : List String) (value : Value) : Option Entries := do
  let name ← key.getLast?
  let path := key.dropLast
  change? true
    (fun origin entries =>
      if !path.isEmpty && origin ≠ .dotted then none
      else if (entries.get? name).isSome then none
      else some (entries.set name value))
    path .header entries

/-- Begins the table of a header. -/
def addTable? (entries : Entries) (key : List String) : Option Entries := do
  let name ← key.getLast?
  change? false
    (fun _ entries =>
      match entries.get? name with
      | none => some (entries.set name (.table .header []))
      | some (.table .implied inner) => some (entries.set name (.table .header inner))
      | some _ => none)
    key.dropLast .header entries

/-- Begins one more table of a header in double brackets. -/
def addToTables? (entries : Entries) (key : List String) : Option Entries := do
  let name ← key.getLast?
  change? false
    (fun _ entries =>
      match entries.get? name with
      | none => some (entries.set name (.tables [[]]))
      | some (.tables items) => some (entries.set name (.tables (items ++ [[]])))
      | some _ => none)
    key.dropLast .header entries

end Entries

private def sign : Pattern := among "+-"

private def digit : Pattern := char Char.isDigit

/-- Digits that single underscores may divide. -/
private def digitsOf (digit : Pattern) : Pattern :=
  digit ++ many (optional (lit "_") ++ digit)

private def decimal : Pattern :=
  optional sign ++ ((char (fun c => c.isDigit && c != '0') ++ many (optional (lit "_") ++ digit))
    <|> lit "0")

private def exponent : Pattern :=
  among "eE" ++ capture "exponent" (optional sign ++ digitsOf digit)

private def fraction : Pattern :=
  (capture "whole" decimal ++
      (exponent <|> (lit "." ++ capture "part" (digitsOf digit) ++ optional exponent))) <|>
    (optional sign ++ oneOf ["inf", "nan"])

private def times (count : Nat) (item : Pattern) : Pattern :=
  (List.replicate count item).foldr (· ++ ·) nothing

private def number (label : String) (digits : Nat) : Pattern :=
  capture label (times digits digit)

private def date : Pattern :=
  number "year" 4 ++ lit "-" ++ number "month" 2 ++ lit "-" ++ number "day" 2

private def time : Pattern :=
  number "hour" 2 ++ lit ":" ++ number "minute" 2 ++ lit ":" ++ number "second" 2 ++
    optional (lit "." ++ several digit)

private def offset : Pattern :=
  among "Zz" <|> (sign ++ number "offsetHour" 2 ++ lit ":" ++ number "offsetMinute" 2)

private def moment : Pattern :=
  (date ++ optional (among "Tt " ++ time ++ optional offset)) <|> time

private def decimalValue (digits : List Char) : Nat :=
  digits.foldl (fun value c => if c.isDigit then value * 10 + (c.toNat - '0'.toNat) else value) 0

private def signedValue (text : List Char) : Int :=
  if text.head? == some '-' then -decimalValue text else decimalValue text

/-- The least number that is rounded to infinity in 64 bits. -/
private def leastInfinite : Nat := Nat.pow 2 1024 - Nat.pow 2 970

/-- Whether a fraction is rounded to positive infinity. If it has `magnitude` digits before the point,
it lies below the power of ten with that exponent, and not below the one before. -/
private def isTooGreat (reading : Reading) : Bool :=
  let whole := reading.captured "whole"
  let part := (reading.captured "part").filter Char.isDigit
  let digits := whole.filter Char.isDigit ++ part
  let significant := (digits.dropWhile (· == '0')).length
  let exponent := signedValue (reading.captured "exponent") - part.length
  let magnitude := significant + exponent
  if whole.head? == some '-' || significant = 0 || magnitude ≤ 308 then false
  else if 310 < magnitude then true
  else leastInfinite * Nat.pow 10 (-exponent).toNat ≤ decimalValue digits * Nat.pow 10 exponent.toNat

private def daysIn (year month : Nat) : Nat :=
  if month = 2 then
    if year % 4 = 0 && (year % 100 ≠ 0 || year % 400 = 0) then 29 else 28
  else if [4, 6, 9, 11].contains month then 30
  else 31

/-- Whether a date and a time exist. -/
private def isPossible (reading : Reading) : Bool :=
  let within (label : String) (least greatest : Nat) : Bool :=
    (reading.capture? label).all fun found =>
      least ≤ decimalValue found.text && decimalValue found.text ≤ greatest
  let year := decimalValue (reading.captured "year")
  let month := decimalValue (reading.captured "month")
  within "month" 1 12 && within "day" 1 (daysIn year month) && within "hour" 0 23 &&
    within "minute" 0 59 && within "second" 0 60 && within "offsetHour" 0 23 &&
      within "offsetMinute" 0 59

private def integer? (number : Int) : Option Value :=
  if Int64.minValue.toInt ≤ number && number ≤ Int64.maxValue.toInt then some (.integer number) else none

private def basedInteger? (base : Nat) (text : List Char) : Option Value := do
  let isDigit (c : Char) : Bool := (digitValue? c).any (· < base)
  if !(digitsOf (char isDigit) ++ textEnd).opens text then none
  else
    let digits := text.filterMap digitValue?
    integer? (digits.foldl (fun value digit => value * base + digit) 0 : Nat)

private def numeric? (text : List Char) : Option Value :=
  match text with
  | '0' :: 'x' :: rest => basedInteger? 16 rest
  | '0' :: 'o' :: rest => basedInteger? 8 rest
  | '0' :: 'b' :: rest => basedInteger? 2 rest
  | _ =>
    if (decimal ++ textEnd).opens text then integer? (signedValue text)
    else
      match (fraction ++ textEnd).atStart? text with
      | some reading => if isTooGreat reading then none else some .fraction
      | none =>
        match (moment ++ textEnd).atStart? text with
        | some reading => if isPossible reading then some .moment else none
        | none => none

private def isNumericChar (c : Char) : Bool :=
  c.isAlphanum || "_+-.:".toList.contains c

/-- Takes a number, a date or a time. A space may divide a date from a time. -/
private def takeNumeric? (text : List Char) : Option (Value × List Char) := do
  let first := text.takeWhile isNumericChar
  let rest := text.drop first.length
  let later := (rest.drop 1).takeWhile isNumericChar
  let isDivided := (date ++ textEnd).opens first && rest.head? == some ' ' &&
    (times 2 digit ++ lit ":").opens later
  let (taken, rest) :=
    if isDivided then (first ++ ' ' :: later, rest.drop (later.length + 1)) else (first, rest)
  (← numeric? taken, rest)

private def takeWord? (word : String) (value : Value) (text : List Char) :
    Option (Value × List Char) :=
  if word.toList.isPrefixOf text then some (value, text.drop word.length) else none

mutual

/-- Takes a value inside some arrays and tables. -/
private def valueFrom? : Nat → Nat → List Char → Option (Value × List Char)
  | 0, _, _ => none
  | bound + 1, depth, text =>
    match text with
    | '"' :: _ => (string? .double text).map fun (contents, rest) => (.text contents, rest)
    | '\'' :: _ => (string? .single text).map fun (contents, rest) => (.text contents, rest)
    | '[' :: rest =>
      if depth < depthLimit then
        (itemsFrom? bound (depth + 1) rest).map fun (items, rest) => (.list items, rest)
      else none
    | '{' :: rest =>
      if depth < depthLimit then
        match skipSpacing rest with
        | '}' :: rest => some (.table .inline [], rest)
        | rest =>
          (pairsFrom? bound (depth + 1) [] rest).map fun (entries, rest) =>
            (.table .inline entries, rest)
      else none
    | 't' :: _ => takeWord? "true" (.flag true) text
    | 'f' :: _ => takeWord? "false" (.flag false) text
    | 'i' :: _ => takeWord? "inf" .fraction text
    | 'n' :: _ => takeWord? "nan" .fraction text
    | c :: _ => if c.isDigit || c == '+' || c == '-' then takeNumeric? text else none
    | [] => none

/-- Takes the items of an array and its closing bracket; a comma may stand behind the last one. -/
private def itemsFrom? : Nat → Nat → List Char → Option (List Value × List Char)
  | 0, _, _ => none
  | bound + 1, depth, text =>
    match skipLines text with
    | ']' :: rest => some ([], rest)
    | text => do
      let (item, rest) ← valueFrom? bound depth text
      match skipLines rest with
      | ',' :: rest => do
        let (items, rest) ← itemsFrom? bound depth rest
        some (item :: items, rest)
      | ']' :: rest => some ([item], rest)
      | _ => none

/-- Takes the pairs of a table in braces and the closing brace. -/
private def pairsFrom? : Nat → Nat → Entries → List Char → Option (Entries × List Char)
  | 0, _, _, _ => none
  | bound + 1, depth, entries, text => do
    let (key, rest) ← key? text
    match rest with
    | '=' :: rest => do
      let (value, rest) ← valueFrom? bound depth (skipSpacing rest)
      let entries ← entries.add? key value
      match skipSpacing rest with
      | ',' :: rest => pairsFrom? bound depth entries rest
      | '}' :: rest => some (entries, rest)
      | _ => none
    | _ => none

end

def value? (text : List Char) : Option (Value × List Char) :=
  valueFrom? (2 * text.length + 2) 0 text

end DeadCode.Toml

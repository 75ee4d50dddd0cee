import DeadCode.Yaml.Scalar

/-!
The tags of YAML, which say what a node is. A tag is a sequence of octets: its escapes may stand for
any, also for some that make up no character. A zero octet ends it.
-/
namespace DeadCode.Yaml

abbrev Tag := List UInt8

namespace Tag

def ofText (text : String) : Tag :=
  text.toList.flatMap String.utf8EncodeChar

/-- The tag without a meaning of its own. -/
def bare : Tag := ofText "!"

/-- A tag of the language itself. -/
def core (name : String) : Tag := ofText ("tag:yaml.org,2002:" ++ name)

/-- The name behind the exclamation mark of a tag that is not one of the language. -/
def localName? : Tag → Option String
  | first :: name => if [first] == bare then String.fromUTF8? ⟨name.toArray⟩ else none
  | [] => none

/-- What is left of octets where a zero ends them. -/
def ofOctets (octets : List UInt8) : Tag :=
  octets.takeWhile (· != 0)

end Tag

private def isUriChar (inBrackets : Bool) (c : Char) : Bool :=
  isWord c || ";/?:@&=+$.!~*'()".toList.contains c || (inBrackets && ",[]".toList.contains c)

/-- Reads an escape: a percent sign and two hexadecimal digits. -/
private def readOctet? (cursor : Cursor) : Option (UInt8 × Cursor) :=
  match cursor.rest with
  | '%' :: high :: low :: _ => do
    let value := 16 * (← digitValue? high) + (← digitValue? low)
    some (UInt8.ofNat value, cursor.advance 3)
  | _ => none

/-- How many octets follow the first one of a character. -/
private def laterCount? (first : UInt8) : Option Nat :=
  if first < 0x80 then some 0
  else if first < 0xc0 then none
  else if first < 0xe0 then some 1
  else if first < 0xf0 then some 2
  else if first < 0xf8 then some 3
  else none

private def readLater? : Nat → Cursor → Option (List UInt8 × Cursor)
  | 0, cursor => some ([], cursor)
  | count + 1, cursor => do
    let (octet, cursor) ← readOctet? cursor
    if octet < 0x80 || 0xc0 ≤ octet then none
    else
      let (later, cursor) ← readLater? count cursor
      some (octet :: later, cursor)

/-- Reads as many escapes as the first of them asks for. -/
private def readEscapes? (cursor : Cursor) : Option (List UInt8 × Cursor) := do
  let (first, cursor) ← readOctet? cursor
  let (later, cursor) ← readLater? (← laterCount? first) cursor
  some (first :: later, cursor)

private def readUriFrom? (inBrackets : Bool) :
    Nat → List UInt8 → Cursor → Option (List UInt8 × Cursor)
  | 0, octets, cursor => some (octets, cursor)
  | bound + 1, octets, cursor =>
    match cursor.rest.head? with
    | none => some (octets, cursor)
    | some c =>
      if c == '%' then do
        let (escaped, cursor) ← readEscapes? cursor
        readUriFrom? inBrackets bound (octets ++ escaped) cursor
      else if isUriChar inBrackets c then
        readUriFrom? inBrackets bound (octets ++ String.utf8EncodeChar c) (cursor.advance 1)
      else some (octets, cursor)

/-- Reads the octets of an address; some characters belong to it only in angle brackets. -/
private def readUri? (inBrackets : Bool) (cursor : Cursor) : Option (List UInt8 × Cursor) :=
  readUriFrom? inBrackets (cursor.rest.length + 1) [] cursor

/-- A word between exclamation marks; the last one may be missing. -/
private def readHandle? (cursor : Cursor) : Option (List Char × Cursor) :=
  match cursor.rest with
  | '!' :: _ =>
    let (word, cursor) := (cursor.advance 1).takeWhile isWord
    if cursor.rest.head? == some '!' then some ('!' :: word ++ ['!'], cursor.advance 1)
    else some ('!' :: word, cursor)
  | _ => none

def readTag? (inFlow : Bool) (cursor : Cursor) : Option (String × Tag × Cursor) := do
  let (handle, rest, cursor) ←
    match cursor.rest with
    | '!' :: '<' :: _ => do
      let (uri, cursor) ← readUri? true (cursor.advance 2)
      if uri.isEmpty || cursor.rest.head? != some '>' then none
      else some ("", Tag.ofOctets uri, cursor.advance 1)
    | _ => do
      let (handle, cursor) ← readHandle? cursor
      let (uri, cursor) ← readUri? false cursor
      if 2 ≤ handle.length && handle.getLast? == some '!' then
        if uri.isEmpty then none else some (String.ofList handle, Tag.ofOctets uri, cursor)
      else
        let rest := Tag.ofOctets (Tag.ofText (String.ofList (handle.drop 1)) ++ uri)
        some (if rest.isEmpty then ("", Tag.bare, cursor) else ("!", rest, cursor))
  if atGap cursor.rest || (inFlow && cursor.rest.head? == some ',') then some (handle, rest, cursor)
  else none

/-- Reads what a directive says about tags: a handle, and what it stands for. -/
def readHandleMeaning? (cursor : Cursor) : Option (String × Tag × Cursor) := do
  let (handle, cursor) ← readHandle? cursor
  if handle.getLast? != some '!' || !cursor.rest.head?.any isSpacing then none
  else
    let (uri, cursor) ← readUri? true (cursor.skipWhile isSpacing)
    if uri.isEmpty || !atGap cursor.rest then none
    else some (String.ofList handle, Tag.ofOctets uri, cursor)

end DeadCode.Yaml

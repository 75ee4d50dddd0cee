import DeadCode.Toml.Value

/-!
TOML documents: lines that give a key a value in the current table, and headers that change the current
table.
-/
namespace DeadCode.Toml

/-- A document that is being read: its entries, and the path to the current table. -/
private structure Draft where
  entries : Entries
  current : List String

private def Draft.add? (draft : Draft) (key : List String) (value : Value) : Option Draft := do
  let entries ←
    draft.entries.change? false (fun _ table => table.add? key value) draft.current .header
  some { draft with entries }

private def headerKey? (close : String) (text : List Char) : Option (List String × List Char) := do
  let (key, rest) ← key? text
  if close.toList.isPrefixOf rest then some (key, rest.drop close.length) else none

/-- Reads a line that is neither empty nor only a comment. -/
private def Draft.line? (draft : Draft) (text : List Char) : Option (Draft × List Char) :=
  match text with
  | '[' :: '[' :: rest => do
    let (key, rest) ← headerKey? "]]" rest
    let entries ← draft.entries.addToTables? key
    some (⟨entries, key⟩, ← lineEnd? rest)
  | '[' :: rest => do
    let (key, rest) ← headerKey? "]" rest
    let entries ← draft.entries.addTable? key
    some (⟨entries, key⟩, ← lineEnd? rest)
  | _ => do
    let (key, rest) ← key? text
    match rest with
    | '=' :: rest => do
      let (value, rest) ← value? (skipSpacing rest)
      some (← draft.add? key value, ← lineEnd? rest)
    | _ => none

private def Draft.read? : Nat → Draft → List Char → Option Entries
  | 0, _, _ => none
  | bound + 1, draft, text =>
    match skipLines text with
    | [] => some draft.entries
    | text =>
      if (skipComment text).isEmpty then some draft.entries
      else do
        let (draft, rest) ← draft.line? text
        draft.read? bound rest

/-- The entries of a document; `none` if it is malformed. -/
def Entries.read? (text : List Char) : Option Entries :=
  let text := if text.head? == some '\ufeff' then text.drop 1 else text
  Draft.read? (text.length + 1) ⟨[], []⟩ text

namespace Value

/-- The fields of a table; those of an array are given by their order, and a date or a time has none
that anybody knows. -/
def fields? (names : List String) : Value → Option (List (String × Value))
  | table _ entries => some entries
  | moment => some []
  | list items => some (names.zip items)
  | tables items => some (names.zip (items.map (table .header)))
  | _ => none

def text? : Value → Option String
  | text contents => some contents
  | _ => none

def items? : Value → Option (List Value)
  | list items => some items
  | tables items => some (items.map (table .header))
  | _ => none

def flag? : Value → Option Bool
  | flag value => some value
  | _ => none

def count? : Value → Option Nat
  | integer number => if 0 ≤ number then some number.toNat else none
  | _ => none

private def isEmpty : Value → Bool
  | list items => items.isEmpty
  | table _ entries => entries.isEmpty
  | _ => false

/-- A word out of a fixed set; the only key of a table may stand for it, if nothing is in it. -/
def word? : Value → Option String
  | text contents => some contents
  | table _ [(name, value)] => if value.isEmpty then some name else none
  | _ => none

end Value
end DeadCode.Toml

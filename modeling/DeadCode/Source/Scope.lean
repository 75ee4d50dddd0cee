import DeadCode.Source.Comment
import DeadCode.Symbol.Entity

/-!
The class-like declarations around a line. Each has a body in braces; a declaration whose brace has
not come yet waits for it, for a few lines at most. Depths are kept in 32 bits.
-/
namespace DeadCode.Source

/-- A declaration that a line is inside of. -/
structure Enclosing where
  name : String
  kind : Kind
  commentedOut : Bool
  /-- The brace depth in the declaration around this one. -/
  outerDepth : Int
deriving DecidableEq, Repr

structure Scope where
  /-- The declarations around the line, the innermost first. -/
  entries : List Enclosing
  /-- The brace depth in the innermost one. -/
  depth : Int
  /-- The lines that the innermost one has waited for its brace, if it still does. -/
  waiting : Option Nat
deriving DecidableEq, Repr

namespace Scope

/-- The lines that a declaration may wait for its brace. -/
def patience : Nat := 3

def outside : Scope := ⟨[], 0, none⟩

def leaveClosed : List Enclosing → Int → List Enclosing × Int
  | [], depth => ([], if depth ≤ 0 then 0 else depth)
  | entry :: outer, depth =>
    if depth ≤ 0 then
      if outer.isEmpty then ([], 0) else leaveClosed outer (wrap32 (depth + entry.outerDepth))
    else (entry :: outer, depth)

def settle (scope : Scope) : Scope :=
  match scope.waiting with
  | some _ => scope
  | none =>
    let (entries, depth) := leaveClosed scope.entries scope.depth
    ⟨entries, depth, none⟩

/-- Enters a declaration, given the braces of its line; the first one opened is that of the body. -/
def enter (scope : Scope) (name : String) (kind : Kind) (commentedOut : Bool) (opens closes : Int) :
    Scope :=
  let outerDepth := if scope.entries.isEmpty then 0 else scope.depth
  let entries := ⟨name, kind, commentedOut, outerDepth⟩ :: scope.entries
  if opens > 0 then settle ⟨entries, wrap32 (opens - closes), none⟩
  else settle ⟨entries, wrap32 (1 - closes), some 0⟩

def abandon (scope : Scope) : Scope :=
  match scope.waiting, scope.entries with
  | none, _ => scope
  | some _, [] => { scope with waiting := none }
  | some _, entry :: outer => ⟨outer, entry.outerDepth, none⟩

/-- Goes past a line that declares nothing, given its braces and whether it ends a statement. -/
def passLine (scope : Scope) (opens closes : Int) (endsStatement : Bool) : Scope :=
  if scope.entries.isEmpty then scope
  else
    match scope.waiting with
    | none => settle { scope with depth := wrap32 (scope.depth + (opens - closes)) }
    | some waited =>
      if opens > 0 then
        settle { scope with depth := wrap32 (scope.depth + (opens - 1 - closes)), waiting := none }
      else if endsStatement || waited + 1 ≥ patience then scope.abandon
      else { scope with waiting := some (waited + 1) }

def enclosing? (scope : Scope) : Option String :=
  scope.entries.head?.map (·.name)

def insideState (scope : Scope) : Bool :=
  scope.entries.head?.any (·.kind == .stateClass)

def commentedOut (scope : Scope) : Bool :=
  scope.entries.any (·.commentedOut)

end Scope
end DeadCode.Source

import DeadCode.Path

/-!
Keys of declared symbols. A live symbol is known by its file, its owner and its name; one that is
commented out also carries its position, which keeps it apart from live symbols and from others
that are commented out.
-/
namespace DeadCode

structure SymbolKey where
  file : Path
  /-- The enclosing class, empty at top level. -/
  owner : String
  name : String
  /-- Line and offset, for symbols that are commented out. -/
  position : Option (Nat × Nat)
deriving DecidableEq, Repr

namespace SymbolKey

attribute [local instance] lexOrd

/-- By file, owner, name and position; a live symbol comes before those that are commented out. -/
instance : Ord SymbolKey :=
  ⟨compareLex (compareOn file) <| compareLex (compareOn owner) <|
    compareLex (compareOn name) (compareOn position)⟩

instance : Std.TransOrd SymbolKey :=
  inferInstanceAs (Std.TransCmp (compareLex _ (compareLex _ (compareLex _ _))))

theorem compare_eq_iff {a b : SymbolKey} : compare a b = .eq ↔
    a.file.same b.file ∧ a.owner = b.owner ∧ a.name = b.name ∧ a.position = b.position := by
  have parts : compare a b = compareLex (compareOn file) _ a b := rfl
  simp only [parts, compareLex_eq_eq, compareOn, Std.LawfulEqOrd.compare_eq_iff_eq, Path.compare_eq_iff_same]

def live (file : Path) (owner name : String) : SymbolKey := ⟨file, owner, name, none⟩

/-- The name with its owner in front. -/
def qualifiedName (key : SymbolKey) : String :=
  if key.owner.isEmpty then key.name else key.owner ++ "." ++ key.name

/-- A path with everything but ASCII letters and digits replaced by underscores. -/
private def flattened (path : Path) : String :=
  String.ofList (path.text.toList.map fun c => if c.isAlphanum then c else '_')

/-- The text of a key. -/
def render (key : SymbolKey) : String :=
  let named := key.file.text ++ ":" ++ key.qualifiedName
  match key.position with
  | none => named
  | some (line, offset) =>
    named ++ "_L" ++ toString line ++ "_O" ++ toString offset ++ "_" ++ flattened key.file

end SymbolKey
end DeadCode

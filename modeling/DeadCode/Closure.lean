/-!
The nodes that can be reached from some nodes. Nodes are told apart by a key, and the keys that may
still be entered are given, so that the walk ends whatever the successors are.
-/
namespace DeadCode

/-- The keys without one of them. -/
def without {κ : Type} [DecidableEq κ] (keys : List κ) (key : κ) : List κ :=
  keys.filter (· ≠ key)

theorem length_without_lt {κ : Type} [DecidableEq κ] {keys : List κ} {key : κ}
    (present : key ∈ keys) : (without keys key).length < keys.length :=
  List.length_filter_lt_length_iff_exists.mpr ⟨key, present, by simp⟩

/-- The nodes met when walking along a successor function from pending nodes, in the order in which
they are entered. Each key is entered once, when it is taken out of the keys not seen yet. -/
def closure {α κ : Type} [DecidableEq κ] (key : α → κ) (next : α → List α) (unseen : List κ)
    (pending : List α) : List α :=
  match pending with
  | [] => []
  | node :: rest =>
    if key node ∈ unseen then
      node :: closure key next (without unseen (key node)) (next node ++ rest)
    else closure key next unseen rest
termination_by (unseen.length, pending.length)
decreasing_by
  · exact Prod.Lex.left _ _ (length_without_lt (by assumption))
  · exact Prod.Lex.right _ (by simp)

end DeadCode

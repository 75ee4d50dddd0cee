/-!
Finite maps with their entries in ascending order of the keys. Keys that compare as equal share one
entry; it keeps the key it was made with.
-/
namespace DeadCode

/-- Entries in ascending order of their keys, with one entry for each key. -/
structure SortedMap (κ ν : Type) [Ord κ] where
  entries : List (κ × ν)
  ordered : entries.Pairwise fun a b => compare a.1 b.1 = .lt
deriving DecidableEq, Repr

namespace SortedMap
variable {κ ν : Type} [Ord κ]

def empty : SortedMap κ ν := ⟨[], .nil⟩

instance : Inhabited (SortedMap κ ν) := ⟨empty⟩

def isEmpty (map : SortedMap κ ν) : Bool := map.entries.isEmpty

def size (map : SortedMap κ ν) : Nat := map.entries.length

def keys (map : SortedMap κ ν) : List κ := map.entries.map (·.1)

def values (map : SortedMap κ ν) : List ν := map.entries.map (·.2)

/-- Gives every key a new value. -/
def mapWithKey {μ : Type} (source : SortedMap κ ν) (f : κ → ν → μ) : SortedMap κ μ where
  entries := source.entries.map fun (key, value) => (key, f key value)
  ordered := List.pairwise_map.mpr source.ordered

def get? (map : SortedMap κ ν) (key : κ) : Option ν :=
  (map.entries.find? fun entry => compare key entry.1 == .eq).map (·.2)

def contains (map : SortedMap κ ν) (key : κ) : Bool :=
  (map.get? key).isSome

def alterEntries (key : κ) (f : Option ν → ν) : List (κ × ν) → List (κ × ν)
  | [] => [(key, f none)]
  | (other, value) :: rest =>
    match compare key other with
    | .lt => (key, f none) :: (other, value) :: rest
    | .eq => (other, f (some value)) :: rest
    | .gt => (other, value) :: alterEntries key f rest

/-- The entries after a change: those before it, and a new one for the key or a changed one. -/
theorem of_mem_alterEntries {key : κ} {f : Option ν → ν} {entries : List (κ × ν)} {entry : κ × ν}
    (h : entry ∈ alterEntries key f entries) :
    entry ∈ entries ∨ entry = (key, f none) ∨
      ∃ old ∈ entries, compare key old.1 = .eq ∧ entry = (old.1, f (some old.2)) := by
  induction entries with
  | nil => exact .inr (.inl (List.mem_singleton.mp h))
  | cons head rest ih =>
    rw [alterEntries] at h
    split at h <;> grind

variable [Std.TransOrd κ]

theorem ordered_alterEntries (key : κ) (f : Option ν → ν) {entries : List (κ × ν)}
    (h : entries.Pairwise fun a b => compare a.1 b.1 = .lt) :
    (alterEntries key f entries).Pairwise fun a b => compare a.1 b.1 = .lt := by
  induction entries with
  | nil => exact List.pairwise_singleton _ _
  | cons head rest ih =>
    obtain ⟨below, ordered⟩ := List.pairwise_cons.mp h
    rw [alterEntries]
    split
    case h_1 less =>
      refine List.pairwise_cons.mpr ⟨fun entry member => ?_, h⟩
      rcases List.mem_cons.mp member with rfl | member
      · exact less
      · exact Std.TransCmp.lt_trans less (below entry member)
    case h_2 => exact List.pairwise_cons.mpr ⟨below, ordered⟩
    case h_3 greater =>
      refine List.pairwise_cons.mpr ⟨fun entry member => ?_, ih ordered⟩
      rcases of_mem_alterEntries member with present | rfl | ⟨old, present, -, rfl⟩
      · exact below entry present
      · exact Std.OrientedCmp.lt_of_gt greater
      · exact below old present

/-- Sets the value of a key, given the one it has. -/
def alter (map : SortedMap κ ν) (key : κ) (f : Option ν → ν) : SortedMap κ ν :=
  ⟨alterEntries key f map.entries, ordered_alterEntries key f map.ordered⟩

def insert (map : SortedMap κ ν) (key : κ) (value : ν) : SortedMap κ ν :=
  map.alter key fun _ => value

/-- Sets the value of a key that has none. -/
def insertIfNew (map : SortedMap κ ν) (key : κ) (value : ν) : SortedMap κ ν :=
  map.alter key fun old => old.getD value

/-- Adds the entries of another map, which win over those that are there. -/
def insertAll (map other : SortedMap κ ν) : SortedMap κ ν :=
  other.entries.foldl (fun result (key, value) => result.insert key value) map

end SortedMap
end DeadCode

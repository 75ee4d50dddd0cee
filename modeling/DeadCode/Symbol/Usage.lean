import DeadCode.Path
import DeadCode.SortedMap

/-!
How often a symbol is used, inside the file that declares it and by each other file. The uses in the files of a project
are counted exactly. What a symbol keeps are words of 64 bits: a sum that does not fit wraps around.
-/
namespace DeadCode

/-- Uses as they are counted. -/
structure ExactCounts where
  internal : Nat
  external : SortedMap Path Nat
  /-- A file without uses has no entry. -/
  positive : ∀ entry ∈ external.entries, entry.2 ≠ 0
deriving DecidableEq, Repr

namespace ExactCounts

def none : ExactCounts := ⟨0, .empty, nofun⟩

instance : Inhabited ExactCounts := ⟨none⟩

def addInternal (counts : ExactCounts) (n : Nat) : ExactCounts :=
  { counts with internal := counts.internal + n }

def addExternal (counts : ExactCounts) (file : Path) (n : Nat) : ExactCounts :=
  if zero : n = 0 then counts
  else
    { counts with
      external := counts.external.alter file fun old => old.getD 0 + n
      positive := fun entry member => by
        rcases SortedMap.of_mem_alterEntries member with present | rfl | ⟨old, -, -, rfl⟩
        · exact counts.positive entry present
        · simpa using zero
        · simp [zero] }

def merge (counts other : ExactCounts) : ExactCounts :=
  other.external.entries.foldl (fun result (file, n) => result.addExternal file n)
    (counts.addInternal other.internal)

def isEmpty (counts : ExactCounts) : Bool := counts.internal == 0 && counts.external.isEmpty

end ExactCounts

def wrap64 (n : Nat) : Nat := n % UInt64.size

/-- Uses as a symbol keeps them. Only a sum that wrapped around can leave a file without uses an entry. -/
structure UsageCounts where
  internal : Nat
  external : SortedMap Path Nat
deriving DecidableEq, Repr

namespace UsageCounts

def none : UsageCounts := ⟨0, .empty⟩

instance : Inhabited UsageCounts := ⟨none⟩

def addInternal (counts : UsageCounts) (n : Nat) : UsageCounts :=
  { counts with internal := wrap64 (counts.internal + n) }

def addExternal (counts : UsageCounts) (file : Path) (n : Nat) : UsageCounts :=
  if n = 0 then counts
  else { counts with external := counts.external.alter file fun old => wrap64 (old.getD 0 + n) }

def merge (counts other : UsageCounts) : UsageCounts :=
  other.external.entries.foldl (fun result (file, n) => result.addExternal file n)
    (counts.addInternal other.internal)

def externalTotal (counts : UsageCounts) : Nat := wrap64 (counts.external.values.foldr (· + ·) 0)

def total (counts : UsageCounts) : Nat := wrap64 (counts.internal + counts.externalTotal)

def isEmpty (counts : UsageCounts) : Bool := counts.internal == 0 && counts.external.isEmpty

def ofExact (counts : ExactCounts) : UsageCounts :=
  ⟨wrap64 counts.internal, counts.external.mapWithKey fun _ => wrap64⟩

end UsageCounts
end DeadCode

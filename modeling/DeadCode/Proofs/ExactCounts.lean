import DeadCode.Proofs.SortedMap
import DeadCode.Usage.Count

/-!
Laws of usage counts: what counts that were put together say, and under which keys.
-/
namespace DeadCode

namespace ExactCounts

theorem ext_counts {a b : ExactCounts} (internal : a.internal = b.internal) (external : a.external = b.external) :
    a = b := by
  cases a
  cases b
  simp_all

theorem internal_addExternal (counts : ExactCounts) (file : Path) (n : Nat) :
    (counts.addExternal file n).internal = counts.internal := by
  rw [addExternal]
  split <;> rfl

theorem external_addExternal (counts : ExactCounts) (file : Path) {n : Nat} (positive : n ≠ 0) :
    (counts.addExternal file n).external = counts.external.addWith (· + ·) file n := by
  rw [addExternal, dif_neg positive]
  refine congrArg (counts.external.alter file) (funext fun old => ?_)
  cases old with
  | none => exact Nat.zero_add n
  | some => rfl

private theorem foldl_addExternal (counts : ExactCounts) {entries : List (Path × Nat)}
    (positive : ∀ entry ∈ entries, entry.2 ≠ 0) :
    let sum := entries.foldl (fun result (file, n) => result.addExternal file n) counts
    sum.internal = counts.internal ∧ sum.external = counts.external.addAll (· + ·) entries := by
  induction entries generalizing counts with
  | nil => exact ⟨rfl, rfl⟩
  | cons head rest ih =>
    obtain ⟨first, others⟩ := List.forall_mem_cons.mp positive
    obtain ⟨internal, external⟩ := ih (counts.addExternal head.1 head.2) others
    rw [internal_addExternal] at internal
    rw [external_addExternal counts _ first] at external
    exact ⟨internal, external⟩

theorem internal_merge (counts other : ExactCounts) :
    (counts.merge other).internal = counts.internal + other.internal :=
  (foldl_addExternal _ other.positive).1

theorem external_merge (counts other : ExactCounts) :
    (counts.merge other).external = counts.external.addAll (· + ·) other.external.entries :=
  (foldl_addExternal _ other.positive).2

theorem merge_assoc (a b c : ExactCounts) : (a.merge b).merge c = a.merge (b.merge c) := by
  refine ext_counts ?_ ?_
  · simp only [internal_merge, Nat.add_assoc]
  · simp only [external_merge, SortedMap.addAll_gathered Nat.add_assoc]

theorem none_merge (counts : ExactCounts) : none.merge counts = counts := by
  refine ext_counts ?_ ?_
  · rw [internal_merge, none, Nat.zero_add]
  · rw [external_merge, none, SortedMap.addAll_entries]

theorem merge_of_isEmpty {counts other : ExactCounts} (empty : other.isEmpty) : counts.merge other = counts := by
  simp only [isEmpty, Bool.and_eq_true, beq_iff_eq, SortedMap.isEmpty, List.isEmpty_iff] at empty
  refine ext_counts ?_ ?_
  · rw [internal_merge, empty.1, Nat.add_zero]
  · rw [external_merge, empty.2, SortedMap.addAll_nil]

theorem merge_none (counts : ExactCounts) : counts.merge none = counts := merge_of_isEmpty rfl

theorem merge_addInternal (counts : ExactCounts) (n : Nat) :
    counts.merge (none.addInternal n) = counts.addInternal n := by
  refine ext_counts ?_ ?_
  · rw [internal_merge, addInternal, none, Nat.zero_add]
    rfl
  · rw [external_merge]
    rfl

theorem merge_addExternal (counts : ExactCounts) (file : Path) (n : Nat) :
    counts.merge (none.addExternal file n) = counts.addExternal file n := by
  by_cases zero : n = 0
  · rw [addExternal, addExternal, dif_pos zero, dif_pos zero, merge_of_isEmpty rfl]
  · refine ext_counts ?_ ?_
    · rw [internal_merge, internal_addExternal, internal_addExternal]
      rfl
    · rw [external_merge, external_addExternal _ _ zero, external_addExternal _ _ zero]
      rfl

def externalTotal (counts : ExactCounts) : Nat := counts.external.values.foldr (· + ·) 0

private theorem foldr_alterEntries (file : Path) (n : Nat) (entries : List (Path × Nat)) :
    ((SortedMap.alterEntries file (fun old => old.getD 0 + n) entries).map (·.2)).foldr (· + ·) 0 =
      (entries.map (·.2)).foldr (· + ·) 0 + n := by
  induction entries with
  | nil => simp only [SortedMap.alterEntries, List.map_cons, List.foldr_cons, Option.getD_none]; omega
  | cons head rest ih =>
    rw [SortedMap.alterEntries]
    split
    case h_1 => simp only [List.map_cons, List.foldr_cons, Option.getD_none]; omega
    case h_2 => simp only [List.map_cons, List.foldr_cons, Option.getD_some]; omega
    case h_3 => simp only [List.map_cons, List.foldr_cons, ih]; omega

theorem externalTotal_addExternal (counts : ExactCounts) (file : Path) (n : Nat) :
    (counts.addExternal file n).externalTotal = counts.externalTotal + n := by
  rw [addExternal]
  split
  case isTrue zero => rw [zero, Nat.add_zero]
  case isFalse => exact foldr_alterEntries file n counts.external.entries

theorem externalTotal_merge (counts other : ExactCounts) :
    (counts.merge other).externalTotal = counts.externalTotal + other.externalTotal := by
  have added (entries : List (Path × Nat)) (sum : ExactCounts) :
      (entries.foldl (fun result (file, n) => result.addExternal file n) sum).externalTotal =
        sum.externalTotal + (entries.map (·.2)).foldr (· + ·) 0 := by
    induction entries generalizing sum with
    | nil => rfl
    | cons head rest ih =>
      rw [List.foldl_cons, ih, externalTotal_addExternal, List.map_cons, List.foldr_cons, Nat.add_assoc]
  exact added other.external.entries (counts.addInternal other.internal)

/-- Without an entry there are no uses, and without uses there is no entry. -/
theorem external_isEmpty_iff (counts : ExactCounts) : counts.external.isEmpty ↔ counts.externalTotal = 0 := by
  have positive := counts.positive
  rw [SortedMap.isEmpty, externalTotal, SortedMap.values]
  cases entries : counts.external.entries with
  | nil => simp
  | cons head rest =>
    have first : head.2 ≠ 0 := positive head (entries ▸ List.mem_cons_self)
    simp [first]

def usesBy (counts : ExactCounts) (file : Path) : Nat := (counts.external.get? file).getD 0

theorem usesBy_addExternal (counts : ExactCounts) (file other : Path) (n : Nat) :
    (counts.addExternal file n).usesBy other = counts.usesBy other + if other.same file then n else 0 := by
  by_cases zero : n = 0
  · simp [addExternal, zero]
  · rw [usesBy, external_addExternal _ _ zero, SortedMap.get?_addWith]
    by_cases same : other.same file
    · have equal := Path.compare_eq_iff_same.mpr same
      rw [if_pos equal, if_pos same, usesBy, SortedMap.get?_congr _ equal]
      cases counts.external.get? file <;> simp
    · rw [if_neg (mt Path.compare_eq_iff_same.mp same), if_neg same]
      rfl

def UsedOnlyBy (counts : ExactCounts) (allowed : Path → Prop) : Prop :=
  ∀ entry ∈ counts.external.entries, allowed entry.1

theorem UsedOnlyBy.none {allowed : Path → Prop} : ExactCounts.none.UsedOnlyBy allowed :=
  fun _ member => absurd member List.not_mem_nil

theorem UsedOnlyBy.merge {allowed : Path → Prop} {counts other : ExactCounts} (one : counts.UsedOnlyBy allowed)
    (two : other.UsedOnlyBy allowed) : (counts.merge other).UsedOnlyBy allowed := by
  unfold UsedOnlyBy
  rw [external_merge]
  exact SortedMap.forall_addAll (fun user _ => allowed user) (fun _ known _ => known) one two

theorem UsedOnlyBy.addInternal {allowed : Path → Prop} {counts : ExactCounts} (only : counts.UsedOnlyBy allowed)
    (n : Nat) : (counts.addInternal n).UsedOnlyBy allowed :=
  only

theorem UsedOnlyBy.addExternal {allowed : Path → Prop} {file : Path} (admitted : allowed file) (n : Nat) :
    (ExactCounts.none.addExternal file n).UsedOnlyBy allowed := by
  unfold ExactCounts.addExternal
  split
  · exact .none
  · intro entry member
    rw [List.mem_singleton.mp member]
    exact admitted

theorem UsedOnlyBy.mono {allowed wider : Path → Prop} {counts : ExactCounts} (only : counts.UsedOnlyBy allowed)
    (included : ∀ file, allowed file → wider file) : counts.UsedOnlyBy wider :=
  fun entry member => included entry.1 (only entry member)

end ExactCounts

namespace Usage

def countsOf (counts : SortedMap SymbolKey ExactCounts) (key : SymbolKey) : ExactCounts :=
  (counts.get? key).getD .none

theorem mergeCounts_eq_addWith (counts : SortedMap SymbolKey ExactCounts) (key : SymbolKey) (more : ExactCounts) :
    mergeCounts counts key more = counts.addWith .merge key more := by
  refine congrArg (counts.alter key) (funext fun old => ?_)
  cases old with
  | none => exact ExactCounts.none_merge more
  | some => rfl

theorem get?_addCounts_of_ne (counts : SortedMap SymbolKey ExactCounts) {key other : SymbolKey}
    (more : ExactCounts) (apart : compare other key ≠ .eq) :
    (addCounts counts key more).get? other = counts.get? other := by
  rw [addCounts]
  split
  · rfl
  · rw [mergeCounts, SortedMap.get?_alter, if_neg apart]

theorem countsOf_addCounts (counts : SortedMap SymbolKey ExactCounts) {key other : SymbolKey}
    (more : ExactCounts) (same : compare other key = .eq) :
    countsOf (addCounts counts key more) other = (countsOf counts other).merge more := by
  rw [addCounts]
  split
  case isTrue empty => rw [ExactCounts.merge_of_isEmpty empty]
  case isFalse =>
    rw [countsOf, mergeCounts, SortedMap.get?_alter, if_pos same, Option.getD_some, countsOf,
      SortedMap.get?_congr _ same]

def Counter.additions (counter : Counter) (file : Path) (contents : List Char) :
    List (SymbolKey × ExactCounts) :=
  let found := mentions counter.names (Source.scan true file contents).sites
    (Source.sanitize (Text.lines contents))
  (counter.targets.map fun target => (target.key, target.countIn counter.visibility file found)).filter
    (!·.2.isEmpty)

private theorem foldl_addCounts (counts : SortedMap SymbolKey ExactCounts) (more : Target → ExactCounts)
    (targets : List Target) :
    targets.foldl (fun counts target => addCounts counts target.key (more target)) counts =
      counts.addAll .merge ((targets.map fun target => (target.key, more target)).filter (!·.2.isEmpty)) := by
  induction targets generalizing counts with
  | nil => rfl
  | cons target rest ih =>
    rw [List.foldl_cons, ih, List.map_cons, List.filter_cons, addCounts]
    cases (more target).isEmpty with
    | true => rfl
    | false => rw [if_neg Bool.false_ne_true, mergeCounts_eq_addWith, Bool.not_false, if_pos rfl, SortedMap.addAll_cons]

theorem Counter.countFile_eq_addAll (counter : Counter) (counts : SortedMap SymbolKey ExactCounts) (file : Path)
    (contents : List Char) :
    counter.countFile counts file contents = counts.addAll .merge (counter.additions file contents) :=
  foldl_addCounts counts _ counter.targets

end Usage
end DeadCode

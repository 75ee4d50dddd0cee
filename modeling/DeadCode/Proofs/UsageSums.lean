import DeadCode.Proofs.Uses
import DeadCode.Proofs.WorkerIndependence
import Mathlib.Algebra.Ring.Nat

/-!
The uses in several files are the sum of the uses in each of them. A file adds to the counts of each symbol what
it adds to nothing, so neither the other files nor their order matter. Paths that are the same may be spelled in
several ways; then the file that comes first decides how a path is spelled in the counts, and nothing else.
-/
namespace DeadCode

namespace ExactCounts

structure Same (a b : ExactCounts) : Prop where
  internal : a.internal = b.internal
  external : ∀ user, a.external.get? user = b.external.get? user

theorem usesBy_merge (a b : ExactCounts) (user : Path) : (a.merge b).usesBy user = a.usesBy user + b.usesBy user := by
  rw [usesBy, external_merge, SortedMap.get?_addAll_entries, usesBy, usesBy]
  cases a.external.get? user <;> cases b.external.get? user <;> simp [Option.merge]

/-- A file has an entry when it has uses. -/
theorem get?_external (counts : ExactCounts) (user : Path) :
    counts.external.get? user = if counts.usesBy user = 0 then Option.none else some (counts.usesBy user) := by
  rw [usesBy]
  cases found : counts.external.get? user with
  | none => rfl
  | some n =>
    obtain ⟨entry, member, -, rfl⟩ := SortedMap.exists_mem_of_get? found
    simp [counts.positive entry member]

theorem same_of_usesBy {a b : ExactCounts} (internal : a.internal = b.internal)
    (uses : ∀ user, a.usesBy user = b.usesBy user) : a.Same b :=
  ⟨internal, fun user => by rw [get?_external, get?_external, uses]⟩

theorem Same.eq {files : Path → Prop} {a b : ExactCounts} (same : a.Same b) (usedA : a.UsedOnlyBy files)
    (usedB : b.UsedOnlyBy files) (spelled : ∀ x y, files x → files y → compare x y = .eq → x = y) : a = b := by
  refine ext_counts same.internal (SortedMap.eq_of_get?_eq ?_ same.external)
  intro x inA y inB equal
  exact spelled x.1 y.1 (usedA x inA) (usedB y inB) equal

end ExactCounts

namespace Usage

def SameCounts (a b : SortedMap SymbolKey ExactCounts) : Prop :=
  ∀ key, Option.Rel ExactCounts.Same (a.get? key) (b.get? key)

private theorem SameCounts.cases {a b : SortedMap SymbolKey ExactCounts} (same : SameCounts a b) (key : SymbolKey) :
    (a.get? key = none ∧ b.get? key = none) ∨
      ∃ inA inB, a.get? key = some inA ∧ b.get? key = some inB ∧ inA.Same inB := by
  have related := same key
  generalize a.get? key = foundA at related ⊢
  generalize b.get? key = foundB at related ⊢
  cases related with
  | none => exact .inl ⟨rfl, rfl⟩
  | some alike => exact .inr ⟨_, _, rfl, rfl, alike⟩

/-- Counts that are those of several parts taken together: the uses of a symbol add up, and it has an entry if it
has one in some part. -/
structure IsSum (counts : SortedMap SymbolKey ExactCounts) (parts : List (SortedMap SymbolKey ExactCounts)) :
    Prop where
  internal : ∀ key, (countsOf counts key).internal = (parts.map fun part => (countsOf part key).internal).sum
  external : ∀ key user,
    (countsOf counts key).usesBy user = (parts.map fun part => (countsOf part key).usesBy user).sum
  entries : ∀ key, counts.contains key ↔ ∃ part ∈ parts, part.contains key

namespace IsSum
variable {counts other : SortedMap SymbolKey ExactCounts} {parts others : List (SortedMap SymbolKey ExactCounts)}

theorem empty : IsSum .empty [] :=
  ⟨fun _ => rfl, fun _ _ => rfl, fun _ => ⟨nofun, fun ⟨_, member, _⟩ => absurd member List.not_mem_nil⟩⟩

private theorem countsOf_addAll (counts part : SortedMap SymbolKey ExactCounts) (key : SymbolKey) :
    countsOf (counts.addAll .merge part.entries) key = (countsOf counts key).merge (countsOf part key) := by
  rw [countsOf, SortedMap.get?_addAll_entries, countsOf, countsOf]
  cases counts.get? key with
  | none => cases part.get? key <;> simp [Option.merge, ExactCounts.none_merge]
  | some => cases part.get? key <;> simp [Option.merge, ExactCounts.merge_none]

private theorem contains_addAll (counts part : SortedMap SymbolKey ExactCounts) (key : SymbolKey) :
    (counts.addAll .merge part.entries).contains key ↔ counts.contains key ∨ part.contains key := by
  rw [SortedMap.contains, SortedMap.get?_addAll_entries, SortedMap.contains, SortedMap.contains]
  cases counts.get? key <;> cases part.get? key <;> simp [Option.merge]

theorem addAll (sum : IsSum counts parts) (part : SortedMap SymbolKey ExactCounts) :
    IsSum (counts.addAll .merge part.entries) (parts ++ [part]) where
  internal key := by
    rw [countsOf_addAll, ExactCounts.internal_merge, sum.internal, List.map_append, List.sum_append]
    simp
  external key user := by
    rw [countsOf_addAll, ExactCounts.usesBy_merge, sum.external, List.map_append, List.sum_append]
    simp
  entries key := by
    rw [contains_addAll, sum.entries]
    simp [or_and_right, exists_or]

theorem foldl (sum : IsSum counts parts) (more : List (SortedMap SymbolKey ExactCounts)) :
    IsSum (more.foldl (fun counts part => counts.addAll .merge part.entries) counts) (parts ++ more) := by
  induction more generalizing counts parts with
  | nil => rwa [List.append_nil]
  | cons part rest ih =>
    rw [List.append_cons]
    exact ih (sum.addAll part)

/-- The order of the parts makes no difference. -/
theorem sameCounts (sum : IsSum counts parts) (sumToo : IsSum other others) (permuted : parts.Perm others) :
    SameCounts counts other := by
  intro key
  have internal : (countsOf counts key).internal = (countsOf other key).internal := by
    rw [sum.internal, sumToo.internal, (permuted.map _).sum_nat]
  have external (user : Path) : (countsOf counts key).usesBy user = (countsOf other key).usesBy user := by
    rw [sum.external, sumToo.external, (permuted.map _).sum_nat]
  have entries : counts.contains key ↔ other.contains key := by
    simp only [sum.entries, sumToo.entries, permuted.mem_iff]
  rw [SortedMap.contains, SortedMap.contains] at entries
  simp only [countsOf] at internal external
  cases found : counts.get? key <;> cases foundToo : other.get? key <;> rw [found, foundToo] at entries
  case none.none => exact .none
  case some.some =>
    simp only [found, foundToo] at internal external
    exact .some (ExactCounts.same_of_usesBy internal external)
  all_goals simp at entries

end IsSum

/-- What a file adds to counts is what it adds to nothing. -/
theorem Counter.countFile_eq_alone (counter : Counter) (counts : SortedMap SymbolKey ExactCounts) (file : Path)
    (contents : List Char) :
    counter.countFile counts file contents =
      counts.addAll .merge (counter.countFile .empty file contents).entries := by
  rw [countFile_eq_addAll, countFile_eq_addAll, SortedMap.addAll_gathered ExactCounts.merge_assoc]
  rfl

/-! ### Files one after another -/

namespace Tally

def readable (tree : FileTree) (files : List Path) : List (Path × String) :=
  files.filterMap fun file => (tree.read file).toOption.map (file, ·)

def unreadable (tree : FileTree) (files : List Path) : List Warning :=
  files.filterMap fun file =>
    match tree.read file with
    | .error cause => some (.unreadable file cause)
    | .ok _ => none

def alone (counter : Counter) (tree : FileTree) (files : List Path) : List (SortedMap SymbolKey ExactCounts) :=
  (readable tree files).map fun (file, contents) => counter.countFile .empty file contents.toList

/-- Counting files one after another adds what each gives by itself. -/
theorem foldl_addFile (counter : Counter) (tree : FileTree) (tally : Tally) (files : List Path) :
    files.foldl (addFile counter tree) tally =
      ⟨(alone counter tree files).foldl (fun counts part => counts.addAll .merge part.entries) tally.exact,
        tally.warnings ++ unreadable tree files, tally.filesCounted + (readable tree files).length⟩ := by
  induction files generalizing tally with
  | nil => simp [alone, readable, unreadable]
  | cons file rest ih =>
    rw [List.foldl_cons, ih]
    cases read : tree.read file with
    | error cause => simp [addFile, alone, readable, unreadable, read, Except.toOption]
    | ok contents =>
      simp only [addFile, read, counter.countFile_eq_alone tally.exact]
      simp [alone, readable, unreadable, read, Except.toOption, Nat.add_assoc, Nat.add_comm 1]

/-! ### Spellings -/

/-- Keys that compare as equal are spelled alike. -/
def SpelledAlike {κ : Type} [Ord κ] (keys : List κ) : Prop := ∀ a ∈ keys, ∀ b ∈ keys, compare a b = .eq → a = b

/-- The symbols and the other files in counts are spelled as in some lists. -/
def SpelledIn (keys : List SymbolKey) (files : List Path) (counts : SortedMap SymbolKey ExactCounts) : Prop :=
  ∀ entry ∈ counts.entries, entry.1 ∈ keys ∧ entry.2.UsedOnlyBy (· ∈ files)

private theorem countIn_usedOnlyBy (target : Target) (visibility : Visibility) (user : Path) (found : List Mention) :
    (target.countIn visibility user found).UsedOnlyBy (· = user) := by
  unfold Target.countIn
  split
  · exact .none
  split
  · exact .addInternal .none _
  · refine .addExternal ?_ _
    rfl

private theorem SpelledIn.countFile {table : SymbolTable} {files : List Path} {counts : SortedMap SymbolKey ExactCounts}
    (spelled : SpelledIn (table.classes.keys ++ table.functions.keys) files counts) (layout : PackageLayout)
    {file : Path} (listed : file ∈ files) (contents : List Char) :
    SpelledIn (table.classes.keys ++ table.functions.keys) files
      ((Counter.ofVisibility (.ofTable table layout)).countFile counts file contents) := by
  rw [Counter.countFile_eq_addAll]
  refine SortedMap.forall_addAll
    (fun key (counts : ExactCounts) => key ∈ table.classes.keys ++ table.functions.keys ∧ counts.UsedOnlyBy (· ∈ files))
    (fun _ known new => ⟨known.1, known.2.merge new.2⟩) spelled fun entry member => ?_
  obtain ⟨target, inTargets, rfl⟩ := List.mem_map.mp (List.mem_filter.mp member).1
  refine ⟨List.mem_append.mpr ?_, (countIn_usedOnlyBy target _ file _).mono ?_⟩
  · rcases of_mem_ofTable inTargets with ⟨entry, inClasses, -, rfl⟩ | ⟨entry, inFunctions, -, rfl⟩
    · exact .inl (List.mem_map_of_mem inClasses)
    · exact .inr (List.mem_map_of_mem inFunctions)
  · rintro _ rfl
    exact listed

private theorem spelledIn_foldl (table : SymbolTable) (layout : PackageLayout) (tree : FileTree) (files : List Path)
    (pool : List Warning) :
    SpelledIn (table.classes.keys ++ table.functions.keys) files
      (files.foldl (addFile (.ofVisibility (.ofTable table layout)) tree) { empty with warnings := pool }).exact := by
  refine List.foldlRecOn (motive := fun tally : Tally => SpelledIn _ files tally.exact) files _ ?_ ?_
  · exact fun _ member => absurd member List.not_mem_nil
  · intro tally spelled file listed
    unfold addFile
    split
    · exact spelled
    · exact spelled.countFile layout listed _

private theorem eq_of_sameCounts {keys : List SymbolKey} {files : List Path} {a b : SortedMap SymbolKey ExactCounts}
    (same : SameCounts a b) (spelledA : SpelledIn keys files a) (spelledB : SpelledIn keys files b)
    (keysAlike : SpelledAlike keys) (filesAlike : SpelledAlike files) : a = b := by
  refine SortedMap.eq_of_get?_eq ?_ fun key => ?_
  · intro x inA y inB equal
    exact keysAlike x.1 (spelledA x inA).1 y.1 (spelledB y inB).1 equal
  · rcases same.cases key with ⟨foundA, foundB⟩ | ⟨countsA, countsB, foundA, foundB, alike⟩
    · rw [foundA, foundB]
    · obtain ⟨x, inA, -, rfl⟩ := SortedMap.exists_mem_of_get? foundA
      obtain ⟨y, inB, -, rfl⟩ := SortedMap.exists_mem_of_get? foundB
      rw [foundA, foundB, alike.eq (spelledA x inA).2 (spelledB y inB).2]
      exact fun file other listed listedToo => filesAlike file listed other listedToo

/-! ### All files -/

private theorem filter_io_unreadable (tree : FileTree) (files : List Path) {pool : List Warning}
    (pooled : ∀ warning ∈ pool, warning.tag = "pool") :
    (pool ++ unreadable tree files).filter (·.tag == "io") = unreadable tree files := by
  rw [List.filter_append, List.filter_eq_nil_iff.mpr, List.nil_append, List.filter_eq_self]
  · intro warning member
    obtain ⟨file, -, found⟩ := List.mem_filterMap.mp member
    split at found
    · cases found
      rfl
    · cases found
  · intro warning member
    rw [pooled warning member]
    decide

def usedClass : FileTree where
  entries := [
    (["a.dart"], .file (.text "class A \x7b\x7d\nA a = A();\nA f() => a;")),
    (["b.dart"], .file (.text "import 'a.dart';\nA b;"))]
  here := []

def usedClassTable : SymbolTable :=
  (SymbolTable.empty.insertClass ⟨"A", ⟨"/a.dart"⟩, .plainClass, 1, 6, false, false, .none⟩).insertDirectives
    { FileDirectives.empty ⟨"/b.dart"⟩ with
      imports := [⟨"a.dart", some ⟨"/a.dart"⟩, none, [], [], false, ⟨"/b.dart"⟩⟩] }

end Tally
end Usage
end DeadCode

import DeadCode.Proofs.Access
import DeadCode.Proofs.Definitions
import DeadCode.Proofs.Uses
import DeadCode.Proofs.Visits
import DeadCode.Proofs.WorkerIndependence

/-!
Private names stay in their library. A private constructor belongs to a private class, so every symbol with a
private key is looked for under a private name; no file outside of the library can write that, and no way of
putting counts together makes a use of its own.
-/
namespace DeadCode
open DeadCode.Visibility (isPrivate)

theorem LibraryIndex.sameLibrary_of_same {index : LibraryIndex} {a b user : Path} (same : a.same b)
    (shared : index.sameLibrary a user) : index.sameLibrary b user := by
  simp only [sameLibrary, Bool.or_eq_true] at shared ⊢
  have back := Path.same_symm same
  exact shared.imp (Path.same_trans back) (Path.same_trans (index.libraryOf_same back))

/-! ### Tables -/

/-- The owner of a constructor is what the name begins with. -/
theorem Source.toList_owner_of_isConstructor {withFunctions : Bool} {file : Path} {contents : List Char}
    {entity : FunctionEntity} (recorded : entity ∈ (scan withFunctions file contents).functions)
    (constructs : entity.isConstructor) : entity.owner.toList = firstPart entity.name ∧ firstPart entity.name ≠ [] := by
  obtain ⟨visit, member, adds⟩ := mem_functions_iff.mp recorded
  obtain ⟨context, above, below, definition, ⟨enclosing, -⟩, found, name, owner, -, -, -, same, -⟩ :=
    visit.exists_definition member adds
  obtain ⟨-, nonempty, -, owned⟩ := standsAt_of_definitionAt? found
  obtain ⟨own, around, part⟩ := owned (same ▸ constructs)
  rw [← enclosing, around, Option.getD_some] at owner
  rw [owner, name]
  exact ⟨part, nonempty⟩

private theorem isPrivate_owner {withFunctions : Bool} {file : Path} {contents : List Char} {entity : FunctionEntity}
    (recorded : entity ∈ (Source.scan withFunctions file contents).functions) (constructs : entity.isConstructor)
    (hidden : isPrivate entity.name) : isPrivate entity.owner := by
  obtain ⟨part, nonempty⟩ := Source.toList_owner_of_isConstructor recorded constructs
  obtain ⟨c, rest, begins⟩ := List.exists_cons_of_ne_nil nonempty
  obtain ⟨after, whole⟩ : Source.firstPart entity.name <+: entity.name.toList := List.takeWhile_prefix _
  rw [isPrivate, ← whole, begins] at hidden
  rw [isPrivate, part, begins]
  exact hidden

namespace SymbolTable

/-- The key says in which file the class is and what it is called. -/
def KeyOfClass (key : SymbolKey) (entity : ClassEntity) : Prop := key.file.same entity.file ∧ key.name = entity.name

/-- The key says in which file the function is and what it is called, and the owner of a private constructor is
private. -/
def KeyOfFunction (key : SymbolKey) (entity : FunctionEntity) : Prop :=
  (key.file.same entity.file ∧ key.name = entity.name) ∧
    (entity.isConstructor → isPrivate entity.name → isPrivate entity.owner)

structure IsKeyed (table : SymbolTable) : Prop where
  classes : ∀ entry ∈ table.classes.entries, KeyOfClass entry.1 entry.2
  functions : ∀ entry ∈ table.functions.entries, KeyOfFunction entry.1 entry.2

private theorem denotes_of_compare_eq {key other : SymbolKey} {file : Path} {name : String}
    (equal : compare other key = .eq) (denotes : other.file.same file ∧ other.name = name) :
    key.file.same file ∧ key.name = name := by
  obtain ⟨sameFile, -, sameName, -⟩ := SymbolKey.compare_eq_iff.mp equal
  exact ⟨Path.same_trans (Path.same_symm sameFile) denotes.1, sameName ▸ denotes.2⟩

namespace IsKeyed
variable {table : SymbolTable}

theorem empty : SymbolTable.empty.IsKeyed :=
  ⟨fun _ member => absurd member List.not_mem_nil, fun _ member => absurd member List.not_mem_nil⟩

private theorem addClasses (keyed : table.IsKeyed) {entries : List (SymbolKey × ClassEntity)}
    (new : ∀ entry ∈ entries, KeyOfClass entry.1 entry.2) :
    ∀ entry ∈ (table.classes.addAll later entries).entries, KeyOfClass entry.1 entry.2 :=
  SortedMap.forall_addAll KeyOfClass (fun equal _ new => denotes_of_compare_eq equal new) keyed.classes new

private theorem addFunctions (keyed : table.IsKeyed) {entries : List (SymbolKey × FunctionEntity)}
    (new : ∀ entry ∈ entries, KeyOfFunction entry.1 entry.2) :
    ∀ entry ∈ (table.functions.addAll later entries).entries, KeyOfFunction entry.1 entry.2 :=
  SortedMap.forall_addAll KeyOfFunction (fun equal _ new => ⟨denotes_of_compare_eq equal new.1, new.2⟩)
    keyed.functions new

theorem insertSource (keyed : table.IsKeyed) (withFunctions : Bool) (layout : PackageLayout) (file : Path)
    (contents : List Char) : (table.insertSource withFunctions layout file contents).IsKeyed := by
  rw [insertSource_eq]
  refine ⟨keyed.addClasses ?_, keyed.addFunctions ?_⟩
  · intro entry member
    obtain ⟨entity, -, rfl⟩ := List.mem_map.mp member
    exact ⟨Path.same_refl _, rfl⟩
  · intro entry member
    obtain ⟨entity, recorded, rfl⟩ := List.mem_map.mp member
    exact ⟨⟨Path.same_refl _, rfl⟩, isPrivate_owner recorded⟩

theorem merge (keyed : table.IsKeyed) {other : SymbolTable} (otherKeyed : other.IsKeyed) :
    (table.merge other).IsKeyed := by
  constructor
  · rw [classes_merge]
    exact keyed.addClasses otherKeyed.classes
  · rw [functions_merge]
    exact keyed.addFunctions otherKeyed.functions

end IsKeyed
end SymbolTable

namespace Project

private theorem isKeyed_scanFile (project : Project) {scan : Scan} (keyed : scan.table.IsKeyed) (file : Path) :
    (project.scanFile scan file).table.IsKeyed := by
  unfold scanFile
  split
  · exact keyed
  · exact keyed.insertSource _ _ _ _

private theorem isKeyed_scanFiles (project : Project) (files : List Path) : (project.scanFiles files).table.IsKeyed := by
  rw [scanFiles]
  refine List.foldlRecOn (motive := fun scan : Scan => scan.table.IsKeyed) files _ SymbolTable.IsKeyed.empty ?_
  intro scan keyed file _
  exact List.foldlRecOn (motive := fun scan : Scan => scan.table.IsKeyed) (project.reach file) _ keyed
    fun scan keyed file _ => project.isKeyed_scanFile keyed file

/-- However a project is read, its table is keyed. -/
theorem isKeyed_scan (project : Project) (machine : Machine) (parallel : ParallelSettings) :
    (project.scan machine parallel).table.IsKeyed := by
  have absorbed (scan part : Scan) (index : Nat) : scan.absorb (.ok part, index) = scan.add part := rfl
  simp only [scan, fst_distribute, foldl_absorb absorbed]
  refine List.foldlRecOn (motive := fun scan : Scan => scan.table.IsKeyed) _ _ SymbolTable.IsKeyed.empty ?_
  exact fun scan keyed chunk _ => keyed.merge (project.isKeyed_scanFiles chunk)

end Project

/-! ### Counts -/

namespace Usage
variable {table : SymbolTable} {layout : PackageLayout}

/-- A private name gives no access from outside of its library. -/
private theorem Target.access_eq_denied {target : Target} {visibility : Visibility} {user : Path}
    (hidden : isPrivate target.visibleName) (apart : visibility.libraries.sameLibrary target.file user = false) :
    target.access visibility user = .denied := by
  unfold Target.access
  split
  · simp [Visibility.resolveMember, hidden, apart]
  · simp [Visibility.resolve, hidden, apart]

private theorem Target.countIn_usedOnlyBy (target : Target) (visibility : Visibility) (user : Path)
    (found : List Mention) (hidden : isPrivate target.visibleName) :
    (target.countIn visibility user found).UsedOnlyBy fun file => visibility.libraries.sameLibrary target.file file := by
  unfold Target.countIn
  split
  · exact .none
  split
  · exact .addInternal .none _
  cases apart : visibility.libraries.sameLibrary target.file user with
  | true => exact .addExternal apart _
  | false =>
    have refused (qualifier : Option String) : Access.denied.allows qualifier = false := by
      cases qualifier <;> rfl
    rw [target.access_eq_denied hidden apart]
    simp only [refused, List.countP_false]
    exact .none

/-- A symbol of a table is looked for under a private name if its key is private. -/
private theorem Target.of_isKeyed {target : Target} (keyed : table.IsKeyed) (member : target ∈ Target.ofTable table) :
    target.key.file.same target.file ∧ (isPrivate target.key.name → isPrivate target.visibleName) := by
  rcases of_mem_ofTable member with ⟨entry, inClasses, -, rfl⟩ | ⟨entry, inFunctions, -, rfl⟩
  · obtain ⟨file, name⟩ := keyed.classes entry inClasses
    refine ⟨file, fun hidden => ?_⟩
    have hidden : isPrivate entry.1.name := hidden
    rwa [name] at hidden
  · obtain ⟨⟨file, name⟩, owner⟩ := keyed.functions entry inFunctions
    refine ⟨file, fun hidden => ?_⟩
    have hidden : isPrivate entry.1.name := hidden
    rw [name] at hidden
    simp only [Target.ofFunction]
    split
    case isTrue constructs => exact owner constructs hidden
    case isFalse => exact hidden

/-- Uses of a symbol with a private key stay in its library. -/
def Stays (libraries : LibraryIndex) (key : SymbolKey) (counts : ExactCounts) : Prop :=
  isPrivate key.name → counts.UsedOnlyBy fun user => libraries.sameLibrary key.file user

private theorem Stays.of_compare_eq {libraries : LibraryIndex} {key other : SymbolKey} {counts : ExactCounts}
    (equal : compare other key = .eq) (stays : Stays libraries other counts) : Stays libraries key counts := by
  obtain ⟨file, -, name, -⟩ := SymbolKey.compare_eq_iff.mp equal
  intro hidden
  exact (stays (name ▸ hidden)).mono fun _ => LibraryIndex.sameLibrary_of_same file

def AllStay (libraries : LibraryIndex) (counts : SortedMap SymbolKey ExactCounts) : Prop :=
  ∀ entry ∈ counts.entries, Stays libraries entry.1 entry.2

private theorem AllStay.empty (libraries : LibraryIndex) : AllStay libraries .empty :=
  fun _ member => absurd member List.not_mem_nil

private theorem AllStay.addAll {libraries : LibraryIndex} {counts : SortedMap SymbolKey ExactCounts}
    {entries : List (SymbolKey × ExactCounts)} (stay : AllStay libraries counts)
    (new : ∀ entry ∈ entries, Stays libraries entry.1 entry.2) : AllStay libraries (counts.addAll .merge entries) :=
  SortedMap.forall_addAll (Stays libraries)
    (fun equal known new hidden => (known hidden).merge (new.of_compare_eq equal hidden)) stay new

private theorem AllStay.countFile {counts : SortedMap SymbolKey ExactCounts} (keyed : table.IsKeyed)
    (stay : AllStay (.ofTable table) counts) (layout : PackageLayout) (file : Path) (contents : List Char) :
    AllStay (.ofTable table) ((Counter.ofVisibility (.ofTable table layout)).countFile counts file contents) := by
  rw [Counter.countFile_eq_addAll]
  refine stay.addAll fun entry member => ?_
  obtain ⟨target, inTargets, rfl⟩ := List.mem_map.mp (List.mem_filter.mp member).1
  obtain ⟨sameFile, hiddenToo⟩ := Target.of_isKeyed keyed inTargets
  intro hidden
  exact (target.countIn_usedOnlyBy _ file _ (hiddenToo hidden)).mono fun _ =>
    LibraryIndex.sameLibrary_of_same (Path.same_symm sameFile)

private theorem AllStay.addFile {tally : Tally} (keyed : table.IsKeyed) (stay : AllStay (.ofTable table) tally.exact)
    (layout : PackageLayout) (tree : FileTree) (file : Path) :
    AllStay (.ofTable table) (Tally.addFile (.ofVisibility (.ofTable table layout)) tree tally file).exact := by
  unfold Tally.addFile
  split
  · exact stay
  · exact stay.countFile keyed layout file _

/-- However the files are divided, the uses stay in their libraries. -/
theorem allStay_ofFiles (keyed : table.IsKeyed) (layout : PackageLayout) (tree : FileTree) (machine : Machine)
    (parallel : ParallelSettings) (files : List Path) :
    AllStay (.ofTable table)
      (Tally.ofFiles (.ofVisibility (.ofTable table layout)) tree machine parallel files).exact := by
  have counted (chunk : List Path) : AllStay (.ofTable table)
      (chunk.foldl (Tally.addFile (.ofVisibility (.ofTable table layout)) tree) .empty).exact :=
    List.foldlRecOn (motive := fun tally : Tally => AllStay (.ofTable table) tally.exact) chunk _ (.empty _)
      fun tally stay file _ => stay.addFile keyed layout tree file
  simp only [Tally.ofFiles, fst_distribute, foldl_absorb Tally.absorb_ok]
  exact List.foldlRecOn (motive := fun tally : Tally => AllStay (.ofTable table) tally.exact) _ _ (.empty _)
    fun tally stay chunk _ => stay.addAll (counted chunk)

/-- Every file that uses a class, function, method or constructor with a private name from outside of its file
belongs to the library that declares it, however the project was read and its files were counted. -/
theorem privateUses_in_library {project : Project} {machine other : Machine}
    {parallel otherParallel : ParallelSettings} {layout : PackageLayout} {tree : FileTree} {files : List Path}
    {tally : Tally}
    (counted : Tally.ofTable (project.scan machine parallel).table layout tree other otherParallel files = .ok tally) :
    (∀ entry ∈ (project.scan machine parallel).table.classes.entries, isPrivate entry.2.name →
      ∀ user ∈ (countsOf tally.exact entry.1).external.keys,
        (LibraryIndex.ofTable (project.scan machine parallel).table).sameLibrary entry.2.file user) ∧
    ∀ entry ∈ (project.scan machine parallel).table.functions.entries, isPrivate entry.2.name →
      ∀ user ∈ (countsOf tally.exact entry.1).external.keys,
        (LibraryIndex.ofTable (project.scan machine parallel).table).sameLibrary entry.2.file user := by
  have keyed := project.isKeyed_scan machine parallel
  generalize (project.scan machine parallel).table = table at keyed counted ⊢
  have stay : AllStay (.ofTable table) tally.exact := by
    unfold Tally.ofTable at counted
    split at counted
    · cases counted
    · cases counted
      exact allStay_ofFiles keyed layout tree other otherParallel files
  have stays (key : SymbolKey) : Stays (.ofTable table) key (countsOf tally.exact key) := by
    rw [countsOf]
    cases found : tally.exact.get? key with
    | none => exact fun _ => .none
    | some counts =>
      obtain ⟨entry, member, equal, rfl⟩ := SortedMap.exists_mem_of_get? found
      exact (stay entry member).of_compare_eq (Std.OrientedCmp.eq_symm equal)
  have inLibrary {key : SymbolKey} {file : Path} {name : String} (sameFile : key.file.same file)
      (sameName : key.name = name) (hidden : isPrivate name) :
      ∀ user ∈ (countsOf tally.exact key).external.keys, (LibraryIndex.ofTable table).sameLibrary file user := by
    intro user used
    obtain ⟨use, inCounts, rfl⟩ := List.mem_map.mp used
    exact LibraryIndex.sameLibrary_of_same sameFile (stays key (sameName ▸ hidden) use inCounts)
  refine ⟨fun entry member hidden => ?_, fun entry member hidden => ?_⟩
  · obtain ⟨file, name⟩ := keyed.classes entry member
    exact inLibrary file name hidden
  · obtain ⟨⟨file, name⟩, -⟩ := keyed.functions entry member
    exact inLibrary file name hidden

/-- A library that declares a private class, its part that uses the class, and a file that imports the library and
writes the name too. -/
def partedLibrary : FileTree where
  entries := [
    (["lib", "a.dart"], .file (.text "part 'b.dart';\nclass _P \x7b\x7d")),
    (["lib", "b.dart"], .file (.text "part of 'a.dart';\n_P p;")),
    (["lib", "c.dart"], .file (.text "import 'a.dart';\n_P p;"))]
  here := []

def partedProject : Project where
  tree := partedLibrary
  layout := .libSegment (.ofFiles [])
  files := [⟨"/lib/a.dart"⟩, ⟨"/lib/b.dart"⟩, ⟨"/lib/c.dart"⟩]
  settings := ⟨true, false⟩

theorem privateUses_in_library_parted :
    let table := (partedProject.scan ⟨4, none⟩ ⟨some 2, 1, 0⟩).table
    ∃ tally, Tally.ofTable table partedProject.layout partedLibrary ⟨2, none⟩ ⟨some 1, 1, 0⟩ partedProject.files =
        .ok tally ∧
      (∃ entry ∈ table.classes.entries, isPrivate entry.2.name ∧
        (countsOf tally.exact entry.1).external.keys = [⟨"/lib/b.dart"⟩]) ∧
      ∀ entry ∈ table.classes.entries, isPrivate entry.2.name →
        ∀ user ∈ (countsOf tally.exact entry.1).external.keys,
          (LibraryIndex.ofTable table).sameLibrary entry.2.file user := by
  intro table
  obtain ⟨tally, counted, used⟩ : ∃ tally,
      Tally.ofTable table partedProject.layout partedLibrary ⟨2, none⟩ ⟨some 1, 1, 0⟩ partedProject.files = .ok tally ∧
        ∃ entry ∈ table.classes.entries, isPrivate entry.2.name ∧
          (countsOf tally.exact entry.1).external.keys = [⟨"/lib/b.dart"⟩] := by
    -- The walk along exports does not evaluate, so the table is first written as what two workers read.
    have read : table = ((partition partedProject.files 2).foldl
        (fun scan chunk => scan.add (chunk.foldl partedProject.scanFile .empty)) Scan.empty).table := by
      have absorbed (scan part : Scan) (index : Nat) : scan.absorb (.ok part, index) = scan.add part := rfl
      rw [← Project.scanFrom_of_unfollowed rfl]
      simp only [table, Project.scan, fst_distribute, foldl_absorb absorbed]
      rfl
    rw [read]
    exact ⟨_, if_neg (by decide +kernel), by decide +kernel⟩
  exact ⟨tally, counted, used, (privateUses_in_library counted).1⟩

end Usage
end DeadCode

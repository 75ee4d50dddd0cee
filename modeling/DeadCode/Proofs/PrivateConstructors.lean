import DeadCode.Proofs.Privacy
import DeadCode.Proofs.SharedKeys
import DeadCode.Proofs.UsageSums

/-!
Private named constructors leave their library. Of a named constructor the class is what has to be visible, so the part
after the dot does not keep a use from being counted, also where that part is private. The uses stay in the library
exactly if no file outside of it writes the constructor after a class that it has access to.
-/
namespace DeadCode

theorem LibraryIndex.sameLibrary_of_same_user {index : LibraryIndex} {file a b : Path} (same : a.same b)
    (shared : index.sameLibrary file a) : index.sameLibrary file b := by
  simp only [sameLibrary, Bool.or_eq_true] at shared ⊢
  exact shared.imp (Path.same_trans · same) (Path.same_trans · (index.libraryOf_same same))

namespace ExactCounts

/-- The files outside that use a symbol, up to how they are spelled, are those that add to its uses. -/
theorem forall_external_iff {counts : ExactCounts} {allowed : Path → Prop}
    (spelling : ∀ {a b : Path}, a.same b → allowed a → allowed b) :
    (∀ user ∈ counts.external.keys, allowed user) ↔ ∀ user, counts.usesBy user ≠ 0 → allowed user := by
  constructor
  · intro only user used
    have found := counts.get?_external user
    rw [if_neg used] at found
    obtain ⟨entry, member, equal, -⟩ := SortedMap.exists_mem_of_get? found
    exact spelling (Path.same_symm (Path.compare_eq_iff_same.mp equal)) (only entry.1 (List.mem_map_of_mem member))
  · intro only user member
    obtain ⟨entry, inCounts, rfl⟩ := List.mem_map.mp member
    apply only
    rw [usesBy, SortedMap.get?_of_mem inCounts]
    exact counts.positive entry inCounts

end ExactCounts

namespace Usage
open DeadCode.Text DeadCode.Source

/-! ### What a file adds -/

def Counter.mentionsIn (counter : Counter) (source : Path × String) : List Mention :=
  mentions counter.names (scan true source.1 source.2.toList).sites (sanitize (lines source.2.toList))

theorem Target.usesBy_countIn_ne_zero_iff {target : Target} {visibility : Visibility} {file user : Path}
    {found : List Mention} :
    (target.countIn visibility file found).usesBy user ≠ 0 ↔
      target.file.same file = false ∧ user.same file ∧
        ∃ use ∈ target.uses found, (target.access visibility file).allows use.2 := by
  have none : ExactCounts.none.usesBy user = 0 := rfl
  rw [countIn_eq]
  cases target.file.same file with
  | true =>
    rw [if_pos rfl]
    exact ⟨fun used => absurd none used, fun outside => absurd outside.1.symm Bool.false_ne_true⟩
  | false =>
    rw [if_neg Bool.false_ne_true, ExactCounts.usesBy_addExternal, none, Nat.zero_add]
    cases user.same file with
    | true => simp
    | false => simp

section
variable {table : SymbolTable} {entry : SymbolKey × FunctionEntity}
  (unowned : ∀ cls ∈ table.classes.entries, cls.1.owner = "") (member : entry ∈ table.functions.entries)
  (owned : entry.1.owner ≠ "")
include unowned owned

/-- A symbol with an owner in its key is no class. -/
private theorem compare_class_ne {cls : SymbolKey × ClassEntity} (inClasses : cls ∈ table.classes.entries) :
    compare entry.1 cls.1 ≠ .eq := by
  intro equal
  obtain ⟨-, owner, -⟩ := SymbolKey.compare_eq_iff.mp equal
  exact owned (owner.trans (unowned cls inClasses))

/-- At most one symbol has a key with an owner. -/
private theorem pairwise_ofTable : (Target.ofTable table).Pairwise fun a b =>
    compare entry.1 a.key = .eq → compare entry.1 b.key ≠ .eq := by
  have distinct {a b : Target} (apart : compare a.key b.key ≠ .eq) :
      compare entry.1 a.key = .eq → compare entry.1 b.key ≠ .eq :=
    fun equal equalToo => apart (Std.TransCmp.eq_trans (Std.OrientedCmp.eq_symm equal) equalToo)
  refine List.pairwise_append.mpr ⟨?_, ?_, ?_⟩
  · exact (compare_key_ne_of_ordered _ _ fun _ => rfl).imp distinct
  · exact (compare_key_ne_of_ordered _ _ fun _ => rfl).imp distinct
  · intro a inClasses b inFunctions equal
    obtain ⟨cls, kept, rfl⟩ := List.mem_map.mp inClasses
    exact absurd equal (compare_class_ne unowned owned (List.mem_filter.mp kept).1)

include member in
/-- What a file adds to the counts of a function with an owner is what it adds for this function. -/
theorem countsOf_countFile (layout : PackageLayout) (source : Path × String) :
    let counter := Counter.ofVisibility (.ofTable table layout)
    countsOf (counter.countFile .empty source.1 source.2.toList) entry.1 =
      if entry.2.commentedOut then .none
      else (Target.ofFunction entry.1 entry.2).countIn counter.visibility source.1 (counter.mentionsIn source) := by
  intro counter
  split
  case isTrue idle =>
    have silent : ∀ target ∈ counter.targets, compare entry.1 target.key ≠ .eq := by
      intro target inTargets equal
      rcases of_mem_ofTable inTargets with ⟨cls, inClasses, -, rfl⟩ | ⟨other, inTable, live, rfl⟩
      · exact compare_class_ne unowned owned inClasses equal
      · rw [← SortedMap.snd_eq_of_mem member inTable equal, idle] at live
        cases live
    rw [countsOf, Counter.countFile, get?_foldl_addCounts _ _ fun target inTargets equal =>
      absurd equal (silent target inTargets)]
    rfl
  case isFalse live =>
    have inTargets : Target.ofFunction entry.1 entry.2 ∈ counter.targets :=
      List.mem_append_right _ (List.mem_map_of_mem (List.mem_filter.mpr ⟨member, by simpa using live⟩))
    have single := countsOf_foldl_addCounts_of_single
      (fun target => target.countIn counter.visibility source.1 (counter.mentionsIn source)) inTargets
      (pairwise_ofTable unowned owned) .empty
    exact single.trans (ExactCounts.none_merge _)

end

/-- A file uses a symbol if one of the files that are counted, it or one spelled otherwise, adds a use by it. -/
theorem Tally.usesBy_ne_zero_iff (counter : Counter) (tree : FileTree) (machine : Machine)
    (parallel : ParallelSettings) (files : List Path) (key : SymbolKey) (user : Path) :
    (countsOf (ofFiles counter tree machine parallel files).exact key).usesBy user ≠ 0 ↔
      ∃ source ∈ readable tree files,
        (countsOf (counter.countFile .empty source.1 source.2.toList) key).usesBy user ≠ 0 := by
  have sum : IsSum (ofFiles counter tree machine parallel files).exact (alone counter tree files) := by
    rw [ofFiles_eq_foldl_warned, foldl_addFile]
    exact IsSum.empty.foldl _
  rw [sum.external, ne_eq, List.sum_eq_zero_iff_forall_eq_nat, alone, List.map_map, List.forall_mem_map]
  simp only [not_forall, exists_prop]
  rfl

/-! ### Constructors -/

/-- A use of a named constructor in a file: its name stands after that of its class, and the file has access to the
class in that way. -/
structure Mention.Constructs (mention : Mention) (visibility : Visibility) (entity : FunctionEntity) (simple : String)
    (user : Path) : Prop where
  role : mention.role = .function
  name : mention.name = simple
  allowed : ∃ qualifier, mention.occurrence.ownerQualifier? entity.owner = some qualifier ∧
    (visibility.resolve entity.owner entity.file user).allows qualifier

section
variable {entity : FunctionEntity} {simple : String} (constructs : entity.isConstructor)
  (owned : entity.owner.toList = firstPart entity.name) (named : entity.name = entity.owner ++ "." ++ simple)
include constructs owned named

/-- A named constructor is looked for under its own name, with its class in front, and its class has to be visible. -/
theorem Target.ofFunction_of_named (key : SymbolKey) :
    ofFunction key entity =
      ⟨key, entity.file, .function, simple, some entity.owner, entity.owner, false, entity.line⟩ := by
  have letters : entity.name.toList = entity.owner.toList ++ '.' :: simple.toList := by
    rw [named]
    simp
  have dotted : entity.name.toList.contains '.' = true := by simp [letters]
  have front : String.ofList (entity.name.toList.takeWhile (· != '.')) = entity.owner := by
    rw [← firstPart, ← owned, String.ofList_toList]
  have back : entity.name.toList.dropWhile (· != '.') = '.' :: simple.toList := by
    have whole : entity.owner.toList ++ entity.name.toList.dropWhile (· != '.') = entity.name.toList := by
      rw [owned]
      exact List.takeWhile_append_dropWhile
    exact List.append_cancel_left (whole.trans letters)
  simp only [ofFunction, dotted, front, back, constructs, if_true, List.drop_one, List.tail_cons, String.ofList_toList,
    Bool.not_true, Bool.and_false]

theorem Target.exists_use_iff (key : SymbolKey) (visibility : Visibility) (user : Path) (found : List Mention) :
    (∃ use ∈ (ofFunction key entity).uses found, ((ofFunction key entity).access visibility user).allows use.2) ↔
      ∃ mention ∈ found, mention.Constructs visibility entity simple user := by
  rw [ofFunction_of_named constructs owned named]
  constructor
  · rintro ⟨use, member, allowed⟩
    obtain ⟨mention, inFound, same⟩ := List.mem_filterMap.mp member
    obtain ⟨refers, same⟩ := Option.ite_none_right_eq_some.mp same
    obtain ⟨qualifier, written, rfl⟩ := Option.map_eq_some_iff.mp same
    obtain ⟨role, name⟩ := Bool.and_eq_true_iff.mp refers
    exact ⟨mention, inFound, of_decide_eq_true role, eq_of_beq name, qualifier, written, allowed⟩
  · rintro ⟨mention, inFound, role, name, qualifier, written, allowed⟩
    refine ⟨(mention.line, qualifier), List.mem_filterMap.mpr ⟨mention, inFound, ?_⟩, allowed⟩
    rw [role, name]
    simp [qualifier?, written]

end

/-- A file uses a named constructor from outside if it is another one than that of the constructor and constructs
something there. -/
theorem usesBy_constructor_ne_zero_iff {table : SymbolTable} {entry : SymbolKey × FunctionEntity} {simple : String}
    (unowned : ∀ cls ∈ table.classes.entries, cls.1.owner = "") (member : entry ∈ table.functions.entries)
    (ownKey : entry.1.owner ≠ "") (constructs : entry.2.isConstructor)
    (owned : entry.2.owner.toList = firstPart entry.2.name) (named : entry.2.name = entry.2.owner ++ "." ++ simple)
    (layout : PackageLayout) (tree : FileTree) (machine : Machine) (parallel : ParallelSettings) (files : List Path)
    (user : Path) :
    let counter := Counter.ofVisibility (.ofTable table layout)
    (countsOf (Tally.ofFiles counter tree machine parallel files).exact entry.1).usesBy user ≠ 0 ↔
      entry.2.commentedOut = false ∧ ∃ source ∈ Tally.readable tree files,
        entry.2.file.same source.1 = false ∧ user.same source.1 ∧
          ∃ mention ∈ counter.mentionsIn source, mention.Constructs counter.visibility entry.2 simple source.1 := by
  intro counter
  rw [Tally.usesBy_ne_zero_iff]
  have added (source : Path × String) := countsOf_countFile unowned member ownKey layout source
  cases idle : entry.2.commentedOut with
  | true =>
    refine iff_of_false ?_ fun live => Bool.false_ne_true live.1.symm
    rintro ⟨source, -, used⟩
    rw [added, if_pos idle] at used
    exact used rfl
  | false =>
    rw [eq_self, true_and]
    refine exists_congr fun source => and_congr_right fun _ => ?_
    rw [added, if_neg (idle ▸ Bool.false_ne_true), Target.usesBy_countIn_ne_zero_iff,
      Target.exists_use_iff constructs owned named]
    rfl

/-- The files outside of its library that use a named constructor, where they are counted, are those that write it after
its class and have access to the class. Whether its own part of the name is private makes no difference, so its uses
stay in the library exactly if there is no such file. -/
theorem constructorUses_in_library_iff {project : Project} {machine other : Machine}
    {parallel otherParallel : ParallelSettings} {layout : PackageLayout} {tree : FileTree} {files : List Path}
    {tally : Tally} {entry : SymbolKey × FunctionEntity} {simple : String}
    (counted : Tally.ofTable (project.scan machine parallel).table layout tree other otherParallel files = .ok tally)
    (member : entry ∈ (project.scan machine parallel).table.functions.entries) (constructs : entry.2.isConstructor)
    (named : entry.2.name = entry.2.owner ++ "." ++ simple) :
    let visibility := Visibility.ofTable (project.scan machine parallel).table layout
    (∀ user ∈ (countsOf tally.exact entry.1).external.keys, visibility.libraries.sameLibrary entry.2.file user) ↔
      entry.2.commentedOut ∨
        ∀ source ∈ Tally.readable tree files, visibility.libraries.sameLibrary entry.2.file source.1 = false →
          ∀ mention ∈ (Counter.ofVisibility visibility).mentionsIn source,
            ¬mention.Constructs visibility entry.2 simple source.1 := by
  have found := project.allFound_scan machine parallel
  obtain ⟨ownKey, -, contents, -, recorded⟩ := found.functions entry member
  obtain ⟨owned, nonempty⟩ := toList_owner_of_isConstructor recorded constructs
  have unowned : ∀ cls ∈ (project.scan machine parallel).table.classes.entries, cls.1.owner = "" := by
    intro cls inClasses
    obtain ⟨classKey, -⟩ := found.classes cls inClasses
    exact (SymbolKey.compare_eq_iff.mp classKey).2.1
  have ownKey : entry.1.owner ≠ "" := by
    obtain ⟨-, owner, -⟩ := SymbolKey.compare_eq_iff.mp ownKey
    rintro empty
    have empty : entry.2.owner = "" := owner.symm.trans empty
    rw [empty] at owned
    exact nonempty owned.symm
  generalize (project.scan machine parallel).table = table at counted member unowned ⊢
  intro visibility
  have counted : tally = Tally.ofFiles (.ofVisibility visibility) tree other otherParallel files := by
    unfold Tally.ofTable at counted
    split at counted
    · cases counted
    · exact (Except.ok.inj counted).symm
  have used (user : Path) := usesBy_constructor_ne_zero_iff unowned member ownKey constructs owned named layout tree other
    otherParallel files user
  rw [counted, ExactCounts.forall_external_iff fun same => LibraryIndex.sameLibrary_of_same_user same]
  cases idle : entry.2.commentedOut with
  | true =>
    refine iff_of_true (fun user uses => ?_) (.inl rfl)
    obtain ⟨live, -⟩ := (used user).mp uses
    rw [idle] at live
    cases live
  | false =>
    rw [Bool.false_eq_true, false_or]
    constructor
    · intro stays source read outside mention inSource written
      have apart : entry.2.file.same source.1 = false := (Bool.or_eq_false_iff.mp outside).1
      have inside := stays source.1
        ((used source.1).mpr ⟨idle, source, read, apart, Path.same_refl _, mention, inSource, written⟩)
      rw [outside] at inside
      cases inside
    · intro none user uses
      obtain ⟨-, source, read, -, same, mention, inSource, written⟩ := (used user).mp uses
      by_contra outside
      refine none source read (Bool.of_not_eq_true fun shared => outside ?_) mention inSource written
      exact LibraryIndex.sameLibrary_of_same_user (Path.same_symm same) shared

/-- A public class with a private constructor, and a file that uses the constructor after a directive. -/
def constructorProject (directive : String) : Project where
  tree := {
    entries := [
      (["a.dart"], .file (.text "class A \x7b\n  A._();\n\x7d")),
      (["b.dart"], .file (.text (directive ++ " 'a.dart';\nfinal x = A._();")))]
    here := [] }
  layout := .libSegment (.ofFiles [])
  files := [⟨"/a.dart"⟩, ⟨"/b.dart"⟩]
  settings := ⟨true, false⟩

-- The walk along exports does not evaluate, so the table is first written as what two workers read.
private theorem table_constructorProject (directive : String) :
    ((constructorProject directive).scan ⟨4, none⟩ ⟨some 2, 1, 0⟩).table =
      ((partition (constructorProject directive).files 2).foldl (fun scan chunk =>
        scan.add (chunk.foldl (constructorProject directive).scanFile .empty)) Scan.empty).table := by
  have workers : ParallelSettings.workersFor ⟨some 2, 1, 0⟩ ⟨4, none⟩ 2 = 2 := rfl
  have two : (constructorProject directive).files.length = 2 := rfl
  rw [Project.scan_eq_collected, Project.collected, distribute_eq rfl, two, workers,
    ← Project.scanFrom_of_unfollowed rfl]
  rfl

private theorem ofTable_of_mem {table : SymbolTable} {entry : SymbolKey × FunctionEntity}
    (member : entry ∈ table.functions.entries) (layout : PackageLayout) (tree : FileTree) (machine : Machine)
    (parallel : ParallelSettings) (files : List Path) :
    Tally.ofTable table layout tree machine parallel files =
      .ok (.ofFiles (.ofVisibility (.ofTable table layout)) tree machine parallel files) := by
  refine if_neg fun empty => ?_
  obtain ⟨-, none⟩ := Bool.and_eq_true_iff.mp empty
  rw [SortedMap.isEmpty, List.isEmpty_iff] at none
  rw [none] at member
  cases member

/-- A part of the library uses the constructor from within the library. -/
theorem constructorUses_in_library_iff_part :
    let project := constructorProject "part of"
    let table := (project.scan ⟨4, none⟩ ⟨some 2, 1, 0⟩).table
    let visibility := Visibility.ofTable table project.layout
    ∃ tally, Tally.ofTable table project.layout project.tree ⟨2, none⟩ ⟨some 1, 1, 0⟩ project.files = .ok tally ∧
      ∃ entry ∈ table.functions.entries, (countsOf tally.exact entry.1).external.keys = [⟨"/b.dart"⟩] ∧
        ((∀ user ∈ (countsOf tally.exact entry.1).external.keys, visibility.libraries.sameLibrary entry.2.file user) ↔
          entry.2.commentedOut ∨ ∀ source ∈ Tally.readable project.tree project.files,
            visibility.libraries.sameLibrary entry.2.file source.1 = false →
              ∀ mention ∈ (Counter.ofVisibility visibility).mentionsIn source,
                ¬mention.Constructs visibility entry.2 "_" source.1) := by
  intro project table visibility
  obtain ⟨entry, member, constructs, named, used⟩ : ∃ entry ∈ table.functions.entries,
      entry.2.isConstructor ∧ entry.2.name = entry.2.owner ++ "." ++ "_" ∧
        (countsOf (Tally.ofFiles (.ofVisibility visibility) project.tree ⟨2, none⟩ ⟨some 1, 1, 0⟩ project.files).exact
          entry.1).external.keys = [⟨"/b.dart"⟩] := by
    simp only [visibility, table, project, table_constructorProject]
    decide +kernel
  have counted := ofTable_of_mem member project.layout project.tree ⟨2, none⟩ ⟨some 1, 1, 0⟩ project.files
  exact ⟨_, counted, entry, member, used, constructorUses_in_library_iff counted member constructs named⟩

/-- A file that imports the library uses the private constructor from outside. -/
theorem private_constructor_used_outside :
    let project := constructorProject "import"
    let table := (project.scan ⟨4, none⟩ ⟨some 2, 1, 0⟩).table
    ∃ tally, Tally.ofTable table project.layout project.tree ⟨2, none⟩ ⟨some 1, 1, 0⟩ project.files = .ok tally ∧
      ∃ entry ∈ table.functions.entries, entry.2.isConstructor ∧ entry.2.name = "A._" ∧
        ∃ user ∈ (countsOf tally.exact entry.1).external.keys,
          (LibraryIndex.ofTable table).sameLibrary entry.2.file user = false := by
  intro project table
  obtain ⟨entry, member, constructs, named, used⟩ : ∃ entry ∈ table.functions.entries,
      entry.2.isConstructor ∧ entry.2.name = "A._" ∧
        ∃ user ∈ (countsOf (Tally.ofFiles (.ofVisibility (.ofTable table project.layout)) project.tree ⟨2, none⟩
            ⟨some 1, 1, 0⟩ project.files).exact entry.1).external.keys,
          (LibraryIndex.ofTable table).sameLibrary entry.2.file user = false := by
    simp only [table, project, table_constructorProject]
    decide +kernel
  exact ⟨_, ofTable_of_mem member _ _ _ _ _, entry, member, constructs, named, used⟩

end Usage
end DeadCode

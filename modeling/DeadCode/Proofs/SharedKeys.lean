import DeadCode.Proofs.KeptEntities
import DeadCode.Proofs.Recorded
import DeadCode.Proofs.ScanStatistics
import DeadCode.Proofs.WorkerIndependence

/-!
Keys that a class and a function share. Outside of every class a function is passed over if a class above it has
its name, but not if that class comes later. Every symbol with a key of its own is given the uses that are counted for
it alone; where a key is shared the class is given the uses of both, and the function none.
-/
namespace DeadCode

/-! ### The symbols of a file -/

namespace Source

section
variable {withFunctions : Bool} {file : Path} {contents : List Char}

private theorem name_ne_empty {entity : ClassEntity}
    (recorded : entity ∈ (scan withFunctions file contents).classes) : entity.name ≠ "" := by
  intro empty
  obtain ⟨visit, member, adds⟩ := mem_classes_iff.mp recorded
  obtain ⟨nest, isRead⟩ := visit.exists_isRead member
  have named : entity.isAnonymous = false := by
    rw [ClassEntity.isAnonymous, empty]
    rfl
  obtain ⟨mark, -, marked⟩ := visit.exists_standsMarked member isRead adds named
  apply marked.isName.ne_nil
  rw [empty]
  rfl

private theorem file_of_mem_classes {entity : ClassEntity}
    (recorded : entity ∈ (scan withFunctions file contents).classes) : entity.file = file := by
  obtain ⟨visit, member, adds⟩ := mem_classes_iff.mp recorded
  obtain ⟨-, -, -, -, inFile, -⟩ := visit.exists_declaration member adds
  exact inFile

private theorem file_of_mem_functions {entity : FunctionEntity}
    (recorded : entity ∈ (scan withFunctions file contents).functions) : entity.file = file := by
  obtain ⟨visit, member, adds⟩ := mem_functions_iff.mp recorded
  obtain ⟨-, -, -, -, -, -, -, -, inFile, -⟩ := visit.exists_definition member adds
  exact inFile

variable {declared : ClassEntity} {defined : FunctionEntity}
  (isDeclared : declared ∈ (scan withFunctions file contents).classes)
  (isDefined : defined ∈ (scan withFunctions file contents).functions)
include isDeclared isDefined

/-- A function without an owner stands above every class of its name. -/
theorem line_lt_of_unowned (unowned : defined.owner = "") (named : defined.name = declared.name) :
    defined.line < declared.line := by
  obtain ⟨visit, member, adds⟩ := mem_functions_iff.mp isDefined
  obtain ⟨context, above, below, definition, ⟨enclosing, known⟩, found, name, owner, -, number, -⟩ :=
    visit.exists_definition member adds
  have outside : visit.before.scope.enclosing? = none := by
    cases around : visit.before.scope.enclosing? with
    | none => rfl
    | some outer =>
      obtain ⟨entry, first, rfl⟩ := Option.map_eq_some_iff.mp around
      obtain ⟨entity, recorded, -, same, -⟩ := visit.exists_class_of_mem_entries member (List.mem_of_head? first)
      rw [around, Option.getD_some, unowned] at owner
      exact absurd (same.trans owner.symm) (name_ne_empty recorded)
  by_contra notAbove
  have apart := (onePerLine_scan withFunctions file contents).apart declared isDeclared defined isDefined
  have earlier : declared.line < visit.line.number := by omega
  apply name_notMem_known_of_definitionAt? found (enclosing.trans outside)
  rw [known, ← name, named]
  exact visit.name_mem_known member (visit.mem_classes_before member isDeclared earlier)

/-- A class and a function share a key exactly if both are live and the function has no owner and the same name. -/
theorem compare_key_eq_iff : compare declared.key defined.key = .eq ↔
    (declared.commentedOut = false ∧ defined.commentedOut = false) ∧
      defined.owner = "" ∧ defined.name = declared.name := by
  constructor
  · intro equal
    have one := onePerLine_scan withFunctions file contents
    have apart := (List.pairwise_append.mp one.keys_apart).2.2 _ (List.mem_map_of_mem isDeclared) _
      (List.mem_map_of_mem isDefined)
    have live : (declared.commentedOut || defined.commentedOut) = false :=
      Bool.of_not_eq_true fun hidden => apart hidden equal
    obtain ⟨-, owner, name, -⟩ := SymbolKey.compare_eq_iff.mp equal
    exact ⟨Bool.or_eq_false_iff.mp live, owner.symm, name.symm⟩
  · rintro ⟨⟨liveClass, liveFunction⟩, unowned, named⟩
    have sameFile : declared.file = defined.file :=
      (file_of_mem_classes isDeclared).trans (file_of_mem_functions isDefined).symm
    rw [SymbolKey.compare_eq_iff]
    refine ⟨Path.same_iff.mpr (congrArg Path.components sameFile), unowned.symm, named.symm, ?_⟩
    rw [ClassEntity.key, FunctionEntity.key, liveClass, liveFunction]
    rfl

end
end Source

/-! ### The symbols of a project -/

namespace Project

/-- The entity was found in a file that is read, and stands under its own key. -/
def FoundUnder {α : Type} (project : Project) (entities : Source.FileScan → List α) (keyOf : α → SymbolKey)
    (key : SymbolKey) (entity : α) : Prop :=
  compare key (keyOf entity) = .eq ∧ (keyOf entity).file ∈ project.visited ∧
    ∃ contents, project.tree.read (keyOf entity).file = .ok contents ∧
      entity ∈ entities (Source.scan project.settings.functions (keyOf entity).file contents.toList)

section
variable {α : Type} {project : Project} {entities : Source.FileScan → List α} {keyOf : α → SymbolKey}
  (inFile : ∀ {withFunctions file contents entity},
    entity ∈ entities (Source.scan withFunctions file contents) → (keyOf entity).file = file)

include inFile in
private theorem foundUnder_of_source {source : Path × List Char} (read : source ∈ project.sources project.visited) :
    ∀ entry ∈ (entities (project.foundIn source)).map fun entity => (keyOf entity, entity),
      project.FoundUnder entities keyOf entry.1 entry.2 := by
  intro entry member
  obtain ⟨entity, recorded, rfl⟩ := List.mem_map.mp member
  obtain ⟨file, visited, given⟩ := List.mem_filterMap.mp read
  unfold source? at given
  split at given
  case h_2 => cases given
  case h_1 contents opened =>
    cases given
    obtain rfl := inFile recorded
    exact ⟨Std.ReflCmp.compare_self, visited, contents, opened, recorded⟩

include inFile in
private theorem foundUnder_addAll : ∀ entry ∈ (SortedMap.empty.addAll later
    ((project.sources project.visited).flatMap fun source =>
      (entities (project.foundIn source)).map fun entity => (keyOf entity, entity))).entries,
    project.FoundUnder entities keyOf entry.1 entry.2 := by
  refine SortedMap.forall_addAll (project.FoundUnder entities keyOf) ?_ ?_ ?_
  · intro key other old entity equal _ found
    exact ⟨Std.TransCmp.eq_trans (Std.OrientedCmp.eq_symm equal) found.1, found.2⟩
  · exact fun _ member => absurd member List.not_mem_nil
  · intro entry member
    obtain ⟨source, read, inSource⟩ := List.mem_flatMap.mp member
    exact foundUnder_of_source inFile read entry inSource

end

structure AllFound (project : Project) (table : SymbolTable) : Prop where
  classes : ∀ entry ∈ table.classes.entries, project.FoundUnder (·.classes) ClassEntity.key entry.1 entry.2
  functions : ∀ entry ∈ table.functions.entries, project.FoundUnder (·.functions) FunctionEntity.key entry.1 entry.2

theorem allFound_scan (project : Project) (machine : Machine) (parallel : ParallelSettings) :
    project.AllFound (project.scan machine parallel).table := by
  obtain ⟨table, -⟩ := Scan.mk.inj (project.unlisted_collected machine parallel)
  obtain ⟨classes, functions, -⟩ := SymbolTable.of_unlisted_eq table
  have adds := project.adds_foldl_scanFile project.visited
    { Scan.empty with warnings := (parallel.distribute machine project.scanFiles project.files).2 }
  rw [scan_eq_collected]
  constructor
  · rw [classes.trans adds.classes]
    exact foundUnder_addAll Source.file_of_mem_classes
  · rw [functions.trans adds.functions]
    exact foundUnder_addAll Source.file_of_mem_functions

end Project

/-! ### What a symbol is given -/

namespace Usage
open DeadCode.Source

namespace Target

def ofClasses (entries : List (SymbolKey × ClassEntity)) : List Target :=
  (entries.filter fun entry => !entry.2.commentedOut && !entry.2.isAnonymous).map fun entry => ofClass entry.1 entry.2

def ofFunctions (entries : List (SymbolKey × FunctionEntity)) : List Target :=
  (entries.filter fun entry => !entry.2.commentedOut).map fun entry => ofFunction entry.1 entry.2

/-- The symbols with a key are those that the entries with this key stand for. -/
private theorem filter_ofTable (table : SymbolTable) (key : SymbolKey) :
    (ofTable table).filter (fun target => compare key target.key == .eq) =
      ofClasses (table.classes.entries.filter fun entry => compare key entry.1 == .eq) ++
        ofFunctions (table.functions.entries.filter fun entry => compare key entry.1 == .eq) := by
  have split : ofTable table = ofClasses table.classes.entries ++ ofFunctions table.functions.entries := rfl
  rw [split, List.filter_append, ofClasses, ofClasses, ofFunctions, ofFunctions, List.filter_map, List.filter_map,
    List.filter_comm, List.filter_comm (fun entry : SymbolKey × FunctionEntity => !entry.2.commentedOut)]
  rfl

end Target

section
variable {a b : SortedMap SymbolKey ExactCounts} {key : SymbolKey} (same : a.get? key = b.get? key)
include same

private theorem get?_addCounts_congr (other : SymbolKey) (more : ExactCounts) :
    (addCounts a other more).get? key = (addCounts b other more).get? key := by
  rw [addCounts, addCounts]
  split
  · exact same
  rw [mergeCounts, mergeCounts, SortedMap.get?_alter, SortedMap.get?_alter]
  split
  case isTrue equal => rw [← SortedMap.get?_congr a equal, ← SortedMap.get?_congr b equal, same]
  case isFalse => exact same

/-- What is counted under a key is what is counted for the symbols with this key. -/
private theorem get?_foldl_addCounts_filter (more : Target → ExactCounts) (targets : List Target) :
    (targets.foldl (fun counts target => addCounts counts target.key (more target)) a).get? key =
      ((targets.filter fun target => compare key target.key == .eq).foldl
        (fun counts target => addCounts counts target.key (more target)) b).get? key := by
  induction targets generalizing a b with
  | nil => exact same
  | cons target rest ih =>
    rw [List.foldl_cons]
    by_cases here : compare key target.key = .eq
    · rw [List.filter_cons_of_pos (by simpa using here), List.foldl_cons]
      exact ih (get?_addCounts_congr same target.key (more target))
    · rw [List.filter_cons_of_neg (by simpa using here)]
      exact ih ((get?_addCounts_of_ne a _ here).trans same)

end

namespace Tally

def only (counter : Counter) (tree : FileTree) (machine : Machine) (parallel : ParallelSettings) (files : List Path)
    (targets : List Target) : SortedMap SymbolKey ExactCounts :=
  (ofFiles { counter with targets } tree machine parallel files).exact

private theorem get?_counts_ofFiles (counter : Counter) (tree : FileTree) (machine : Machine)
    (parallel : ParallelSettings) (files : List Path) (key : SymbolKey) :
    (ofFiles counter tree machine parallel files).exact.get? key =
      (only counter tree machine parallel files
        (counter.targets.filter fun target => compare key target.key == .eq)).get? key := by
  have folded (files : List Path) (tally other : Tally) (same : tally.exact.get? key = other.exact.get? key) :
      (files.foldl (addFile counter tree) tally).exact.get? key =
        (files.foldl (addFile { counter with
          targets := counter.targets.filter fun target => compare key target.key == .eq } tree) other).exact.get?
            key := by
    induction files generalizing tally other with
    | nil => exact same
    | cons file rest ih =>
      rw [List.foldl_cons, List.foldl_cons]
      apply ih
      rw [addFile, addFile]
      cases tree.read file with
      | error cause => exact same
      | ok contents => exact get?_foldl_addCounts_filter same _ _
  rw [only, ofFiles_eq_foldl_warned, ofFiles_eq_foldl_warned]
  exact folded files _ _ rfl

private theorem getD_counts (tally : Tally) (key : SymbolKey) :
    (tally.counts.get? key).getD .none = .ofExact (countsOf tally.exact key) := by
  rw [counts, SortedMap.get?_mapWithKey, countsOf]
  cases tally.exact.get? key <;> rfl

end Tally

/-- What the symbols of a table are given, where `usesOf` says what is counted for some symbols by themselves. -/
structure GivenOwn (table after : SymbolTable) (usesOf : List Target → SortedMap SymbolKey ExactCounts) : Prop where
  /-- A class whose key no function has is given its own uses. -/
  classes : ∀ entry ∈ table.classes.entries, table.functions.contains entry.1 = false →
    after.classes.get? entry.1 =
      some { entry.2 with usage := .ofExact (countsOf (usesOf (Target.ofClasses [entry])) entry.1) }
  /-- A function whose key no class has is given its own uses. -/
  functions : ∀ entry ∈ table.functions.entries, table.classes.contains entry.1 = false →
    after.functions.get? entry.1 =
      some { entry.2 with usage := .ofExact (countsOf (usesOf (Target.ofFunctions [entry])) entry.1) }
  /-- Of a class and a function with one key, the class is given the uses of both and the function none. -/
  shared : ∀ cls ∈ table.classes.entries, ∀ fn ∈ table.functions.entries, compare cls.1 fn.1 = .eq →
    after.classes.get? cls.1 =
        some { cls.2 with
          usage := .ofExact (countsOf (usesOf (Target.ofClasses [cls] ++ Target.ofFunctions [fn])) cls.1) } ∧
      after.functions.get? fn.1 = some { fn.2 with usage := .none }

theorem givenOwn_applyUsage (table : SymbolTable) (layout : PackageLayout) (tree : FileTree) (machine : Machine)
    (parallel : ParallelSettings) (files : List Path) :
    let counter := Counter.ofVisibility (.ofTable table layout)
    GivenOwn table (table.applyUsage (Tally.ofFiles counter tree machine parallel files).counts)
      (Tally.only counter tree machine parallel files) := by
  intro counter
  let tally := Tally.ofFiles counter tree machine parallel files
  have alone (key : SymbolKey) : countsOf tally.exact key = countsOf (Tally.only counter tree machine parallel files
      (Target.ofClasses (table.classes.entries.filter fun entry => compare key entry.1 == .eq) ++
        Target.ofFunctions (table.functions.entries.filter fun entry => compare key entry.1 == .eq))) key := by
    rw [countsOf, Tally.get?_counts_ofFiles, ← Target.filter_ofTable]
    rfl
  have ownClass {entry : SymbolKey × ClassEntity} (member : entry ∈ table.classes.entries) :=
    SortedMap.filter_of_mem member Std.ReflCmp.compare_self
  have ownFunction {entry : SymbolKey × FunctionEntity} (member : entry ∈ table.functions.entries) :=
    SortedMap.filter_of_mem member Std.ReflCmp.compare_self
  have givenClass {entry : SymbolKey × ClassEntity} (member : entry ∈ table.classes.entries) :
      (table.applyUsage tally.counts).classes.get? entry.1 =
        some { entry.2 with usage := .ofExact (countsOf tally.exact entry.1) } := by
    rw [← tally.getD_counts]
    exact SortedMap.get?_mapWithKey_of_mem member _
  have givenFunction {entry : SymbolKey × FunctionEntity} (member : entry ∈ table.functions.entries) :
      (table.applyUsage tally.counts).functions.get? entry.1 = some { entry.2 with
        usage := if table.classes.contains entry.1 then .none else .ofExact (countsOf tally.exact entry.1) } := by
    rw [← tally.getD_counts]
    exact SortedMap.get?_mapWithKey_of_mem member _
  refine ⟨fun entry member absent => ?_, fun entry member absent => ?_, fun cls isClass fn isFunction equal => ⟨?_, ?_⟩⟩
  · have none : Target.ofFunctions [] = [] := rfl
    rw [givenClass member, alone, ownClass member, SortedMap.filter_of_absent absent, none, List.append_nil]
  · rw [givenFunction member, if_neg (by simp [absent]), alone, ownFunction member, SortedMap.filter_of_absent absent]
    rfl
  · rw [givenClass isClass, alone, ownClass isClass, SortedMap.filter_of_mem isFunction equal]
  · have present := SortedMap.contains_of_mem isClass
    rw [SortedMap.contains_congr _ equal] at present
    rw [givenFunction isFunction, if_pos present]

/-- In a file a class and a function share a key exactly if both are live, the function has no owner and they have one
name; then the function stands above the class. In a project no file of which is read under two spellings, only the
symbols of one file share a key, and where none is shared every class and every function is given the uses that are
counted for itself. -/
theorem key_shared_iff_function_above (withFunctions : Bool) (file : Path) (contents : List Char) :
    (∀ declared ∈ (scan withFunctions file contents).classes, ∀ defined ∈ (scan withFunctions file contents).functions,
      (compare declared.key defined.key = .eq ↔
        (declared.commentedOut = false ∧ defined.commentedOut = false) ∧
          defined.owner = "" ∧ defined.name = declared.name) ∧
      (compare declared.key defined.key = .eq → defined.line < declared.line)) ∧
    ∀ {project : Project} {machine other : Machine} {parallel otherParallel : ParallelSettings} {layout : PackageLayout}
      {tree : FileTree} {files : List Path} {tally : Tally}, project.SpelledOnce →
      Tally.ofTable (project.scan machine parallel).table layout tree other otherParallel files = .ok tally →
      let table := (project.scan machine parallel).table
      GivenOwn table (table.applyUsage tally.counts)
        (Tally.only (.ofVisibility (.ofTable table layout)) tree other otherParallel files) ∧
      ∀ cls ∈ table.classes.entries, ∀ fn ∈ table.functions.entries, compare cls.1 fn.1 = .eq →
        ∃ contents, project.tree.read cls.2.file = .ok contents ∧
          cls.2 ∈ (scan project.settings.functions cls.2.file contents.toList).classes ∧
          fn.2 ∈ (scan project.settings.functions cls.2.file contents.toList).functions ∧
          compare cls.2.key fn.2.key = .eq := by
  constructor
  · intro declared isDeclared defined isDefined
    have shares := compare_key_eq_iff isDeclared isDefined
    refine ⟨shares, fun equal => ?_⟩
    obtain ⟨-, unowned, named⟩ := shares.mp equal
    exact line_lt_of_unowned isDeclared isDefined unowned named
  · intro project machine other parallel otherParallel layout tree files tally once counted table
    constructor
    · unfold Tally.ofTable at counted
      split at counted
      · cases counted
      · cases counted
        exact givenOwn_applyUsage table layout tree other otherParallel files
    · intro cls isClass fn isFunction equal
      have found := project.allFound_scan machine parallel
      obtain ⟨classKey, classVisited, contents, read, isDeclared⟩ := found.classes cls isClass
      obtain ⟨functionKey, functionVisited, contentsToo, readToo, isDefined⟩ := found.functions fn isFunction
      have sameKey : compare cls.2.key fn.2.key = .eq :=
        Std.TransCmp.eq_trans (Std.OrientedCmp.eq_symm classKey) (Std.TransCmp.eq_trans equal functionKey)
      have sameFile : cls.2.key.file = fn.2.key.file :=
        once _ classVisited _ functionVisited (SymbolKey.compare_eq_iff.mp sameKey).1
      rw [← sameFile] at readToo isDefined
      obtain rfl : contents = contentsToo := Except.ok.inj (read.symm.trans readToo)
      exact ⟨contents, read, isDeclared, isDefined, sameKey⟩

/-- A function inside of another one that has the name of a class further down, and its only call. -/
def shadowingCall : String := "void run() \x7b\n  void helper() \x7b\x7d\n  helper();\n\x7d\nclass helper \x7b\x7d"

def shadowingProject : Project where
  tree := ⟨[(["a.dart"], .file (.text shadowingCall))], []⟩
  layout := .libSegment (.ofFiles [])
  files := [⟨"/a.dart"⟩]
  settings := ⟨true, false⟩

theorem key_shared_iff_function_above_shadowing :
    let table := (shadowingProject.scan ⟨4, none⟩ ⟨some 2, 1, 0⟩).table
    shadowingProject.SpelledOnce ∧
      ∃ tally, Tally.ofTable table shadowingProject.layout shadowingProject.tree ⟨2, none⟩ ⟨some 1, 1, 0⟩
          shadowingProject.files = .ok tally ∧
        GivenOwn table (table.applyUsage tally.counts)
          (Tally.only (.ofVisibility (.ofTable table shadowingProject.layout)) shadowingProject.tree ⟨2, none⟩
            ⟨some 1, 1, 0⟩ shadowingProject.files) ∧
        ∃ cls ∈ table.classes.entries, ∃ fn ∈ table.functions.entries,
          compare cls.1 fn.1 = .eq ∧ fn.2.line < cls.2.line := by
  intro table
  have once : shadowingProject.SpelledOnce := Project.spelledOnce (List.pairwise_singleton _ _)
  obtain ⟨nonempty, cls, isClass, fn, isFunction, equal⟩ : table.isEmpty = false ∧
      ∃ cls ∈ table.classes.entries, ∃ fn ∈ table.functions.entries, compare cls.1 fn.1 = .eq := by
    -- The walk along exports does not evaluate, so the table is first written as that of the only file.
    have read : table = (Scan.empty.add ([⟨"/a.dart"⟩].foldl shadowingProject.scanFile .empty)).table := by
      have absorbed (scan part : Scan) (index : Nat) : scan.absorb (.ok part, index) = scan.add part := rfl
      rw [← Project.scanFrom_of_unfollowed rfl]
      simp only [table, Project.scan, fst_distribute, foldl_absorb absorbed]
      rfl
    rw [read]
    decide +kernel
  have counted : Tally.ofTable table shadowingProject.layout shadowingProject.tree ⟨2, none⟩ ⟨some 1, 1, 0⟩
      shadowingProject.files = .ok _ := if_neg (by simp [nonempty])
  obtain ⟨own, together⟩ := (key_shared_iff_function_above true ⟨"/a.dart"⟩ shadowingCall.toList).2 once counted
  obtain ⟨contents, -, isDeclared, isDefined, sameKey⟩ := together cls isClass fn isFunction equal
  refine ⟨once, _, counted, own, cls, isClass, fn, isFunction, equal, ?_⟩
  exact ((key_shared_iff_function_above _ _ _).1 _ isDeclared _ isDefined).2 sameKey

/-- The class is given two uses, one of them the call of the function, and the function none; each has one use of its
own. -/
theorem class_given_uses_of_function :
    let file : Path := ⟨"/a.dart"⟩
    let contents := shadowingCall.toList
    let table := SymbolTable.empty.insertSource true (.libSegment ⟨.empty⟩) file contents
    let counter := Counter.ofVisibility (.ofTable table (.libSegment ⟨.empty⟩))
    let after := table.applyUsage ((counter.countFile .empty file contents).mapWithKey fun _ => .ofExact)
    (∃ declared ∈ (scan true file contents).classes, ∃ defined ∈ (scan true file contents).functions,
      declared.commentedOut = false ∧ defined.commentedOut = false ∧ declared.key = defined.key) ∧
    after.classes.values.map (fun entity => (entity.name, entity.usage.internal)) = [("helper", 2)] ∧
    after.functions.values.map (fun entity => (entity.name, entity.usage.internal)) = [("helper", 0), ("run", 0)] ∧
    (counter.targets.map fun target =>
      (countsOf ({ counter with targets := [target] }.countFile .empty file contents) target.key).internal) =
        [1, 1, 0] := by
  decide +kernel

end Usage
end DeadCode

import DeadCode.Proofs.FollowedExports

/-!
How often a file counts in the statistics of a run. On behalf of one file of the project no file is read twice, but two
files of the project that lead to the same file outside of it each have it read. The table lists such a file once; the
number of files that were read and the warnings do not.
-/
namespace DeadCode

/-- No two items have a property of the family in common exactly if each property is had at most once. -/
private theorem forall_countP_le_one_iff {α ι : Type} (has : ι → α → Bool) (items : List α) :
    (∀ i, items.countP (has i) ≤ 1) ↔ items.Pairwise fun a b => ∀ i, has i a → ¬ has i b := by
  induction items with
  | nil => simp
  | cons item rest ih =>
    rw [List.pairwise_cons, ← ih]
    constructor
    · intro atMost
      refine ⟨fun other member i here there => ?_, fun i => ?_⟩
      · have counted : 0 < rest.countP (has i) := List.countP_pos_iff.mpr ⟨other, member, there⟩
        have most := atMost i
        rw [List.countP_cons, if_pos here] at most
        omega
      · exact Nat.le_trans (List.countP_cons ▸ Nat.le_add_right _ _) (atMost i)
    · rintro ⟨apart, atMost⟩ i
      rw [List.countP_cons]
      split
      case isTrue here =>
        have none : rest.countP (has i) = 0 := List.countP_eq_zero.mpr fun other member => apart other member i here
        omega
      case isFalse => exact atMost i

/-- A warning that the file at a path could not be read. -/
def Warning.isOf (path : Path) (warning : Warning) : Bool := warning.file?.any (·.same path)

namespace Project
variable {project : Project}

/-- A file to which two files of the project lead. -/
def Shared (project : Project) (path : Path) : Prop :=
  ∃ a ∈ project.files, ∃ b ∈ project.files, ¬ a.same b ∧ project.Reached a path ∧ project.Reached b path

/-! ### Files that are read twice -/

/-- Of the files that one file of the project leads to none is another file of the project. -/
theorem Shared.outside {path : Path} (shared : project.Shared path) : project.holds path = false := by
  obtain ⟨a, inFilesA, b, -, apart, reachedA, reachedB⟩ := shared
  rcases reachedA.cases_outside with rfl | ⟨-, -, outside⟩
  · rcases reachedB.cases_outside with rfl | ⟨-, -, outside⟩
    · exact absurd (Path.same_refl _) apart
    · exact outside
  · exact outside

theorem mem_reach_of_outside {file path : Path} (inFiles : file ∈ project.files) (reached : project.Reached file path)
    (outside : project.holds path = false) : path ∈ project.reach file := by
  obtain ⟨met, member, same⟩ := exists_mem_reach reached
  rcases of_mem_reach member with rfl | ⟨⟨other, rfl⟩, -⟩
  · exact absurd same (not_same_of_outside inFiles outside)
  · rcases reached.cases_outside with rfl | ⟨⟨another, rfl⟩, -, -⟩
    · exact absurd (Path.same_refl _) (not_same_of_outside inFiles outside)
    · rwa [Path.normalize_eq_of_same same] at member

/-- Where the ways from two files of the project meet, they meet under one spelling. -/
theorem eq_of_same_of_mem_reach {a b x y : Path} (inFilesA : a ∈ project.files) (inFilesB : b ∈ project.files)
    (apart : ¬ a.same b) (fromA : x ∈ project.reach a) (fromB : y ∈ project.reach b) (same : x.same y) : x = y := by
  have start {file path : Path} (reached : path ∈ project.reach file) (inFiles : path ∈ project.files) : path = file :=
    (of_mem_reach reached).resolve_right fun ⟨_, outside⟩ => not_same_of_outside inFiles outside (Path.same_refl _)
  refine (eq_or_mem_files_of_same (List.mem_flatMap.mpr ⟨a, inFilesA, fromA⟩)
    (List.mem_flatMap.mpr ⟨b, inFilesB, fromB⟩) same).resolve_right ?_
  rintro ⟨inFilesX, inFilesY⟩
  rw [start fromA inFilesX, start fromB inFilesY] at same
  exact apart same

/-- Files of some kind are read once each exactly if none of that kind is shared. -/
theorem pairwise_visited_iff (distinct : project.files.Pairwise fun a b => ¬ a.same b) (kind : Path → Prop) :
    (project.visited.Pairwise fun a b => kind a → kind b → ¬ a.same b) ↔
      ∀ path, project.Shared path → ¬ kind path := by
  rw [visited, List.pairwise_flatMap]
  constructor
  · rintro ⟨-, between⟩ path shared ofKind
    have outside := shared.outside
    obtain ⟨a, inFilesA, b, inFilesB, apart, reachedA, reachedB⟩ := shared
    let Meets (a b : Path) : Prop := ∀ x ∈ project.reach a, ∀ y ∈ project.reach b, kind x → kind y → ¬ x.same y
    have : Std.Symm Meets := ⟨fun a b between y inB x inA kindY kindX same =>
      between x inA y inB kindX kindY (Path.same_symm same)⟩
    have different : a ≠ b := fun equal => apart (Path.same_iff.mpr (congrArg Path.components equal))
    have met : Meets a b := List.Pairwise.forall between inFilesA inFilesB different
    exact met path (mem_reach_of_outside inFilesA reachedA outside) path
      (mem_reach_of_outside inFilesB reachedB outside) ofKind ofKind (Path.same_refl _)
  · intro unshared
    refine ⟨fun file _ => (project.pairwise_reach file).imp fun apart _ _ => apart, ?_⟩
    refine distinct.imp_of_mem ?_
    intro a b inFilesA inFilesB apart x fromA y fromB kindX _ same
    obtain rfl := eq_of_same_of_mem_reach inFilesA inFilesB apart fromA fromB same
    exact unshared x ⟨a, inFilesA, b, inFilesB, apart, reached_of_mem_reach fromA, reached_of_mem_reach fromB⟩ kindX

theorem not_shared_of_unfollowed (unfollowed : project.settings.followExports = false) (path : Path) :
    ¬ project.Shared path := by
  have alone {file : Path} (reached : project.Reached file path) : path = file := by
    cases reached with
    | start => rfl
    | exported _ _ follows => exact absurd follows (by simp [unfollowed])
  rintro ⟨a, -, b, -, apart, reachedA, reachedB⟩
  rw [← alone reachedA, ← alone reachedB] at apart
  exact apart (Path.same_refl _)

/-! ### What a run counts -/

/-- Apart from the order of exports, reading with several workers is reading file by file. -/
theorem unlisted_collected (project : Project) (machine : Machine) (parallel : ParallelSettings) :
    (project.collected machine parallel).unlisted =
      (project.visited.foldl project.scanFile
        { Scan.empty with warnings := (parallel.distribute machine project.scanFiles project.files).2 }).unlisted := by
  rw [collected, unlisted_foldl_add, flatten_partition, visited]

/-- The statistics and the directives of a run are those of the files that it has read, one after another. -/
theorem scan_of_visited (project : Project) (machine : Machine) (parallel : ParallelSettings) :
    let scan := project.scan machine parallel
    let sources := project.visited.filterMap project.source?
    scan.filesScanned = sources.length ∧
      scan.warnings = (parallel.distribute machine project.scanFiles project.files).2 ++
        project.visited.filterMap project.fault? ∧
      scan.table.directives = SortedMap.empty.addAll later
        (sources.map fun source => (source.1, Directive.read project.layout source.1 source.2)) := by
  let start := { Scan.empty with warnings := (parallel.distribute machine project.scanFiles project.files).2 }
  obtain ⟨table, warnings, filesScanned, -⟩ := Scan.mk.inj (project.unlisted_collected machine parallel)
  have adds := project.adds_foldl_scanFile project.visited start
  rw [scan_eq_collected]
  refine ⟨?_, warnings.trans adds.warnings, ?_⟩
  · exact filesScanned.trans (adds.filesScanned.trans (Nat.zero_add _))
  · calc (project.collected machine parallel).table.directives
        = (project.visited.foldl project.scanFile start).table.directives := (SymbolTable.of_unlisted_eq table).2.2
      _ = _ := adds.directives

/-- As many files are read as the table lists exactly if no file that can be read is shared. -/
theorem filesScanned_eq_size_iff (distinct : project.files.Pairwise fun a b => ¬ a.same b) (machine : Machine)
    (parallel : ParallelSettings) :
    (project.scan machine parallel).filesScanned = (project.scan machine parallel).table.directives.size ↔
      ∀ path, project.Shared path → ∃ cause, project.tree.read path = .error cause := by
  obtain ⟨filesScanned, -, directives⟩ := project.scan_of_visited machine parallel
  let entries := (project.visited.filterMap project.source?).map
    fun source => (source.1, Directive.read project.layout source.1 source.2)
  have full := SortedMap.size_addAll_eq_iff later SortedMap.empty entries
  have once := pairwise_visited_iff distinct fun path => ∃ contents, project.tree.read path = .ok contents
  have listed : entries.Pairwise (fun a b => compare a.1 b.1 ≠ .eq) ↔ project.visited.Pairwise fun a b =>
      (∃ contents, project.tree.read a = .ok contents) → (∃ contents, project.tree.read b = .ok contents) →
        ¬ a.same b := by
    rw [List.pairwise_map, List.pairwise_filterMap]
    refine List.Pairwise.iff fun a b => ?_
    unfold source?
    cases project.tree.read a <;> cases project.tree.read b <;> simp [Path.compare_eq_iff_same]
  have unread (path : Path) : (¬ ∃ contents, project.tree.read path = .ok contents) ↔
      ∃ cause, project.tree.read path = .error cause := by
    cases project.tree.read path <;> simp
  have counted : (project.scan machine parallel).filesScanned =
      (SortedMap.empty : SortedMap Path FileDirectives).size + entries.length := by
    rw [filesScanned, List.length_map]
    exact (Nat.zero_add _).symm
  rw [counted, directives, eq_comm, full, listed, once]
  simp only [unread]
  exact and_iff_right fun _ _ => rfl

/-- Each file that cannot be read leaves one warning exactly if none of them is shared. -/
theorem warnings_once_iff (distinct : project.files.Pairwise fun a b => ¬ a.same b) (machine : Machine)
    (parallel : ParallelSettings) :
    (∀ path, (project.scan machine parallel).warnings.countP (·.isOf path) ≤ 1) ↔
      ∀ path, project.Shared path → ∃ contents, project.tree.read path = .ok contents := by
  obtain ⟨-, warnings, -⟩ := project.scan_of_visited machine parallel
  have once := pairwise_visited_iff distinct fun path => ∃ cause, project.tree.read path = .error cause
  have counted (path : Path) : (project.scan machine parallel).warnings.countP (·.isOf path) =
      (project.visited.filterMap project.fault?).countP (·.isOf path) := by
    have none : (parallel.distribute machine project.scanFiles project.files).2.countP (·.isOf path) = 0 := by
      refine List.countP_eq_zero.mpr fun warning member about => ?_
      cases warning with
      | unreadable file cause => exact absurd (show "io" = "pool" from tag_of_mem_distribute member) (by decide)
      | chunkFailed index reason => cases about
      | noWorkers reason => cases about
    rw [warnings, List.countP_append, none, Nat.zero_add]
  have listed : ((project.visited.filterMap project.fault?).Pairwise fun a b => ∀ path, a.isOf path → ¬ b.isOf path) ↔
      project.visited.Pairwise fun a b => (∃ cause, project.tree.read a = .error cause) →
        (∃ cause, project.tree.read b = .error cause) → ¬ a.same b := by
    have apart (a b : Path) : (∀ path, a.same path → ¬ b.same path) ↔ ¬ a.same b := by
      refine ⟨fun never same => never a (Path.same_refl a) (Path.same_symm same), fun different path here there => ?_⟩
      exact different (Path.same_trans here (Path.same_symm there))
    simp only [Bool.not_eq_true] at apart
    rw [List.pairwise_filterMap]
    refine List.Pairwise.iff fun a b => ?_
    unfold fault?
    cases project.tree.read a <;> cases project.tree.read b <;> simp [Warning.isOf, Warning.file?, apart]
  have read (path : Path) : (¬ ∃ cause, project.tree.read path = .error cause) ↔
      ∃ contents, project.tree.read path = .ok contents := by
    cases project.tree.read path <;> simp
  simp only [counted]
  rw [forall_countP_le_one_iff Warning.isOf, listed, once]
  simp only [read]

/-- Each file counts once in the statistics of a run exactly as far as no file that two files of the project lead to
counts: the number of files that were read is that of the files in the table exactly if no shared file can be read, and
no file leaves two warnings exactly if every shared file can be read. Without following exports no file is shared. -/
theorem scan_countsOnce_iff (project : Project) (distinct : project.files.Pairwise fun a b => ¬ a.same b)
    (machine : Machine) (parallel : ParallelSettings) :
    let scan := project.scan machine parallel
    scan.table.directives.size ≤ scan.filesScanned ∧
      (scan.filesScanned = scan.table.directives.size ↔
        ∀ path, project.Shared path → ∃ cause, project.tree.read path = .error cause) ∧
      ((∀ path, scan.warnings.countP (·.isOf path) ≤ 1) ↔
        ∀ path, project.Shared path → ∃ contents, project.tree.read path = .ok contents) ∧
      (project.settings.followExports = false → ∀ path, ¬ project.Shared path) := by
  refine ⟨?_, filesScanned_eq_size_iff distinct machine parallel, warnings_once_iff distinct machine parallel,
    not_shared_of_unfollowed⟩
  obtain ⟨filesScanned, -, directives⟩ := project.scan_of_visited machine parallel
  rw [filesScanned, directives]
  refine (SortedMap.size_addAll_le later _ _).trans ?_
  rw [List.length_map]
  exact Nat.le_of_eq (Nat.zero_add _)

/-- Two files that export a third one, which has the given contents. -/
def exportedTwice (contents : Content) : Project where
  tree := {
    entries := [
      (["lib", "a.dart"], .file (.text "export '../c.dart';")),
      (["lib", "b.dart"], .file (.text "export '../c.dart';")),
      (["c.dart"], .file contents)]
    here := [] }
  layout := .libSegment ⟨.empty⟩
  files := [⟨"/lib/a.dart"⟩, ⟨"/lib/b.dart"⟩]
  settings := ⟨true, true⟩

theorem scan_countsOnce_iff_exportedTwice :
    let project := exportedTwice (.malformed "")
    let scan := project.scan ⟨4, none⟩ ⟨some 2, 1, 0⟩
    project.files.Pairwise (fun a b => ¬ a.same b) ∧
      (scan.filesScanned = scan.table.directives.size ↔
        ∀ path, project.Shared path → ∃ cause, project.tree.read path = .error cause) ∧
      ((∀ path, scan.warnings.countP (·.isOf path) ≤ 1) ↔
        ∀ path, project.Shared path → ∃ contents, project.tree.read path = .ok contents) := by
  have distinct : (exportedTwice (.malformed "")).files.Pairwise fun a b => ¬ a.same b := by decide +kernel
  obtain ⟨-, scanned, warned, -⟩ := scan_countsOnce_iff _ distinct ⟨4, none⟩ ⟨some 2, 1, 0⟩
  exact ⟨distinct, scanned, warned⟩

private theorem reach_of_leaf {file target : Path} (leads : project.outward file = [target])
    (ends : project.outward target = []) (apart : ¬ file.same target) : project.reach file = [file, target] := by
  have known : target.components ∈ project.reachable file :=
    mem_reachable_of_outward file (leads ▸ List.mem_singleton_self target)
  have fresh : target.components ∈ without (project.reachable file) file.components :=
    List.mem_filter.mpr ⟨known, decide_eq_true fun equal => apart (Path.same_iff.mpr equal.symm)⟩
  rw [reachable] at fresh
  rw [reach, closure, if_pos List.mem_cons_self, leads, List.append_nil, closure, if_pos fresh, ends, List.append_nil,
    closure]

private theorem visited_exportedTwice {contents : Content} (known : contents = .text "" ∨ contents = .malformed "") :
    (exportedTwice contents).visited = [⟨"/lib/a.dart"⟩, ⟨"/c.dart"⟩, ⟨"/lib/b.dart"⟩, ⟨"/c.dart"⟩] := by
  have reaches (file : Path) (inFiles : file = ⟨"/lib/a.dart"⟩ ∨ file = ⟨"/lib/b.dart"⟩) :
      (exportedTwice contents).reach file = [file, ⟨"/c.dart"⟩] := by
    rcases known with rfl | rfl <;> rcases inFiles with rfl | rfl <;>
      exact reach_of_leaf (by decide +kernel) (by decide +kernel) (by decide +kernel)
  show ([⟨"/lib/a.dart"⟩, ⟨"/lib/b.dart"⟩] : List Path).flatMap (exportedTwice contents).reach = _
  rw [List.flatMap_cons, List.flatMap_cons, reaches _ (.inl rfl), reaches _ (.inr rfl)]
  rfl

/-- Of four files that are read, two are the same one, and it leaves two warnings if it cannot be read. -/
theorem scan_exportedTwice :
    let scan (contents : Content) := (exportedTwice contents).scan ⟨4, none⟩ ⟨some 2, 1, 0⟩
    (scan (.text "")).filesScanned = 4 ∧ (scan (.text "")).table.directives.size = 3 ∧
      (scan (.malformed "")).warnings =
        [.unreadable ⟨"/c.dart"⟩ .malformed, .unreadable ⟨"/c.dart"⟩ .malformed] := by
  obtain ⟨filesScanned, -, directives⟩ := (exportedTwice (.text "")).scan_of_visited ⟨4, none⟩ ⟨some 2, 1, 0⟩
  obtain ⟨-, warnings, -⟩ := (exportedTwice (.malformed "")).scan_of_visited ⟨4, none⟩ ⟨some 2, 1, 0⟩
  rw [visited_exportedTwice (.inl rfl)] at filesScanned directives
  rw [visited_exportedTwice (.inr rfl)] at warnings
  refine ⟨?_, ?_, ?_⟩
  · rw [filesScanned]
    decide +kernel
  · rw [directives]
    decide +kernel
  · rw [warnings, distribute_eq rfl]
    decide +kernel

end Project
end DeadCode

import DeadCode.Analysis
import DeadCode.Proofs.Exports
import DeadCode.Proofs.Scanning
import DeadCode.Proofs.SortedPaths
import DeadCode.Proofs.ExactCounts
import DeadCode.Proofs.WorkerShares

/-!
How many workers share the work does not show in what a run finds. Reading and counting file by file is
what reading and counting in chunks comes to, and what depends on the order of exports, the walk along
them, depends only on which there are.
-/
namespace DeadCode

/-! ### Tables apart from the order of exports -/

/-- Tables that differ at most in the order of their exports. -/
structure SymbolTable.Agrees (a b : SymbolTable) : Prop where
  classes : a.classes = b.classes
  functions : a.functions = b.functions
  directives : a.directives = b.directives
  exports : a.exports.Perm b.exports

/-- What a file adds to the counts depends on the symbols, and on which of them the imports give access to. -/
theorem Usage.Counter.countFile_congr {a b : SymbolTable} {layout : PackageLayout} (classes : a.classes = b.classes)
    (functions : a.functions = b.functions)
    (libraries : (Visibility.ofTable a layout).libraries = (Visibility.ofTable b layout).libraries)
    (imports : (Visibility.ofTable a layout).importsOf = (Visibility.ofTable b layout).importsOf)
    (leads : (Visibility.ofTable a layout).leadsTo = (Visibility.ofTable b layout).leadsTo) :
    (ofVisibility (.ofTable a layout)).countFile = (ofVisibility (.ofTable b layout)).countFile := by
  have targets : Target.ofTable (Visibility.ofTable a layout).table =
      Target.ofTable (Visibility.ofTable b layout).table := by
    simp only [Target.ofTable, Visibility.ofTable, classes, functions]
  have access (target : Target) (user : Path) :
      target.access (.ofTable a layout) user = target.access (.ofTable b layout) user := by
    simp only [Target.access, Visibility.resolve, Visibility.resolveMember, libraries, imports, leads]
  funext known file contents
  simp only [countFile, ofVisibility, Target.countIn, targets, access]

section
variable {table : SymbolTable} {exports : List UriDirective} (permuted : table.exports.Perm exports)
include permuted

private theorem reaches_exports (symbol : String) (start target : Path) :
    (ExportGraph.ofTable { table with exports }).reaches symbol start target =
      (ExportGraph.ofTable table).reaches symbol start target := by
  rw [Bool.eq_iff_iff, ExportGraph.ofTable, ExportGraph.ofTable, ExportGraph.reaches_iff_chain,
    ExportGraph.reaches_iff_chain]
  exact ⟨.mono permuted.symm.subset, .mono permuted.subset⟩

private theorem leadsTo_exports (layout : PackageLayout) :
    (Visibility.ofTable { table with exports } layout).leadsTo = (Visibility.ofTable table layout).leadsTo := by
  funext symbol definedIn directive
  simp only [Visibility.leadsTo, Visibility.ofTable, reaches_exports permuted]
  rfl

private theorem countFile_exports (layout : PackageLayout) :
    (Usage.Counter.ofVisibility (.ofTable { table with exports } layout)).countFile =
      (Usage.Counter.ofVisibility (.ofTable table layout)).countFile :=
  Usage.Counter.countFile_congr rfl rfl rfl rfl (leadsTo_exports permuted layout)

end

/-! ### Counting chunk by chunk -/

namespace Usage.Tally

def add (tally part : Tally) : Tally :=
  ⟨tally.exact.addAll .merge part.exact.entries, tally.warnings ++ part.warnings,
    tally.filesCounted + part.filesCounted⟩

theorem absorb_ok (tally part : Tally) (index : Nat) : tally.absorb (.ok part, index) = tally.add part := by
  simp only [absorb, add, mergeCounts_eq_addWith]
  rfl

private theorem add_empty (tally : Tally) : tally.add empty = tally := by
  simp [add, empty, SortedMap.empty]

private theorem add_addFile (counter : Counter) (tree : FileTree) (tally part : Tally) (file : Path) :
    tally.add (addFile counter tree part file) = addFile counter tree (tally.add part) file := by
  unfold addFile
  split
  · simp only [add, List.append_assoc]
  · simp only [add, Counter.countFile_eq_addAll, SortedMap.addAll_gathered ExactCounts.merge_assoc, Nat.add_assoc]

private theorem add_foldl (counter : Counter) (tree : FileTree) (tally part : Tally) (files : List Path) :
    tally.add (files.foldl (addFile counter tree) part) = files.foldl (addFile counter tree) (tally.add part) := by
  induction files generalizing part with
  | nil => rfl
  | cons file rest ih => rw [List.foldl_cons, ih, add_addFile, List.foldl_cons]

/-- Counting with several workers is counting file by file, also where no workers can be started; then there is a
warning before the others. -/
theorem ofFiles_eq_foldl_warned (counter : Counter) (tree : FileTree) (machine : Machine)
    (parallel : ParallelSettings) (files : List Path) :
    ofFiles counter tree machine parallel files =
      files.foldl (addFile counter tree) { empty with warnings := parallel.refusals machine files.length } := by
  have worked (tally : Tally) (chunk : List Path) :
      tally.add (chunk.foldl (addFile counter tree) empty) = chunk.foldl (addFile counter tree) tally := by
    rw [add_foldl, add_empty]
  simp only [ofFiles, fst_distribute, snd_distribute, foldl_absorb absorb_ok, worked]
  rw [← List.foldl_flatten, flatten_partition]

/-- Counting with several workers is counting file by file. -/
theorem ofFiles_eq_foldl {machine : Machine} (started : machine.poolFailure = none) (counter : Counter)
    (tree : FileTree) (parallel : ParallelSettings) (files : List Path) :
    ofFiles counter tree machine parallel files = files.foldl (addFile counter tree) empty := by
  rw [ofFiles_eq_foldl_warned, ParallelSettings.refusals_of_started started]
  rfl

/-- Workers and the order of exports do not show in what is counted. -/
theorem ofTable_congr {a b : SymbolTable} (agrees : a.Agrees b) {machine other : Machine}
    (started : machine.poolFailure = none) (otherStarted : other.poolFailure = none) (layout : PackageLayout)
    (tree : FileTree) (parallel otherParallel : ParallelSettings) (files : List Path) :
    ofTable a layout tree machine parallel files = ofTable b layout tree other otherParallel files := by
  obtain ⟨classes, functions, exports, directives⟩ := b
  obtain ⟨rfl, rfl, rfl, permuted⟩ := agrees
  have counting : addFile (.ofVisibility (.ofTable { a with exports } layout)) tree =
      addFile (.ofVisibility (.ofTable a layout)) tree := by
    funext tally file
    simp only [addFile, countFile_exports permuted]
  rw [ofTable, ofTable, ofFiles_eq_foldl started, ofFiles_eq_foldl otherStarted, counting]
  rfl

end Usage.Tally

/-! ### Runs -/

structure Scan.Agrees (a b : Scan) : Prop where
  table : a.table.Agrees b.table
  warnings : a.warnings = b.warnings
  filesScanned : a.filesScanned = b.filesScanned
  followed : a.followed = b.followed

namespace Project

private theorem gather_agrees {project : Project} (once : project.SpelledOnce) {chunks others : List (List Path)}
    (files : chunks.flatten = project.files) (sameFiles : others.flatten = project.files) :
    (project.gather chunks).Agrees (project.gather others) := by
  have unlisted : (project.gather chunks).unlisted = (project.gather others).unlisted := by
    rw [unlisted_gather, unlisted_gather, files, sameFiles]
  obtain ⟨tables, warnings, filesScanned, followed⟩ := Scan.mk.inj unlisted
  obtain ⟨classes, functions, directives⟩ := SymbolTable.of_unlisted_eq tables
  have listed := isListed_gather once files
  rw [SymbolTable.IsListed, directives] at listed
  exact ⟨⟨classes, functions, directives, listed.trans (isListed_gather once sameFiles).symm⟩,
    warnings, filesScanned, followed⟩

/-- Workers do not show in what is read, and the exports of each file are listed once. -/
theorem scan_agrees {project : Project} (once : project.SpelledOnce) {machine other : Machine}
    (started : machine.poolFailure = none) (otherStarted : other.poolFailure = none)
    (parallel otherParallel : ParallelSettings) :
    (project.scan machine parallel).Agrees (project.scan other otherParallel) ∧
      (project.scan machine parallel).table.IsListed := by
  obtain ⟨chunks, files, scanned⟩ := scan_eq_gather started project parallel
  obtain ⟨others, sameFiles, scannedToo⟩ := scan_eq_gather otherStarted project otherParallel
  obtain ⟨table, warnings, filesScanned, followed⟩ := gather_agrees once files sameFiles
  rw [scanned, scannedToo]
  exact ⟨⟨table, warnings, filesScanned, congrArg sortPaths followed⟩, isListed_gather once files⟩

end Project

theorem pairwise_of_findFiles {settings : Settings} {tree : FileTree} {root : Path} {files : List Path}
    (found : settings.findFiles tree root = .ok files) : files.Pairwise fun a b => compare a b = .lt := by
  rw [Settings.findFiles] at found
  cases rooted : Settings.checkRoot tree root with
  | error cause =>
    rw [rooted] at found
    cases found
  | ok root =>
    rw [rooted] at found
    exact Except.ok.inj found ▸ pairwise_sortPaths _

private theorem applyUsage_agrees {a b : SymbolTable} (agrees : a.Agrees b)
    (counts : SortedMap SymbolKey UsageCounts) : (a.applyUsage counts).Agrees (b.applyUsage counts) := by
  obtain ⟨classes, functions, directives, exports⟩ := agrees
  refine ⟨?_, ?_, directives, exports⟩
  · simp only [SymbolTable.applyUsage, classes]
  · simp only [SymbolTable.applyUsage, classes, functions]

namespace Analysis

/-- Analyses that differ at most in the order of exports and in how many workers there were. -/
structure Agrees (a b : Analysis) : Prop where
  root : a.root = b.root
  table : a.table.Agrees b.table
  findings : a.findings = b.findings
  warnings : a.warnings = b.warnings
  stats : a.stats =
    { b.stats with scanWorkers := a.stats.scanWorkers, usageWorkers := a.stats.usageWorkers }

/-- Runs that end with the same error, or with analyses that agree and list the exports of each file
once. -/
inductive EndAlike : Except RunError Analysis → Except RunError Analysis → Prop where
  | failed (cause : RunError) : EndAlike (.error cause) (.error cause)
  | analysed {a b : Analysis} (agrees : a.Agrees b) (listed : a.table.IsListed) : EndAlike (.ok a) (.ok b)

private theorem ofScan_endAlike {a b : Scan} (agrees : a.Agrees b) (listed : a.table.IsListed)
    {machine other : Machine} (started : machine.poolFailure = none) (otherStarted : other.poolFailure = none)
    (settings : Settings) (parallel : ParallelSettings) (tree : FileTree) (layout : PackageLayout) (root : Path)
    (files : List Path) :
    EndAlike (ofScan machine settings tree layout root files a)
      (ofScan other { settings with parallel } tree layout root files b) := by
  obtain ⟨tables, warnings, filesScanned, followed⟩ := agrees
  simp only [ofScan, bind, Except.bind, followed, warnings, filesScanned,
    Usage.Tally.ofTable_congr tables started otherStarted layout tree settings.parallel parallel]
  split
  case h_1 cause _ => exact .failed cause
  case h_2 tally _ =>
    have applied := applyUsage_agrees tables tally.counts
    refine .analysed ⟨rfl, applied, ?_, rfl, ?_⟩ listed
    · simp only [categorize, applied.classes, applied.functions]
      rfl
    · simp only [applied.classes, applied.functions, applied.exports.length_eq]

/-- Neither the settings for workers nor the cores of the machine change what a run finds. -/
theorem run_endAlike {machine other : Machine} (started : machine.poolFailure = none)
    (otherStarted : other.poolFailure = none) (settings : Settings) (parallel : ParallelSettings)
    (tree : FileTree) (root : Path) :
    EndAlike (run machine settings tree root) (run other { settings with parallel } tree root) := by
  rw [run, run]
  cases Settings.checkRoot tree root with
  | error cause => exact .failed cause
  | ok root =>
    have sameFiles : Settings.findFiles { settings with parallel } tree root = settings.findFiles tree root := rfl
    simp only [bind, Except.bind, sameFiles]
    cases found : settings.findFiles tree root with
    | error cause => exact .failed cause
    | ok files =>
      let layout := settings.strategy.layout tree files (settings.findPubspecs tree root)
      let project : Project := ⟨tree, layout, files, settings.scan⟩
      have once : project.SpelledOnce := Project.spelledOnce (pairwise_of_findFiles found)
      obtain ⟨agrees, listed⟩ := Project.scan_agrees once started otherStarted settings.parallel parallel
      exact ofScan_endAlike agrees listed started otherStarted settings parallel tree layout root files

/-- A tree in which two sources export the same file from outside of them. -/
def sharedExport : FileTree where
  entries := [
    (["app", "lib", "a.dart"], .file (.text "export '../shared/c.dart';\nclass A \x7b\x7d")),
    (["app", "lib", "b.dart"], .file (.text "export '../shared/c.dart';\nclass B extends A \x7b\x7d")),
    (["app", "shared", "c.dart"], .file (.text "class C \x7b\x7d"))]
  here := []

def followingSettings : Settings := { Settings.default with targets := [⟨"lib"⟩], scan := ⟨true, true⟩ }

theorem run_endAlike_sharedExport :
    let alone : ParallelSettings := ⟨some 1, 1, 0⟩
    let pair : ParallelSettings := ⟨some 2, 1, 0⟩
    alone.workersFor ⟨8, none⟩ 2 = 1 ∧ pair.workersFor ⟨4, none⟩ 2 = 2 ∧
      EndAlike (run ⟨8, none⟩ { followingSettings with parallel := alone } sharedExport ⟨"/app"⟩)
        (run ⟨4, none⟩ { followingSettings with parallel := pair } sharedExport ⟨"/app"⟩) :=
  ⟨by decide, by decide, run_endAlike rfl rfl { followingSettings with parallel := ⟨some 1, 1, 0⟩ } _ _ _⟩

end Analysis
end DeadCode

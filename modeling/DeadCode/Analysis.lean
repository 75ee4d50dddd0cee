import DeadCode.Finding
import DeadCode.Project
import DeadCode.Pubspec
import DeadCode.Usage.Tally

/-!
A whole run: the files of a project are found and read, the uses of their symbols are counted, and every
symbol is given a category.
-/
namespace DeadCode

structure Stats where
  filesDiscovered : Nat
  filesScanned : Nat
  filesCounted : Nat
  classes : Nat
  functions : Nat
  exports : Nat
  scanWorkers : Nat
  usageWorkers : Nat
deriving DecidableEq, Repr

structure Analysis where
  root : Path
  table : SymbolTable
  findings : List Finding
  stats : Stats
  warnings : List Warning
deriving DecidableEq, Repr

namespace Analysis

/-- Counts the uses of the symbols that were read, and gives each its category. -/
def ofScan (machine : Machine) (settings : Settings) (tree : FileTree) (layout : PackageLayout)
    (root : Path) (files : List Path) (scan : Scan) : Except RunError Analysis := do
  let counted := (files ++ scan.followed).mergeSort fun a b => (compare a b).isLE
  let tally ← Usage.Tally.ofTable scan.table layout tree machine settings.parallel counted
  let table := scan.table.applyUsage tally.counts
  let stats : Stats := {
    filesDiscovered := files.length
    filesScanned := scan.filesScanned
    filesCounted := tally.filesCounted
    classes := table.classes.size
    functions := table.functions.size
    exports := table.exports.length
    scanWorkers := settings.parallel.workersFor machine files.length
    usageWorkers := settings.parallel.workersFor machine counted.length }
  .ok ⟨root, table, categorize settings table, stats, scan.warnings ++ tally.warnings⟩

def run (machine : Machine) (settings : Settings) (tree : FileTree) (root : Path) :
    Except RunError Analysis := do
  let root ← Settings.checkRoot tree root
  let files ← settings.findFiles tree root
  let layout := settings.strategy.layout tree files (settings.findPubspecs tree root)
  let scan := Project.scan ⟨tree, layout, files, settings.scan⟩ machine settings.parallel
  ofScan machine settings tree layout root files scan

def reportable (analysis : Analysis) : List Finding :=
  analysis.findings.filter (·.severity?.isSome)

/-- How many findings fall into each category that has any. -/
def categoryCounts (analysis : Analysis) : List (Category × Nat) :=
  (Category.all.map fun category =>
    (category, analysis.findings.countP (·.category == category))).filter (·.2 ≠ 0)

end Analysis
end DeadCode

import DeadCode.Closure
import DeadCode.Directive.Reader
import DeadCode.Source.FileScan
import DeadCode.Symbol.Table
import DeadCode.Tree.Walk
import DeadCode.Workers

/-!
The symbol table of a project. Exports may be followed out of the project; then the files they lead to
are read as well.
-/
namespace DeadCode

def SymbolTable.insertSource (table : SymbolTable) (withFunctions : Bool) (layout : PackageLayout)
    (file : Path) (contents : List Char) : SymbolTable :=
  let found := Source.scan withFunctions file contents
  let table := found.classes.foldl insertClass table
  let table := found.functions.foldl insertFunction table
  table.insertDirectives (Directive.read layout file contents)

/-- What is known about the files that were read. -/
structure Scan where
  table : SymbolTable
  warnings : List Warning
  filesScanned : Nat
  /-- The files outside of the project that exports led to. -/
  followed : List Path
deriving DecidableEq, Repr

def Scan.empty : Scan := ⟨.empty, [], 0, []⟩

structure Project where
  tree : FileTree
  layout : PackageLayout
  files : List Path
  settings : ScanSettings
deriving DecidableEq, Repr

namespace Project

/-- Whether a file is part of the project. -/
def holds (project : Project) (file : Path) : Bool :=
  project.files.any (·.same file)

/-- The files outside of the project that the exports of a file lead to, if exports are followed; the
last export first. -/
def outward (project : Project) (file : Path) : List Path :=
  match project.tree.read file with
  | .error _ => []
  | .ok contents =>
    if project.settings.followExports then
      ((Directive.read project.layout file contents.toList).exportTargets.filter fun target =>
        !project.holds target && project.tree.isFile target).reverse
    else []

/-- A file and the files that its exports lead to, each once, in the order in which they are read. -/
def reach (project : Project) (file : Path) : List Path :=
  closure Path.components project.outward
    (file.components :: project.tree.files.flatMap project.tree.spellings) [file]

/-- Reads one file. One that cannot be read leaves a warning. -/
def scanFile (project : Project) (scan : Scan) (file : Path) : Scan :=
  match project.tree.read file with
  | .error cause => { scan with warnings := scan.warnings ++ [.unreadable file cause] }
  | .ok contents =>
    { scan with
      table := scan.table.insertSource project.settings.functions project.layout file contents.toList
      filesScanned := scan.filesScanned + 1
      followed := if project.holds file then scan.followed else scan.followed ++ [file] }

/-- Reads a file and what its exports lead to. -/
def scanFrom (project : Project) (scan : Scan) (file : Path) : Scan :=
  (project.reach file).foldl project.scanFile scan

def scanFiles (project : Project) (files : List Path) : Scan :=
  files.foldl project.scanFrom .empty

end Project

/-- Adds what became of a chunk of the files. -/
def Scan.absorb (scan : Scan) (outcome : Outcome Scan × Nat) : Scan :=
  match outcome with
  | (.ok part, _) =>
    ⟨scan.table.merge part.table, scan.warnings ++ part.warnings,
      scan.filesScanned + part.filesScanned, scan.followed ++ part.followed⟩
  | (.error reason, index) =>
    { scan with warnings := scan.warnings ++ [.chunkFailed index reason] }

def ParallelSettings.workersFor (settings : ParallelSettings) (machine : Machine) (files : Nat) :
    Nat :=
  settings.planWorkers (settings.effectiveJobs machine) files

/-- Divides files among workers, and gives the outcomes of the chunks in order and the warning if
there are no workers. -/
def ParallelSettings.distribute {β : Type} (settings : ParallelSettings) (machine : Machine)
    (task : List Path → β) (files : List Path) : List (Outcome β) × List Warning :=
  let workers := settings.workersFor machine files.length
  let (outcomes, failure) :=
    runPartitioned machine id workers (guarded fun _ chunk => .ok (task chunk)) (partition files workers)
  (outcomes, failure.toList.map .noWorkers)

/-- Reads all files of a project with several workers. -/
def Project.scan (project : Project) (machine : Machine) (parallel : ParallelSettings) : Scan :=
  let (outcomes, warnings) := parallel.distribute machine project.scanFiles project.files
  let scan := outcomes.zipIdx.foldl Scan.absorb { Scan.empty with warnings }
  { scan with followed := sortPaths scan.followed }

end DeadCode

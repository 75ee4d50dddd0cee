import DeadCode.Project
import DeadCode.Usage.Count

/-!
The uses of symbols in the files of a project.
-/
namespace DeadCode.Usage

structure Tally where
  exact : SortedMap SymbolKey ExactCounts
  warnings : List Warning
  filesCounted : Nat
deriving DecidableEq, Repr

namespace Tally

def empty : Tally := ⟨.empty, [], 0⟩

/-- What the symbols keep of their uses. -/
def counts (tally : Tally) : SortedMap SymbolKey UsageCounts := tally.exact.mapWithKey fun _ => .ofExact

/-- Adds the uses in a file. One that cannot be read leaves a warning. -/
def addFile (counter : Counter) (tree : FileTree) (tally : Tally) (file : Path) : Tally :=
  match tree.read file with
  | .error cause => { tally with warnings := tally.warnings ++ [.unreadable file cause] }
  | .ok contents =>
    { tally with
      exact := counter.countFile tally.exact file contents.toList
      filesCounted := tally.filesCounted + 1 }

def absorb (tally : Tally) (outcome : Outcome Tally × Nat) : Tally :=
  match outcome with
  | (.ok part, _) =>
    ⟨part.exact.entries.foldl (fun counts (key, more) => mergeCounts counts key more) tally.exact,
      tally.warnings ++ part.warnings, tally.filesCounted + part.filesCounted⟩
  | (.error reason, index) =>
    { tally with warnings := tally.warnings ++ [.chunkFailed index reason] }

def ofFiles (counter : Counter) (tree : FileTree) (machine : Machine) (parallel : ParallelSettings)
    (files : List Path) : Tally :=
  let (outcomes, warnings) :=
    parallel.distribute machine (·.foldl (addFile counter tree) empty) files
  outcomes.zipIdx.foldl absorb { empty with warnings }

/-- Counts the uses of the symbols of a table, of which there has to be one. -/
def ofTable (table : SymbolTable) (layout : PackageLayout) (tree : FileTree) (machine : Machine)
    (parallel : ParallelSettings) (files : List Path) : Except RunError Tally :=
  if table.isEmpty then .error .noSymbols
  else .ok (ofFiles (.ofVisibility (.ofTable table layout)) tree machine parallel files)

end Tally
end DeadCode.Usage

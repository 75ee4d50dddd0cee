import DeadCode.Path
import DeadCode.Settings.Glob

/-!
The settings of a run.
-/
namespace DeadCode

structure ScanSettings where
  /-- Functions and methods as well, not only class-like declarations. -/
  functions : Bool
  /-- Exported files outside of the project as well. -/
  followExports : Bool
deriving DecidableEq, Repr

structure ParallelSettings where
  /-- The number of workers asked for; as many as there are cores if nothing is said. -/
  jobs : Option Nat
  /-- No worker gets fewer files than this. -/
  minFilesPerWorker : Nat
  /-- With fewer files than this there is one worker. -/
  sequentialThreshold : Nat
deriving DecidableEq, Repr

inductive PackageStrategy where
  | pubspec
  | libSegment
deriving DecidableEq, Repr

structure Settings where
  /-- The directories to analyse, relative to the root; the root itself if there are none. -/
  targets : List Path
  exclude : List String
  /-- Names that are never reported. -/
  retain : List String
  scan : ScanSettings
  parallel : ParallelSettings
  strategy : PackageStrategy
deriving DecidableEq, Repr

namespace PackageStrategy

def tag : PackageStrategy → String
  | pubspec => "pubspec"
  | libSegment => "lib_segment"

def ofTag? (tag : String) : Option PackageStrategy :=
  [pubspec, libSegment].find? (·.tag == tag)

end PackageStrategy

namespace Settings

def defaultExclude : List String :=
  ["**/.dart_tool/**", "**/build/**", "**/.git/**", "**/.idea/**", "**/.vscode/**", "**/test/**",
   "**/.fvm/**", "**/.pub-cache/**", "**/.symlinks/**", "**/*.g.dart", "**/*.freezed.dart",
   "**/*.mocks.dart"]

def default : Settings where
  targets := []
  exclude := defaultExclude
  retain := []
  scan := ⟨true, false⟩
  parallel := ⟨none, 10, 50⟩
  strategy := .pubspec

instance : Inhabited Settings := ⟨default⟩

/-- Whether a path relative to the root is left out. Backslashes count as slashes. -/
def excludes (settings : Settings) (path : Path) : Bool :=
  let text := path.text.toList.map fun c => if c == '\\' then '/' else c
  settings.exclude.any fun pattern => Glob.fits pattern.toList text

def retains (settings : Settings) (name : String) : Bool :=
  settings.retain.any fun pattern => Glob.fits pattern.toList name.toList

end Settings
end DeadCode

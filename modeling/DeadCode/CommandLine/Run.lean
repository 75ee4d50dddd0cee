import DeadCode.CommandLine.Arguments
import DeadCode.Report.Terminal

/-!
What the command line does: it loads the settings, analyses the project, and reports.
-/
namespace DeadCode.CommandLine

structure Response where
  exitStatus : Nat
  /-- What is printed. -/
  output : String
  /-- What is said beside the output. -/
  note : Option String
  /-- The code of the error that ended the run, if it has one. -/
  errorCode : Option String
  /-- What the error says. -/
  errorMessage : Option String
  /-- The file that is to be written. -/
  written : Option (Path × String)
deriving DecidableEq, Repr

inductive Failure where
  | settings (error : SettingsError)
  | run (error : RunError)
  | unwritable (file : Path)
deriving DecidableEq, Repr

def Failure.code? : Failure → Option String
  | run error => some error.code
  | _ => none

def Failure.message : Failure → String
  | settings error => error.message
  | run error => error.message
  | unwritable file => "Failed to write report: " ++ file.text

namespace Response

def printed (output : String) : Response := ⟨0, output, none, none, none, none⟩

def failed (failure : Failure) : Response := ⟨1, "", none, failure.code?, some failure.message, none⟩

def misused : Response := ⟨2, "", none, none, none, none⟩

end Response

def versionText : String := "dartdead 0.1.0"

private def asLines (lines : List String) : String :=
  String.join (lines.map (· ++ "\n"))

def loadSettings (tree : FileTree) (arguments : Arguments) (root : Path) :
    Except SettingsError Settings :=
  match arguments.config with
  | some file => Settings.load tree file
  | none => if tree.isDirectory root then Settings.ofProject tree root else .ok .default

/-- Settings as the arguments change them: targets are replaced, patterns are added. -/
def Arguments.apply (arguments : Arguments) (settings : Settings) : Settings where
  targets := if arguments.targets.isEmpty then settings.targets else arguments.targets
  exclude := settings.exclude ++ arguments.exclude
  retain := settings.retain ++ arguments.retain
  scan := {
    functions := settings.scan.functions && !arguments.switches.contains .noFunctions
    followExports := settings.scan.followExports || arguments.switches.contains .followExports }
  parallel := { settings.parallel with jobs := arguments.jobs.or settings.parallel.jobs }
  strategy := settings.strategy

/-- Reports an analysis. A report that goes to a file is JSON. -/
def report (tree : FileTree) (arguments : Arguments) (timings : Report.Timings)
    (analysis : Analysis) : Except Failure Response :=
  match arguments.format.getD .terminal, arguments.output with
  | .terminal, _ =>
    let note :=
      if arguments.switches.contains .quiet || analysis.warnings.isEmpty then none
      else some ("Completed with " ++ toString analysis.warnings.length ++ " warning(s)")
    .ok { Response.printed (asLines (Report.terminal analysis timings)) with note }
  | .json, none => .ok (.printed (asLines [Report.json analysis timings]))
  | .json, some file =>
    let contents := Report.json analysis timings
    match tree.write? file contents with
    | none => .error (.unwritable file)
    | some _ =>
      .ok { Response.printed (asLines ["Report written to: " ++ file.text]) with
        written := some (file, contents) }

def analyze (machine : Machine) (timings : Report.Timings) (tree : FileTree)
    (arguments : Arguments) : Except Failure Response := do
  let root := arguments.path.getD ⟨"."⟩
  let settings ← (loadSettings tree arguments root).mapError .settings
  let analysis ← (Analysis.run machine (arguments.apply settings) tree root).mapError .run
  report tree arguments timings analysis

def respond (machine : Machine) (timings : Report.Timings) (tree : FileTree)
    (arguments : List String) : Response :=
  match Arguments.read arguments with
  | .error .version => .printed (asLines [versionText])
  | .error .misuse => .misused
  | .ok arguments =>
    match analyze machine timings tree arguments with
    | .ok response => response
    | .error failure => .failed failure

end DeadCode.CommandLine

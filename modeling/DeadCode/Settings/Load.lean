import DeadCode.Settings.Basic
import DeadCode.Toml.Document
import DeadCode.Tree.Basic
import DeadCode.Yaml.Document

/-!
Settings files, in YAML or in TOML. What a file does not mention stays as it is by default, and what it
mentions in vain does not matter.
-/
namespace DeadCode

/-- How the values of a format are understood. -/
structure Format (α : Type) where
  /-- The fields of a record, given the names of those that are known. -/
  fields? : List String → α → Option (List (String × α))
  items? : α → Option (List α)
  text? : α → Option String
  flag? : α → Option Bool
  count? : α → Option Nat
  /-- What a value that may be missing holds. -/
  optional? : α → Option (Option α)
  /-- A word out of a fixed set. -/
  word? : α → Option String

/-- Nodes that refer to others are understood as those. -/
def Format.yaml (document : Yaml.Document) : Format Yaml.Node where
  fields? _ node := do
    (← (document.resolve node).entries?).mapM fun (key, value) =>
      (document.resolve key).text?.map (·, value)
  items? node := (document.resolve node).items?
  text? node := (document.resolve node).text?
  flag? node := (document.resolve node).flag?
  count? node := (document.resolve node).count?
  optional? node := (document.resolve node).optional?
  word? node := (document.resolve node).word?

def Format.toml : Format Toml.Value where
  fields? := Toml.Value.fields?
  items? := Toml.Value.items?
  text? := Toml.Value.text?
  flag? := Toml.Value.flag?
  count? := Toml.Value.count?
  optional? value := some (some value)
  word? := Toml.Value.word?

namespace Format

variable {α β : Type}

/-- The value of a field, or what it is by default; `none` if the field is given twice or its value
is not understood. -/
def field? (fields : List (String × α)) (name : String) (missing : β) (decode? : α → Option β) :
    Option β :=
  match fields.filter (·.1 == name) with
  | [] => some missing
  | [(_, value)] => decode? value
  | _ => none

def texts? (format : Format α) (value : α) : Option (List String) :=
  (format.items? value).bind (·.mapM format.text?)

def scanSettings? (format : Format α) (missing : ScanSettings) (value : α) :
    Option ScanSettings := do
  let fields ← format.fields? ["functions", "follow_exports"] value
  let functions ← field? fields "functions" missing.functions format.flag?
  let followExports ← field? fields "follow_exports" missing.followExports format.flag?
  some { functions, followExports }

def parallelSettings? (format : Format α) (missing : ParallelSettings) (value : α) :
    Option ParallelSettings := do
  let fields ← format.fields? ["jobs", "min_files_per_worker", "sequential_threshold"] value
  let jobs ← field? fields "jobs" missing.jobs fun value => do
    match ← format.optional? value with
    | none => some none
    | some value => (format.count? value).map some
  let minFilesPerWorker ←
    field? fields "min_files_per_worker" missing.minFilesPerWorker format.count?
  let sequentialThreshold ←
    field? fields "sequential_threshold" missing.sequentialThreshold format.count?
  some { jobs, minFilesPerWorker, sequentialThreshold }

def strategy? (format : Format α) (missing : PackageStrategy) (value : α) :
    Option PackageStrategy := do
  let fields ← format.fields? ["strategy"] value
  field? fields "strategy" missing fun value => (format.word? value).bind PackageStrategy.ofTag?

def settings? (format : Format α) (value : α) : Option Settings := do
  let missing := Settings.default
  let fields ← format.fields?
    ["targets", "exclude", "retain_patterns", "scan", "parallel", "package"] value
  let targets ← field? fields "targets" missing.targets fun value =>
    (format.texts? value).map (·.map Path.mk)
  let exclude ← field? fields "exclude" missing.exclude format.texts?
  let retain ← field? fields "retain_patterns" missing.retain format.texts?
  let scan ← field? fields "scan" missing.scan (format.scanSettings? missing.scan)
  let parallel ←
    field? fields "parallel" missing.parallel (format.parallelSettings? missing.parallel)
  let strategy ← field? fields "package" missing.strategy (format.strategy? missing.strategy)
  some { targets, exclude, retain, scan, parallel, strategy }

end Format

inductive SettingsError where
  | unreadable (file : Path)
  | malformedYaml
  | malformedToml
  /-- A file of an unknown format that is neither YAML nor TOML. -/
  | malformed
deriving DecidableEq, Repr

def SettingsError.message : SettingsError → String
  | unreadable file => "Failed to read config file: " ++ file.text
  | malformedYaml => "Failed to parse YAML config"
  | malformedToml => "Failed to parse TOML config"
  | malformed => "Failed to parse config file"

namespace Settings

/-- The settings in a YAML text; without a document they are the default ones. -/
def ofYaml? (text : List Char) : Option Settings := do
  match ← Yaml.Document.read? text with
  | none => some .default
  | some document => (Format.yaml document).settings? document.root

def ofToml? (text : List Char) : Option Settings := do
  Format.toml.settings? (.table .header (← Toml.Entries.read? text))

/-- The settings in a file. Its extension says the format; without one that is known, both are
tried. -/
def load (tree : FileTree) (file : Path) : Except SettingsError Settings :=
  match tree.read file with
  | .error _ => .error (.unreadable file)
  | .ok contents =>
    let text := contents.toList
    let orElse (settings : Option Settings) (error : SettingsError) :
        Except SettingsError Settings :=
      match settings with
      | some settings => .ok settings
      | none => .error error
    match file.extension?.getD "" with
    | "yml" => orElse (ofYaml? text) .malformedYaml
    | "yaml" => orElse (ofYaml? text) .malformedYaml
    | "toml" => orElse (ofToml? text) .malformedToml
    | _ => orElse ((ofYaml? text).or (ofToml? text)) .malformed

/-- The names that a settings file may have without being asked for, the preferred ones first. -/
def fileNames : List String :=
  [".dartdead.yml", ".dartdead.yaml", ".dartdead.toml", "dartdead.yml", "dartdead.yaml",
   "dartdead.toml"]

/-- The settings of a project: those in the first file of a usual name that exists, or the default
ones. -/
def ofProject (tree : FileTree) (root : Path) : Except SettingsError Settings :=
  match (fileNames.map fun name => root.join ⟨name⟩).find? tree.exists with
  | some file => load tree file
  | none => .ok .default

end Settings
end DeadCode

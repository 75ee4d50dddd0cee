import DeadCode.Analysis

/-!
The report of an analysis as a JSON text.
-/
namespace DeadCode.Report

inductive Json where
  | null
  | number (value : Nat)
  | text (contents : String)
  | array (items : List Json)
  | object (fields : List (String × Json))

namespace Json

private def hexDigits (code : Nat) : List Char :=
  [Nat.digitChar (code / 16), Nat.digitChar (code % 16)]

private def escaped (c : Char) : List Char :=
  match c with
  | '"' => ['\\', '"']
  | '\\' => ['\\', '\\']
  | '\x08' => ['\\', 'b']
  | '\x0c' => ['\\', 'f']
  | '\n' => ['\\', 'n']
  | '\r' => ['\\', 'r']
  | '\t' => ['\\', 't']
  | _ => if c < ' ' then "\\u00".toList ++ hexDigits c.toNat else [c]

/-- A text in quotes; only quotes, backslashes and control characters are escaped. -/
def quote (contents : String) : String :=
  "\"" ++ String.ofList (contents.toList.flatMap escaped) ++ "\""

/-- Puts the parts of a collection on lines of their own between brackets. -/
private def between (opening closing margin : String) (parts : List String) : String :=
  if parts.isEmpty then opening ++ closing
  else
    let inner := margin ++ "  "
    opening ++ "\n" ++ inner ++ (",\n" ++ inner).intercalate parts ++ "\n" ++ margin ++ closing

mutual

/-- The text of a value whose lines begin with a margin; each level goes in by two spaces. -/
def render (margin : String) : Json → String
  | null => "null"
  | number value => toString value
  | text contents => quote contents
  | array items => between "[" "]" margin (renderItems (margin ++ "  ") items)
  | object fields => between "\x7b" "\x7d" margin (renderFields (margin ++ "  ") fields)

private def renderItems (margin : String) : List Json → List String
  | [] => []
  | item :: rest => item.render margin :: renderItems margin rest

private def renderFields (margin : String) : List (String × Json) → List String
  | [] => []
  | (name, value) :: rest =>
    (quote name ++ ": " ++ value.render margin) :: renderFields margin rest

end

end Json

private def pathJson (path : Path) : Json := .text path.text

private def optionJson {α : Type} (encode : α → Json) : Option α → Json
  | none => .null
  | some value => encode value

/-- How long the phases of a run took, in milliseconds. -/
structure Timings where
  scan : Nat
  usage : Nat
  total : Nat
deriving DecidableEq, Repr

private def statsJson (stats : Stats) (timings : Timings) : Json :=
  .object [
    ("files_discovered", .number stats.filesDiscovered),
    ("files_scanned", .number stats.filesScanned),
    ("files_counted", .number stats.filesCounted),
    ("classes", .number stats.classes),
    ("functions", .number stats.functions),
    ("exports", .number stats.exports),
    ("scan_workers", .number stats.scanWorkers),
    ("usage_workers", .number stats.usageWorkers),
    ("scan_ms", .number timings.scan),
    ("usage_ms", .number timings.usage),
    ("total_ms", .number timings.total)]

private def issueJson? (finding : Finding) : Option Json :=
  finding.severity?.map fun severity => .object [
    ("code", .text finding.category.code),
    ("severity", .text severity.tag),
    ("category", .text finding.category.tag),
    ("message", .text finding.message),
    ("file", pathJson finding.file),
    ("line", .number finding.line),
    ("column", .number finding.column),
    ("kind", .text finding.kind),
    ("name", .text finding.name),
    ("owner", .text finding.owner),
    ("internal_usages", .number finding.internalUsages),
    ("external_usages", .number finding.externalUsages)]

private def keyJson (key : SymbolKey) : Json :=
  .object [
    ("file", pathJson key.file),
    ("owner", .text key.owner),
    ("name", .text key.name),
    ("position", optionJson (fun (line, offset) => .array [.number line, .number offset])
      key.position)]

private def entityJson (finding : Finding) : Json :=
  .object [
    ("key", keyJson finding.key),
    ("name", .text finding.name),
    ("owner", .text finding.owner),
    ("kind", .text finding.kind),
    ("file", pathJson finding.file),
    ("line", .number finding.line),
    ("column", .number finding.column),
    ("category", .text finding.category.tag),
    ("internal_usages", .number finding.internalUsages),
    ("external_usages", .number finding.externalUsages),
    ("message", .text finding.message)]

private def warningJson (warning : Warning) : Json :=
  .object [
    ("kind", .text warning.tag),
    ("file", optionJson pathJson warning.file?),
    ("message", .text warning.message)]

def severityCount (analysis : Analysis) (severity : Severity) : Nat :=
  analysis.findings.countP (·.severity? == some severity)

private def summaryJson (analysis : Analysis) : Json :=
  let counts := analysis.categoryCounts.map fun (category, count) => (category.tag, count)
  let sorted := counts.mergeSort fun a b => a.1 ≤ b.1
  .object [
    ("total_issues", .number analysis.reportable.length),
    ("warnings", .number (severityCount analysis .warning)),
    ("infos", .number (severityCount analysis .info)),
    ("by_category", .object (sorted.map fun (tag, count) => (tag, .number count)))]

def ofAnalysis (analysis : Analysis) (timings : Timings) : Json :=
  .object [
    ("version", .text "1.0"),
    ("root", pathJson analysis.root),
    ("summary", summaryJson analysis),
    ("stats", statsJson analysis.stats timings),
    ("issues", .array (analysis.findings.filterMap issueJson?)),
    ("entities", .array (analysis.findings.map entityJson)),
    ("warnings", .array (analysis.warnings.map warningJson))]

def json (analysis : Analysis) (timings : Timings) : String :=
  (ofAnalysis analysis timings).render ""

end DeadCode.Report

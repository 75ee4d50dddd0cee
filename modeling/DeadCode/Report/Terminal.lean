import DeadCode.Report.Json

/-!
The report of an analysis for a reader at a terminal.
-/
namespace DeadCode.Report

/-- The issues of one file after another; the findings are in the order of their files. -/
private def byFile : List Finding → List (Path × List Finding)
  | [] => []
  | finding :: rest =>
    match byFile rest with
    | (file, group) :: others =>
      if finding.file.same file then (finding.file, finding :: group) :: others
      else (finding.file, [finding]) :: (file, group) :: others
    | [] => [(finding.file, [finding])]

private def issueLine (finding : Finding) : String :=
  let severity := (finding.severity?.getD .info).tag
  let uses :=
    if finding.category = .internalOnly then
      " (" ++ toString finding.internalUsages ++ " in file)"
    else ""
  "  " ++ toString finding.line ++ ":" ++ toString finding.column ++ " " ++ severity ++
    " [" ++ finding.category.code ++ "] " ++ finding.message ++ uses

private def issueLines (root : Path) (issues : List Finding) : List String :=
  if issues.isEmpty then ["No dead code found!"]
  else
    ["", "Found " ++ toString issues.length ++ " dead code issues:", ""] ++
      (byFile issues).flatMap fun (file, group) =>
        ((file.stripBase? root).getD file).text :: group.map issueLine ++ [""]

/-- A text filled up with spaces to a width. -/
private def padded (width : Nat) (text : String) : String :=
  text ++ String.ofList (List.replicate (width - text.length) ' ')

private def severityText (analysis : Analysis) : String :=
  let part (severity : Severity) (unit : String) : List String :=
    let count := severityCount analysis severity
    if count = 0 then [] else [toString count ++ " " ++ unit]
  let parts := part .warning "warnings" ++ part .info "info"
  ", ".intercalate (if parts.isEmpty then ["clean"] else parts)

private def summaryLines (analysis : Analysis) (timings : Timings) : List String :=
  let stats := analysis.stats
  [String.ofList (List.replicate 60 '─'), "Summary: " ++ severityText analysis, "", "By Category:"] ++
    (analysis.categoryCounts.map fun (category, count) =>
      "  " ++ padded 28 category.tag ++ " " ++ toString count) ++
    ["",
     "Scanned " ++ toString stats.filesScanned ++ " files (" ++ toString stats.classes ++
       " classes, " ++ toString stats.functions ++ " functions) in " ++ toString timings.total ++ "ms",
     "Workers: " ++ toString stats.scanWorkers ++ " scan / " ++ toString stats.usageWorkers ++
       " usage; phases: " ++ toString timings.scan ++ "ms scan, " ++ toString timings.usage ++
       "ms usage"]

private def warningLines (warnings : List Warning) : List String :=
  if warnings.isEmpty then []
  else
    ["", "⚠ " ++ toString warnings.length ++ " warning(s) during the run:"] ++
      warnings.map fun warning => "  → " ++ warning.message

/-- The report as lines for a terminal. -/
def terminal (analysis : Analysis) (timings : Timings) : List String :=
  issueLines analysis.root analysis.reportable ++ summaryLines analysis timings ++
    warningLines analysis.warnings ++ [""]

end DeadCode.Report

import Downlevel.Discovery
import Downlevel.Job
import Downlevel.Report
import Downlevel.Report.Json
import Downlevel.Report.Table

/-!
# Output of reports

A report is shown as lines for people, as JSON, or as nothing but the texts
that came out.
-/

namespace Downlevel

namespace Summary

def label (job : Job) : String := if job.apply then "Rewritten" else "Would rewrite"

def line (s : Summary) (job : Job) : String :=
  s!"{s.files} files: {s.changed} " ++ (label job).map Char.toLower ++
    s!", {s.unchanged} unchanged, {s.failed} failed\n"

def render (s : Summary) (job : Job) : String :=
  if job.quiet then s.line job
  else if s.files = 0 then "No C++ sources found.\n"
  else
    let cells := [s.files, s.changed, s.unchanged, s.failed, s.edits].map toString
    "\n" ++ Table.render ["Files", label job, "Unchanged", "Failed", "Rewrites"] cells ++
      if job.check ∧ 0 < s.changed then
        "[CHECK] C++17 constructs remain; run with --apply to rewrite them.\n"
      else ""

def toJson (s : Summary) : JsonValue :=
  .record [("files", .number s.files), ("changed", .number s.changed),
    ("unchanged", .number s.unchanged), ("failed", .number s.failed), ("rewrites", .number s.edits)]

end Summary

def Status.word : Status → String
  | .unchanged => "unchanged"
  | .changed => "changed"
  | .failed => "failed"

namespace FileReport

def toJson (r : FileReport) : JsonValue :=
  let error := r.error?.toList.map fun e => ("error", JsonValue.text e)
  let line := r.line?.toList.map fun n => ("line", JsonValue.number n)
  let column := r.column?.toList.map fun n => ("column", JsonValue.number n)
  .record ([("file", .text r.file), ("status", .text r.status.word), ("passes", .number r.passes),
    ("rewrites", .number r.edits), ("written", .truth r.written)] ++ error ++ line ++ column)

/-- The line on a file, if it has one. Unchanged files have one only on request. -/
def render (r : FileReport) (job : Job) : String :=
  match r.status with
  | .changed =>
    "  " ++ (if r.written then "Rewritten: " else "Would rewrite: ") ++ r.file ++
      s!" ({r.edits} rewrites, {r.passes} passes)\n"
  | .failed =>
    let place :=
      match r.line?, r.column? with
      | some line, some column => s!":{line}:{column}"
      | _, _ => ""
    "  Failed: " ++ r.file ++ place ++ ": " ++ r.error?.getD "" ++ "\n"
  | .unchanged => if job.verbose then "  Unchanged: " ++ r.file ++ "\n" else ""

end FileReport

namespace Report

def toJson (r : Report) : JsonValue :=
  .record [("files", .list (r.files.map FileReport.toJson)), ("summary", r.summary.toJson)]

def lines (r : Report) (job : Job) : String :=
  if job.quiet then ""
  else
    let heading :=
      if !job.apply ∧ 0 < r.summary.changed then "[DRY-RUN] Files that would be rewritten:\n"
      else ""
    heading ++ String.join (r.files.map (·.render job))

def render (r : Report) (job : Job) : String :=
  if job.json then r.toJson.pretty 0 ++ "\n"
  else if job.stdout then String.join (r.files.map fun f => f.text?.getD "")
  else r.lines job ++ r.summary.render job

end Report

/-- The folders that are left out by request; if there are none, those left out anyway. -/
def exclusionList (folders : List String) : String :=
  if folders.isEmpty then
    "[OK] Using default exclusions only: " ++
      ", ".intercalate (defaultExcludes.mergeSort fun a b => a ≤ b) ++ "\n"
  else "Excluding: " ++ ", ".intercalate folders ++ "\n"

end Downlevel

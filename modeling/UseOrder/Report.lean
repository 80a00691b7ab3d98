import UseOrder.Fix
import UseOrder.Json.Writer

/-!
# Reports

A run over several files is summed up in a few numbers and, on demand, in a report with the result
for every file.
-/

namespace UseOrder

/-- The result for a source text, with further facts about it that a report shows. -/
structure ReportEntry where
  result : FixResult
  further : List (String × Value) := []

/-- The numbers of a run. -/
structure Summary where
  checked : Nat
  changed : Nat
  failed : Nat
  errors : Nat
deriving DecidableEq, Repr

/-- Sum up results and further errors. -/
def Summary.of (results : List FixResult) (errorCount : Nat) : Summary where
  checked := results.length
  changed := results.countP (·.changed)
  failed := results.countP fun r => !r.ok
  errors := errorCount + (results.flatMap FixResult.issues).length

/-- A summary as a value. -/
def Summary.toValue (s : Summary) : Value :=
  .object [("files_checked", .nat s.checked), ("files_changed", .nat s.changed),
    ("files_failed", .nat s.failed), ("errors", .nat s.errors)]

/-- The report of a run. -/
def reportValue (entries : List ReportEntry) (errors : List Value) (dryRun : Bool) : Value :=
  .object [("dry_run", .bool dryRun),
    ("files", .list (entries.map fun e => e.result.toValue e.further)), ("errors", .list errors),
    ("summary", (Summary.of (entries.map ReportEntry.result) errors.length).toValue)]

/-- The text of a report. -/
def reportText (entries : List ReportEntry) (errors : List Value) (dryRun : Bool) : String :=
  Json.page (reportValue entries errors dryRun) ++ "\n"

end UseOrder

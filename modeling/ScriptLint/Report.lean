import ScriptLint.Issue

/-!
# Reports

The issues of one source in the order of their places.  Issues at the same line and column keep the
order in which they were found.
-/

namespace ScriptLint

/-- The issues of a source, by line and column. -/
structure Report where
  path : String
  issues : List Issue
deriving DecidableEq, Repr

namespace Report

/-- One issue starts before another, or at the same line and column. -/
def comesBefore (a b : Issue) : Bool :=
  a.line < b.line || (a.line == b.line && a.column ≤ b.column)

/-- The report of issues in any order. -/
def ofIssues (path : String) (issues : List Issue) : Report :=
  ⟨path, issues.mergeSort comesBefore⟩

def bySeverity (report : Report) (severity : Severity) : List Issue :=
  report.issues.filter fun issue => issue.severity = severity

def byRule (report : Report) (rule : String) : List Issue :=
  report.issues.filter fun issue => issue.rule = rule

def count (report : Report) (severity : Severity) : Nat :=
  (report.bySeverity severity).length

def fixableCount (report : Report) (severity : Severity) : Nat :=
  ((report.bySeverity severity).filter Issue.isFixable).length

/-- Number of errors and warnings that carry a fix. -/
def fixable (report : Report) : Nat :=
  report.fixableCount .error + report.fixableCount .warning

def hasErrors (report : Report) : Bool :=
  0 < report.count .error

/-- There is an error or a warning. -/
def hasWarnings (report : Report) : Bool :=
  0 < report.count .error + report.count .warning

def reaching (report : Report) (threshold : Severity) : List Issue :=
  report.issues.filter fun issue => issue.severity.reaches threshold

def hasIssuesAt (report : Report) (threshold : Severity) : Bool :=
  report.issues.any fun issue => issue.severity.reaches threshold

def fixes (report : Report) : List Fix :=
  report.issues.filterMap Issue.fix

def totals (report : Report) : String :=
  "Total: " ++ toString (report.count .error) ++ " error(s), " ++
    toString (report.count .warning) ++ " warning(s), " ++ toString (report.count .info) ++
    " info(s), " ++ toString report.fixable ++ " fixable\n"

def format (report : Report) (threshold : Severity) : String :=
  let failing := report.reaching threshold
  "\n=== gtlint: " ++ toString failing.length ++ " issue(s) in " ++ report.path ++ " ===\n\n" ++
    String.join (failing.map fun issue => issue.format report.path ++ "\n") ++ report.totals

end Report
end ScriptLint

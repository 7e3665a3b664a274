import ScriptLint.Position
import ScriptLint.Severity
import ScriptLint.Text.Quoted

/-!
# Issues

An issue is what a rule has to say about a place of a source.  It may carry a fix: a range of bytes
and the text to put there.
-/

namespace ScriptLint

/-- A range of bytes with the text that replaces it. -/
structure Fix where
  start : Nat
  stop : Nat
  replacement : String
deriving DecidableEq, Repr

namespace Fix

def replace (span : Span) (replacement : String) : Fix :=
  ⟨span.start.offset, span.stop.offset, replacement⟩

def delete (span : Span) : Fix :=
  replace span ""

def insert (offset : Nat) (text : String) : Fix :=
  ⟨offset, offset, text⟩

end Fix

/-- A message of a rule about a place of a source. -/
structure Issue where
  code : String
  rule : String
  severity : Severity
  message : String
  span : Span
  fix : Option Fix
deriving DecidableEq, Repr

namespace Issue

def line (issue : Issue) : Nat :=
  issue.span.start.line

def column (issue : Issue) : Nat :=
  issue.span.start.column

def isFixable (issue : Issue) : Bool :=
  issue.fix.isSome

/-- The issue on one line. -/
def summary (issue : Issue) : String :=
  toString issue.line ++ ":" ++ toString issue.column ++ ": " ++ issue.severity.name ++ " [" ++
    issue.rule ++ "] " ++ issue.message

def fixLine (issue : Issue) : String :=
  match issue.fix with
  | none => ""
  | some fix => "  = fix: replace with " ++ Text.quote fix.replacement ++ "\n"

/-- The issue with the file it is in, on several lines. -/
def format (issue : Issue) (path : String) : String :=
  issue.code ++ " " ++ issue.rule ++ " at " ++ path ++ ":" ++ toString issue.line ++ ":" ++
    toString issue.column ++ "\n  " ++ issue.severity.name ++ ": " ++ issue.message ++ "\n" ++
    issue.fixLine

/-- The headline of the issue when it is shown next to its source. -/
def headline (issue : Issue) : String :=
  "[" ++ issue.code ++ "] " ++ issue.message

/-- The help shown next to its source, if there is a fix. -/
def help (issue : Issue) : Option String :=
  issue.fix.map fun fix => "fix available: replace with " ++ Text.quote fix.replacement

end Issue
end ScriptLint

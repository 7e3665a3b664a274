import ScriptLint.Config
import ScriptLint.Edit
import ScriptLint.Markup
import ScriptLint.Parse.Program
import ScriptLint.Report
import ScriptLint.Rule

/-!
# Linting and fixing

**Linting.** Every rule that the settings do not turn off runs on the program, in order; faults of
form come last, under a rule name of their own.  Issues that directives suppress, and most issues in
raw markup, are dropped.

**Fixing.** The fixes of a report are applied, and the outcome is linted again, until no fix applies
or the settings allow no further pass.
-/

namespace ScriptLint

inductive LintError where
  | unreadable (path : String) (fault : ReadFault)
  | config (error : ConfigError)
  | duplicateRule (name : String)
deriving DecidableEq, Repr

def LintError.message : LintError → String
  | unreadable path fault => "Failed to read " ++ path ++ ": " ++ fault.message
  | config error => "Configuration error: " ++ error.message
  | duplicateRule name => "Rule `" ++ name ++ "` is registered more than once"

/-- Rules with settings. -/
structure Linter where
  rules : List Rule
  config : Config

structure FixReport where
  output : String
  passes : Nat
  applied : Nat
  report : Report

def FixReport.changed (fixed : FixReport) : Bool :=
  0 < fixed.applied

namespace Linter

def syntaxErrorRule : String :=
  "syntax-error"

def syntaxErrorCode : String :=
  "GT000"

/-- The first name that stands twice in a list, given the names before it. -/
def firstRepeated? : (seen : List String) → List String → Option String
  | _, [] => none
  | seen, name :: rest =>
    if seen.contains name then some name else firstRepeated? (name :: seen) rest

/-- A linter with the given rules, whose names must differ. -/
def build (rules : List Rule) (config : Config) : Except LintError Linter :=
  match firstRepeated? [] (rules.map Rule.name) with
  | some name => .error (.duplicateRule name)
  | none => .ok ⟨rules, config⟩

variable (linter : Linter)

/-- The issues of a rule, unless the settings turn it off. -/
def ruleIssues (path source : String) (directives : DirectiveTable) (nodes : List Node)
    (rule : Rule) : List Issue :=
  if linter.config.isRuleEnabled rule.name then
    let severity := (linter.config.ruleSeverity? rule.name).getD rule.severity
    rule.issues ⟨path, source, severity, directives⟩ nodes
  else
    []

def syntaxIssues (diagnostics : List Diagnostic) : List Issue :=
  if linter.config.reportSyntaxErrors && linter.config.isRuleEnabled syntaxErrorRule then
    let severity := (linter.config.ruleSeverity? syntaxErrorRule).getD .error
    diagnostics.map fun d =>
      ⟨syntaxErrorCode, syntaxErrorRule, severity, d.message, d.span, none⟩
  else
    []

/-- All issues of a source, before any is dropped. -/
def rawIssues (path source : String) (parsed : Parsed) (directives : DirectiveTable) :
    List Issue :=
  linter.rules.flatMap (linter.ruleIssues path source directives parsed.program.nodes) ++
    linter.syntaxIssues parsed.diagnostics

def lint (path source : String) : Report :=
  let parsed := parse source
  let directives := DirectiveTable.ofSource source
  let cs := source.toList
  let markup := Markup.lineRanges parsed.program.nodes
  let issues := (linter.rawIssues path source parsed directives).filter fun issue =>
    !directives.isSuppressed issue.line issue.rule && Markup.keeps cs markup issue
  Report.ofIssues path issues

/-- Applies fixes again and again, with a number of passes left. -/
def fixFrom (path : String) : (left passes applied : Nat) → String → FixReport
  | 0, passes, applied, text => ⟨text, passes, applied, linter.lint path text⟩
  | left + 1, passes, applied, text =>
    let report := linter.lint path text
    let outcome := applyFixes text report.fixes
    if outcome.applied = 0 then
      ⟨text, passes, applied, report⟩
    else
      fixFrom path left (passes + 1) (applied + outcome.applied) outcome.output

/-- Applies the fixes of a source as often as the settings allow. -/
def fix (path source : String) : FixReport :=
  linter.fixFrom path linter.config.maxFixPasses 0 0 source

end Linter
end ScriptLint

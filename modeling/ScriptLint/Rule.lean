import ScriptLint.Issue
import ScriptLint.Directive.Table
import ScriptLint.Tree.Node

/-!
# Rules

A rule looks at the nodes of a program, with the source and its directives at hand, and gives its
findings in order.  Each finding becomes an issue under the name, the code and the severity of the
rule.
-/

namespace ScriptLint

/-- What a rule knows besides the nodes of the program. -/
structure RuleContext where
  path : String
  source : String
  severity : Severity
  directives : DirectiveTable

/-- Something that a rule has to say about a place. -/
structure Finding where
  message : String
  span : Span
  fix : Option Fix
deriving DecidableEq, Repr

namespace Finding

def plain (message : String) (span : Span) : Finding :=
  ⟨message, span, none⟩

def withFix (message : String) (span : Span) (fix : Fix) : Finding :=
  ⟨message, span, some fix⟩

def toIssue (finding : Finding) (code rule : String) (severity : Severity) : Issue :=
  ⟨code, rule, severity, finding.message, finding.span, finding.fix⟩

end Finding

structure Rule where
  name : String
  code : String
  description : String := ""
  severity : Severity := .error
  fixable : Bool := false
  /-- The findings of the rule on the nodes of a program. -/
  check : RuleContext → List Node → List Finding

def Rule.issues (rule : Rule) (context : RuleContext) (nodes : List Node) : List Issue :=
  (rule.check context nodes).map fun finding =>
    finding.toIssue rule.code rule.name context.severity
end ScriptLint

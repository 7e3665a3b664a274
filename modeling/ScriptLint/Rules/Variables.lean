import ScriptLint.Rule
import ScriptLint.Rules.VariableUsage

/-!
# Undefined and unused variables

The rule `no-undefined-vars` finds reads of names that the program does not define.  The rule
`no-unused-vars` finds names that the program defines and does not read, at their first definition.
Names that directives declare, and names given to the rule, are left out.
-/

namespace ScriptLint
namespace Rules
namespace UndefinedVariables

def name : String :=
  "no-undefined-vars"

/-- A name needs no definition in the program. -/
def isSupplied (globals : List String) (directives : DirectiveTable) (name : String) : Bool :=
  directives.declares .fromParent name || directives.declares .fromChild name ||
    globals.contains name

def findings (globals : List String) (directives : DirectiveTable) (nodes : List Node) :
    List Finding :=
  let usage := VariableUsage.ofNodes nodes
  (usage.reads.reverse.filter fun read =>
    !(usage.isDefined read.1 || isSupplied globals directives read.1)).map fun read =>
      .plain ("`" ++ read.1 ++ "` is used but never defined") read.2

end UndefinedVariables

namespace UnusedVariables

def name : String :=
  "no-unused-vars"

/-- A name needs no read in the program. -/
def isTaken (ignored : List String) (directives : DirectiveTable) (name : String) : Bool :=
  directives.declares .toParent name || directives.declares .toChild name ||
    ignored.contains name

def findings (ignored : List String) (directives : DirectiveTable) (nodes : List Node) :
    List Finding :=
  let usage := VariableUsage.ofNodes nodes
  (usage.definitions.reverse.filter fun definition =>
    !(usage.isRead definition.1 || isTaken ignored directives definition.1)).map
      fun definition =>
        .plain ("`" ++ definition.1 ++ "` is assigned but never used") definition.2

end UnusedVariables

/-- The rule on reads of undefined variables; the given names are always defined. -/
def undefinedVariables (globals : List String) (severity : Severity) : Rule where
  name := UndefinedVariables.name
  code := "GT002"
  description := "Flags variables that are used but never defined"
  severity := severity
  check := fun context nodes => UndefinedVariables.findings globals context.directives nodes

/-- The rule on unused variables; the given names are never found. -/
def unusedVariables (ignored : List String) (severity : Severity) : Rule where
  name := UnusedVariables.name
  code := "GT003"
  description := "Flags variables that are assigned but never used"
  severity := severity
  check := fun context nodes => UnusedVariables.findings ignored context.directives nodes

end Rules
end ScriptLint

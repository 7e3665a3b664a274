import ScriptLint.Tree.Node

/-!
# Variables of a program

The definitions and the reads of variables, collected from the nodes of a program in order.

An assignment defines its left side, a loop its variables, and the keywords `set` and `save` define
the identifier that is their argument.  Every other identifier is a read, except a name that is
called.  A node comes before the nodes inside it, so an identifier that is no read is known as such,
by its offset, before it is met.
-/

namespace ScriptLint

/-- Variables met so far; the lists have the newest entry first. -/
structure VariableUsage where
  /-- Defined names, each with the place of its first definition. -/
  definitions : List (String × Span)
  /-- Reads of names with their places. -/
  reads : List (String × Span)
  /-- Offsets of identifiers that are no reads. -/
  notReads : List Nat

namespace VariableUsage

def empty : VariableUsage :=
  ⟨[], [], []⟩

def isDefined (usage : VariableUsage) (name : String) : Bool :=
  usage.definitions.any (·.1 == name)

def isRead (usage : VariableUsage) (name : String) : Bool :=
  usage.reads.any (·.1 == name)

/-- The identifier at an offset is no read. -/
def exclude (usage : VariableUsage) (offset : Nat) : VariableUsage :=
  { usage with notReads := offset :: usage.notReads }

/-- A target of a definition; only an identifier defines a variable. -/
def define (usage : VariableUsage) : Expression → VariableUsage
  | .identifier name span =>
    let usage := usage.exclude span.start.offset
    if usage.isDefined name then usage
    else { usage with definitions := (name, span) :: usage.definitions }
  | _ => usage

/-- An identifier where a value is asked for. -/
def read (usage : VariableUsage) (name : String) (span : Span) : VariableUsage :=
  if usage.notReads.contains span.start.offset then usage
  else { usage with reads := (name, span) :: usage.reads }

/-- What an expression says about variables, without the expressions inside it. -/
def recordExpression (usage : VariableUsage) : Expression → VariableUsage
  | .binary .assign left _ _ => usage.define left
  | .call (.identifier _ span) _ _ => usage.exclude span.start.offset
  | .identifier name span => usage.read name span
  | _ => usage

/-- The header belongs to a keyword that defines its argument. -/
def definesArgument (header : Header) : Bool :=
  header.isNamed "set" || header.isNamed "save"

def recordHeader (usage : VariableUsage) (header : Header) : VariableUsage :=
  if definesArgument header then
    match header.argument with
    | some (.expression e) => usage.define e
    | _ => usage
  else
    usage

def record (usage : VariableUsage) : Node → VariableUsage
  | .statement (.keyword header _ _ _) => usage.recordHeader header
  | .subKeyword s => usage.recordHeader s.header
  | .argument (.loop names _ _) => names.foldl define usage
  | .expression e => usage.recordExpression e
  | _ => usage

def ofNodes (nodes : List Node) : VariableUsage :=
  nodes.foldl record empty

end VariableUsage
end ScriptLint

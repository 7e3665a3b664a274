import ScriptLint.Parse.Cursor
import ScriptLint.Token.Source
import ScriptLint.Tree.Expression
import ScriptLint.Number.Decimal

/-!
# Reading expressions

**Grammar.** From loosest to tightest: assignment, `or`, `and`, equality, the comparisons, `in`,
sums, products, the operators with one operand, and what follows an operand (a property, an index,
the arguments of a call).  Operators of one layer group to the left, assignments to the right.  A
single equals sign assigns at the top of a statement and compares everywhere else.

**Limits.** Brackets, and expressions inside strings, nest up to a fixed depth; the parser of one
depth is built from the parser of the depth below.  One expression applies a fixed number of
operations at most; past it, the rest is skipped.
-/

namespace ScriptLint

/-- Greatest nesting of blocks and brackets. -/
def maxDepth : Nat :=
  100

/-- Greatest number of operations in one expression. -/
def maxOperations : Nat :=
  1000

/-- What an equals sign means at the top of an expression. -/
inductive Mode where
  /-- It assigns. -/
  | statement
  /-- It compares. -/
  | condition
deriving DecidableEq, Repr

namespace BinaryOp

/-- The operator that a token stands for between two operands. -/
def ofToken? (t : Token) : Option BinaryOp :=
  if t.kind = .operator then
    [or, and, equal, less, greater, lessEqual, greaterEqual, isIn, add, subtract, multiply, divide,
      remainder].find? fun op => op.text == t.text
  else
    none

/-- The layers of operators that group to the left, from loosest to tightest. -/
def layers : List (List BinaryOp) :=
  [[or], [and], [equal], [less, greater, lessEqual, greaterEqual], [isIn], [add, subtract],
    [multiply, divide, remainder]]

end BinaryOp

/-- The layers of operators at the top of an expression. -/
def Mode.layers : Mode → List (List BinaryOp)
  | statement => BinaryOp.layers.filter fun ops => !ops.contains .equal
  | condition => BinaryOp.layers

/-- The operator that a token stands for before an operand. -/
def UnaryOp.ofToken? (t : Token) : Option UnaryOp :=
  if t.isOperator "not" then some not
  else if t.isOperator "-" then some negate
  else none

namespace Parser

/-- Counts one operation.  When the limit is passed this is reported once, and the rest of the
expression is skipped. -/
def countOperation : Parser Bool :=
  fun c =>
    if c.operations < maxOperations then
      (true, { c with operations := c.operations + 1 })
    else if c.operations = maxOperations then
      (false,
        { c.report .nestedTooDeeply c.current.span with operations := c.operations + 1 }.skipTo
          Token.Kind.isBoundary)
    else
      (false, c.skipTo Token.Kind.isBoundary)

/-- The end of an expression that fills its line; a comment may follow. -/
def expectEnd : Parser Unit := do
  let t ← peek
  if !t.kind.isBoundary then
    report (.afterExpression t.kind t.text) t.span
  skipTo Token.Kind.isStructural

/-- An expression that fills the rest of its line, read with a new count of operations. -/
def standalone (p : Parser Expression) : Parser Expression := do
  let t ← peek
  if t.kind.isBoundary then
    let span := Span.point t.span.start
    report .missingExpression span
    skipTo Token.Kind.isStructural
    return .null span
  else
    resetOperations
    let e ← p
    expectEnd
    return e

section Operands

-- The parser for what stands inside brackets or inside a string; there is none at the greatest
-- depth.
variable (inner : Option (Parser Expression))

def nested : Parser Expression :=
  match inner with
  | some p => p
  | none => do
    let t ← peek
    report .nestedTooDeeply t.span
    skipTo Token.Kind.isBoundary
    return .null t.span

/-- One more item of a list, and whether another follows. -/
def listStep (close : String) (items : List Expression) : Parser (List Expression × Bool) := do
  if ← atMark close then
    let _ ← next
    return (items, false)
  else if ← atBoundary then
    reportHere (.missingMark close)
    return (items, false)
  else
    let item ← nested inner
    let items := items ++ [item]
    if ← atMark "," then
      let _ ← next
      return (items, true)
    else if ← atMark close then
      let _ ← next
      return (items, false)
    else
      reportHere (.missingCommaOrMark close)
      return (items, false)

/-- Items between commas up to a closing mark; the opening one is already read. -/
def list (close : String) : Parser (List Expression) :=
  loop [] (listStep inner close)

/-- The value of a property, after its key. -/
def propertyValue : Parser Expression := do
  if ← atOperator "->" then
    let _ ← next
    nested inner
  else
    reportHere .missingArrow
    let t ← peek
    return .null (.point t.span.start)

/-- One more property of an object, and whether another follows. -/
def propertyStep (properties : List Property) : Parser (List Property × Bool) := do
  if ← atMark "\x7d" then
    let _ ← next
    return (properties, false)
  else if ← atBoundary then
    reportHere (.missingMark "\x7d")
    return (properties, false)
  else
    let t ← peek
    let key ← nested inner
    let value ← propertyValue inner
    let span ← spanFrom t.span.start
    let properties := properties ++ [.mk key value span]
    if ← atMark "," then
      let _ ← next
      return (properties, true)
    else if ← atMark "\x7d" then
      let _ ← next
      return (properties, false)
    else
      reportHere (.missingCommaOrMark "\x7d")
      return (properties, false)

def properties : Parser (List Property) :=
  loop [] (propertyStep inner)

/-- The insides of the braces in a string, with their positions. -/
def braceRegions (p : Position) (cs : List Char) : List (Position × List Char) :=
  match _h : cs.dropWhile (· ≠ '{') with
  | [] => []
  | brace :: rest =>
    match _h' : Piece.splitBraces rest with
    | none => []
    | some (region, after) =>
      let anchor := (p.advance (cs.takeWhile (· ≠ '{'))).advance [brace]
      (anchor, region) :: braceRegions ((anchor.advance region).advance ['}']) after
termination_by cs.length
decreasing_by
  have h₁ := (List.dropWhile_sublist (fun x => decide (x ≠ '{')) (l := cs)).length_le
  have h₂ := congrArg List.length (Piece.splitBraces_eq_some _h')
  rw [_h] at h₁
  simp only [List.length_append, List.length_cons] at h₁ h₂
  omega

/-- The expression in a region of a string, if it reads without a fault. -/
def regionExpression? (p : Parser Expression) (region : Position × List Char) :
    Option Expression :=
  if Text.allBlank region.2 then
    none
  else
    let tokens := tokenizeExpression (String.ofList region.2) region.1
    let result := standalone p (Cursor.start tokens (region.1.advance region.2))
    if result.2.diagnostics.isEmpty then some result.1 else none

def interpolations (t : Token) : List Expression :=
  match inner with
  | none => []
  | some p => (braceRegions t.span.start t.text.toList).filterMap (regionExpression? p)

/-- The value of a string literal: what stands between its quotes. -/
def stringValue (raw : String) : String :=
  let cs := raw.toList
  match cs with
  | [] => raw
  | [_] => raw
  | c :: rest =>
    if Piece.isQuote c && rest.getLast? == some c then String.ofList rest.dropLast else raw

/-- The value of a number literal. -/
def numberValue (raw : String) : LiteralValue :=
  match Binary64.ofChars? raw.toList with
  | some x => .number x
  | none => .null

/-- Reads a token where an operand is expected and it cannot be one. -/
def unexpected (t : Token) : Parser Expression := do
  let _ ← next
  report (.unexpectedToken t.kind t.text) t.span
  return .null t.span

/-- What begins with a punctuation mark where an operand is expected. -/
def bracketed (t : Token) : Parser Expression := do
  if t.text = "(" then
    let _ ← next
    let e ← nested inner
    expectMark ")"
    return e
  else if t.text = "[" then
    let _ ← next
    let elements ← list inner "]"
    return .array elements (← spanFrom t.span.start)
  else if t.text = "\x7b" then
    let _ ← next
    let properties ← properties inner
    return .object properties (← spanFrom t.span.start)
  else
    unexpected t

/-- An operand without what may follow it. -/
def primary : Parser Expression := do
  let t ← peek
  match t.kind with
  | .number =>
    let _ ← next
    return .literal (numberValue t.text) t.text [] t.span
  | .string =>
    let _ ← next
    return .literal (.string (stringValue t.text)) t.text (interpolations inner t) t.span
  | .identifier =>
    let _ ← next
    return .identifier t.text t.span
  | .punctuation => bracketed inner t
  | .invalid =>
    let _ ← next
    report (.invalidText t.text) t.span
    return .null t.span
  | kind =>
    if kind.isBoundary then
      let span := Span.point t.span.start
      report .missingExpression span
      return .null span
    else
      unexpected t

/-- The token may follow an operand as part of it. -/
def isSuffixStart (t : Token) : Bool :=
  t.isPunctuation "." || t.isOperator "::" || t.isPunctuation "(" || t.isPunctuation "["

/-- One more suffix of an operand, and whether another may follow. -/
def suffixStep (e : Expression) : Parser (Expression × Bool) := do
  let t ← peek
  if !isSuffixStart t then
    return (e, false)
  else if !(← countOperation) then
    return (e, false)
  else
    let _ ← next
    if t.isPunctuation "(" then
      let arguments ← list inner ")"
      return (.call e arguments (← spanFrom e.span.start), true)
    else if t.isPunctuation "[" then
      let index ← nested inner
      expectMark "]"
      return (.index e index (← spanFrom e.span.start), true)
    else if ← atKind .identifier then
      let name ← next
      let span := Span.between e.span.start name.span.stop
      return (.member e ⟨name.text, name.span⟩ (t.isOperator "::") span, true)
    else
      reportHere .missingPropertyName
      return (e, false)

/-- An operand with all that follows it. -/
def postfixed : Parser Expression := do
  let e ← primary inner
  loop e (suffixStep inner)

/-- One more operator before an operand, and whether another may follow. -/
def prefixStep (ops : List (UnaryOp × Position)) : Parser (List (UnaryOp × Position) × Bool) := do
  let t ← peek
  match UnaryOp.ofToken? t with
  | none => return (ops, false)
  | some op =>
    if ← countOperation then
      let _ ← next
      return (ops ++ [(op, t.span.start)], true)
    else
      return (ops, false)

/-- Puts an operator in front of an operand. -/
def applyPrefix (op : UnaryOp × Position) (e : Expression) : Expression :=
  .unary op.1 e (Span.between op.2 e.span.stop)

/-- An operand with the operators before it. -/
def prefixed : Parser Expression := do
  let ops ← loop [] prefixStep
  let e ← postfixed inner
  return ops.foldr applyPrefix e

/-- One more operation of a layer, and whether another may follow. -/
def layerStep (ops : List BinaryOp) (tighter : Parser Expression) (left : Expression) :
    Parser (Expression × Bool) := do
  let t ← peek
  match (BinaryOp.ofToken? t).filter ops.contains with
  | none => return (left, false)
  | some op =>
    if ← countOperation then
      let _ ← next
      let right ← tighter
      return (.join op left right, true)
    else
      return (left, false)

/-- Operations of the given layers, which group to the left. -/
def layered : List (List BinaryOp) → Parser Expression
  | [] => prefixed inner
  | ops :: tighter => do
    let first ← layered tighter
    loop first (layerStep ops (layered tighter))

/-- One more operand of an assignment, and whether another may follow. -/
def assignmentStep (operands : List Expression) : Parser (List Expression × Bool) := do
  if ← atOperator "=" then
    if ← countOperation then
      let _ ← next
      let operand ← layered inner Mode.statement.layers
      return (operands ++ [operand], true)
    else
      return (operands, false)
  else
    return (operands, false)

/-- A chain of assignments, which groups to the right. -/
def assignAll : Expression → List Expression → Expression
  | first, [] => first
  | first, e :: rest => .join .assign first (assignAll e rest)

def inMode : Mode → Parser Expression
  | .condition => layered inner Mode.condition.layers
  | .statement => do
    let first ← layered inner Mode.statement.layers
    let operands ← loop [] (assignmentStep inner)
    return assignAll first operands

end Operands

/-- An expression with a number of levels left for brackets. -/
def expression : (levels : Nat) → Mode → Parser Expression
  | 0, mode => inMode none mode
  | levels + 1, mode => inMode (some (expression levels .condition)) mode

/-- One more variable of a loop header, and whether another follows. -/
def variableStep (names : List Expression) : Parser (List Expression × Bool) := do
  let t ← peek
  if t.kind = .identifier then
    let _ ← next
    let names := names ++ [.identifier t.text t.span]
    if ← atMark "," then
      let _ ← next
      return (names, true)
    else
      return (names, false)
  else
    reportHere .missingLoopVariable
    return (names, false)

/-- What a loop runs over. -/
def collection (p : Parser Expression) : Parser Expression := do
  if ← atOperator "in" then
    let _ ← next
    if ← atBoundary then
      reportHere .missingCollection
      return .null (.point (← lastEnd))
    else
      resetOperations
      p
  else
    reportHere .missingIn
    let t ← peek
    return .null (.point t.span.start)

/-- The header of a loop: its variables, its collection and its place. -/
def loopHeader (p : Parser Expression) : Parser (List Expression × Expression × Span) := do
  let t ← peek
  let names ← loop [] variableStep
  let collection ← collection p
  let span ← spanFrom t.span.start
  expectEnd
  return (names, collection, span)

end Parser

end ScriptLint

import ScriptLint.Parse.Expression
import ScriptLint.Tree.Node

/-!
# Reading programs

**Input.** Any list of tokens, whether or not it ends with the end of the input.

**Blocks.** An indent after the line of a keyword, a sub-keyword or a text opens its body; the
matching dedent closes it.  An indent that nothing asks for is reported, and its statements join the
enclosing ones.  Blocks share the limit on depth with brackets; the parsers of one level are built
from those of the level below.

**Arguments.** The argument of some keywords is an expression.  Its tokens were cut as text, so
their source is put together again and read as an expression in place.
-/

namespace ScriptLint

structure Parsed where
  program : Program
  diagnostics : List Diagnostic

namespace Parser

/-- The parsers for what an indent opens. -/
structure Inside where
  /-- Statements up to the matching dedent. -/
  block : Parser (List Statement)
  /-- The body of a keyword: its sub-keywords and its statements. -/
  keywordBody : Parser (List SubKeyword × List Statement)

/-- The source of tokens on one line from a byte offset on, with spaces for what lies between. -/
def sourceOf : Nat → List Token → List Char
  | _, [] => []
  | offset, t :: rest =>
    let text := t.text.toList
    let gap := t.span.start.offset - offset
    List.replicate gap ' ' ++ text ++ sourceOf (offset + gap + Text.byteLength text) rest

def commentText : Parser String := do
  if ← atKind .comment then
    let body ← next
    return body.text
  else
    return ""

def comment : Parser Statement := do
  let t ← peek
  skipKind .commentStart
  let text ← commentText
  return .comment text (← spanFrom t.span.start)

section Line

variable (expression : Mode → Parser Expression)

/-- A line with an expression; the mark that begins it is not yet read. -/
def expressionLine : Parser Statement := do
  let t ← next
  let e ← standalone (expression .statement)
  return .expression e (Span.between t.span.start e.span.stop)

def closeInterpolation : Parser Unit := do
  if !(← atKind .interpolationEnd) then
    reportHere .missingInterpolationEnd
    skipTo fun kind => kind.isStructural || kind == .interpolationEnd
  skipKind .interpolationEnd

/-- An expression in text, after its opening brace. -/
def interpolation (opening : Span) : Parser Expression := do
  let t ← peek
  if t.kind = .interpolationEnd then
    let _ ← next
    let span := opening.through t.span
    report .emptyInterpolation span
    return .null span
  else if t.kind.isBoundary then
    reportHere .missingExpression
    closeInterpolation
    return .null (.point opening.stop)
  else
    resetOperations
    let e ← expression .condition
    closeInterpolation
    return e

/-- One more part of a text, and whether another may follow. -/
def textStep (parts : List TextPart) : Parser (List TextPart × Bool) := do
  if ← atLineEnd then
    return (parts, false)
  else
    let t ← next
    if t.kind = .interpolationStart then
      let e ← interpolation expression t.span
      return (parts ++ [.interpolation e], true)
    else
      if t.kind = .invalid then
        report (.invalidText t.text) t.span
      return (parts ++ [.run t.text t.span], true)

/-- Text up to the end of the line. -/
def textContent : Parser TextContent := do
  let t ← peek
  let parts ← loop [] (textStep expression)
  return ⟨parts, ← spanFrom t.span.start⟩

/-- An argument that is an expression, or the header of a loop. -/
def expressionArgument (isLoop : Bool) : Parser (Option Argument) := do
  let tokens ← takeLine
  match tokens with
  | [] => return none
  | first :: rest =>
    let anchor := first.span.start
    let stop := ((first :: rest).getLastD first).span.stop
    let raw := String.ofList (sourceOf anchor.offset tokens)
    within (tokenizeExpression raw anchor) stop do
      if isLoop then
        let (names, collection, span) ← loopHeader (expression .condition)
        return some (.loop names collection span)
      else
        let e ← standalone (expression .condition)
        return some (.expression e)

/-- The argument of a keyword or sub-keyword, after its colon. -/
def argument (name : String) (isSub : Bool) : Parser (Option Argument) := do
  if ← atLineEnd then
    return none
  else if Vocabulary.takesExpression name isSub then
    expressionArgument expression (!isSub && name == Vocabulary.loopKeyword)
  else
    return some (.text (← textContent expression))

/-- The name in a header, its place, and whether it is that of a sub-keyword. -/
def headerName : Parser (String × Span × Bool) := do
  let t ← peek
  if t.kind = .keyword || t.kind = .subKeyword then
    let _ ← next
    return (t.text, t.span, t.kind == .subKeyword)
  else
    let span := Span.point t.span.start
    report .missingKeywordName span
    return ("", span, false)

/-- The argument in a header, after its name. -/
def headerArgument (name : String) (isSub : Bool) : Parser (Option Argument) := do
  if ← atKind .colon then
    let _ ← next
    argument expression (Text.lower name) isSub
  else if ← atLineEnd then
    return none
  else
    reportHere (.missingColon name)
    return none

/-- The line of a keyword or sub-keyword. -/
def header : Parser Header := do
  skipKind .keywordStart
  let (name, nameSpan, isSub) ← headerName
  let argument ← headerArgument expression name isSub
  skipTo Token.Kind.isStructural
  return ⟨name, nameSpan, argument⟩

end Line

section Block

variable (expression : Mode → Parser Expression) (deeper : Option Inside)

/-- Reads blank lines and an indent, if a block follows and may be opened. -/
def enterBlock : Parser (Option Inside) :=
  fun c =>
    let blank := c.rest.takeWhile (·.kind == .newline)
    if (c.drop blank.length).current.kind = .indent && deeper.isSome then
      (deeper, c.drop (blank.length + 1))
    else
      (none, c)

/-- The statements under an indent that nothing asks for. -/
def strayBlock : Parser (List Statement) := do
  let t ← next
  report .unexpectedIndentation t.span
  match deeper with
  | none => return []
  | some inside => inside.block

def keywordStatement : Parser Statement := do
  let t ← peek
  let header ← header expression
  let (subKeywords, body) ← do
    match ← enterBlock deeper with
    | none => pure ([], [])
    | some inside => inside.keywordBody
  return .keyword header subKeywords body (← spanFrom t.span.start)

def subKeyword : Parser SubKeyword := do
  let t ← peek
  let header ← header expression
  let body ← do
    match ← enterBlock deeper with
    | none => pure []
    | some inside => inside.block
  return .mk header body (← spanFrom t.span.start)

/-- A line of text, which is an answer if a block follows. -/
def textLine : Parser Statement := do
  let content ← textContent expression
  match ← enterBlock deeper with
  | none => return .text content
  | some inside =>
    let body ← inside.block
    return .answer content body (← spanFrom content.span.start)

def statement : Parser Statement := do
  let t ← peek
  match t.kind with
  | .keywordStart | .keyword | .subKeyword => keywordStatement expression deeper
  | .expressionStart => expressionLine expression
  | .commentStart | .comment => comment
  | _ => textLine expression deeper

/-- One more statement of a block, and whether the block goes on. -/
def blockStep (isNested : Bool) (body : List Statement) : Parser (List Statement × Bool) := do
  let t ← peek
  match t.kind with
  | .endOfInput => return (body, false)
  | .newline =>
    let _ ← next
    return (body, true)
  | .dedent =>
    let _ ← next
    return (body, !isNested)
  | .indent =>
    let stray ← strayBlock deeper
    return (body ++ stray, true)
  | _ =>
    let s ← statement expression deeper
    return (body ++ [s], true)

/-- The statements of a block: of a nested one up to its dedent, else up to the end. -/
def block (isNested : Bool) : Parser (List Statement) :=
  loop [] (blockStep expression deeper isNested)

/-- The next tokens begin a sub-keyword. -/
def atSubKeyword : Parser Bool :=
  fun c =>
    let isSub := match c.rest with
      | ⟨.subKeyword, _, _⟩ :: _ => true
      | ⟨.keywordStart, _, _⟩ :: ⟨.subKeyword, _, _⟩ :: _ => true
      | _ => false
    (isSub, c)

/-- A sub-keyword or a statement, added to the others of a keyword's body. -/
def keywordItem (items : List SubKeyword × List Statement) :
    Parser (List SubKeyword × List Statement) := do
  if ← atSubKeyword then
    let s ← subKeyword expression deeper
    return (items.1 ++ [s], items.2)
  else
    let s ← statement expression deeper
    return (items.1, items.2 ++ [s])

/-- One more item of a keyword's body, and whether the body goes on. -/
def keywordBodyStep (items : List SubKeyword × List Statement) :
    Parser ((List SubKeyword × List Statement) × Bool) := do
  let t ← peek
  match t.kind with
  | .endOfInput => return (items, false)
  | .newline =>
    let _ ← next
    return (items, true)
  | .dedent =>
    let _ ← next
    return (items, false)
  | .indent =>
    let stray ← strayBlock deeper
    return ((items.1, items.2 ++ stray), true)
  | _ =>
    let items ← keywordItem expression deeper items
    return (items, true)

/-- The body of a keyword, up to its dedent. -/
def keywordBody : Parser (List SubKeyword × List Statement) :=
  loop ([], []) (keywordBodyStep expression deeper)

end Block

/-- The parsers under an indent, with a number of levels left; there are none at the greatest
depth. -/
def inside : (levels : Nat) → Option Inside
  | 0 => none
  | levels + 1 =>
    some ⟨block (expression levels) (inside levels) true,
      keywordBody (expression levels) (inside levels)⟩

def programBody : Parser (List Statement) :=
  block (expression maxDepth) (inside maxDepth) false

end Parser

def parseTokens (tokens : List Token) : Parsed :=
  let stop := (tokens.getLast?.map (·.span.stop)).getD Position.origin
  let result := Parser.programBody (Cursor.start tokens stop)
  ⟨⟨result.1, Span.between Position.origin stop⟩, result.2.diagnostics.reverse⟩

def parse (source : String) : Parsed :=
  parseTokens (tokenize source)

end ScriptLint

import ScriptLint.Tree.Expression
import ScriptLint.Text.Lowercase

/-!
# Statements and programs

A program is a list of statements, one for every line that is not blank.  The lines indented under a
statement form its body; a keyword keeps its sub-keywords apart from the rest of its body.
-/

namespace ScriptLint

/-- A part of a text: a run of characters, or an expression between braces. -/
inductive TextPart where
  | run (text : String) (span : Span)
  | interpolation (expression : Expression)

/-- Text with expressions between braces. -/
structure TextContent where
  parts : List TextPart
  span : Span

/-- What follows the colon of a keyword. -/
inductive Argument where
  | text (content : TextContent)
  | expression (expression : Expression)
  | loop (names : List Expression) (collection : Expression) (span : Span)

namespace Argument

def span : Argument → Span
  | text content => content.span
  | expression e => e.span
  | loop _ _ span => span

def expression? : Argument → Option Expression
  | expression e => some e
  | _ => none

end Argument

/-- The line of a keyword or a sub-keyword: its name and its argument. -/
structure Header where
  name : String
  nameSpan : Span
  argument : Option Argument

namespace Header

/-- The header has the name, up to the case of ASCII letters. -/
def isNamed (header : Header) (name : String) : Bool :=
  Text.eqIgnoringAsciiCase header.name name

/-- The variable, if the argument is an expression and that is an identifier. -/
def argumentName? (header : Header) : Option String :=
  (header.argument.bind Argument.expression?).bind Expression.name?

end Header

mutual

inductive Statement where
  | keyword (header : Header) (subKeywords : List SubKeyword) (body : List Statement) (span : Span)
  | expression (expression : Expression) (span : Span)
  | text (content : TextContent)
  | comment (text : String) (span : Span)
  | answer (label : TextContent) (body : List Statement) (span : Span)

/-- A sub-keyword of a keyword. -/
inductive SubKeyword where
  | mk (header : Header) (body : List Statement) (span : Span)

end

namespace SubKeyword

def header : SubKeyword → Header
  | mk header _ _ => header

def body : SubKeyword → List Statement
  | mk _ body _ => body

def span : SubKeyword → Span
  | mk _ _ span => span

end SubKeyword

def Statement.span : Statement → Span
  | keyword _ _ _ span => span
  | expression _ span => span
  | text content => content.span
  | comment _ span => span
  | answer _ _ span => span

structure Program where
  body : List Statement
  span : Span

end ScriptLint

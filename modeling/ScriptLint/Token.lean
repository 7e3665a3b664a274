import ScriptLint.Position

/-!
# Tokens

A token is a piece of the source with a kind.  Structural tokens give the layout: ends of lines,
changes of indentation and the end of the input.  All others belong to the content of a line.
-/

namespace ScriptLint
namespace Token

inductive Kind where
  | newline
  | indent
  | dedent
  | endOfInput
  | keywordStart
  | expressionStart
  | commentStart
  | keyword
  | subKeyword
  | colon
  | text
  | comment
  | string
  | number
  | identifier
  | operator
  | punctuation
  | interpolationStart
  | interpolationEnd
  | invalid
deriving DecidableEq, Repr

namespace Kind

/-- The kind gives layout and no content. -/
def isStructural : Kind → Bool
  | newline | indent | dedent | endOfInput => true
  | _ => false

/-- No expression goes on past a token of the kind. -/
def isBoundary : Kind → Bool
  | interpolationEnd | commentStart | comment => true
  | kind => kind.isStructural

/-- The kind in words, for messages. -/
def describe : Kind → String
  | newline => "end of line"
  | indent => "indentation"
  | dedent => "dedent"
  | endOfInput => "end of file"
  | keywordStart => "`*`"
  | expressionStart => "`>>`"
  | commentStart => "comment"
  | keyword => "keyword"
  | subKeyword => "sub-keyword"
  | colon => "`:`"
  | text => "text"
  | comment => "comment"
  | string => "string"
  | number => "number"
  | identifier => "identifier"
  | operator => "operator"
  | punctuation => "punctuation"
  | interpolationStart => "`\x7b`"
  | interpolationEnd => "`\x7d`"
  | invalid => "invalid token"

end Kind
end Token

/-- A piece of the source with its kind and its place. -/
structure Token where
  kind : Token.Kind
  text : String
  span : Span
deriving DecidableEq, Repr

namespace Token

def isOperator (t : Token) (op : String) : Bool :=
  t.kind == .operator && t.text == op

def isPunctuation (t : Token) (mark : String) : Bool :=
  t.kind == .punctuation && t.text == mark

/-- The end of the input, at a position. -/
def endAt (p : Position) : Token :=
  ⟨.endOfInput, "", Span.point p⟩

end Token
end ScriptLint

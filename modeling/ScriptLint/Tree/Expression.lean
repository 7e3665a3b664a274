import ScriptLint.Position
import ScriptLint.Number.Binary64

/-!
# Expressions

The tree of an expression.  Every node carries the span of the source it was read from.

A string literal may hold expressions between braces; those that read without a fault are kept with
the literal.  Where an expression is missing from a faulty source, a null literal with an empty text
stands in its place.
-/

namespace ScriptLint

inductive BinaryOp where
  | assign
  | or
  | and
  | equal
  | less
  | greater
  | lessEqual
  | greaterEqual
  | isIn
  | add
  | subtract
  | multiply
  | divide
  | remainder
deriving DecidableEq, Repr

/-- The operator as it is written. -/
def BinaryOp.text : BinaryOp → String
  | assign => "="
  | or => "or"
  | and => "and"
  | equal => "="
  | less => "<"
  | greater => ">"
  | lessEqual => "<="
  | greaterEqual => ">="
  | isIn => "in"
  | add => "+"
  | subtract => "-"
  | multiply => "*"
  | divide => "/"
  | remainder => "%"

inductive UnaryOp where
  | not
  | negate
deriving DecidableEq, Repr

def UnaryOp.text : UnaryOp → String
  | not => "not"
  | negate => "-"

inductive LiteralValue where
  | number (value : Binary64)
  | string (value : String)
  | null
deriving DecidableEq, Repr

/-- The name of a property, with its place. -/
structure PropertyName where
  text : String
  span : Span
deriving DecidableEq, Repr

mutual

inductive Expression where
  | binary (op : BinaryOp) (left right : Expression) (span : Span)
  | unary (op : UnaryOp) (argument : Expression) (span : Span)
  | member (object : Expression) (property : PropertyName) (namespaced : Bool) (span : Span)
  | call (callee : Expression) (arguments : List Expression) (span : Span)
  | index (object index : Expression) (span : Span)
  | identifier (name : String) (span : Span)
  | literal (value : LiteralValue) (raw : String) (interpolations : List Expression) (span : Span)
  | array (elements : List Expression) (span : Span)
  | object (properties : List Property) (span : Span)

/-- A key with its value, inside an object. -/
inductive Property where
  | mk (key value : Expression) (span : Span)

end

namespace Property

def key : Property → Expression
  | mk key _ _ => key

def value : Property → Expression
  | mk _ value _ => value

def span : Property → Span
  | mk _ _ span => span

end Property

namespace Expression

def span : Expression → Span
  | binary _ _ _ span => span
  | unary _ _ span => span
  | member _ _ _ span => span
  | call _ _ span => span
  | index _ _ span => span
  | identifier _ span => span
  | literal _ _ _ span => span
  | array _ span => span
  | object _ span => span

/-- The literal that stands where an expression is missing. -/
def null (span : Span) : Expression :=
  literal .null "" [] span

instance : Inhabited Expression :=
  ⟨null default⟩

/-- Two expressions joined by an operator. -/
def join (op : BinaryOp) (left right : Expression) : Expression :=
  binary op left right (left.span.through right.span)

def name? : Expression → Option String
  | identifier name _ => some name
  | _ => none

/-- The expression is a number that stands for no number. -/
def isNaN : Expression → Bool
  | literal (.number value) _ _ _ => value.isNaN
  | _ => false

end Expression
end ScriptLint

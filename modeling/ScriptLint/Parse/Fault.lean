import ScriptLint.Token

/-!
# Faults of a source

What can be wrong with the form of a source, and how it is said.  A diagnostic is a fault with its
place.
-/

namespace ScriptLint

/-- A fault in the form of a source. -/
inductive Fault where
  | unexpectedIndentation
  | missingKeywordName
  | missingColon (keyword : String)
  | emptyInterpolation
  | missingExpression
  | missingInterpolationEnd
  | afterExpression (kind : Token.Kind) (text : String)
  | missingLoopVariable
  | missingIn
  | missingCollection
  | missingPropertyName
  | missingMark (mark : String)
  | missingCommaOrMark (mark : String)
  | missingArrow
  | unexpectedToken (kind : Token.Kind) (text : String)
  | invalidText (text : String)
  | nestedTooDeeply
deriving DecidableEq, Repr

namespace Fault

/-- The message for a text that is no token: its first character tells what went wrong. -/
def invalidMessage (text : String) : String :=
  match text.toList.head? with
  | some '{' => "unterminated interpolation `" ++ text ++ "`"
  | some '"' => "unterminated string " ++ text
  | some '\'' => "unterminated string " ++ text
  | _ => "unexpected character `" ++ text ++ "`"

def message : Fault → String
  | unexpectedIndentation => "unexpected indentation"
  | missingKeywordName => "expected keyword name after `*`"
  | missingColon keyword => "expected `:` after `*" ++ keyword ++ "`"
  | emptyInterpolation => "empty interpolation"
  | missingExpression => "expected expression"
  | missingInterpolationEnd => "expected `\x7d` to close interpolation"
  | afterExpression kind text =>
    "unexpected " ++ kind.describe ++ " `" ++ text ++ "` after expression"
  | missingLoopVariable => "expected loop variable"
  | missingIn => "expected `in` in loop header"
  | missingCollection => "expected collection after `in`"
  | missingPropertyName => "expected property name"
  | missingMark mark => "expected `" ++ mark ++ "`"
  | missingCommaOrMark mark => "expected `,` or `" ++ mark ++ "`"
  | missingArrow => "expected `->` in object literal"
  | unexpectedToken kind text => "unexpected " ++ kind.describe ++ " `" ++ text ++ "`"
  | invalidText text => invalidMessage text
  | nestedTooDeeply => "expression is nested too deeply"

end Fault

/-- A fault with its place. -/
structure Diagnostic where
  fault : Fault
  span : Span
deriving DecidableEq, Repr

def Diagnostic.message (d : Diagnostic) : String :=
  d.fault.message
end ScriptLint

import ScriptLint.Token.Piece
import ScriptLint.Text.Blank
import ScriptLint.Text.Letter
import ScriptLint.Vocabulary

/-!
# Pieces of an expression

An expression is cut into numbers, strings, words, operators and punctuation marks; spaces and tabs
may stand between them.  Where comments are allowed, two hyphens begin one.

**Algorithm.** The first character of a token decides its kind and, with the characters after it,
how many of these belong to the token.  Every token takes at least its first character.
-/

namespace ScriptLint
namespace Piece

/-- A character that opens and closes a string. -/
def isQuote (c : Char) : Bool :=
  c == '"' || c == '\''

/-- A character that is an operator by itself. -/
def isOperatorChar (c : Char) : Bool :=
  ['+', '-', '*', '/', '%', '=', '<', '>'].contains c

def isPunctuationChar (c : Char) : Bool :=
  ['(', ')', '[', ']', '{', '}', ',', '.', ':'].contains c

/-- The two characters make up one operator. -/
def isOperatorPair (c d : Char) : Bool :=
  (c == '<' || c == '>') && d == '=' || c == '-' && d == '>' || c == ':' && d == ':'

/-- How many characters after its first digit belong to a number: digits, and a point with digits
after it. -/
def numberLength (rest : List Char) : Nat :=
  let whole := (rest.takeWhile Char.isDigit).length
  match rest.drop whole with
  | '.' :: fraction =>
    let places := (fraction.takeWhile Char.isDigit).length
    if places = 0 then whole else whole + 1 + places
  | _ => whole

/-- The kind of the token that begins with a character, and how many of the characters after it
belong to the token. -/
def tokenShape (c : Char) (rest : List Char) : Token.Kind × Nat :=
  if c.isDigit then
    (.number, numberLength rest)
  else if isQuote c then
    match rest.idxOf? c with
    | some i => (.string, i + 1)
    | none => (.invalid, rest.length)
  else if Text.isWordStart c then
    let n := (rest.takeWhile Text.isWordChar).length
    let word := String.ofList (c :: rest.take n)
    (if Vocabulary.operatorWords.contains word then .operator else .identifier, n)
  else if rest.head?.any (isOperatorPair c) then
    (.operator, 1)
  else if isOperatorChar c then
    (.operator, 0)
  else if isPunctuationChar c then
    (.punctuation, 0)
  else
    (.invalid, 0)

/-- The pieces of a comment, without the line ending. -/
def ofComment (text : List Char) : List Piece :=
  [token .commentStart ['-', '-'], token .comment text]

/-- The pieces of an expression. -/
def ofExpression (comments : Bool) : List Char → List Piece
  | [] => []
  | c :: rest =>
    if Text.isGap c then
      gap [c] :: ofExpression comments rest
    else if comments && c == '-' && rest.head? == some '-' then
      ofComment (rest.drop 1)
    else
      let shape := tokenShape c rest
      token shape.1 (c :: rest.take shape.2) :: ofExpression comments (rest.drop shape.2)
termination_by cs => cs.length
decreasing_by all_goals grind

end Piece
end ScriptLint

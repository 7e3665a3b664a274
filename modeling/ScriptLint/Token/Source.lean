import ScriptLint.Token.Line

/-!
# Tokens of a source

**Input.** Any text.  A byte-order mark at its start is passed over.

**Indentation.** The tabs at the start of a line that is not blank are its indentation.  The open
levels form a stack of tab counts.  A line closes the levels above its own count, one dedent each,
and opens a level if its count is above the one that is left.  Blank lines change nothing, and the
end of the input closes all levels.

**Results.** `tokenize` gives the tokens of a whole source, and `tokenizeExpression` those of an
expression that stands at a given position of a larger text.
-/

namespace ScriptLint
namespace Piece

/-- One dedent for every level. -/
def dedents (levels : List Nat) : List Piece :=
  levels.map fun _ => token .dedent []

/-- The levels that stay open under an indentation. -/
def keptLevels (levels : List Nat) (tabs : Nat) : List Nat :=
  levels.dropWhile (tabs < ·)

/-- The levels after a line with the given indentation, the innermost first. -/
def nextLevels (levels : List Nat) (tabs : Nat) : List Nat :=
  let kept := keptLevels levels tabs
  if kept.headD 0 < tabs then tabs :: kept else kept

/-- The pieces of the indentation of a line. -/
def ofIndentation (levels : List Nat) (tabs : Nat) : List Piece :=
  let text := List.replicate tabs '\t'
  dedents (levels.takeWhile (tabs < ·)) ++
    [if (keptLevels levels tabs).headD 0 < tabs then token .indent text else gap text]

def tabCount (content : List Char) : Nat :=
  (content.takeWhile (· == '\t')).length

/-- The pieces of a line's content under the open levels. -/
def ofLineContent (levels : List Nat) (content : List Char) : List Piece :=
  if Text.allBlank content then
    [gap content]
  else
    let tabs := tabCount content
    let rest := content.drop tabs
    ofIndentation levels tabs ++
      gap (rest.takeWhile Text.isGap) :: ofContent (0 < tabs) (rest.dropWhile Text.isGap)

def levelsAfter (levels : List Nat) (content : List Char) : List Nat :=
  if Text.allBlank content then levels else nextLevels levels (tabCount content)

/-- The piece of a line ending, if there is one. -/
def ofEnding (ending : List Char) : List Piece :=
  if ending.isEmpty then [] else [token .newline ending]

/-- The pieces of lines under the open levels, up to the end of the input. -/
def ofLines : List Nat → List Text.Line → List Piece
  | levels, [] => dedents levels ++ [token .endOfInput []]
  | levels, line :: lines =>
    ofLineContent levels line.content ++ ofEnding line.ending ++
      ofLines (levelsAfter levels line.content) lines

def ofSource (cs : List Char) : List Piece :=
  if cs.head? = some Text.byteOrderMark then mark :: ofLines [] (Text.lines (cs.drop 1))
  else ofLines [] (Text.lines cs)

/-- The pieces of an expression and of the lines that follow it in the same text. -/
def ofExpressionText (cs : List Char) : List Piece :=
  match Text.lines cs with
  | [] => []
  | first :: rest => ofExpression true first.content ++ ofEnding first.ending ++ ofLines [] rest

end Piece

def tokenize (source : String) : List Token :=
  Piece.place Position.origin (Piece.ofSource source.toList)

/-- The token belongs to the content of an expression: it is not layout and does not begin one. -/
def Token.isContent (t : Token) : Bool :=
  !t.kind.isStructural && t.kind != .expressionStart

/-- The tokens of an expression whose first character stands at `anchor`. -/
def tokenizeExpression (text : String) (anchor : Position) : List Token :=
  (Piece.place anchor (Piece.ofExpressionText text.toList)).filter Token.isContent

end ScriptLint

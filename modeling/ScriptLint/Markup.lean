import ScriptLint.Issue
import ScriptLint.Tree.Node
import ScriptLint.Vocabulary
import ScriptLint.Token.Expression

/-!
# Raw markup

The body of some keywords is markup of another language, in which most issues would be noise.  An
issue on a line of such a body is kept only if it starts inside braces, on its line, that hold no
colon: a colon outside quotes and brackets is the mark of a style rule.  A double colon is none.
-/

namespace ScriptLint
namespace Markup

/-- The lines of the body of a markup keyword: the first and the last. -/
def bodyLines? : Node → Option (Nat × Nat)
  | .statement (.keyword header _ body _) =>
    if Vocabulary.isMarkup (Text.lower header.name) then
      match body.head?, body.getLast? with
      | some first, some last => some (first.span.start.line, last.span.stop.line)
      | _, _ => none
    else
      none
  | _ => none

def lineRanges (nodes : List Node) : List (Nat × Nat) :=
  nodes.filterMap bodyLines?

/-- The characters from the brace that encloses a place up to that place.  The characters before the
place come last first, and `depth` braces were closed among those seen. -/
def sinceOpening (depth : Nat) (seen : List Char) : List Char → Option (List Char)
  | [] => none
  | c :: before =>
    if c = '}' then sinceOpening (depth + 1) (c :: seen) before
    else if c = '{' then
      match depth with
      | 0 => some seen
      | depth + 1 => sinceOpening depth (c :: seen) before
    else sinceOpening depth (c :: seen) before

/-- The characters up to the brace that closes an open one; `depth` inner braces are open. -/
def untilClosing (depth : Nat) : List Char → Option (List Char)
  | [] => none
  | c :: rest =>
    if c = '{' then (untilClosing (depth + 1) rest).map (c :: ·)
    else if c = '}' then
      match depth with
      | 0 => some []
      | depth + 1 => (untilClosing depth rest).map (c :: ·)
    else (untilClosing depth rest).map (c :: ·)

/-- The inside of the innermost braces around an offset, on its line; here only a line feed ends a
line. -/
def enclosingBraces? (source : List Char) (offset : Nat) : Option (List Char) :=
  match Text.splitAtByte? source offset with
  | none => none
  | some (before, after) =>
    match sinceOpening 0 [] (before.reverse.takeWhile (· ≠ '\n')) with
    | none => none
    | some inside => untilClosing 0 (inside ++ after.takeWhile (· ≠ '\n'))

/-- The text has a colon outside quotes and brackets; `depth` brackets are open, and `quote` is the
open quote. -/
def hasTopColon (depth : Nat) (quote : Option Char) : List Char → Bool
  | [] => false
  | c :: rest =>
    match quote with
    | some q => hasTopColon depth (if c = q then none else some q) rest
    | none =>
      if Piece.isQuote c then hasTopColon depth (some c) rest
      else if c = '(' || c = '[' || c = '{' then hasTopColon (depth + 1) none rest
      else if c = ')' || c = ']' || c = '}' then hasTopColon (depth - 1) none rest
      else if c = ':' then
        match rest with
        | ':' :: rest => hasTopColon depth none rest
        | rest => depth == 0 || hasTopColon depth none rest
      else hasTopColon depth none rest

/-- An issue is kept: it is outside markup, or inside braces that hold an expression. -/
def keeps (source : List Char) (ranges : List (Nat × Nat)) (issue : Issue) : Bool :=
  !(ranges.any fun range => range.1 ≤ issue.line && issue.line ≤ range.2) ||
    (enclosingBraces? source issue.span.start.offset).any fun inside => !hasTopColon 0 none inside

end Markup
end ScriptLint

import ScriptLint.Token
import ScriptLint.Text.Line

/-!
# Pieces of a source

A source is cut into pieces before positions come in: tokens, gaps between them, and the byte-order
mark.  The pieces of a source join to the source.  Placing them from a starting position gives the
tokens; the gaps and the mark only move the position.
-/

namespace ScriptLint

/-- A piece of a source. -/
inductive Piece where
  /-- The byte-order mark, which takes no column. -/
  | mark
  /-- White space between tokens. -/
  | gap (text : List Char)
  /-- A token. -/
  | token (kind : Token.Kind) (text : List Char)
deriving DecidableEq, Repr

namespace Piece

def text : Piece → List Char
  | mark => [Text.byteOrderMark]
  | gap text => text
  | token _ text => text

/-- Where a token ends; the ending of a line takes one column. -/
def stop (p : Position) (kind : Token.Kind) (text : List Char) : Position :=
  if kind = .newline then ⟨p.line, p.column + 1, p.offset + Text.byteLength text⟩
  else p.advance text

/-- Where the next piece starts. -/
def next (p : Position) : Piece → Position
  | mark => ⟨p.line, p.column, p.offset + Text.byteLength [Text.byteOrderMark]⟩
  | gap text => p.advance text
  | token kind text =>
    if kind = .newline then ⟨p.line + 1, 1, p.offset + Text.byteLength text⟩
    else p.advance text

/-- The tokens among the pieces, placed from a starting position. -/
def place : Position → List Piece → List Token
  | _, [] => []
  | p, token kind text :: rest =>
    ⟨kind, String.ofList text, ⟨p, stop p kind text⟩⟩ :: place (next p (token kind text)) rest
  | p, piece :: rest => place (next p piece) rest

def last : Position → List Piece → Position
  | p, [] => p
  | p, piece :: rest => last (next p piece) rest

theorem place_append (p : Position) (xs ys : List Piece) :
    place p (xs ++ ys) = place p xs ++ place (last p xs) ys := by
  induction xs generalizing p with
  | nil => rfl
  | cons piece rest ih => cases piece <;> simp [place, last, ih]

theorem offset_next (p : Position) (piece : Piece) :
    (next p piece).offset = p.offset + Text.byteLength piece.text := by
  cases piece with
  | mark => rfl
  | gap text => rfl
  | token kind text => simp only [next, Piece.text]; split <;> rfl

end Piece
end ScriptLint

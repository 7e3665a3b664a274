/-!
# Edit distance

The least number of insertions, deletions and substitutions of single characters that turn one text
into another.

**Algorithm.** The distances from a growing part of the first text to all first parts of the second
form a row; each character of the first text gives the next row.
-/

namespace ScriptLint
namespace Text

/-- The cells of the next row after its first one.  `left` is the cell before, and the rows before
hold the distances without the character. -/
def cellsFrom (a : Char) : (left : Nat) → List Char → List Nat → List Nat
  | left, b :: bs, diagonal :: above :: row =>
    let cell := min (min (diagonal + if a = b then 0 else 1) (left + 1)) (above + 1)
    cell :: cellsFrom a cell bs (above :: row)
  | _, _, _ => []

/-- The row after one more character of the first text. -/
def nextRow (bs : List Char) (row : List Nat) (a : Char) : List Nat :=
  match row with
  | [] => []
  | first :: _ => (first + 1) :: cellsFrom a (first + 1) bs row

def editDistance (a b : String) : Nat :=
  let bs := b.toList
  (a.toList.foldl (nextRow bs) (List.range (bs.length + 1))).getLastD 0

/-- The first of the candidates at the least distance from a name, and that distance. -/
def nearest? (name : String) : List String → Option (Nat × String)
  | [] => none
  | candidate :: rest =>
    let distance := editDistance name candidate
    match nearest? name rest with
    | none => some (distance, candidate)
    | some best => if best.1 < distance then some best else some (distance, candidate)

end Text
end ScriptLint

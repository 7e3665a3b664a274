/-!
# Classes of characters as ranges of code points

A class of characters beyond ASCII is given by a table of ranges.  A range is a pair of code
points, both of which belong to it.  A long table is written by the lengths of its runs.
-/

namespace ScriptLint
namespace Text

/-- The ranges of a class from a code point on.  The numbers count, in turn, the code points that
are passed over and those that belong to the class. -/
def rangesFrom (first : Nat) : List Nat → List (Nat × Nat)
  | outside :: inside :: runs =>
    (first + outside, first + outside + inside - 1) :: rangesFrom (first + outside + inside) runs
  | _ => []

def inRanges (ranges : List (Nat × Nat)) (c : Char) : Bool :=
  ranges.any fun range => range.1 ≤ c.toNat && c.toNat ≤ range.2

theorem inRanges_iff (ranges : List (Nat × Nat)) (c : Char) :
    inRanges ranges c = true ↔ ∃ range ∈ ranges, range.1 ≤ c.toNat ∧ c.toNat ≤ range.2 := by
  simp [inRanges]

end Text
end ScriptLint

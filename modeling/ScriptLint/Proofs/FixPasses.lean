import ScriptLint.Linter
import Mathlib.Algebra.GroupWithZero.Nat

/-!
# The passes of fixing

Fixing lints a text, applies the fixes of the report and begins again with the outcome.  Nothing is
known of the rules: their fixes may overlap, lead back to an earlier text, or have ranges that fit
no text.

**Runs.**  `IsRun` says what a number of passes have made of a source.  Every pass of a run is that
of the text which the passes before it left, and applies a fix.

**Results.**
* `IsRun.step`: one more pass that applies a fix.
* `fixFrom_run`: what fixing gives, from any run.
* `fix_stable_or_limited`: what fixing gives.
-/

namespace ScriptLint
namespace Linter

section Runs

variable (linter : Linter) (path source : String)

/-- One pass: the fixes of the report on a text are applied to it. -/
def pass (text : String) : EditOutcome :=
  applyFixes text (linter.lint path text).fixes

/-- The text that a number of passes leave. -/
def textAfter : Nat → String
  | 0 => source
  | n + 1 => (linter.pass path (textAfter n)).output

/-- Number of fixes that the pass after some others applies. -/
def appliedAt (n : Nat) : Nat :=
  (linter.pass path (linter.textAfter path source n)).applied

/-- A number of passes lead from the source to a text, each of them applies a fix, and together they
apply the given number of fixes. -/
structure IsRun (passes applied : Nat) (text : String) : Prop where
  text_eq : text = linter.textAfter path source passes
  applies : ∀ n < passes, 0 < linter.appliedAt path source n
  applied_eq : applied = ((List.range passes).map (linter.appliedAt path source)).sum

end Runs

variable {linter : Linter} {path source text : String} {passes applied : Nat}

theorem isRun_source : linter.IsRun path source 0 0 source :=
  ⟨rfl, fun _ h => absurd h (Nat.not_lt_zero _), rfl⟩

/-- One more pass that applies a fix. -/
theorem IsRun.step (h : linter.IsRun path source passes applied text)
    (hpass : (linter.pass path text).applied ≠ 0) :
    linter.IsRun path source (passes + 1) (applied + (linter.pass path text).applied)
      (linter.pass path text).output := by
  obtain ⟨rfl, happlies, rfl⟩ := h
  refine ⟨rfl, fun n hn => ?_, ?_⟩
  · rcases Nat.lt_succ_iff_lt_or_eq.1 hn with hn | rfl
    · exact happlies n hn
    · exact Nat.pos_of_ne_zero hpass
  · simp [List.range_succ, appliedAt]

/-- A run applies a fix at least in every pass. -/
theorem IsRun.passes_le (h : linter.IsRun path source passes applied text) : passes ≤ applied := by
  have hsum : ∀ n ≤ passes, n ≤ ((List.range n).map (linter.appliedAt path source)).sum := by
    intro n
    induction n with
    | zero => exact fun _ => Nat.zero_le _
    | succ n ih =>
      intro hn
      have hlast := h.applies n hn
      rw [List.range_succ, List.map_append, List.sum_append, List.map_singleton, List.sum_singleton]
      omega
  rw [h.applied_eq]
  exact hsum passes (Nat.le_refl _)

/-- What fixing gives from a run, with a number of passes left: a longer run and the report on its
text.  A run that uses fewer passes ends with a text to which no fix applies. -/
theorem fixFrom_run (left : Nat) (h : linter.IsRun path source passes applied text) :
    let fixed := linter.fixFrom path left passes applied text
    linter.IsRun path source fixed.passes fixed.applied fixed.output ∧
      fixed.report = linter.lint path fixed.output ∧
      fixed.passes ≤ passes + left ∧
      (fixed.passes < passes + left → (linter.pass path fixed.output).applied = 0) := by
  induction left generalizing passes applied text with
  | zero => exact ⟨h, rfl, Nat.le_refl _, fun hlt => absurd hlt (Nat.lt_irrefl _)⟩
  | succ left ih =>
    simp only [fixFrom]
    by_cases hnone : (applyFixes text (linter.lint path text).fixes).applied = 0
    · rw [if_pos hnone]
      exact ⟨h, rfl, Nat.le_add_right _ _, fun _ => hnone⟩
    · rw [if_neg hnone]
      have hrest := ih (h.step hnone)
      rwa [Nat.add_right_comm] at hrest

end Linter

/-- **Fixing reaches a stable text or the limit of passes,** whatever the rules are.  The report is
the one on the text that is returned; this text is what the passes make of the source, each of which
applies a fix; the fixes of all passes are counted; and when fewer passes were made than the
settings allow, no fix of the report applies. -/
theorem fix_stable_or_limited (linter : Linter) (path source : String) :
    let fixed := linter.fix path source
    fixed.passes ≤ linter.config.maxFixPasses ∧
      fixed.report = linter.lint path fixed.output ∧
      linter.IsRun path source fixed.passes fixed.applied fixed.output ∧
      fixed.passes ≤ fixed.applied ∧
      (fixed.passes < linter.config.maxFixPasses →
        (applyFixes fixed.output fixed.report.fixes).applied = 0) := by
  obtain ⟨hrun, hreport, hle, hstable⟩ :=
    Linter.fixFrom_run linter.config.maxFixPasses (@Linter.isRun_source linter path source)
  rw [Nat.zero_add] at hle hstable
  refine ⟨hle, hreport, hrun, hrun.passes_le, fun hlt => ?_⟩
  have hnone := hstable hlt
  rwa [Linter.pass, ← hreport] at hnone

end ScriptLint

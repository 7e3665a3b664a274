import ScriptLint.Proofs.RuleIsolation

/-!
# The total of fixable issues

A report counts issues by severity, and those with a fix for errors and warnings only.  The sum of
these two is the total that it prints, so that information with a fix is left out; and the settings
may turn the issues of any rule into information.

**Results.**
* `Report.fixable_eq_countP`: what the total counts.
* `fixable_total`: when it counts every issue with a fix.
-/

namespace ScriptLint

open List

namespace Report

theorem fixable_eq_countP (report : Report) :
    report.fixable = (report.issues.filter Issue.isFixable).countP (·.severity ≠ .info) := by
  unfold fixable fixableCount bySeverity
  induction report.issues with
  | nil => rfl
  | cons issue issues ih =>
    cases hseverity : issue.severity <;> cases hfix : issue.isFixable <;>
      simp [hseverity, hfix] at ih ⊢ <;> omega

theorem exists_format_eq (report : Report) (threshold : Severity) :
    ∃ head, report.format threshold = head ++ " info(s), " ++ toString report.fixable ++
      " fixable\n" := by
  delta format totals
  simp only [← String.append_assoc]
  exact ⟨_, rfl⟩

end Report

namespace Linter

variable {linter : Linter} {path source : String}

/-- The severity of the issues of a rule. -/
def severityOf (linter : Linter) (rule : Rule) : Severity :=
  (linter.config.ruleSeverity? rule.name).getD rule.severity

/-- Issues with a fix come from rules. -/
theorem exists_rule_of_isFixable {issue : Issue} (h : issue ∈ (linter.lint path source).issues)
    (hfix : issue.isFixable) : ∃ rule ∈ linter.rules, issue.severity = linter.severityOf rule := by
  rw [issues_lint, mem_mergeSort] at h
  rcases mem_append.1 (mem_of_mem_filter h) with h | h
  · obtain ⟨rule, hrule, h⟩ := mem_flatMap.1 h
    unfold found ruleIssues at h
    split at h
    · obtain ⟨finding, -, rfl⟩ := mem_map.1 h
      exact ⟨rule, hrule, rfl⟩
    · cases h
  · unfold faults syntaxIssues at h
    split at h
    · obtain ⟨d, -, rfl⟩ := mem_map.1 h
      cases hfix
    · cases h

end Linter

/-- **The total leaves information out.**  Of the issues with a fix it counts the errors and
warnings, so that it counts all of them exactly if none is information.  This is the figure in the
last line of a report; in the report of a linter it is the number of issues with a fix if the
settings turn no rule's issues into information. -/
theorem fixable_total (path : String) (issues : List Issue) :
    (Report.ofIssues path issues).fixable = (issues.filter Issue.isFixable).countP
      (·.severity ≠ .info) ∧
    ((Report.ofIssues path issues).fixable = issues.countP Issue.isFixable ↔
      ∀ issue ∈ issues, issue.isFixable → issue.severity ≠ .info) ∧
    (∀ (report : Report) threshold, ∃ head,
      report.format threshold = head ++ " info(s), " ++ toString report.fixable ++ " fixable\n") ∧
    ∀ (linter : Linter) source, (∀ rule ∈ linter.rules, linter.severityOf rule ≠ .info) →
      (linter.lint path source).fixable = (linter.lint path source).issues.countP
        Issue.isFixable := by
  have hall : ∀ issues : List Issue, (issues.filter Issue.isFixable).countP (·.severity ≠ .info) =
      issues.countP Issue.isFixable ↔ ∀ issue ∈ issues, issue.isFixable →
        issue.severity ≠ .info := by
    intro issues
    rw [countP_eq_length_filter (p := Issue.isFixable), countP_eq_length]
    simp
  have hsorted : (Report.ofIssues path issues).fixable =
      (issues.filter Issue.isFixable).countP (·.severity ≠ .info) :=
    (Report.fixable_eq_countP _).trans (((mergeSort_perm issues _).filter _).countP_eq _)
  refine ⟨hsorted, ?_, Report.exists_format_eq, fun linter source hrules => ?_⟩
  · rw [hsorted]
    exact hall issues
  · rw [Report.fixable_eq_countP]
    refine (hall _).2 fun issue hissue hfix => ?_
    obtain ⟨rule, hrule, hseverity⟩ := Linter.exists_rule_of_isFixable hissue hfix
    exact hseverity ▸ hrules rule hrule

/-- A keyword to be written in lower case, where the settings turn this into information. -/
theorem fixable_total_without_information :
    let linter : Linter :=
      ⟨[Rules.validKeyword .error], { rules := [("valid-keyword", { severity := some .info })] }⟩
    let report := linter.lint "test.gt" "*Page"
    report.issues.countP Issue.isFixable = 1 ∧ report.fixable = 0 ∧ report.format .error =
      "\n=== gtlint: 0 issue(s) in test.gt ===\n\n" ++
        "Total: 0 error(s), 0 warning(s), 1 info(s), 0 fixable\n" := by
  decide +kernel

end ScriptLint

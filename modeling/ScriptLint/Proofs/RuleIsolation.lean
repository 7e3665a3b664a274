import ScriptLint.Preset
import ScriptLint.Linter
import ScriptLint.Proofs.Splicing
import Mathlib.Data.List.Basic

/-!
# Rules side by side

A report holds the issues of all rules in one list, sorted by place.  Directives and markup are
looked up for one issue at a time, and the sort is stable, so that picking out the issues of a rule
gives what the rule gives by itself.

**Results.**
* `filter_issues_lint`, `byRule_lint`: what is picked out of a report.
* `lint_disabled`: reports without a rule.
* `Report.foldl_add`: the counts of a report are the tallies of a loop over its issues.
* `rules_isolated`: no rule can be told from the issues of another one.
-/

namespace ScriptLint

open List

theorem flatMap_eq_of_filter {α β : Type} {f g : α → List β} {p : α → Bool} {l : List α}
    (h : ∀ a ∈ l, f a = if p a then g a else []) : l.flatMap f = (l.filter p).flatMap g := by
  induction l with
  | nil => rfl
  | cons a l ih =>
    rw [flatMap_cons, h a mem_cons_self, ih fun b hb => h b (mem_cons_of_mem a hb), filter_cons]
    split <;> rfl

/-- The numbers of issues that are kept while issues are taken one by one. -/
structure Counts where
  errors : Nat
  warnings : Nat
  infos : Nat
  fixableErrors : Nat
  fixableWarnings : Nat

/-- One more issue; whether it carries a fix is not looked at if it is information. -/
def Counts.add (counts : Counts) (issue : Issue) : Counts :=
  let fixable := if issue.isFixable then 1 else 0
  match issue.severity with
  | .error =>
    { counts with
      errors := counts.errors + 1
      fixableErrors := counts.fixableErrors + fixable }
  | .warning =>
    { counts with
      warnings := counts.warnings + 1
      fixableWarnings := counts.fixableWarnings + fixable }
  | .info => { counts with infos := counts.infos + 1 }

namespace Report

theorem comesBefore_iff (a b : Issue) :
    comesBefore a b ↔ a.line < b.line ∨ a.line = b.line ∧ a.column ≤ b.column := by
  simp [comesBefore]

theorem comesBefore_trans (a b c : Issue) (hab : comesBefore a b) (hbc : comesBefore b c) :
    comesBefore a c := by
  rw [comesBefore_iff] at hab hbc ⊢
  omega

theorem comesBefore_total (a b : Issue) : comesBefore a b || comesBefore b a := by
  rw [Bool.or_eq_true, comesBefore_iff, comesBefore_iff]
  omega

/-- Every issue has one of three severities. -/
theorem sum_count (report : Report) :
    report.count .error + report.count .warning + report.count .info = report.issues.length := by
  unfold count bySeverity
  induction report.issues with
  | nil => rfl
  | cons issue issues ih => cases h : issue.severity <;> simp [h] <;> omega

/-- The counts of a report are those of a loop over its issues. -/
theorem foldl_add (report : Report) (counts : Counts) :
    report.issues.foldl Counts.add counts =
      ⟨counts.errors + report.count .error, counts.warnings + report.count .warning,
        counts.infos + report.count .info, counts.fixableErrors + report.fixableCount .error,
        counts.fixableWarnings + report.fixableCount .warning⟩ := by
  unfold count fixableCount bySeverity
  induction report.issues generalizing counts with
  | nil => rfl
  | cons issue issues ih =>
    rw [foldl_cons, ih, Counts.add]
    cases hseverity : issue.severity <;> cases hfix : issue.isFixable <;>
      simp [hseverity, hfix, Nat.add_assoc, Nat.add_comm 1]

end Report

/-- The settings turn a rule off, and agree with others in what they say of other rules and of
faults of form. -/
structure Config.Disables (off config : Config) (name : String) : Prop where
  disabled : off.isRuleEnabled name = false
  reportSyntaxErrors : off.reportSyntaxErrors = config.reportSyntaxErrors
  rule? : ∀ other ≠ name, off.rule? other = config.rule? other

namespace Linter

/-- The issue is neither suppressed by a directive nor noise in raw markup. -/
def keeps (source : String) (issue : Issue) : Bool :=
  !(DirectiveTable.ofSource source).isSuppressed issue.line issue.rule &&
    Markup.keeps source.toList (Markup.lineRanges (parse source).program.nodes) issue

/-- The issues of a rule on a source in the order in which it finds them, before any is dropped. -/
def found (linter : Linter) (path source : String) : Rule → List Issue :=
  linter.ruleIssues path source (DirectiveTable.ofSource source) (parse source).program.nodes

/-- The faults of form of a source as issues, before any is dropped. -/
def faults (linter : Linter) (source : String) : List Issue :=
  linter.syntaxIssues (parse source).diagnostics

variable {linter : Linter} {path source : String}

theorem issues_lint : (linter.lint path source).issues =
    ((linter.rules.flatMap (linter.found path source) ++ linter.faults source).filter
      (keeps source)).mergeSort Report.comesBefore := rfl

/-- What is picked out of a report is picked out of the findings. -/
theorem filter_issues_lint (p : Issue → Bool) : (linter.lint path source).issues.filter p =
    (((linter.rules.flatMap (linter.found path source) ++ linter.faults source).filter p).filter
      (keeps source)).mergeSort Report.comesBefore := by
  rw [issues_lint, filter_mergeSort Report.comesBefore_trans Report.comesBefore_total, filter_comm]

theorem rule_of_mem_found {rule : Rule} {issue : Issue}
    (h : issue ∈ linter.found path source rule) :
    issue.rule = rule.name := by
  unfold found ruleIssues at h
  split at h
  · obtain ⟨finding, -, rfl⟩ := mem_map.1 h
    rfl
  · cases h

theorem rule_of_mem_faults {issue : Issue} (h : issue ∈ linter.faults source) :
    issue.rule = syntaxErrorRule := by
  unfold faults syntaxIssues at h
  split at h
  · obtain ⟨d, -, rfl⟩ := mem_map.1 h
    rfl
  · cases h

/-- The findings under a name are those of the rules with the name, and faults of form if it is
theirs. -/
theorem filter_found (name : String) :
    (linter.rules.flatMap (linter.found path source) ++ linter.faults source).filter
      (·.rule = name) = (linter.rules.filter (·.name = name)).flatMap (linter.found path source) ++
        if syntaxErrorRule = name then linter.faults source else [] := by
  have hpick : ∀ {issues : List Issue} {own : String}, (∀ issue ∈ issues, issue.rule = own) →
      issues.filter (·.rule = name) = if own = name then issues else [] := by
    intro issues own h
    split
    · next heq => exact filter_eq_self.2 fun issue hissue => by simp [h issue hissue, heq]
    · next hne => exact filter_eq_nil_iff.2 fun issue hissue => by simp [h issue hissue, hne]
  rw [filter_append, hpick fun _ => rule_of_mem_faults, filter_flatMap]
  refine congrArg (· ++ _) (flatMap_eq_of_filter fun rule _ => ?_)
  rw [hpick fun _ => rule_of_mem_found]
  simp only [decide_eq_true_eq]

/-- The issues under a name depend on the settings and on the rules with that name. -/
theorem byRule_lint {rules : List Rule} {name : String}
    (h : linter.rules.filter (·.name = name) = rules.filter (·.name = name)) :
    (linter.lint path source).byRule name = (lint ⟨rules, linter.config⟩ path source).byRule
      name := by
  unfold Report.byRule
  rw [filter_issues_lint, filter_issues_lint, filter_found, filter_found, h]
  rfl

/-- Of rules with distinct names one has the name of a rule among them. -/
theorem filter_name_eq {rules : List Rule} (hnames : (rules.map Rule.name).Nodup) {rule : Rule}
    (h : rule ∈ rules) : rules.filter (·.name = rule.name) = [rule] := by
  induction rules with
  | nil => cases h
  | cons first rules ih =>
    obtain ⟨hfirst, hrest⟩ := nodup_cons.1 hnames
    rcases mem_cons.1 h with rfl | h
    · rw [filter_cons_of_pos (by simp), filter_eq_nil_iff.2]
      intro other hother
      simp only [decide_eq_true_eq]
      exact fun heq => hfirst (heq ▸ mem_map_of_mem hother)
    · rw [filter_cons_of_neg, ih hrest h]
      simp only [decide_eq_true_eq]
      exact fun heq => hfirst (heq ▸ mem_map_of_mem h)

/-- A rule that is turned off might as well not be there. -/
theorem lint_disabled {off : Config} {name : String} (hoff : off.Disables linter.config name)
    (hname : name ≠ syntaxErrorRule) : lint ⟨linter.rules, off⟩ path source =
      lint ⟨linter.rules.filter (·.name ≠ name), linter.config⟩ path source := by
  have hfaults : faults ⟨linter.rules, off⟩ source =
      faults ⟨linter.rules.filter (·.name ≠ name), linter.config⟩ source := by
    unfold faults syntaxIssues Config.isRuleEnabled Config.ruleSeverity?
    rw [hoff.reportSyntaxErrors, hoff.rule? _ hname.symm]
  have hfound : linter.rules.flatMap (found ⟨linter.rules, off⟩ path source) =
      (linter.rules.filter (·.name ≠ name)).flatMap
        (found ⟨linter.rules.filter (·.name ≠ name), linter.config⟩ path source) := by
    refine flatMap_eq_of_filter fun rule _ => ?_
    unfold found ruleIssues
    by_cases heq : rule.name = name
    · rw [heq, hoff.disabled]
      simp
    · unfold Config.isRuleEnabled Config.ruleSeverity?
      rw [hoff.rule? _ heq]
      simp [heq]
  have hissues : (lint ⟨linter.rules, off⟩ path source).issues =
      (lint ⟨linter.rules.filter (·.name ≠ name), linter.config⟩ path source).issues := by
    rw [issues_lint, issues_lint, hfaults, hfound]
  exact congrArg (Report.mk path) hissues

end Linter

open Linter

/-- **Rules do not interfere.**  The issues of a report are in order.  Those at one place come in
the order of the rules, those of one rule in the order in which it found them, and faults of form
come last.  Each rule has the issues that it has alone, and faults of form are reported as without
rules.  A rule that is turned off might as well not be there.  Every issue counts once, for its
severity. -/
theorem rules_isolated (linter : Linter) (path source : String)
    (hnames : (linter.rules.map Rule.name).Nodup)
    (hfaults : syntaxErrorRule ∉ linter.rules.map Rule.name) :
    let report := linter.lint path source
    report.issues.Pairwise (fun a b => a.line < b.line ∨ a.line = b.line ∧ a.column ≤ b.column) ∧
    (∀ line column, report.issues.filter (fun issue => issue.line = line ∧ issue.column = column) =
      (linter.rules.flatMap (linter.found path source) ++ linter.faults source).filter
        fun issue => keeps source issue ∧ issue.line = line ∧ issue.column = column) ∧
    (∀ rule ∈ linter.rules, report.byRule rule.name =
      (lint ⟨[rule], linter.config⟩ path source).byRule rule.name) ∧
    report.byRule syntaxErrorRule = (lint ⟨[], linter.config⟩ path source).byRule syntaxErrorRule ∧
    (∀ rule ∈ linter.rules, ∀ off : Config, off.Disables linter.config rule.name →
      lint ⟨linter.rules, off⟩ path source =
        lint ⟨linter.rules.filter (·.name ≠ rule.name), linter.config⟩ path source) ∧
    (∀ severity, report.count severity = report.issues.countP (·.severity = severity)) ∧
    report.count .error + report.count .warning + report.count .info = report.issues.length := by
  refine ⟨?_, fun line column => ?_, fun rule hrule => ?_, byRule_lint ?_,
    fun rule hrule off hoff => ?_,
    fun severity => countP_eq_length_filter.symm, Report.sum_count _⟩
  · have hsorted := pairwise_mergeSort Report.comesBefore_trans Report.comesBefore_total
      ((linter.rules.flatMap (linter.found path source) ++ linter.faults source).filter
        (keeps source))
    rw [issues_lint]
    exact hsorted.imp fun {a b} h => (Report.comesBefore_iff a b).1 h
  · rw [filter_issues_lint, mergeSort_of_pairwise, filter_filter]
    · simp only [Bool.decide_and, Bool.decide_eq_true]
    · refine pairwise_of_forall_mem_list fun a ha b hb => ?_
      have ha := (mem_filter.1 (mem_of_mem_filter ha)).2
      have hb := (mem_filter.1 (mem_of_mem_filter hb)).2
      simp only [decide_eq_true_eq] at ha hb
      rw [Report.comesBefore_iff]
      omega
  · refine byRule_lint ?_
    rw [filter_name_eq hnames hrule]
    simp
  · refine (filter_eq_nil_iff.2 fun rule hrule => ?_).trans rfl
    simp only [decide_eq_true_eq]
    exact fun heq => hfaults (heq ▸ mem_map_of_mem hrule)
  · exact lint_disabled hoff fun heq => hfaults (heq ▸ mem_map_of_mem hrule)

/-- The rules on keywords and on white space at one place, with faults of form. -/
theorem rules_isolated_recommended :
    let linter : Linter := ⟨Preset.recommended.rules, {}⟩
    let off : Config := ⟨none, none, true, 10, [("valid-keyword", { enabled := some false })]⟩
    (linter.rules.map Rule.name).Nodup ∧ syntaxErrorRule ∉ linter.rules.map Rule.name ∧
      off.Disables linter.config "valid-keyword" ∧
      lint ⟨linter.rules, off⟩ "a" "*Html: \x7bx \n" =
        lint ⟨linter.rules.filter (·.name ≠ "valid-keyword"), linter.config⟩
          "a" "*Html: \x7bx \n" := by
  have hoff : Config.Disables
      ⟨none, none, true, 10, [("valid-keyword", { enabled := some false })]⟩ {} "valid-keyword" :=
    ⟨rfl, rfl,
      fun other hother => by simp [Config.rule?, lookup_cons, beq_eq_false_iff_ne.2 hother]⟩
  have hisolated := rules_isolated ⟨Preset.recommended.rules, {}⟩ "a" "*Html: \x7bx \n"
      (by decide) (by decide)
  exact ⟨by decide, by decide, hoff, hisolated.2.2.2.2.1 _ mem_cons_self _ hoff⟩

end ScriptLint

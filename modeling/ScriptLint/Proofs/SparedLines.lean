import ScriptLint.Proofs.FixPasses
import ScriptLint.Proofs.OnePass

/-!
# Suppressed lines are spared

Whether an issue is suppressed is asked of the line on which it starts, and its fix replaces a range
of bytes.  Both are about the same line: a fix of a built-in rule replaces what its issue covers,
which is the name of a keyword or the white space at the end of a line, and so lies in the content
of one line.

**Results.**
* `WithinLine.of_mem_linesOf`: what a part of a line covers.
* `withinLine_of_fix`: the fix of an issue lies on the line of the issue.
* `fixes_spare_suppressed`: no pass of fixing is given a fix on a line that suppresses its rule.
-/

namespace ScriptLint

open List Text

open Rules TrailingWhitespace

/-- The bytes from one offset to another lie in the content of the line with a number, counted from
1. -/
def WithinLine (cs : List Char) (number start stop : Nat) : Prop :=
  ∃ before line after, lines cs = before ++ line :: after ∧ number = before.length + 1 ∧
    byteLength (before.flatMap Line.full) ≤ start ∧ start ≤ stop ∧
    stop ≤ byteLength (before.flatMap Line.full) + byteLength line.content

section Lines

variable {source : String} {p : Position} {line : Line}

/-- The lines of a source with a byte-order mark are those behind the mark, with the mark on the
first of them. -/
theorem exists_lines_eq {before after : List Line}
    (h : lines (withoutMark source.toList) = before ++ line :: after) :
    ∃ before' lead, lines source.toList = before' ++ ⟨lead ++ line.content, line.ending⟩ :: after ∧
      before'.length = before.length ∧
      markOf source ++ before.flatMap Line.full = before'.flatMap Line.full ++ lead := by
  have hjoin := markOf_append source
  have hmark : markOf source = [] ∨ markOf source = [byteOrderMark] := by
    unfold markOf
    split
    · exact .inr rfl
    · exact .inl rfl
  rcases hmark with hmark | hmark
  · rw [hmark] at hjoin ⊢
    rw [← hjoin]
    exact ⟨before, [], h, rfl, (append_nil _).symm⟩
  · rw [hmark] at hjoin ⊢
    rw [← hjoin, singleton_append, lines_cons (by decide), h]
    cases before with
    | nil => exact ⟨[], [byteOrderMark], rfl, rfl, rfl⟩
    | cons first before =>
      exact ⟨⟨byteOrderMark :: first.content, first.ending⟩ :: before,
        [], rfl, rfl, by simp [Line.full]⟩

/-- What a part of the content of a line covers lies on the line. -/
theorem WithinLine.of_mem_linesOf (h : (p, line) ∈ linesOf source) {u v w : List Char}
    (hcontent : line.content = u ++ v ++ w) :
    WithinLine source.toList p.line (p.advance u).offset ((p.advance u).advance v).offset := by
  obtain ⟨A, B, hlines⟩ := append_of_mem h
  have hplace := place_of_placedLines_eq hlines (pairwise_ending_lines _)
  rw [line_firstLine, offset_firstLine] at hplace
  have hsnd := congrArg (map Prod.snd) hlines
  rw [linesOf, map_snd_placedLines, map_append] at hsnd
  obtain ⟨before, lead, hsplit, hlength, hjoin⟩ := exists_lines_eq hsnd
  have hbytes := congrArg byteLength hjoin
  rw [byteLength_append, byteLength_append] at hbytes
  refine ⟨before, _, _, hsplit, ?_, ?_, Nat.le_add_right _ _, ?_⟩
  · rw [hplace.1, hlength, length_map, Nat.add_comm]
  · simp only [Position.advance]
    omega
  · simp only [Position.advance, hcontent, byteLength_append]
    omega

end Lines

section Rules

variable {source : String} {finding : Finding} {fix : Fix}

/-- A fix of the rule on keywords replaces a name, on the line of its keyword. -/
theorem withinLine_of_validKeyword
    (h : finding ∈ ValidKeyword.findings (parse source).program.nodes)
    (hfix : finding.fix = some fix) :
    WithinLine source.toList finding.span.start.line fix.start fix.stop := by
  obtain ⟨node, hnode, hbind⟩ := mem_filterMap.1 h
  obtain ⟨header, hheader, hcheck⟩ := Option.bind_eq_some_iff.1 hbind
  obtain ⟨hspan, hrange⟩ : finding.span = header.nameSpan ∧
      fix = .replace header.nameSpan (lower header.name) := by
    unfold ValidKeyword.checkHeader at hcheck
    dsimp only at hcheck
    split at hcheck
    · cases hcheck
    split at hcheck
    · cases hcheck
      cases hfix
    split at hcheck
    · cases hcheck
      exact ⟨rfl, (Option.some.inj hfix).symm⟩
    · cases hcheck
  have hmem := (headers_perm source).subset
    (mem_map_of_mem (mem_filterMap.2 ⟨node, hnode, hheader⟩))
  have hlines := filterMap_sitesFrom (g := fun p content => (keywordLine? p content).map
      fun k => (String.ofList k.name, k.nameSpan))
    (fun p content hblank => by rw [keywordLine?_of_allBlank hblank]; rfl) [] maxDepth
    (firstLine source) (lines (withoutMark source.toList))
  rw [sites, hlines] at hmem
  obtain ⟨⟨p, line⟩, hline, hlabel⟩ := mem_filterMap.1 hmem
  obtain ⟨k, hk, hlabel⟩ := Option.map_eq_some_iff.1 hlabel
  obtain ⟨rest, hbody, -, hstart, -⟩ := keywordLine?_eq_some hk
  have hname : header.nameSpan = k.nameSpan := (congrArg Prod.snd hlabel).symm
  have hcontent : line.content = (line.content.takeWhile isGap ++ ['*']) ++ k.name ++ rest := by
    conv_lhs => rw [← takeWhile_append_dropWhile (p := isGap) (l := line.content), hbody]
    simp
  have hwithin := WithinLine.of_mem_linesOf hline hcontent
  rw [← hstart] at hwithin
  rw [hspan, hrange, hname]
  have hsame : k.nameSpan.start.line = p.line := by
    show k.nameStart.line = p.line
    rw [hstart]
    rfl
  rw [hsame]
  exact hwithin

theorem eq_of_endFinding? {skipBlank : Bool} {lead content : List Char} {p : Position}
    (h : endFinding? skipBlank lead p content = some finding) :
    finding = .withFix "Trailing whitespace" ⟨p.advance (trimmed content), p.advance content⟩
      (.delete ⟨p.advance (trimmed content), p.advance content⟩) := by
  unfold endFinding? at h
  split at h
  · exact (Option.some.inj h).symm
  · cases h

/-- A fix of the rule on white space deletes the end of a line. -/
theorem withinLine_of_trailingWhitespace {skipBlank : Bool}
    (h : finding ∈ TrailingWhitespace.findings skipBlank source) (hfix : finding.fix = some fix) :
    WithinLine source.toList finding.span.start.line fix.start fix.stop := by
  rw [trailing_findings_eq] at h
  obtain ⟨⟨p, line⟩, hline, hfinding⟩ := mem_filterMap.1 h
  obtain ⟨blanks, hcontent, -⟩ := exists_eq_trimmed_append line.content
  have hwithin := WithinLine.of_mem_linesOf (w := []) hline (by rw [append_nil]; exact hcontent)
  rw [Position.advance_advance, ← hcontent] at hwithin
  obtain rfl := eq_of_endFinding? hfinding
  cases hfix
  exact hwithin

end Rules

section Linter

variable {config : Config} {linter : Linter} {path source : String} {issue : Issue} {fix : Fix}

/-- The fix of a finding lies in the content of the line on which the finding starts. -/
theorem withinLine_of_check {rule : Rule} {severity : Severity} {finding : Finding}
    (hrule : rule.IsBuiltIn)
    (hfinding : finding ∈ rule.check ⟨path, source, severity, DirectiveTable.ofSource source⟩
      (parse source).program.nodes) (hfix : finding.fix = some fix) :
    WithinLine source.toList finding.span.start.line fix.start fix.stop := by
  have hplain : finding.fix ≠ none := by simp [hfix]
  cases hrule with
  | keyword => exact withinLine_of_validKeyword hfinding hfix
  | undefined => exact absurd (fix_eq_none_of_undefined _ _ finding hfinding) hplain
  | unused => exact absurd (fix_eq_none_of_unused _ _ finding hfinding) hplain
  | trailing => exact withinLine_of_trailingWhitespace hfinding hfix

/-- The fix of an issue lies in the content of the line on which the issue starts. -/
theorem withinLine_of_fix (h : Linter.ofConfig config = .ok linter)
    (hissue : issue ∈ linter.rawIssues path source (parse source) (DirectiveTable.ofSource source))
    (hfix : issue.fix = some fix) : WithinLine source.toList issue.line fix.start fix.stop := by
  obtain ⟨preset, rfl⟩ := Linter.eq_of_ofConfig h
  rcases mem_append.1 hissue with hissue | hissue
  · obtain ⟨rule, hrule, hissue⟩ := mem_flatMap.1 hissue
    unfold Linter.ruleIssues at hissue
    split at hissue
    · obtain ⟨finding, hfinding, rfl⟩ := mem_map.1 hissue
      exact withinLine_of_check (isBuiltIn_of_mem_configuredRules rule hrule) hfinding hfix
    · cases hissue
  · rw [fix_eq_none_of_syntaxIssues issue hissue] at hfix
    cases hfix

/-- **No suppressed line is rewritten.**  Whatever pass of fixing a built-in linter makes, each
issue of the report on the text of that pass that carries a fix has it inside the content of one
line, and the directives of this text do not suppress the rule of the issue on that line. -/
theorem fixes_spare_suppressed (h : Linter.ofConfig config = .ok linter)
    (path source : String) (passes : Nat) :
    ∀ issue ∈ (linter.lint path (linter.textAfter path source passes)).issues,
      ∀ fix, issue.fix = some fix →
      ∃ number, WithinLine (linter.textAfter path source passes).toList number fix.start fix.stop ∧
        (DirectiveTable.ofSource (linter.textAfter path source passes)).isSuppressed
          number issue.rule =
          false := by
  intro issue hissue fix hfix
  obtain ⟨hraw, hkept⟩ := mem_filter.1 (mem_mergeSort.1 hissue)
  refine ⟨issue.line, withinLine_of_fix h hraw hfix, ?_⟩
  simpa using (Bool.and_eq_true_iff.1 hkept).1

/-- Two keywords in upper case, the first of them on a suppressed line. -/
def sparedKeyword : String :=
  "-- gtlint-disable-next-line\n*QUIT\n*QUIT"

theorem fixes_spare_suppressed_nextLine : ∃ linter issue, Linter.ofConfig {} = .ok linter ∧
    issue ∈ (linter.lint "a.gt" (linter.textAfter "a.gt" sparedKeyword 0)).issues ∧
    issue.fix = some ⟨35, 39, "quit"⟩ ∧
    ∃ number, WithinLine (linter.textAfter "a.gt" sparedKeyword 0).toList number 35 39 ∧
      (DirectiveTable.ofSource (linter.textAfter "a.gt" sparedKeyword 0)).isSuppressed
        number issue.rule =
        false := by
  have h : Linter.ofConfig {} = .ok ⟨Preset.default.configuredRules {}, {}⟩ := rfl
  have hfixes : (Linter.lint ⟨Preset.default.configuredRules {}, {}⟩ "a.gt" sparedKeyword).fixes =
      [⟨35, 39, "quit"⟩] := by decide +kernel
  have hmem : ⟨35, 39, "quit"⟩ ∈
      (Linter.lint ⟨Preset.default.configuredRules {}, {}⟩ "a.gt"
        sparedKeyword).fixes := by simp [hfixes]
  obtain ⟨issue, hissue, hfix⟩ := mem_filterMap.1 hmem
  exact ⟨_, issue, h, hissue, hfix, fixes_spare_suppressed h "a.gt" sparedKeyword
    0 issue hissue _ hfix⟩

end Linter

end ScriptLint

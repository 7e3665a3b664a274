import ScriptLint.Check
import ScriptLint.Proofs.ArgumentReading
import ScriptLint.Proofs.LineTidying
import ScriptLint.Proofs.SettledLines

/-!
# The lines that carry fixes

Two rules offer fixes, and each of them has at most one to offer on a line: the name of a keyword in
lower case, and the deletion of white space at the end.  An issue is reported unless its rule is
turned off, a directive suppresses it or it stands in raw markup.

**Result.** `fixes_perm`: the fixes of a report are those of the lines of the source.
-/

namespace ScriptLint

open List Text

open Piece Rules

/-- An issue of a rule at a place is reported. -/
def keepsAt (source rule : String) (p : Position) : Bool :=
  !(DirectiveTable.ofSource source).isSuppressed p.line rule &&
    (!((Markup.lineRanges (parse source).program.nodes).any fun range =>
        range.1 ≤ p.line && p.line ≤ range.2) ||
      (Markup.enclosingBraces? source.toList p.offset).any fun inside =>
        !Markup.hasTopColon 0 none inside)

/-- Which rules with fixes run: the one on keywords, and the one on white space at the end of a
line, which may leave out blank lines. -/
structure FixPlan where
  keywords : Bool
  trailing : Option Bool

namespace FixPlan

variable (plan : FixPlan) (source : String)

/-- The name on a line is to be written in lower case. -/
def lowers (p : Position) (content : List Char) : Bool :=
  plan.keywords && (keywordLine? p content).any fun k =>
    Vocabulary.isKnown (lower (String.ofList k.name)) &&
      (String.ofList k.name != lower (String.ofList k.name) &&
        keepsAt source ValidKeyword.name k.nameStart)

/-- White space at the end of a line is to be deleted. -/
def trims (p : Position) (content : List Char) : Bool :=
  plan.trailing.any fun skipBlank =>
    decide ((TrailingWhitespace.trimmed content).length < content.length) &&
      (!(TrailingWhitespace.isBlankRest ((if p.line = 1 then markOf source else []) ++
          TrailingWhitespace.trimmed content) && skipBlank) &&
        keepsAt source TrailingWhitespace.name (p.advance (TrailingWhitespace.trimmed content)))

/-- The fix of the name on a line. -/
def nameFix? (p : Position) (content : List Char) : Option Fix :=
  if plan.lowers source p content then
    (keywordLine? p content).map fun k => .replace k.nameSpan (lower (String.ofList k.name))
  else
    none

/-- The fix at the end of a line. -/
def endFix? (p : Position) (content : List Char) : Option Fix :=
  if plan.trims source p content then
    some (.delete ⟨p.advance (TrailingWhitespace.trimmed content), p.advance content⟩)
  else
    none

/-- The fixes of a line. -/
def lineFixes (line : Position × Line) : List Fix :=
  (plan.nameFix? source line.1 line.2.content).toList ++
    (plan.endFix? source line.1 line.2.content).toList

end FixPlan

section Reports

variable (source : String)

/-- The fix of an issue that is reported. -/
def keptFix (issue : Issue) : Option Fix :=
  if keepsAt source issue.rule issue.span.start then issue.fix else none

theorem fixes_lint_perm (linter : Linter) (path : String) :
    (linter.lint path source).fixes.Perm
      ((linter.rules.flatMap fun rule =>
          (linter.ruleIssues path source (DirectiveTable.ofSource source)
            (parse source).program.nodes rule).filterMap (keptFix source)) ++
        (linter.syntaxIssues (parse source).diagnostics).filterMap (keptFix source)) := by
  refine ((mergeSort_perm _ _).filterMap Issue.fix).trans (.of_eq ?_)
  rw [filterMap_filter, Linter.rawIssues, filterMap_append, filterMap_flatMap]
  rfl

theorem keptFix_of_plain {issues : List Issue} (h : ∀ issue ∈ issues, issue.fix = none) :
    issues.filterMap (keptFix source) = [] := by
  refine filterMap_eq_nil_iff.2 fun issue hissue => ?_
  rw [keptFix, h issue hissue, ite_self]

theorem fix_eq_none_of_syntaxIssues {linter : Linter} {diagnostics : List Diagnostic} :
    ∀ issue ∈ linter.syntaxIssues diagnostics, issue.fix = none := by
  unfold Linter.syntaxIssues
  split
  · simp
  · simp

/-- A rule whose findings are plain has no fix to offer. -/
theorem keptFix_ruleIssues_of_plain (linter : Linter) (path : String) {rule : Rule}
    (h : ∀ context nodes, ∀ finding ∈ rule.check context nodes, finding.fix = none) :
    (linter.ruleIssues path source (DirectiveTable.ofSource source) (parse source).program.nodes
      rule).filterMap (keptFix source) = [] := by
  refine keptFix_of_plain source ?_
  unfold Linter.ruleIssues
  split
  · intro issue hissue
    obtain ⟨finding, hfinding, rfl⟩ := mem_map.1 hissue
    exact h _ _ finding hfinding
  · simp

end Reports

section Keywords

variable (keeps : Position → Bool)

/-- The fix of a name at a place, if fixes there are kept. -/
def labelFix? (label : String × Span) : Option Fix :=
  if Vocabulary.isKnown (lower label.1) &&
      (label.1 != lower label.1 && keeps label.2.start) then
    some (.replace label.2 (lower label.1))
  else
    none

theorem fix_checkHeader (header : Header) :
    ((ValidKeyword.checkHeader header).bind fun finding =>
      if keeps finding.span.start then finding.fix else none) =
      labelFix? keeps (header.name, header.nameSpan) := by
  unfold ValidKeyword.checkHeader labelFix?
  by_cases hempty : header.name = ""
  · have hunknown : Vocabulary.isKnown (lower "") = false := by decide +kernel
    rw [hempty, hunknown]
    rfl
  rw [if_neg hempty]
  cases hknown : Vocabulary.isKnown (lower header.name) with
  | false =>
    exact ite_self _
  | true =>
    rw [if_neg (by simp)]
    by_cases hlower : header.name = lower header.name
    · rw [if_neg (by simpa using hlower), if_neg (by simp [← hlower])]
      rfl
    · rw [if_pos hlower, Option.bind_some]
      by_cases hkeep : keeps header.nameSpan.start <;> simp [Finding.withFix, hlower, hkeep]

/-- A blank line is not that of a keyword. -/
theorem keywordLine?_of_allBlank {p : Position} {content : List Char}
    (h : allBlank content = true) : keywordLine? p content = none := by
  refine keywordLine?_eq_none (Option.eq_none_iff_forall_ne_some.2 fun name hname => ?_)
  obtain ⟨rest, hbody, -⟩ := keywordName?_eq_some hname
  have hmem : '*' ∈ content := (dropWhile_suffix isGap).subset (by rw [hbody]; simp)
  have hblank := all_eq_true.1 h '*' hmem
  revert hblank
  decide

theorem filterMap_sitesFrom {β : Type} {g : Position → List Char → Option β}
    (hg : ∀ p content, allBlank content = true → g p content = none) (levels : List Nat)
    (left : Nat) (p : Position) (ls : List Line) :
    (sitesFrom levels left p ls).filterMap (fun site => g site.start site.content) =
      (placedLines p ls).filterMap fun line => g line.1 line.2.content := by
  induction ls generalizing levels left p with
  | nil => rfl
  | cons line ls ih =>
    rw [sitesFrom, placedLines]
    split
    · next hblank => rw [ih, filterMap_cons, hg p line.content hblank]
    · rw [filterMap_cons, filterMap_cons, ih]

/-- The rule on keywords offers the fixes of the names on the lines. -/
theorem fixes_validKeyword_perm (source : String) :
    ((ValidKeyword.findings (parse source).program.nodes).filterMap fun finding =>
      if keeps finding.span.start then finding.fix else none).Perm
      ((linesOf source).filterMap fun line => ((keywordLine? line.1 line.2.content).map
        fun k => (String.ofList k.name, k.nameSpan)).bind (labelFix? keeps)) := by
  have hfixes : ((ValidKeyword.findings (parse source).program.nodes).filterMap fun finding =>
        if keeps finding.span.start then finding.fix else none) =
      (((parse source).program.nodes.filterMap Node.header?).map
        fun h => (h.name, h.nameSpan)).filterMap (labelFix? keeps) := by
    rw [ValidKeyword.findings, filterMap_filterMap, filterMap_map, filterMap_filterMap]
    refine filterMap_congr fun node _ => ?_
    cases node.header? with
    | none => rfl
    | some header => exact fix_checkHeader keeps header
  refine (Perm.of_eq hfixes).trans
    (((headers_perm source).filterMap (labelFix? keeps)).trans (.of_eq ?_))
  rw [filterMap_filterMap]
  exact filterMap_sitesFrom (g := fun p content => ((keywordLine? p content).map
      fun k => (String.ofList k.name, k.nameSpan)).bind (labelFix? keeps))
    (fun p content hblank => by rw [keywordLine?_of_allBlank hblank]; rfl) [] maxDepth
    (firstLine source) (lines (withoutMark source.toList))

/-- The rule on keywords offers the fixes of the names on the lines, where they are reported. -/
theorem keptFix_validKeyword (source : String) (linter : Linter) (path : String)
    (severity : Severity)
    (plan : FixPlan) (hplan : plan.keywords = linter.config.isRuleEnabled ValidKeyword.name) :
    ((linter.ruleIssues path source (DirectiveTable.ofSource source) (parse source).program.nodes
      (validKeyword severity)).filterMap (keptFix source)).Perm
      ((linesOf source).filterMap fun line => plan.nameFix? source line.1 line.2.content) := by
  have hname : (validKeyword severity).name = ValidKeyword.name := rfl
  unfold Linter.ruleIssues
  cases henabled : linter.config.isRuleEnabled ValidKeyword.name with
  | false =>
    rw [hname, henabled]
    refine .of_eq (Eq.symm (filterMap_eq_nil_iff.2 fun line _ => ?_))
    rw [FixPlan.nameFix?, FixPlan.lowers, hplan, henabled, if_neg (by simp)]
  | true =>
    rw [hname, henabled, if_pos rfl, Rule.issues, filterMap_map]
    refine (fixes_validKeyword_perm (keepsAt source ValidKeyword.name) source).trans (.of_eq ?_)
    refine filterMap_congr fun line _ => ?_
    unfold FixPlan.nameFix? FixPlan.lowers
    rw [hplan, henabled]
    cases keywordLine? line.1 line.2.content with
    | none => rfl
    | some k => rfl

end Keywords

section Trailing

open TrailingWhitespace

theorem trimmed_mark (content : List Char) :
    trimmed (byteOrderMark :: content) = byteOrderMark :: trimmed content := by
  unfold trimmed dropEndWhile
  have hmark : isGap byteOrderMark = false := by decide
  simp [hmark]

/-- The finding on a line behind a mark, which may be missing; the line starts at the position. -/
def endFinding? (skipBlank : Bool) (lead : List Char) (p : Position) (content : List Char) :
    Option Finding :=
  if (trimmed content).length < content.length &&
    !(isBlankRest (lead ++ trimmed content) && skipBlank)
  then
    let span : Span := ⟨p.advance (trimmed content), p.advance content⟩
    some (.withFix "Trailing whitespace" span (.delete span))
  else
    none

theorem checkLine_eq {skipBlank : Bool} {line offset : Nat} {p : Position}
    {lead content : List Char} (hlead : trimmed (lead ++ content) = lead ++ trimmed content)
    (hrest : positionAfter line offset (lead ++ trimmed content) = p.advance (trimmed content))
    (hfull : positionAfter line offset (lead ++ content) = p.advance content) :
    checkLine skipBlank line offset (lead ++ content) = endFinding? skipBlank lead p content := by
  obtain ⟨ws, hcontent, -⟩ := exists_eq_trimmed_append content
  have hbetween : Span.between (p.advance (trimmed content)) (p.advance content) =
      ⟨p.advance (trimmed content), p.advance content⟩ := by
    have hle : byteLength (trimmed content) ≤ byteLength content := by
      conv_rhs => rw [hcontent]
      rw [byteLength_append]
      exact Nat.le_add_right _ _
    refine if_neg ?_
    show ¬ p.offset + byteLength content < p.offset + byteLength (trimmed content)
    omega
  unfold checkLine endFinding?
  dsimp only
  rw [hlead, hrest, hfull, hbetween, length_append, length_append]
  simp only [Nat.add_lt_add_iff_left]

theorem positionAfter_eq {p : Position} (hcolumn : p.column = 1) {content : List Char}
    (hmark : p.line = 1 → content.head? ≠ some byteOrderMark) :
    positionAfter p.line p.offset content = p.advance content := by
  have hnot : ¬ (p.line = 1 ∧ content.head? = some byteOrderMark) := fun h => hmark h.1 h.2
  unfold positionAfter Position.advance
  dsimp only
  rw [if_neg hnot, hcolumn, Nat.sub_zero, Nat.add_comm]

theorem head?_trimmed {content : List Char} {c : Char} (h : (trimmed content).head? = some c) :
    content.head? = some c := by
  obtain ⟨ws, hcontent, -⟩ := exists_eq_trimmed_append content
  obtain ⟨rest, hrest⟩ := head?_eq_some_iff.1 h
  rw [hcontent, hrest]
  rfl

theorem afterLine_eq (p : Position) {line : Line} (h : line.ending ≠ []) :
    afterLine p line = ⟨p.line + 1, 1, p.offset + byteLength line.full⟩ := by
  have hoffset := offset_afterLine p line
  have hline := line_afterLine p line
  have hcolumn : (afterLine p line).column = 1 := by
    unfold afterLine ofEnding
    rw [if_neg (by simpa using h)]
    rfl
  rw [if_neg h] at hline
  rw [← hline, ← hoffset, ← hcolumn]

theorem le_line_of_mem_placedLines {p : Position} {ls : List Line} {line : Position × Line}
    (h : line ∈ placedLines p ls) : p.line ≤ line.1.line := by
  induction ls generalizing p with
  | nil => cases h
  | cons first ls ih =>
    rcases mem_cons.1 h with rfl | h
    · exact Nat.le_refl _
    · have hnext := line_afterLine p first
      have hle := ih h
      split at hnext <;> omega

/-- The findings on the lines behind the first one. -/
theorem checkLines_after {skipBlank : Bool} {p : Position} {first : Line} {ls : List Line}
    (hending : Ended (first :: ls)) (hp : 1 ≤ p.line) :
    checkLines skipBlank (p.line + 1) (p.offset + byteLength first.full) ls =
      (placedLines (afterLine p first) ls).filterMap fun line =>
        endFinding? skipBlank [] line.1 line.2.content := by
  induction ls generalizing p first with
  | nil => rfl
  | cons second ls ih =>
    have hnext := afterLine_eq p ((pairwise_cons.1 hending).1 second mem_cons_self)
    rw [hnext]
    generalize hq : (⟨p.line + 1, 1, p.offset + byteLength first.full⟩ : Position) = q
    obtain ⟨hline, hcolumn, hoffset⟩ := Position.mk.inj hq
    have hposition : ∀ content, positionAfter q.line q.offset content = q.advance content :=
      fun content => positionAfter_eq hcolumn.symm fun hone => by omega
    have hsecond := @checkLine_eq skipBlank q.line q.offset q [] second.content rfl
        (hposition _) (hposition _)
    have hrest := @ih q second hending.of_cons (by omega)
    rw [nil_append] at hsecond
    rw [hline, hoffset, checkLines, placedLines, filterMap_cons, hrest, hsecond]
    cases endFinding? skipBlank [] q second.content <;> rfl

/-- The findings on lines, of which the first stands behind a mark, which may be missing. -/
theorem checkLines_eq {skipBlank : Bool} {p : Position} {lead : List Char}
    {first : Line} {ls : List Line}
    (hending : Ended (first :: ls)) (hp : p.line = 1)
    (hoffset : p.offset = byteLength lead)
    (hlead : trimmed (lead ++ first.content) = lead ++ trimmed first.content)
    (hposition : ∀ u, u <+: first.content → positionAfter 1 0 (lead ++ u) = p.advance u) :
    checkLines skipBlank 1 0 (⟨lead ++ first.content, first.ending⟩ :: ls) =
      (placedLines p (first :: ls)).filterMap fun line =>
        endFinding? skipBlank (if line.1.line = 1 then lead else []) line.1 line.2.content := by
  obtain ⟨ws, hcontent, -⟩ := exists_eq_trimmed_append first.content
  have hfirst := @checkLine_eq skipBlank 1 0 p lead first.content hlead
      (hposition _ ⟨ws, hcontent.symm⟩)
    (hposition _ prefix_rfl)
  have hbytes : 0 + byteLength (Line.full ⟨lead ++ first.content, first.ending⟩) =
      p.offset + byteLength first.full := by
    simp [Line.full, hoffset]
  have hrest := @checkLines_after skipBlank p first ls hending hp.ge
  have hlater : ∀ line ∈ placedLines (afterLine p first) ls,
      endFinding? skipBlank [] line.1 line.2.content =
        endFinding? skipBlank (if line.1.line = 1 then lead else []) line.1 line.2.content := by
    intro line hline
    have hle := le_line_of_mem_placedLines hline
    have hnext := line_afterLine p first
    rw [if_neg fun hnil => by rw [eq_nil_of_ending_eq_nil hending hnil] at hline; cases hline]
      at hnext
    rw [if_neg (by omega)]
  rw [hp, filterMap_congr hlater] at hrest
  rw [checkLines, hfirst, hbytes, hrest, placedLines, filterMap_cons, if_pos hp]
  cases endFinding? skipBlank lead p first.content <;> rfl

/-- The findings on a source are those of its lines; the first one stands behind the mark. -/
theorem trailing_findings_eq (skipBlank : Bool) (source : String) :
    findings skipBlank source = (linesOf source).filterMap fun line =>
      endFinding? skipBlank (if line.1.line = 1 then markOf source else []) line.1
        line.2.content := by
  unfold findings linesOf markOf firstLine
  have hending := pairwise_ending_lines (withoutMark source.toList)
  cases hsource : source.toList with
  | nil => rfl
  | cons c rest =>
    rw [hsource] at hending
    rw [withoutMark] at hending ⊢
    by_cases hmark : c = byteOrderMark
    · have hhead : (c :: rest).head? = some byteOrderMark := by rw [hmark]; rfl
      rw [if_pos hmark] at hending
      rw [if_pos hmark, if_pos hhead, if_pos hhead, hmark, lines_cons (by decide)]
      generalize lines rest = ls at hending
      cases ls with
      | nil => rfl
      | cons first ls =>
        refine @checkLines_eq skipBlank _ [byteOrderMark] first ls hending rfl
          (Nat.zero_add _) (trimmed_mark _) ?_
        intro u _
        simp [positionAfter, Position.advance, Piece.next, Position.origin, Nat.add_comm]
    · have hhead : (c :: rest).head? ≠ some byteOrderMark := by simpa using hmark
      rw [if_neg hmark] at hending
      rw [if_neg hmark, if_neg hhead, if_neg hhead]
      have hjoin := flatMap_full_lines (c :: rest)
      cases hlines : lines (c :: rest) with
      | nil => rfl
      | cons first ls =>
        rw [hlines] at hending hjoin
        refine @checkLines_eq skipBlank .origin [] first ls hending rfl rfl rfl fun u hu => ?_
        refine @positionAfter_eq .origin rfl u fun _ hmore => hhead ?_
        obtain ⟨more, rfl⟩ := head?_eq_some_iff.1 hmore
        obtain ⟨after, hafter⟩ := hu
        rw [← hjoin, flatMap_cons, Line.full, ← hafter]
        rfl

/-- The rule on white space at the end of a line offers the fixes of the ends of lines. -/
theorem keptFix_trailingWhitespace (source : String) (linter : Linter) (path : String)
    (severity : Severity) (skipBlank : Bool) (plan : FixPlan)
    (hplan : plan.trailing = if linter.config.isRuleEnabled TrailingWhitespace.name
      then some skipBlank else none) :
    (linter.ruleIssues path source (DirectiveTable.ofSource source) (parse source).program.nodes
      (trailingWhitespace skipBlank severity)).filterMap (keptFix source) =
      (linesOf source).filterMap fun line => plan.endFix? source line.1 line.2.content := by
  have hname : (trailingWhitespace skipBlank severity).name = TrailingWhitespace.name := rfl
  unfold Linter.ruleIssues
  rw [hname]
  cases henabled : linter.config.isRuleEnabled TrailingWhitespace.name with
  | false =>
    rw [henabled] at hplan
    refine Eq.symm (filterMap_eq_nil_iff.2 fun line _ => ?_)
    rw [FixPlan.endFix?, FixPlan.trims, hplan, if_neg (by simp)]
  | true =>
    rw [henabled, if_pos rfl] at hplan
    show ((findings skipBlank source).map fun finding =>
      finding.toIssue "GT004" TrailingWhitespace.name
        ((linter.config.ruleSeverity? TrailingWhitespace.name).getD severity)).filterMap
          (keptFix source) = _
    rw [trailing_findings_eq, map_filterMap, filterMap_filterMap]
    refine filterMap_congr fun line _ => ?_
    unfold endFinding? FixPlan.endFix? FixPlan.trims
    rw [hplan, Option.any_some, ← Bool.and_assoc]
    generalize (decide ((trimmed line.2.content).length < line.2.content.length) &&
      !(isBlankRest ((if line.1.line = 1 then markOf source else []) ++ trimmed line.2.content) &&
        skipBlank)) = finds
    cases finds with
    | false => rfl
    | true => rfl

end Trailing

/-- Which rules with fixes run under the settings. -/
def FixPlan.ofConfig (preset : Preset) (config : Config) : FixPlan where
  keywords := config.isRuleEnabled ValidKeyword.name
  trailing :=
    if preset ≠ .minimal ∧ config.isRuleEnabled TrailingWhitespace.name then
      some (((config.rule? TrailingWhitespace.name).map
        (·.getBool "skip_blank_lines" false)).getD false)
    else none

theorem fix_eq_none_of_undefined {globals : List String} {severity : Severity} :
    ∀ context nodes, ∀ finding ∈ (undefinedVariables globals severity).check context nodes,
      finding.fix = none := by
  intro context nodes finding hfinding
  obtain ⟨read, -, rfl⟩ := mem_map.1 hfinding
  rfl

theorem fix_eq_none_of_unused {ignored : List String} {severity : Severity} :
    ∀ context nodes, ∀ finding ∈ (unusedVariables ignored severity).check context nodes,
      finding.fix = none := by
  intro context nodes finding hfinding
  obtain ⟨read, -, rfl⟩ := mem_map.1 hfinding
  rfl

/-- The rules of a preset. -/
theorem configuredRules_cases (preset : Preset) (config : Config) :
    (preset = .minimal ∧ ∃ globals, preset.configuredRules config =
      [validKeyword .error, undefinedVariables globals .error]) ∨
    preset ≠ .minimal ∧ ∃ globals ignored severity, preset.configuredRules config =
      [validKeyword .error, undefinedVariables globals .error, unusedVariables ignored severity,
        trailingWhitespace (((config.rule? TrailingWhitespace.name).map
          (·.getBool "skip_blank_lines" false)).getD false) .warning] := by
  cases preset with
  | minimal => exact .inl ⟨rfl, _, rfl⟩
  | recommended => exact .inr ⟨by decide, _, _, _, rfl⟩
  | strict => exact .inr ⟨by decide, _, _, _, rfl⟩

/-- The rules of the program, with any options. -/
inductive Rule.IsBuiltIn : Rule → Prop
  | keyword (severity : Severity) : IsBuiltIn (validKeyword severity)
  | undefined (globals : List String) (severity : Severity) :
      IsBuiltIn (undefinedVariables globals severity)
  | unused (ignored : List String) (severity : Severity) :
      IsBuiltIn (unusedVariables ignored severity)
  | trailing (skipBlank : Bool) (severity : Severity) :
      IsBuiltIn (trailingWhitespace skipBlank severity)

theorem isBuiltIn_of_mem_configuredRules {preset : Preset} {config : Config} :
    ∀ rule ∈ preset.configuredRules config, rule.IsBuiltIn := by
  rcases configuredRules_cases preset config with
    ⟨-, globals, hrules⟩ | ⟨-, globals, ignored, severity, hrules⟩
  · simp [hrules, Rule.IsBuiltIn.keyword, Rule.IsBuiltIn.undefined]
  · simp [hrules, Rule.IsBuiltIn.keyword, Rule.IsBuiltIn.undefined, Rule.IsBuiltIn.unused,
      Rule.IsBuiltIn.trailing]

/-- A linter of some settings has the rules of a preset. -/
theorem Linter.eq_of_ofConfig {config : Config} {linter : Linter}
    (h : Linter.ofConfig config = .ok linter) :
    ∃ preset : Preset, linter = ⟨preset.configuredRules config, config⟩ := by
  unfold Linter.ofConfig at h
  split at h
  · cases h
  next preset _ =>
  unfold Linter.build at h
  split at h
  · cases h
  exact ⟨preset, (Except.ok.inj h).symm⟩

/-- **The fixes of a report** are those of the lines of the source. -/
theorem fixes_perm {config : Config} {linter : Linter} (h : Linter.ofConfig config = .ok linter) :
    linter.config = config ∧ ∃ plan : FixPlan, ∀ path source,
      (linter.lint path source).fixes.Perm ((linesOf source).flatMap (plan.lineFixes source)) := by
  obtain ⟨preset, rfl⟩ := Linter.eq_of_ofConfig h
  refine ⟨rfl, .ofConfig preset config, fun path source => (fixes_lint_perm source _ path).trans ?_⟩
  rw [keptFix_of_plain source fix_eq_none_of_syntaxIssues, append_nil]
  refine .trans ?_ (flatMap_append_perm _ _ _)
  rw [← filterMap_eq_flatMap_toList, ← filterMap_eq_flatMap_toList]
  have hkeywords := keptFix_validKeyword source ⟨preset.configuredRules config, config⟩ path .error
    (.ofConfig preset config) rfl
  rcases configuredRules_cases preset config with ⟨rfl, globals, hrules⟩ |
    ⟨hpreset, globals, ignored, severity, hrules⟩
  · have hnone : ((linesOf source).filterMap fun line =>
        (FixPlan.ofConfig .minimal config).endFix? source line.1 line.2.content) = [] :=
      filterMap_eq_nil_iff.2 fun line _ => rfl
    rw [hrules] at hkeywords ⊢
    simp only [flatMap_cons]
    rw [hnone, keptFix_ruleIssues_of_plain source _ path fix_eq_none_of_undefined]
    exact hkeywords.append_right []
  · have htrailing := keptFix_trailingWhitespace source ⟨preset.configuredRules config, config⟩ path
      .warning (((config.rule? TrailingWhitespace.name).map
        (·.getBool "skip_blank_lines" false)).getD false) (.ofConfig preset config)
      (by simp [FixPlan.ofConfig, hpreset])
    rw [hrules] at hkeywords htrailing ⊢
    simp only [flatMap_cons, flatMap_nil, append_nil]
    rw [keptFix_ruleIssues_of_plain source _ path fix_eq_none_of_undefined,
      keptFix_ruleIssues_of_plain source _ path fix_eq_none_of_unused, htrailing]
    exact hkeywords.append_right _

end ScriptLint

import ScriptLint.Proofs.FixableLines
import ScriptLint.Proofs.MovedText

/-!
# Sources at other offsets

A source may be written with other bytes between its lines, or in front of them.  Its lines then
keep their texts, their numbers and their columns, and only offsets change, by a function that keeps
their order.

**Results.**
* `parse_relocated`: the program and its faults are the same at the new offsets.
* `VariableUsage.ofNodes_relocate`: so are the variables that are met in the program.
* `RelocatesTo.rawIssues`: so are the findings of the rules.
-/

namespace ScriptLint

open List Text DirectiveTable

open Piece

section Definitions

variable (f : Nat → Nat)

/-- The position at its new offset. -/
def Position.relocate (p : Position) : Position :=
  ⟨p.line, p.column, f p.offset⟩

/-- The span at its new offsets. -/
def Span.relocate (s : Span) : Span :=
  ⟨s.start.relocate f, s.stop.relocate f⟩

/-- The fix at its new offsets. -/
def Fix.relocate (fix : Fix) : Fix :=
  ⟨f fix.start, f fix.stop, fix.replacement⟩

/-- The finding at its new offsets. -/
def Finding.relocate (finding : Finding) : Finding :=
  ⟨finding.message, finding.span.relocate f, finding.fix.map (Fix.relocate f)⟩

/-- The issue at its new offsets. -/
def Issue.relocate (issue : Issue) : Issue :=
  { issue with span := issue.span.relocate f, fix := issue.fix.map (Fix.relocate f) }

/-- The diagnostic at its new offsets. -/
def Diagnostic.relocate (d : Diagnostic) : Diagnostic :=
  ⟨d.fault, d.span.relocate f⟩

/-- The parts of a tree at their new offsets. -/
def Reshape.relocated : Reshape where
  span := Span.relocate f

end Definitions

section Places

variable {f : Nat → Nat}

theorem Span.between_relocate (hf : StrictMono f) (p q : Position) :
    Span.between (p.relocate f) (q.relocate f) = (Span.between p q).relocate f := by
  have horder : (q.relocate f).offset < (p.relocate f).offset ↔ q.offset < p.offset :=
    hf.lt_iff_lt
  unfold Span.between
  by_cases hlt : q.offset < p.offset
  · rw [if_pos hlt, if_pos (horder.2 hlt)]
    rfl
  · rw [if_neg hlt, if_neg (hlt ∘ horder.1)]
    rfl

/-- Places at old and new offsets. -/
def relocation (hf : StrictMono f) : Moving where
  near p p' := p' = p.relocate f
  span := Span.relocate f
  span' := id
  keyword := id
  near_stop := by
    rintro p _ q _ - rfl rfl
    rw [Span.between_relocate hf]
    rfl
  span_eq := by
    rintro ⟨start, stop⟩ ⟨_, _⟩ rfl rfl
    rfl
  between_eq := by
    rintro p _ q _ rfl rfl
    exact (Span.between_relocate hf p q).symm

end Places

section Lines

variable {f : Nat → Nat}

/-- A line keeps its text at its new offset, and what ends it ends there too. -/
structure LineMoves (f : Nat → Nat) (line line' : Position × Line) : Prop where
  start : line'.1 = line.1.relocate f
  content : line'.2.content = line.2.content
  ending : line'.2.ending = [] ↔ line.2.ending = []
  inline : OneLine line.2.content
  along : ∀ xs ys, line.2.content = xs ++ ys →
    f (line.1.offset + byteLength xs) = f line.1.offset + byteLength xs
  stop : f (line.1.offset + byteLength line.2.full) =
    f line.1.offset + byteLength line'.2.full

namespace LineMoves

variable {line line' : Position × Line}

theorem advance (h : LineMoves f line line') {xs ys : List Char}
    (hsplit : line.2.content = xs ++ ys) :
    line'.1.advance xs = (line.1.advance xs).relocate f := by
  rw [h.start]
  exact congrArg (Position.mk line.1.line (line.1.column + xs.length)) (h.along xs ys hsplit).symm

theorem placed (h : LineMoves f line line') (hf : StrictMono f) :
    (relocation hf).retelling.Placed 0 line line' := by
  obtain ⟨p, ln⟩ := line
  obtain ⟨p', ln'⟩ := line'
  refine Moving.placed_same h.content h.inline (fun xs ys hsplit => h.advance hsplit) ?_
    (fun k _ => rfl) h.ending
  have hcontent : p'.advance ln.content = (p.advance ln.content).relocate f :=
    h.advance (append_nil ln.content).symm
  unfold endingStop
  by_cases hending : ln.ending = []
  · rw [if_pos hending, if_pos (h.ending.2 hending)]
    exact hcontent
  · rw [if_neg hending, if_neg (hending ∘ h.ending.1), hcontent]
    have hstop := h.stop
    have halong := h.along ln.content [] (append_nil _).symm
    have hsame : ln'.content = ln.content := h.content
    rw [Line.full, Line.full] at hstop
    rw [hsame, byteLength_append, byteLength_append] at hstop
    refine congrArg (Position.mk p.line (p.column + ln.content.length + 1)) ?_
    show f (p.offset + byteLength ln.content) + byteLength ln'.ending =
      f (p.offset + byteLength ln.content + byteLength ln.ending)
    rw [halong, Nat.add_assoc p.offset, hstop, Nat.add_assoc]

end LineMoves

variable {source source' : String}

/-- **A source at other offsets** has the same program, at the new offsets, and the same faults. -/
theorem parse_relocated (hf : StrictMono f)
    (hfirst : firstLine source' = (firstLine source).relocate f)
    (hlines : Forall₂ (LineMoves f) (linesOf source) (linesOf source')) :
    (parse source').program.body =
      Statement.reshapeList (.relocated f) (parse source).program.body ∧
    (parse source').diagnostics = (parse source).diagnostics.map (Diagnostic.relocate f) := by
  have hstart : (relocation hf).near (Cursor.ofSource source).lastEnd
      (Cursor.ofSource source').lastEnd := by
    rw [lastEnd_ofSource, lastEnd_ofSource]
    have hlast := pairwise_ending_lines (withoutMark source.toList)
    have hlast' := pairwise_ending_lines (withoutMark source'.toList)
    unfold linesOf at hlines
    generalize lines (withoutMark source.toList) = ls at *
    generalize lines (withoutMark source'.toList) = ls' at *
    cases ls with
    | nil =>
      cases ls' with
      | nil => exact hfirst
      | cons => cases hlines
    | cons line ls =>
      cases ls' with
      | nil => cases hlines
      | cons line' ls' =>
        have hline := (forall₂_cons.1 hlines).1
        have hcontent : line'.content = line.content := hline.content
        rw [lead_ofLines_cons (eq_nil_of_ending_eq_nil hlast),
          lead_ofLines_cons (eq_nil_of_ending_eq_nil hlast'), hcontent]
        obtain ⟨rest, hrest⟩ := lead_isPrefixOf (ofLineContent [] line.content)
        rw [join_ofLineContent] at hrest
        exact hline.advance hrest
  obtain ⟨hbody, hdiagnostics⟩ := (relocation hf).parse_moved
    (hlines.imp fun _ _ h => h.placed hf) hstart
  constructor
  · exact (Statement.reshapeList_same _).symm.trans hbody.symm
  · rw [← forall₂_eq_eq_eq, forall₂_map_right_iff]
    refine (Forall₂.flip hdiagnostics).imp fun d' d h => ?_
    obtain ⟨hfaults, hspan⟩ := h.full rfl
    have hfault : d'.fault = d.fault := hfaults.eq fun hk => hk.symm
    obtain ⟨fault', span'⟩ := d'
    obtain rfl : fault' = d.fault := hfault
    exact congrArg (Diagnostic.mk d.fault) hspan.symm

end Lines

section Variables

variable (f : Nat → Nat)

/-- The variables at their new offsets. -/
def VariableUsage.relocate (usage : VariableUsage) : VariableUsage :=
  ⟨usage.definitions.map (Prod.map id (Span.relocate f)),
    usage.reads.map (Prod.map id (Span.relocate f)), usage.notReads.map f⟩

namespace VariableUsage

variable (usage : VariableUsage)

theorem isDefined_relocate (name : String) :
    (usage.relocate f).isDefined name = usage.isDefined name := by
  simp [isDefined, relocate, Function.comp_def]

theorem isRead_relocate (name : String) : (usage.relocate f).isRead name = usage.isRead name := by
  simp [isRead, relocate, Function.comp_def]

theorem define_relocate (e : Expression) :
    (usage.relocate f).define (e.reshape (.relocated f)) = (usage.define e).relocate f := by
  cases e with
  | identifier name span =>
    have hexclude : (usage.relocate f).exclude (span.relocate f).start.offset =
        (usage.exclude span.start.offset).relocate f := rfl
    show
      (if ((usage.relocate f).exclude (span.relocate f).start.offset).isDefined name
        then _ else _) =
      VariableUsage.relocate f
        (if (usage.exclude span.start.offset).isDefined name then _ else _)
    rw [hexclude, isDefined_relocate]
    split <;> rfl
  | _ => rfl

variable {f} (hf : Function.Injective f)

include hf

theorem read_relocate (name : String) (span : Span) :
    (usage.relocate f).read name (span.relocate f) = (usage.read name span).relocate f := by
  have hcontains : (usage.notReads.map f).contains (f span.start.offset) =
      usage.notReads.contains span.start.offset := by
    rw [Bool.eq_iff_iff, contains_iff_mem, contains_iff_mem, mem_map_of_injective hf]
  show (if (usage.notReads.map f).contains (f span.start.offset) then _ else _) =
    VariableUsage.relocate f (if usage.notReads.contains span.start.offset then _ else _)
  rw [hcontains]
  split <;> rfl

theorem recordExpression_relocate (e : Expression) :
    (usage.relocate f).recordExpression (e.reshape (.relocated f)) =
      (usage.recordExpression e).relocate f := by
  cases e with
  | binary op left right span =>
    cases op with
    | assign => exact define_relocate f usage left
    | _ => rfl
  | call callee arguments span => cases callee <;> rfl
  | identifier name span => exact read_relocate usage hf name span
  | _ => rfl

omit hf in
theorem recordHeader_relocate (header : Header) :
    (usage.relocate f).recordHeader (header.reshape (.relocated f)) =
      (usage.recordHeader header).relocate f := by
  unfold recordHeader
  have hdefines : definesArgument (header.reshape (.relocated f)) = definesArgument header := rfl
  rw [hdefines]
  split
  · obtain ⟨name, span, argument⟩ := header
    cases argument with
    | none => rfl
    | some argument =>
      cases argument with
      | expression e => exact define_relocate f usage e
      | _ => rfl
  · rfl

omit hf in
theorem foldl_define_relocate (names : List Expression) :
    (names.map (Expression.reshape (.relocated f))).foldl define (usage.relocate f) =
      (names.foldl define usage).relocate f := by
  induction names generalizing usage with
  | nil => rfl
  | cons e names ih => rw [map_cons, foldl_cons, foldl_cons, define_relocate, ih]

/-- What a node says about variables, at the new offsets. -/
theorem record_relocate (node : Node) :
    (usage.relocate f).record (node.reshape (.relocated f)) = (usage.record node).relocate f := by
  cases node with
  | statement s =>
    cases s with
    | keyword header subs body span => exact recordHeader_relocate usage header
    | _ => rfl
  | subKeyword s =>
    obtain ⟨header, body, span⟩ := s
    exact recordHeader_relocate usage header
  | argument a =>
    cases a with
    | loop names collection span => exact foldl_define_relocate usage names
    | _ => rfl
  | expression e => exact recordExpression_relocate usage hf e
  | _ => rfl

/-- **Variables at other offsets:** the same definitions and reads are met. -/
theorem ofNodes_relocate (nodes : List Node) :
    ofNodes (nodes.map (Node.reshape (.relocated f))) = (ofNodes nodes).relocate f := by
  have hfold : ∀ usage : VariableUsage,
      (nodes.map (Node.reshape (.relocated f))).foldl record (usage.relocate f) =
        (nodes.foldl record usage).relocate f := by
    induction nodes with
    | nil => exact fun _ => rfl
    | cons node nodes ih =>
      intro usage
      rw [map_cons, foldl_cons, foldl_cons, record_relocate usage hf, ih]
  exact hfold empty

end VariableUsage

end Variables

section Findings

open Rules

variable {f : Nat → Nat}

theorem checkHeader_relocate (header : Header) :
    ValidKeyword.checkHeader (header.reshape (.relocated f)) =
      (ValidKeyword.checkHeader header).map (Finding.relocate f) := by
  have hname : (header.reshape (.relocated f)).name = header.name := rfl
  have hspan : (header.reshape (.relocated f)).nameSpan = header.nameSpan.relocate f := rfl
  unfold ValidKeyword.checkHeader
  simp only [hname, hspan, apply_ite (Option.map (Finding.relocate f)),
    Option.map_none, Option.map_some]
  rfl

theorem validKeyword_relocate (nodes : List Node) :
    ValidKeyword.findings (nodes.map (Node.reshape (.relocated f))) =
      (ValidKeyword.findings nodes).map (Finding.relocate f) := by
  unfold ValidKeyword.findings
  rw [filterMap_map, map_filterMap]
  refine filterMap_congr fun node _ => ?_
  have hheader : (node.reshape (.relocated f)).header? = node.header?.map
      (Header.reshape (.relocated f)) := by
    cases node with
    | statement s => cases s <;> rfl
    | subKeyword s => cases s; rfl
    | _ => rfl
  rw [Function.comp_apply, hheader]
  cases node.header? with
  | none => rfl
  | some header => exact checkHeader_relocate header

theorem undefined_relocate (hf : Function.Injective f) (globals : List String)
    (directives : DirectiveTable) (nodes : List Node) :
    UndefinedVariables.findings globals directives (nodes.map (Node.reshape (.relocated f))) =
      (UndefinedVariables.findings globals directives nodes).map (Finding.relocate f) := by
  unfold UndefinedVariables.findings
  rw [VariableUsage.ofNodes_relocate hf]
  simp only [VariableUsage.isDefined_relocate]
  unfold VariableUsage.relocate
  rw [← map_reverse, filter_map, map_map, map_map]
  rfl

theorem unused_relocate (hf : Function.Injective f) (ignored : List String)
    (directives : DirectiveTable) (nodes : List Node) :
    UnusedVariables.findings ignored directives (nodes.map (Node.reshape (.relocated f))) =
      (UnusedVariables.findings ignored directives nodes).map (Finding.relocate f) := by
  unfold UnusedVariables.findings
  rw [VariableUsage.ofNodes_relocate hf]
  simp only [VariableUsage.isRead_relocate]
  unfold VariableUsage.relocate
  rw [← map_reverse, filter_map, map_map, map_map]
  rfl

/-- The bodies of markup stand on the same lines. -/
theorem lineRanges_relocate (nodes : List Node) :
    Markup.lineRanges (nodes.map (Node.reshape (.relocated f))) = Markup.lineRanges nodes := by
  have hspan : ∀ s : Statement, (s.reshape (.relocated f)).span = s.span.relocate f := by
    intro s
    cases s <;> rfl
  unfold Markup.lineRanges
  rw [filterMap_map]
  refine filterMap_congr fun node _ => ?_
  cases node with
  | statement s =>
    cases s with
    | keyword header subs body span =>
      rw [Function.comp_apply, Node.reshape, Statement.reshape, Markup.bodyLines?,
        Markup.bodyLines?, Statement.reshapeList_eq_map, head?_map, getLast?_map]
      cases body.head? with
      | none => rfl
      | some first =>
        cases body.getLast? with
        | none => rfl
        | some last =>
          simp only [Option.map_some, hspan]
          rfl
    | _ => rfl
  | _ => rfl

end Findings

section Issues

open Rules

variable {f : Nat → Nat} {source source' : String}

/-- Two sources whose programs, faults, directives and ends of lines are the same at new offsets. -/
structure RelocatesTo (f : Nat → Nat) (source source' : String) : Prop where
  body : (parse source').program.body =
    Statement.reshapeList (.relocated f) (parse source).program.body
  diagnostics : (parse source').diagnostics = (parse source).diagnostics.map (Diagnostic.relocate f)
  directives : ofSource source' = ofSource source
  trailing : ∀ skipBlank, TrailingWhitespace.findings skipBlank source' =
    (TrailingWhitespace.findings skipBlank source).map (Finding.relocate f)

namespace RelocatesTo

theorem nodes (h : RelocatesTo f source source') :
    Statement.nodesOfList (parse source').program.body =
      (Statement.nodesOfList (parse source).program.body).map (Node.reshape (.relocated f)) := by
  rw [h.body, Statement.nodesOfList_reshape]

theorem lineRanges (h : RelocatesTo f source source') :
    Markup.lineRanges (parse source').program.nodes =
      Markup.lineRanges (parse source).program.nodes := by
  show Markup.lineRanges (Statement.nodesOfList _) = Markup.lineRanges (Statement.nodesOfList _)
  rw [h.nodes, lineRanges_relocate]

/-- A rule of the program finds the same at the new offsets. -/
theorem check (h : RelocatesTo f source source') (hf : Function.Injective f)
    {rule : Rule} (hrule : rule.IsBuiltIn) (path : String) (severity : Severity) :
    rule.check ⟨path, source', severity, ofSource source'⟩
      (parse source').program.nodes =
      (rule.check ⟨path, source, severity, ofSource source⟩
        (parse source).program.nodes).map (Finding.relocate f) := by
  rw [h.directives]
  cases hrule with
  | keyword =>
    show ValidKeyword.findings (Statement.nodesOfList _) =
        (ValidKeyword.findings (Statement.nodesOfList _)).map _
    rw [h.nodes, validKeyword_relocate]
  | undefined =>
    show UndefinedVariables.findings _ _ (Statement.nodesOfList _) =
      (UndefinedVariables.findings _ _ (Statement.nodesOfList _)).map _
    rw [h.nodes, undefined_relocate hf]
  | unused =>
    show UnusedVariables.findings _ _ (Statement.nodesOfList _) =
      (UnusedVariables.findings _ _ (Statement.nodesOfList _)).map _
    rw [h.nodes, unused_relocate hf]
  | trailing skipBlank => exact h.trailing skipBlank

/-- **Issues at other offsets:** all issues are the same, before any is dropped. -/
theorem rawIssues (h : RelocatesTo f source source') (hf : Function.Injective f) (preset : Preset)
    (config : Config) (path : String) :
    Linter.rawIssues ⟨preset.configuredRules config, config⟩ path source' (parse source')
        (ofSource source') =
      (Linter.rawIssues ⟨preset.configuredRules config, config⟩ path source (parse source)
        (ofSource source)).map (Issue.relocate f) := by
  unfold Linter.rawIssues
  rw [map_append, map_flatMap]
  congr 1
  · refine flatMap_congr fun rule hrule => ?_
    unfold Linter.ruleIssues Rule.issues
    dsimp only
    split
    · rw [h.check hf (isBuiltIn_of_mem_configuredRules rule hrule), map_map, map_map]
      rfl
    · rfl
  · unfold Linter.syntaxIssues
    rw [h.diagnostics]
    split
    · rw [map_map, map_map]
      rfl
    · rfl

/-- **A report at other offsets:** it is the same, if the same issues are kept in markup. -/
theorem lint (h : RelocatesTo f source source') (hf : Function.Injective f) {preset : Preset}
    {config : Config} {path : String}
    (hkeeps : ∀ issue, Markup.keeps source'.toList (Markup.lineRanges (parse source).program.nodes)
      (issue.relocate f) =
      Markup.keeps source.toList (Markup.lineRanges (parse source).program.nodes) issue) :
    (Linter.lint ⟨preset.configuredRules config, config⟩ path source').issues =
      (Linter.lint ⟨preset.configuredRules config, config⟩ path source).issues.map
        (Issue.relocate f) := by
  have hsort : ∀ issues : List Issue, (issues.map (Issue.relocate f)).mergeSort Report.comesBefore =
      (issues.mergeSort Report.comesBefore).map (Issue.relocate f) := by
    intro issues
    refine Eq.symm (map_mergeSort ?_)
    intro a _ b _
    rfl
  unfold Linter.lint Report.ofIssues
  dsimp only
  rw [h.rawIssues hf, h.lineRanges, h.directives, filter_map, hsort]
  congr 2
  refine filter_congr fun issue _ => ?_
  rw [Function.comp_apply, hkeeps]
  rfl

end RelocatesTo

open TrailingWhitespace in
theorem endFinding?_relocate {line line' : Position × Line} (h : LineMoves f line line')
    {lead lead' : List Char} (hblank : isBlankRest (lead' ++ trimmed line.2.content) =
      isBlankRest (lead ++ trimmed line.2.content)) (skipBlank : Bool) :
    endFinding? skipBlank lead' line'.1 line'.2.content =
      (endFinding? skipBlank lead line.1 line.2.content).map (Finding.relocate f) := by
  obtain ⟨ws, hcontent, -⟩ := exists_eq_trimmed_append line.2.content
  unfold endFinding?
  dsimp only
  rw [h.content, hblank, h.advance hcontent, h.advance (append_nil _).symm]
  split <;> rfl

theorem applyLines_congr {ls ls' : List Line} {n : Nat} {state : DirectiveTable × OpenRegions}
    (h : Forall₂ (fun line line' => line'.content = line.content) ls ls') :
    applyLines n state ls' = applyLines n state ls := by
  induction h generalizing n state with
  | nil => rfl
  | cons hcontent _ ih =>
    rw [applyLines, applyLines, hcontent]
    split
    · exact ih
    · exact ih

open TrailingWhitespace in
/-- Sources whose lines are the same at new offsets. -/
theorem relocatesTo_of_lines (hf : StrictMono f)
    (hfirst : firstLine source' = (firstLine source).relocate f)
    (hlines : Forall₂ (LineMoves f) (linesOf source) (linesOf source'))
    (hblank : ∀ line ∈ linesOf source, line.1.line = 1 →
      isBlankRest (markOf source' ++ trimmed line.2.content) =
        isBlankRest (markOf source ++ trimmed line.2.content)) : RelocatesTo f source source' := by
  obtain ⟨hbody, hdiagnostics⟩ := parse_relocated hf hfirst hlines
  refine ⟨hbody, hdiagnostics, ?_, fun skipBlank => ?_⟩
  · have hcontents : Forall₂ (fun line line' : Line => line'.content = line.content)
        ((linesOf source).map Prod.snd) ((linesOf source').map Prod.snd) := by
      rw [forall₂_map_left_iff, forall₂_map_right_iff]
      exact hlines.imp fun _ _ h => h.content
    unfold linesOf at hcontents
    rw [map_snd_placedLines, map_snd_placedLines] at hcontents
    unfold DirectiveTable.ofSource
    rw [applyLines_congr hcontents]
  · rw [trailing_findings_eq, trailing_findings_eq, map_filterMap]
    generalize linesOf source = ls at *
    generalize linesOf source' = ls' at *
    induction hlines with
    | nil => rfl
    | @cons line line' ls ls' head _ ih =>
      obtain ⟨hline, hrest⟩ := forall_mem_cons.1 hblank
      rw [filterMap_cons, filterMap_cons, ih hrest]
      have hnumber : line'.1.line = line.1.line := by
        rw [head.start]
        rfl
      have hsame : isBlankRest
          ((if line.1.line = 1 then markOf source' else []) ++ trimmed line.2.content) =
          isBlankRest ((if line.1.line = 1 then markOf source else []) ++
            trimmed line.2.content) := by
        by_cases hone : line.1.line = 1
        · rw [if_pos hone, if_pos hone]
          exact hline hone
        · rw [if_neg hone, if_neg hone]
      rw [hnumber, endFinding?_relocate head hsame]

end Issues

end ScriptLint

import ScriptLint.Proofs.ExpressionReads

/-!
# Lines are read from the supply

What fills one line of a program is a comment, an expression, a text or the header of a keyword.
Its parser stays within the line, and every node it gives names only spans of the supply.  All but
the comment stop where the line ends, whatever stands on the line.

**Results.**
* `LineReading.runs_expressionLine`, `LineReading.runs_textContent`, `LineReading.runs_header`: what
  is known of expressions, said of lines.
* `reads_comment`, `runs_expressionLine`, `runs_textContent`, `reads_header`: one for each kind of
  line.
* `endsLine_expressionLine`, `endsLine_textContent`, `endsLine_header`: where they stop.
-/

namespace ScriptLint

open List

variable {content : TextContent} {span : Span} {body : List Statement} {c : Cursor} {S : Supply}

/-- The run, or all nodes of the expression, are of the supply. -/
def TextPart.IsSupplied (S : Supply) : TextPart → Prop
  | run text span => S.HasRun (text, span)
  | interpolation e => e.IsSupplied S

/-- The text and all its parts are of the supply. -/
structure TextContent.IsSupplied (S : Supply) (content : TextContent) : Prop where
  span : S.span content.span
  parts : ∀ part ∈ content.parts, part.IsSupplied S

/-- All nodes of the argument are of the supply. -/
def Argument.IsSupplied (S : Supply) (argument : Argument) : Prop :=
  ∀ node ∈ argument.nodes, node.IsSupplied S

/-- The name of the header and its argument are of the supply. -/
structure Header.IsSupplied (S : Supply) (header : Header) : Prop where
  name : S.span header.nameSpan
  argument : ∀ argument, header.argument = some argument → argument.IsSupplied S

/-- All nodes of the statement are of the supply. -/
def Statement.IsSupplied (S : Supply) (s : Statement) : Prop :=
  ∀ node ∈ s.nodes, node.IsSupplied S

/-- All nodes of the sub-keyword are of the supply. -/
def SubKeyword.IsSupplied (S : Supply) (s : SubKeyword) : Prop :=
  ∀ node ∈ s.nodes, node.IsSupplied S

theorem TextContent.IsSupplied.cut (h : content.IsSupplied S) :
    ∀ run ∈ content.passages, S.HasRun run := by
  intro run hrun
  obtain ⟨part, hpart, hrun⟩ := mem_filterMap.1 hrun
  have hsupplied := h.parts part hpart
  cases part with
  | run text place =>
    cases hrun
    exact hsupplied
  | interpolation e => cases hrun

theorem TextContent.IsSupplied.inner (h : content.IsSupplied S) :
    ∀ node ∈ content.parts.flatMap TextPart.nodes, node.IsSupplied S := by
  intro node hnode
  obtain ⟨part, hpart, hnode⟩ := mem_flatMap.1 hnode
  have hsupplied := h.parts part hpart
  cases part with
  | run text place => cases hnode
  | interpolation e => exact hsupplied node hnode

theorem TextContent.IsSupplied.nodes (h : content.IsSupplied S) :
    ∀ node ∈ content.nodes, node.IsSupplied S := by
  refine forall_mem_cons.2 ⟨?_, h.inner⟩
  exact ⟨h.span, h.cut⟩

theorem Argument.isSupplied_text (h : content.IsSupplied S) :
    (Argument.text content).IsSupplied S := by
  refine forall_mem_cons.2 ⟨?_, h.nodes⟩
  exact ⟨h.span, trivial⟩

theorem Argument.isSupplied_expression {e : Expression} (h : e.IsSupplied S) :
    (Argument.expression e).IsSupplied S := by
  refine forall_mem_cons.2 ⟨?_, h⟩
  exact ⟨h.span, trivial⟩

theorem Argument.isSupplied_loop {names : List Expression} {collection : Expression}
    (hspan : S.span span) (hnames : ∀ e ∈ names, e.IsSupplied S)
    (hcollection : collection.IsSupplied S) :
    (Argument.loop names collection span).IsSupplied S := by
  have hvariables : ∀ node ∈ names.flatMap Expression.nodes, node.IsSupplied S :=
    forall_mem_flatMap.2 hnames
  refine forall_mem_cons.2 ⟨?_, forall_mem_append.2 ⟨hvariables, hcollection⟩⟩
  exact ⟨hspan, trivial⟩

theorem Header.IsSupplied.nodes {header : Header} (h : header.IsSupplied S) :
    ∀ node ∈ header.nodes, node.IsSupplied S := by
  intro node hnode
  unfold Header.nodes at hnode
  split at hnode
  · cases hnode
  · next argument hargument => exact h.argument argument hargument node hnode

theorem Statement.nodesOfList_eq_flatMap (body : List Statement) :
    nodesOfList body = body.flatMap nodes := by
  induction body with
  | nil => rfl
  | cons s body ih => rw [nodesOfList, ih, flatMap_cons]

theorem SubKeyword.nodesOfList_eq_flatMap (subKeywords : List SubKeyword) :
    nodesOfList subKeywords = subKeywords.flatMap nodes := by
  induction subKeywords with
  | nil => rfl
  | cons s subKeywords ih => rw [nodesOfList, ih, flatMap_cons]

theorem Statement.isSupplied_of_mem_nodesOfList
    (h : ∀ s ∈ body, s.IsSupplied S) : ∀ node ∈ nodesOfList body, node.IsSupplied S := by
  rw [nodesOfList_eq_flatMap]
  exact forall_mem_flatMap.2 h

theorem Statement.isSupplied_keyword {header : Header} {subKeywords : List SubKeyword}
    (hspan : S.span span) (hheader : header.IsSupplied S)
    (hsub : ∀ s ∈ subKeywords, s.IsSupplied S) (hbody : ∀ s ∈ body, s.IsSupplied S) :
    (keyword header subKeywords body span).IsSupplied S := by
  have hsubKeywords : ∀ node ∈ SubKeyword.nodesOfList subKeywords, node.IsSupplied S := by
    rw [SubKeyword.nodesOfList_eq_flatMap]
    exact forall_mem_flatMap.2 hsub
  have hinner := forall_mem_append.2
    ⟨forall_mem_append.2 ⟨hheader.nodes, hsubKeywords⟩, isSupplied_of_mem_nodesOfList hbody⟩
  refine forall_mem_cons.2 ⟨?_, hinner⟩
  exact ⟨hspan, hheader.name⟩

theorem SubKeyword.isSupplied_mk {header : Header}
    (hspan : S.span span) (hheader : header.IsSupplied S) (hbody : ∀ s ∈ body, s.IsSupplied S) :
    (mk header body span).IsSupplied S := by
  have hinner := forall_mem_append.2
    ⟨hheader.nodes, Statement.isSupplied_of_mem_nodesOfList hbody⟩
  refine forall_mem_cons.2 ⟨?_, hinner⟩
  exact ⟨hspan, hheader.name⟩

theorem Statement.isSupplied_expression {e : Expression} (hspan : S.span span)
    (h : e.IsSupplied S) : (Statement.expression e span).IsSupplied S := by
  refine forall_mem_cons.2 ⟨?_, h⟩
  exact ⟨hspan, trivial⟩

theorem Statement.isSupplied_text (h : content.IsSupplied S) : (text content).IsSupplied S := by
  refine forall_mem_cons.2 ⟨?_, h.inner⟩
  exact ⟨h.span, h.cut⟩

theorem Statement.isSupplied_comment {text : String} (hspan : S.span span) :
    (comment text span).IsSupplied S := by
  refine forall_mem_singleton.2 ?_
  exact ⟨hspan, trivial⟩

theorem Statement.isSupplied_answer {label : TextContent}
    (hspan : S.span span) (hlabel : label.IsSupplied S) (hbody : ∀ s ∈ body, s.IsSupplied S) :
    (answer label body span).IsSupplied S := by
  have hinner := forall_mem_append.2 ⟨hlabel.nodes, isSupplied_of_mem_nodesOfList hbody⟩
  refine forall_mem_cons.2 ⟨?_, hinner⟩
  exact ⟨hspan, trivial⟩

namespace Cursor

/-- The cursor at the start of what is read again as an expression: the rest of the line. -/
def argument (c : Cursor) : Cursor :=
  let tokens := c.before Token.Kind.isStructural
  let raw := String.ofList (Parser.sourceOf c.current.span.start.offset tokens)
  start (tokenizeExpression raw c.current.span.start) (tokens.getLastD c.current).span.stop

theorem before_isStructural (h : c.AtContent) :
    c.before Token.Kind.isStructural = c.current :: c.advance.before Token.Kind.isStructural := by
  unfold before
  rw [rest_eq_cons h, takeWhile_cons_of_pos (by simp [h])]

end Cursor

namespace Parser

/-- The parser of an argument that is an expression, or the header of a loop. -/
def rereading (levels : Nat) (isLoop : Bool) : Parser Argument :=
  if isLoop then do
    let (names, collection, span) ← loopHeader (expression levels .condition)
    return .loop names collection span
  else do
    let e ← standalone (expression levels .condition)
    return .expression e

open Token

variable {d : Cursor}

/-- The second cursor is further on in the line, and no report between them says that the nesting is
too deep. -/
structure Gap (S : Supply) (c d : Cursor) : Prop extends Stretch S c d where
  tooDeep : d.tooDeep ≤ c.tooDeep

namespace Gap

variable {e : Cursor}

theorem silent (h : Stretch S c d) (hsame : d.diagnostics = c.diagnostics) : Gap S c d :=
  ⟨h, Nat.le_of_eq (congrArg (countP _) hsame)⟩

theorem refl (h : c.SuppliedLine S) : Gap S c c :=
  .silent (.refl h) rfl

theorem trans (h : Gap S c d) (h' : Gap S d e) : Gap S c e :=
  ⟨h.toStretch.trans h'.toStretch, h'.tooDeep.trans h.tooDeep⟩

theorem advance (h : Stretch S c c.advance) : Gap S c c.advance :=
  .silent h c.diagnostics_advance

theorem report {fault : Fault} (h : Stretch S c (c.report fault span))
    (hfault : (fault == .nestedTooDeeply) = false) : Gap S c (c.report fault span) :=
  ⟨h, Nat.le_of_eq (countP_cons_of_neg (by simp [hfault]))⟩

end Gap

theorem runs_skipKind {kind : Kind} (hkind : kind.isStructural = false) :
    Runs S (fun d _ => Gap S c d) c (skipKind kind c) := by
  refine .intro fun hc => .test rfl ?_
  split
  · next heq => exact .next (.of_kind (eq_of_beq heq) hkind) fun hlead => .pure (.advance hlead)
  · exact .pure (.refl hc)

theorem runs_expectEnd : Runs S (fun d _ => Gap S c d) c (expectEnd c) := by
  have hskip : ∀ d, Gap S c d → Runs S (fun g _ => Gap S c g) d (skipTo Kind.isStructural d) :=
    fun d hgap =>
    .skipTo (f := Pure.pure) (fun _ h => h) fun hlead => .pure (hgap.trans (.silent hlead rfl))
  refine .intro fun hc => .test rfl ?_
  split
  · exact .report (S.span_token hc.current) fun hlead => hskip _ (.report hlead rfl)
  · exact hskip c (.refl hc)

theorem runs_comment : Runs S (fun d s => Gap S c d ∧
    ∃ text, s = .comment text (Span.between c.current.span.start d.lastEnd)) c (comment c) := by
  refine .test rfl (.bind (runs_skipKind rfl) fun _ c' _ hgap => ?_)
  have htext : Runs S (fun d _ => Gap S c d) c' (commentText c') := by
    refine .test rfl ?_
    split
    · next heq =>
        exact .next (.of_kind (eq_of_beq heq) rfl) fun hlead => .pure (hgap.trans (.advance hlead))
    · exact .pure hgap
  exact .bind htext fun text d _ hgap => .test rfl (.pure ⟨hgap, text, rfl⟩)

theorem runs_closeInterpolation : Runs S (fun d _ => Gap S c d) c (closeInterpolation c) := by
  refine .test rfl ?_
  split
  · refine .reportHere fun hreport => .skipTo (fun kind hkind => ?_) fun hskip => ?_
    · simp [hkind]
    · have hgap := (Gap.report hreport rfl).trans (.silent hskip rfl)
      exact (runs_skipKind rfl).mono fun _ h => hgap.trans h
  · exact runs_skipKind rfl

theorem runs_headerName : Runs S (fun d r => S.span r.2.1 ∧ Gap S c d) c (headerName c) := by
  refine .intro fun hc => .test rfl ?_
  split
  · next hkind =>
    have hcontent : c.AtContent := by
      rcases (by simpa using hkind : c.current.kind = .keyword ∨ c.current.kind = .subKeyword) with
        h | h
      · exact .of_kind h rfl
      · exact .of_kind h rfl
    exact .next hcontent fun hlead => .pure ⟨S.span_token hc.current, .advance hlead⟩
  · have hspan := S.span_point (S.start_token hc.current)
    exact .report hspan fun hlead => .pure ⟨hspan, .report hlead rfl⟩

/-- An argument that is an expression is read again from its text. -/
theorem expressionArgument_eq_rereading {levels : Nat} (isLoop : Bool) (h : c.AtContent) :
    expressionArgument (expression levels) isLoop c =
      (some (rereading levels isLoop c.argument).1, { c.skipTo Kind.isStructural with
        diagnostics := (rereading levels isLoop c.argument).2.diagnostics ++ c.diagnostics }) := by
  have htake : (takeLine c).1 = c.current :: c.advance.before Kind.isStructural :=
    c.before_isStructural h
  unfold Cursor.argument
  rw [c.before_isStructural h, expressionArgument, run_bind, htake]
  cases isLoop with
  | true => rfl
  | false => rfl

/-- The text of the line can be read again from the supply. -/
theorem suppliedLine_argument [S.Rereads] (hc : c.SuppliedLine S)
    (h : c.AtContent) : c.argument.SuppliedLine S := by
  obtain ⟨htokens, hchain⟩ := takeLine_supplied hc
  unfold Cursor.argument
  rw [c.before_isStructural h] at htokens hchain ⊢
  obtain ⟨hargument, hnext⟩ := Supply.Rereads.argument htokens hchain
  have hlast : (c.current :: c.advance.before Kind.isStructural).getLastD c.current ∈
      c.current :: c.advance.before Kind.isStructural := by
    exact getLast_mem _
  exact (Cursor.supplied_start hargument hnext
    (S.start_stop_token (htokens _ hlast).1 (htokens _ hlast).2)).line

/-- A relation between two cursors and the expression that is read between them with a count of its
own. -/
structure LineReading (S : Supply) (l : Nat) where
  read : Cursor → Cursor → Expression → Prop
  earlier : ∀ {c c' d e}, Gap S c c' → read c' d e → read c d e
  later : ∀ {c d d' e}, read c d e → Gap S d d' → read c d' e
  null : ∀ {c d g fault span s}, Gap S c d → Gap S (d.report fault span) g →
    S.span s → read c g (.null s)
  identifier : ∀ {c}, c.SuppliedLine S → c.current.kind = .identifier →
    read c c.advance (.identifier c.current.text c.current.span)
  runs : ∀ {c} mode, c.operations = 0 → Runs S (read c) c (expression l mode c)

namespace LineReading

variable {l : Nat} (L : LineReading S l)

/-- A part of a text is read between the cursors. -/
def Part (c d : Cursor) : TextPart → Prop
  | .run text place => Gap S c d ∧ S.HasRun (text, place)
  | .interpolation e => L.read c d e

/-- A text is read between the cursors, part by part. -/
structure Content (c d : Cursor) (content : TextContent) : Prop where
  parts : Series (Gap S) L.Part c d content.parts
  span : content.span = Span.between c.current.span.start d.lastEnd

/-- The header of a loop is read between the cursors: its names, then its collection. -/
structure Loop (c d : Cursor) (names : List Expression) (collection : Expression) (span : Span) :
    Prop where
  names : ∃ c' d', Series (Gap S) L.read c c' names ∧ L.read c' d' collection ∧
    Stretch S c d' ∧ Gap S d' d ∧ span = Span.between c.current.span.start d'.lastEnd

/-- What is read again of an argument between the cursors. -/
def Given (c d : Cursor) : Argument → Prop
  | .text _ => False
  | .expression e => L.read c d e
  | .loop names collection place => L.Loop c d names collection place

/-- The argument that begins at the cursor is read up to the end of its line, as it stands or again
from its text. -/
inductive Takes (c : Cursor) : Cursor → Argument → Prop
  | text {d : Cursor} {content : TextContent} (hcontent : c.AtContent)
      (hend : d = (textContent (expression l) c).2) (hlead : Stretch S c d)
      (h : L.Content c d content) :
      Takes c d (.text content)
  | again {d : Cursor} {argument : Argument} (hcontent : c.AtContent)
      (hlead : Stretch S c.argument d) (h : L.Given c.argument d argument) :
      Takes c { c.skipTo Kind.isStructural with diagnostics :=
        d.diagnostics ++ c.diagnostics } argument

/-- The argument of a header, if it has one, is read between the cursors. -/
def Optional (c d : Cursor) : Option Argument → Prop
  | none => Gap S c d
  | some argument => ∃ c' d', Gap S c c' ∧ L.Takes c' d' argument ∧ Gap S d' d

/-- The header of a keyword is read between the cursors. -/
structure Head (c d : Cursor) (header : Header) : Prop where
  name : S.span header.nameSpan
  argument : L.Optional c d header.argument

theorem runs_standalone (mode : Mode) : Runs S (L.read c) c (standalone (expression l mode) c) := by
  refine .intro fun hc => .test rfl ?_
  have hspan := S.span_point (S.start_token hc.current)
  split
  · refine .report hspan fun _ => .skipTo (fun _ h => h) fun hskip => .pure ?_
    exact L.null (.refl hc) (.silent hskip rfl) hspan
  · refine .resetOperations fun hlead => .bind (L.runs mode rfl) fun e d _ he => ?_
    exact .bind runs_expectEnd fun _ g _ hgap =>
      .pure (L.earlier (.silent hlead rfl) (L.later he hgap))

theorem runs_expressionLine (hkind : c.AtContent) :
    Runs S (fun d s => ∃ e, s = .expression e (Span.between c.current.span.start e.span.stop) ∧
      L.read c.advance d e) c (expressionLine (expression l) c) :=
  .next hkind fun _ => .bind (L.runs_standalone .statement) fun e _ _ he => .pure ⟨e, rfl, he⟩

theorem runs_interpolation {opening : Span} (hopening : S.span opening)
    (hstop : S.start opening.stop) :
    Runs S (L.read c) c (interpolation (expression l) opening c) := by
  refine .intro fun hc => .test rfl ?_
  split
  · next hkind =>
    have hspan := S.span_between (S.start_span hopening) (S.stop_span (S.span_token hc.current))
    refine .next (.of_kind hkind rfl) fun hlead => ?_
    exact .report hspan fun hreport =>
      .pure (L.null (.advance hlead) (.refl hreport.supplied) hspan)
  split
  · refine .reportHere fun _ => .bind runs_closeInterpolation fun _ g _ hgap => .pure ?_
    exact L.null (.refl hc) hgap (S.span_point hstop)
  · refine .resetOperations fun hlead => .bind (L.runs .condition rfl) fun e d _ he => ?_
    refine .bind runs_closeInterpolation fun _ g _ hgap => .pure ?_
    exact L.earlier (.silent hlead rfl) (L.later he hgap)

theorem runs_textStep {parts : List TextPart} (h : Series (Gap S) L.Part c d parts) :
    Runs S (fun g r => Series (Gap S) L.Part c g r.1) d (textStep (expression l) parts d) := by
  refine .intro fun hd => .test rfl ?_
  have hspan := S.span_token hd.current
  split
  · exact .pure h
  next hline =>
  have hkind : d.AtContent := by simpa using hline
  refine .next hkind fun hlead => ?_
  have hgap := Gap.advance hlead
  split
  · refine .bind (L.runs_interpolation hspan (S.start_stop_token hd.current hkind))
      fun e g hlead' he => .pure ?_
    exact h.snoc (show L.Part d g (.interpolation e) from L.earlier hgap he) (.refl hlead'.supplied)
  · have hrun : ∀ g, Gap S d.advance g →
        Series (Gap S) L.Part c g (parts ++ [.run d.current.text d.current.span]) := fun g hgap' =>
      h.snoc (show L.Part d d.advance (.run _ d.current.span) from ⟨hgap,
        _, hd.current, hkind, rfl⟩) hgap'
    split
    · exact .report hspan fun hreport => .pure (hrun _ (.report hreport rfl))
    · exact .pure (hrun _ (.refl hlead.supplied))

theorem runs_textContent : Runs S (L.Content c) c (textContent (expression l) c) := by
  refine .intro fun hc =>
    .test rfl (.bind (runs_loop (I := Series (Gap S) L.Part c) (.nil (.refl hc))
    fun _ _ _ => L.runs_textStep) fun parts d _ hparts => ?_)
  exact .test rfl (.pure ⟨hparts, rfl⟩)

theorem runs_variableStep {names : List Expression} (h : Series (Gap S) L.read c d names) :
    Runs S (fun g r => Series (Gap S) L.read c g r.1 ∧ (r.2 = true → g.left < d.left)) d
      (variableStep names d) := by
  refine .intro fun hd => .test rfl ?_
  split
  · next hkind =>
    have hname := L.identifier hd hkind
    have hcontent : d.AtContent := .of_kind hkind rfl
    refine .next hcontent fun hlead => .test rfl ?_
    split
    · next hcomma =>
      refine .next (isStructural_of_isPunctuation hcomma) fun hlead' =>
        .pure ⟨h.snoc hname (.advance hlead'), fun _ => ?_⟩
      exact hlead'.line.left_le.trans_lt (Cursor.left_advance_lt hcontent)
    · exact .pure ⟨h.snoc hname (.refl hlead.supplied), nofun⟩
  · exact .reportHere fun hreport => .pure ⟨h.later (.report hreport rfl) .trans, nofun⟩

theorem runs_collection : Runs S (L.read c) c (collection (expression l .condition) c) := by
  refine .intro fun hc => .test rfl ?_
  split
  · next hin =>
    refine .next (isStructural_of_isOperator hin) fun hlead => .test rfl ?_
    split
    · refine .reportHere fun hreport => .test rfl (.pure ?_)
      exact L.null (.advance hlead) (.refl hreport.supplied) (S.span_point hlead.supplied.lastEnd)
    · refine .resetOperations fun hlead' => .bind (f := Pure.pure) (L.runs .condition rfl)
        fun e d _ he => .pure ?_
      exact L.earlier ((Gap.advance hlead).trans (.silent hlead' rfl)) he
  · refine .reportHere fun hreport => .test rfl (.pure ?_)
    exact L.null (.refl hc) (.refl hreport.supplied) (S.span_point (S.start_token hc.current))

theorem runs_loopHeader :
    Runs S (fun d r => L.Loop c d r.1 r.2.1 r.2.2) c (loopHeader (expression l .condition) c) := by
  refine .intro fun hc =>
    .test rfl (.bind (runs_loop (I := Series (Gap S) L.read c) (.nil (.refl hc))
    fun _ _ _ h => (L.runs_variableStep h).mono fun _ => And.left) fun names c' hlead hnames => ?_)
  refine .bind L.runs_collection fun e d' hlead' he =>
    .test rfl (.bind runs_expectEnd fun _ d _ hgap => .pure ?_)
  exact ⟨c', d', hnames, he, hlead.trans hlead', hgap, rfl⟩

theorem runs_rereading (isLoop : Bool) : Runs S (L.Given c) c (rereading l isLoop c) := by
  unfold rereading
  split
  · exact .bind L.runs_loopHeader fun r d _ hr => .pure hr
  · exact .bind (L.runs_standalone .condition) fun e d _ he => .pure he

theorem runs_expressionArgument [S.Rereads] (isLoop : Bool) (hcontent : c.AtContent) :
    Runs S (fun d r => ∃ argument, r = some argument ∧ L.Takes c d argument) c
      (expressionArgument (expression l) isLoop c) := by
  rw [expressionArgument_eq_rereading isLoop hcontent]
  intro hc
  have hstart := suppliedLine_argument hc hcontent
  obtain ⟨hvalue, hsupplied, hline⟩ := L.runs_rereading isLoop hstart
  have hstops : StopsAtLine Kind.isStructural := fun _ h => h
  have hskip := hc.skipTo hstops
  obtain ⟨hrest, -, hmarks, -⟩ := c.withinLine_skipTo (S := S) hstops
  obtain ⟨new, hnew, hspans⟩ := hline.reports
  have hnone : c.argument.diagnostics = [] := rfl
  refine ⟨⟨_, rfl, ?_⟩, { hskip with }, hrest, ⟨new, ?_, hspans⟩, hmarks, rfl⟩
  · exact .again hcontent ⟨hstart, hsupplied, hline⟩ hvalue
  · rw [hnew, hnone, append_nil]

theorem runs_headerArgument [S.Rereads] (name : String) (isSub : Bool) :
    Runs S (L.Optional c) c (headerArgument (expression l) name isSub c) := by
  refine .intro fun hc => .test rfl ?_
  split
  · next heq =>
    refine .next (.of_kind (eq_of_beq heq) rfl) fun hlead => .test rfl ?_
    split
    · exact .pure (Gap.advance hlead)
    next hline =>
    have hcontent : c.advance.AtContent := by simpa using hline
    split
    · refine (L.runs_expressionArgument _ hcontent).mono fun hlead' h => ?_
      obtain ⟨argument, hsome, htakes⟩ := h
      rw [hsome]
      exact ⟨_, _, .advance hlead, htakes, .refl hlead'.supplied⟩
    · have htext : Runs S
          (fun d content => d = (textContent (expression l) c.advance).2 ∧
            L.Content c.advance d content)
          c.advance (textContent (expression l) c.advance) := fun hc =>
        { L.runs_textContent hc with value := ⟨rfl, (L.runs_textContent hc).value⟩ }
      refine .bind htext fun content d hlead' h => .pure ?_
      exact ⟨_, _, .advance hlead, .text hcontent h.1 hlead' h.2, .refl hlead'.supplied⟩
  refine .test rfl ?_
  split
  · exact .pure (Gap.refl hc)
  · exact .reportHere fun hreport => .pure (Gap.report hreport rfl)

theorem runs_header [S.Rereads] : Runs S (L.Head c) c (header (expression l) c) := by
  refine .bind (runs_skipKind rfl) fun _ c' _ hstart => .bind runs_headerName ?_
  rintro ⟨name, nameSpan, isSub⟩ c'' _ ⟨hname, hgap⟩
  refine .bind (L.runs_headerArgument name isSub) fun argument d _ hargument =>
    .skipTo (fun _ h => h) fun hskip => ?_
  have hskip := Gap.silent hskip rfl
  refine .pure ⟨hname, ?_⟩
  cases argument with
  | none => exact ((hstart.trans hgap).trans hargument).trans hskip
  | some argument =>
    obtain ⟨s, t, hs, htakes, ht⟩ := hargument
    exact ⟨s, t, (hstart.trans hgap).trans hs, htakes, ht.trans hskip⟩

end LineReading

section OfSupply

variable (levels : Nat)

/-- The lines by the supply. -/
def LineReading.supplied (S : Supply) : LineReading S levels where
  read _ _ e := e.IsSupplied S
  earlier _ h := h
  later h _ := h
  null _ _ h := Expression.isSupplied_null h
  identifier hc hkind := Expression.isSupplied_identifier hc.current hkind
  runs mode _ := reads_expression levels mode _

theorem reads_comment : Reads S comment (Statement.IsSupplied S) := by
  refine fun c => runs_comment.mono fun hlead h => ?_
  exact Statement.isSupplied_comment hlead.span

theorem runs_expressionLine (hkind : c.AtContent) :
    Runs S (fun _ => Statement.IsSupplied S) c (expressionLine (expression levels) c) := by
  refine ((LineReading.supplied levels S).runs_expressionLine hkind).mono fun hlead h => ?_
  obtain ⟨e, hs, he⟩ := h
  rw [hs]
  exact Statement.isSupplied_expression
    (S.span_between (S.start_token hlead.source.current) (S.stop_span he.span)) he

theorem LineReading.Content.isSupplied (h : (LineReading.supplied levels S).Content c d content)
    (hlead : Stretch S c d) : content.IsSupplied S := by
  refine ⟨by rw [h.span]; exact hlead.span, h.parts.forall_mem fun c d part hpart => ?_⟩
  cases part with
  | run text place => exact hpart.2
  | interpolation e => exact hpart

theorem runs_textContent :
    Runs S (fun _ content => content.IsSupplied S ∧ content.span.start = c.current.span.start) c
    (textContent (expression levels) c) := by
  refine (LineReading.supplied levels S).runs_textContent.mono fun hlead h =>
    ⟨h.isSupplied levels hlead, ?_⟩
  rw [h.span, Span.start_between]

theorem LineReading.Given.isSupplied {argument : Argument}
    (h : (LineReading.supplied levels S).Given c d argument) :
    argument.IsSupplied S := by
  cases argument with
  | text content => exact h.elim
  | expression e => exact Argument.isSupplied_expression h
  | loop names collection place =>
    obtain ⟨c', d', hnames, hcollection, hread, -, rfl⟩ := h
    exact Argument.isSupplied_loop hread.span (hnames.forall_mem fun _ _ _ h => h) hcollection

theorem reads_header [S.Rereads] : Reads S (header (expression levels)) (Header.IsSupplied S) := by
  refine fun c => (LineReading.supplied levels S).runs_header.mono
    fun _ h => ⟨h.name, fun argument hargument => ?_⟩
  have hread := h.argument
  rw [hargument] at hread
  obtain ⟨c', d', -, htakes, -⟩ := hread
  cases htakes with
  | text _ _ hlead h => exact Argument.isSupplied_text (h.isSupplied levels hlead)
  | again _ _ h => exact h.isSupplied levels

end OfSupply

section Ends

variable {α β : Type}

/-- The parser stops where the layout of the next line begins. -/
def EndsLine (p : Parser α) : Prop :=
  ∀ c, (p c).2.current.kind.isStructural

theorem EndsLine.bind {p : Parser α} {f : α → Parser β} (h : ∀ a, EndsLine (f a)) :
    EndsLine (p >>= f) :=
  fun c => h (p c).1 (p c).2

theorem isStructural_current_skipTo (c : Cursor) :
    (c.skipTo Kind.isStructural).current.kind.isStructural :=
  Cursor.current_skipTo rfl c

theorem endsLine_standalone (p : Parser Expression) : EndsLine (standalone p) := by
  refine .bind fun t => ?_
  split
  · exact .bind fun _ c => isStructural_current_skipTo c
  · refine .bind fun _ => .bind fun e => ?_
    intro c
    show (expectEnd c).2.current.kind.isStructural
    refine EndsLine.bind (fun t => ?_) c
    split
    · exact .bind fun _ c => isStructural_current_skipTo c
    · exact isStructural_current_skipTo

theorem endsLine_expressionLine {expression : Mode → Parser Expression} :
    EndsLine (expressionLine expression) :=
  .bind fun _ c => endsLine_standalone (expression .statement) c

theorem endsLine_header {expression : Mode → Parser Expression} : EndsLine (header expression) :=
  .bind fun _ => .bind fun _ => .bind fun _ c => isStructural_current_skipTo c

theorem textStep_lineEnd {expression : Mode → Parser Expression} (parts : List TextPart)
    (h : c.current.kind.isStructural) : textStep expression parts c = ((parts, false), c) := by
  show (if c.current.kind.isStructural = true then _ else _ : Parser (List TextPart × Bool)) c = _
  rw [if_pos h]
  rfl

variable (levels : Nat)

/-- A step of a text inside the line reads its token and goes on. -/
theorem reached_textStep (parts : List TextPart) (h : c.AtContent) :
    Reached .anything c.advance (fun r => r.2 = true) (textStep (expression levels) parts c) := by
  show Reached .anything c.advance _
    ((if c.current.kind.isStructural = true then _ else _ : Parser (List TextPart × Bool)) c)
  rw [if_neg (by simp [h])]
  rw [run_bind]
  refine (?_ : Runs .anything (fun _ (r : List TextPart × Bool) => r.2 = true) c.advance _)
    c.advance.supplied_anything
  split
  · exact .bind ((LineReading.supplied levels .anything).runs_interpolation trivial trivial)
      fun e _ _ _ => .pure rfl
  · split
    · exact .report trivial fun _ => .pure rfl
    · exact .pure rfl

theorem proceeds_textStep : Proceeds (textStep (expression levels)) := by
  intro parts c hgo
  cases hline : c.current.kind.isStructural with
  | false =>
    exact (reached_textStep levels parts hline).line.left_le.trans_lt (Cursor.left_advance_lt hline)
  | true =>
    rw [textStep_lineEnd parts hline] at hgo
    cases hgo

theorem endsLine_textContent : EndsLine (textContent (expression levels)) := by
  intro c
  refine iterate_ends (I := fun _ _ => True) (E := fun _ d => d.current.kind.isStructural)
    (proceeds_textStep levels) (fun _ _ _ _ => trivial) (fun parts d _ hstop => ?_) trivial
  cases hline : d.current.kind.isStructural with
  | false =>
    rw [(reached_textStep levels parts hline).value] at hstop
    cases hstop
  | true =>
    rw [textStep_lineEnd parts hline]
    exact hline

end Ends

end Parser

end ScriptLint

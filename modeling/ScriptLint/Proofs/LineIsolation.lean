import ScriptLint.Proofs.MovedText
import ScriptLint.Proofs.TidiedSource

/-!
# An expression and the lines around it

What stands behind the mark of a line with an expression is read as that line's expression, whatever
it is: a bracket that is never closed, a stray brace, a comment.  The other lines of the source are
read as they would be if anything else stood there.

**Two sources.**  They have the same lines, but for one line with an expression in each of them,
under the same number. Away from that line one source is the other one, moved (`onLines`); on it
nothing is compared.  So lines are counted: a pair of lines weighs one if it is the pair that may
differ, and nothing otherwise.

**Results.**
* `Isolation.IsHole.reads`: whatever the line holds, one statement is read from it, and faults are
  reported on it only.
* `Isolation.pairing`: the lines of the two sources are paired.
* `expressionLine_isolated`: programs and messages are the same away from the line.
-/

namespace ScriptLint

open List Text

open Piece

variable {n : Nat} {p : Position}

/-- Of every place, only the line on which it starts is kept. -/
def Reshape.onLines : Reshape where
  span s := Span.point ⟨s.start.line, 1, 0⟩

section Forgetting

variable (line : Nat)

mutual

/-- The statement without the expressions on the line. -/
def Statement.forget : Statement → Statement
  | .keyword header subKeywords body span =>
    .keyword header (SubKeyword.forgetList subKeywords) (Statement.forgetList body) span
  | .expression e span => .expression (if span.start.line = line then .null span else e) span
  | .text content => .text content
  | .comment text span => .comment text span
  | .answer label body span => .answer label (Statement.forgetList body) span

/-- The statements without the expressions on the line. -/
def Statement.forgetList : List Statement → List Statement
  | [] => []
  | s :: body => s.forget :: Statement.forgetList body

/-- The sub-keyword without the expressions on the line. -/
def SubKeyword.forget : SubKeyword → SubKeyword
  | .mk header body span => .mk header (Statement.forgetList body) span

/-- The sub-keywords without the expressions on the line. -/
def SubKeyword.forgetList : List SubKeyword → List SubKeyword
  | [] => []
  | s :: subs => s.forget :: SubKeyword.forgetList subs

end

/-- The program without the expressions on the line. -/
def Program.forget (program : Program) : Program :=
  ⟨Statement.forgetList line program.body, program.span⟩

/-- The node is a statement that is an expression, and it starts on the line. -/
def Node.isExpressionOn : Node → Bool
  | .statement (.expression _ span) => span.start.line == line
  | _ => false

/-- What is said of the other lines: on which line each message stands, and the message. -/
def messagesOff (diagnostics : List Diagnostic) : List (Nat × String) :=
  (diagnostics.filter fun d => d.span.start.line ≠ line).map fun d => (d.span.start.line, d.message)

end Forgetting

theorem Reshape.span_onLines {p p' q q' : Position} (h : p'.line = p.line) :
    onLines.span (Span.between p q) = onLines.span (Span.between p' q') := by
  simp only [onLines, Span.start_between, h]

/-- Places on the same line. -/
def onLines : Moving where
  near p p' := p'.line = p.line
  span := Reshape.onLines.span
  span' := Reshape.onLines.span
  keyword := id
  near_stop := Span.line_stop_between
  span_eq hstart _ := congrArg (fun n => Span.point ⟨n, 1, 0⟩) hstart.symm
  between_eq hp _ := Reshape.span_onLines hp

namespace Isolation

section Counting

variable {line m : Nat} {xs xs' ys ys' : List Node}

/-- Among the nodes on either side, so many are statements with an expression on the line. -/
structure Counts (line n : Nat) (nodes nodes' : List Node) : Prop where
  left : nodes.countP (Node.isExpressionOn line) = n
  right : nodes'.countP (Node.isExpressionOn line) = n

theorem Counts.append (h : Counts line m xs xs') (h' : Counts line n ys ys') :
    Counts line (m + n) (xs ++ ys) (xs' ++ ys') := by
  constructor
  · rw [countP_append, h.left, h'.left]
  · rw [countP_append, h.right, h'.right]

theorem countP_of_isInner {nodes : List Node} (h : nodes.all Node.isInner) :
    nodes.countP (Node.isExpressionOn line) = 0 := by
  refine countP_eq_zero.2 fun node hnode => ?_
  have hinner := all_eq_true.1 h node hnode
  cases node with
  | program _ | statement _ | subKeyword _ => cases hinner
  | _ => simp [Node.isExpressionOn]

theorem counts_of_isInner (h : xs.all Node.isInner) (h' : xs'.all Node.isInner) :
    Counts line 0 xs xs' :=
  ⟨countP_of_isInner h, countP_of_isInner h'⟩

/-- A node that is no such statement does not count. -/
theorem Counts.cons {node node' : Node} (h : Counts line n xs xs')
    (hnode : node.isExpressionOn line = false) (hnode' : node'.isExpressionOn line = false) :
    Counts line n (node :: xs) (node' :: xs') := by
  constructor
  · rw [countP_cons_of_neg (by simp [hnode]), h.left]
  · rw [countP_cons_of_neg (by simp [hnode']), h.right]

/-- Statements agree away from the line, and so many expressions stand on it. -/
structure Statements (line n : Nat) (s s' : Statement) : Prop where
  same : (s.forget line).reshape .onLines = (s'.forget line).reshape .onLines
  counts : Counts line n s.nodes s'.nodes

/-- Sub-keywords agree away from the line, and so many expressions stand on it. -/
structure SubKeywords (line n : Nat) (s s' : SubKeyword) : Prop where
  same : (s.forget line).reshape .onLines = (s'.forget line).reshape .onLines
  counts : Counts line n s.nodes s'.nodes

theorem same_statements {body body' : List Statement} (h : Tally (Statements line) n body body') :
    Statement.reshapeList .onLines (Statement.forgetList line body) =
        Statement.reshapeList .onLines (Statement.forgetList line body') ∧
      Counts line n (Statement.nodesOfList body) (Statement.nodesOfList body') := by
  induction h with
  | nil => exact ⟨rfl, rfl, rfl⟩
  | cons head _ ih =>
    refine ⟨?_, head.counts.append ih.2⟩
    rw [Statement.forgetList, Statement.forgetList, Statement.reshapeList,
      Statement.reshapeList, head.same, ih.1]

theorem same_subKeywords {subs subs' : List SubKeyword}
    (h : Tally (SubKeywords line) n subs subs') :
    SubKeyword.reshapeList .onLines (SubKeyword.forgetList line subs) =
        SubKeyword.reshapeList .onLines (SubKeyword.forgetList line subs') ∧
      Counts line n (SubKeyword.nodesOfList subs) (SubKeyword.nodesOfList subs') := by
  induction h with
  | nil => exact ⟨rfl, rfl, rfl⟩
  | cons head _ ih =>
    refine ⟨?_, head.counts.append ih.2⟩
    rw [SubKeyword.forgetList, SubKeyword.forgetList, SubKeyword.reshapeList,
      SubKeyword.reshapeList, head.same, ih.1]

end Counting

section Messages

variable {line : Nat}

theorem messagesOff_append (ds es : List Diagnostic) :
    messagesOff line (ds ++ es) = messagesOff line ds ++ messagesOff line es := by
  simp [messagesOff]

theorem messagesOff_cons (d : Diagnostic) (ds : List Diagnostic) :
    messagesOff line (d :: ds) =
      if d.span.start.line = line then messagesOff line ds
      else (d.span.start.line, d.message) :: messagesOff line ds := by
  unfold messagesOff
  split
  · next h => rw [filter_cons_of_neg (by simp [h])]
  · next h => rw [filter_cons_of_pos (by simp [h]), map_cons]

theorem messagesOff_reverse (ds : List Diagnostic) :
    messagesOff line ds.reverse = (messagesOff line ds).reverse := by
  simp [messagesOff]

theorem messagesOff_of_line {ds : List Diagnostic} (h : ∀ d ∈ ds, d.span.start.line = line) :
    messagesOff line ds = [] := by
  rw [messagesOff, filter_eq_nil_iff.2, map_nil]
  exact fun d hd => by simp [h d hd]

theorem messagesOff_of_tally {ds ds' : List Diagnostic}
    (h : Tally onLines.retelling.Diagnostics 0 ds ds') :
    messagesOff line ds' = messagesOff line ds := by
  have hall := Moving.forall₂_of_tally_zero h rfl
  clear h
  induction hall with
  | nil => rfl
  | @cons d d' ds ds' head _ ih =>
    have hline : d'.span.start.line = d.span.start.line := head.start
    have hfault : d'.fault = d.fault := (head.full rfl).1.eq fun hk => hk.symm
    rw [messagesOff_cons, messagesOff_cons, Diagnostic.message, Diagnostic.message,
      hline, hfault, ih]

/-- What two cursors keep between lines: places on the same line, and the same messages on other
lines. -/
structure Records (line n : Nat) (s s' : Position × List Diagnostic) : Prop where
  weightless : n = 0
  lastEnd : s'.1.line = s.1.line
  others : messagesOff line s'.2 = messagesOff line s.2

theorem Records.of_adds {c c' d d' : Cursor} (h : Records line n c.record c'.record)
    (hadds : onLines.retelling.Adds 0 c c' d d') : Records line n d.record d'.record := by
  obtain ⟨new, new', hnew, hnew', htally⟩ := hadds.diagnostics
  refine ⟨h.weightless, hadds.lastEnd, ?_⟩
  show messagesOff line d'.diagnostics = messagesOff line d.diagnostics
  rw [hnew, hnew', messagesOff_append, messagesOff_append, messagesOff_of_tally htally]
  exact congrArg _ h.others

theorem Records.of_reports {c c' d d' : Cursor} (h : Records line n c.record c'.record)
    (hlast : d.lastEnd.line = line) (hlast' : d'.lastEnd.line = line) (hd : c.Reports line d)
    (hd' : c'.Reports line d') : Records line n d.record d'.record := by
  obtain ⟨new, hnew, hline⟩ := hd
  obtain ⟨new', hnew', hline'⟩ := hd'
  refine ⟨h.weightless, hlast'.trans hlast.symm, ?_⟩
  show messagesOff line d'.diagnostics = messagesOff line d.diagnostics
  rw [hnew, hnew', messagesOff_append, messagesOff_append, messagesOff_of_line hline,
    messagesOff_of_line hline']
  exact h.others

end Messages

section Hole

open ScriptLint.Parser

variable {line : Nat} {content : List Char} {r : Row} {c : Cursor}

/-- The content of the line with the number: a mark, and whatever stands behind it. -/
structure IsHole (line : Nat) (p : Position) (content : List Char) : Prop where
  number : p.line = line
  inline : OneLine content
  mark : ∃ e, content.dropWhile isGap = '>' :: '>' :: e

theorem IsHole.allBlank (h : IsHole line p content) : allBlank content = false := by
  obtain ⟨e, he⟩ := h.mark
  have hmem : '>' ∈ content :=
    (dropWhile_suffix isGap).subset (by rw [he]; exact mem_cons_self)
  refine Bool.eq_false_iff.2 fun hblank => ?_
  have hgt := all_eq_true.1 hblank '>' hmem
  revert hgt
  decide

theorem IsHole.first (h : IsHole line p content) (hr : r.Holds p content) :
    r.first.kind = .expressionStart ∧ r.first.span.start.line = line := by
  obtain ⟨e, he⟩ := h.mark
  have hplace := hr.place_body
  rw [he] at hplace
  rw [(cons.inj hplace).1]
  exact ⟨rfl, h.number⟩

/-- **Whatever the line holds**, a statement with an expression is read from it; what is reported
stands on the line, and there content ends. -/
theorem IsHole.reads (h : IsHole line p content) (hr : r.Holds p content)
    (levels : Nat) (hrest : c.rest = r.tokens) :
    (∃ e s, (expressionLine (expression levels) c).1 = .expression e s ∧ s.start.line = line) ∧
      (expressionLine (expression levels) c).2.lastEnd.line = line ∧
      c.Reports line (expressionLine (expression levels) c).2 := by
  have hread := @reached_expressionLine c r p content levels hr h.inline hrest
  have hspan := (hread.value _ mem_cons_self).span
  rw [← h.number]
  exact ⟨⟨_, _, rfl, hspan.start.line⟩, hread.supplied.lastEnd.line, hread.reports⟩

end Hole

section Pairing

open ScriptLint.Parser

variable (line : Nat)

/-- Two rows hold the same line at two places, which is not the line with the number, or both hold
that line. -/
def Rows (n : Nat) (r r' : Row) : Prop :=
  (n = 0 ∧ ∃ p ln p' ln', p.line ≠ line ∧ onLines.retelling.Rows 0 r r' p ln p' ln') ∨
  (n = 1 ∧ (∃ p content, IsHole line p content ∧ r.Holds p content) ∧
    ∃ p' content', IsHole line p' content' ∧ r'.Holds p' content')

variable {line}

theorem rows_alike {r r' : Row} (h : Rows line n r r') :
    r.Alike r' ∧ r'.first.span.start.line = r.first.span.start.line := by
  rcases h with ⟨-, p, ln, p', ln', -, hrows⟩ | ⟨-, ⟨p, content, hhole, hr⟩,
    p', content', hhole', hr'⟩
  · exact ⟨hrows.alike, hrows.first.2⟩
  · obtain ⟨hkind, hfirst⟩ := hhole.first hr
    obtain ⟨hkind', hfirst'⟩ := hhole'.first hr'
    refine ⟨⟨hr.fills, hr'.fills, hkind'.trans hkind.symm, fun hstart => ?_⟩,
      hfirst'.trans hfirst.symm⟩
    rw [hkind] at hstart
    cases hstart

/-- Rows that do not begin with the mark of an expression hold the same line. -/
theorem Rows.away {r r' : Row} (h : Rows line n r r') (hkind : r.first.kind ≠ .expressionStart) :
    n = 0 ∧ ∃ p ln p' ln', p.line ≠ line ∧ onLines.retelling.Rows 0 r r' p ln p' ln' := by
  rcases h with haway | ⟨-, ⟨p, content, hhole, hr⟩, -⟩
  · exact haway
  · exact absurd (hhole.first hr).1 hkind

/-- Away from the line, corresponding statements agree, and none of them stands on it. -/
theorem statements_of_single {p : Position} {s s' : Statement} (hp : p.line ≠ line)
    (h : (onLines.retelling.coupling p.line).Single 0 s s') : Statements line 0 s s' := by
  have hsame := (Retelling.statements_of_single h).full (Nat.zero_le _)
  cases s <;> cases s' <;> try exact h.elim
  · next e s e' s' =>
    have hspan : onLines.retelling.Spans p.line s s' := h.2
    have hline : s.start.line ≠ line := by rwa [hspan.line_start]
    have hline' : s'.start.line ≠ line := by
      have hnear : s'.start.line = s.start.line := hspan.start
      rwa [hnear]
    refine ⟨?_, .cons (counts_of_isInner e.isInner_nodes e'.isInner_nodes) ?_ ?_⟩
    · rw [Statement.forget, Statement.forget, if_neg hline, if_neg hline']
      exact hsame
    · simp [Node.isExpressionOn, hline]
    · simp [Node.isExpressionOn, hline']
  · exact ⟨hsame, rfl, rfl⟩

/-- On the line nothing of the expressions is compared. -/
theorem statements_hole {e e' : Expression} {s s' : Span} (hs : s.start.line = line)
    (hs' : s'.start.line = line) : Statements line 1 (.expression e s) (.expression e' s') := by
  refine ⟨?_, ?_, ?_⟩
  · rw [Statement.forget, Statement.forget, if_pos hs, if_pos hs', Statement.reshape,
      Statement.reshape]
    simp only [Expression.null, Expression.reshape, LiteralValue.reshape, LiteralValue.reshapeRaw,
      Reshape.onLines, hs, hs']
  · rw [Statement.nodes, countP_cons_of_pos (by simp [Node.isExpressionOn, hs]),
      countP_of_isInner e.isInner_nodes]
  · rw [Statement.nodes, countP_cons_of_pos (by simp [Node.isExpressionOn, hs']),
      countP_of_isInner e'.isInner_nodes]

variable (line) in
/-- The lines of two sources that differ in one expression only are paired. -/
def pairing : LinePairing Nat where
  left := .anything
  right := .anything
  line _ := Rows line
  record := Records line
  indent t t' := t'.span.start.line = t.span.start.line
  place p p' := p'.line = p.line
  header n h h' := n = 0 ∧ h.reshape .onLines = h'.reshape .onLines
  content n t t' := n = 0 ∧ t.reshape .onLines = t'.reshape .onLines ∧
    t'.span.start.line = t.span.start.line
  statement := Statements line
  subKeyword := SubKeywords line
  alike h := (rows_alike h).1
  start h := (rows_alike h).2
  lastEnd h := h.lastEnd
  stray := by
    intro n s s' t t' h hline
    refine ⟨h.weightless, h.lastEnd, ?_⟩
    rw [messagesOff_cons, messagesOff_cons, hline, h.others]
    rfl
  reads_header := by
    intro l g h r r' c c' hrows hrecord hrest hrest' hkind
    obtain ⟨rfl, p, ln, p', ln', -, hrows⟩ :=
      hrows.away (by rintro hmark; simp [hmark, IsHeaderStart] at hkind)
    obtain ⟨m, j, hpaid, hheader, hadds⟩ := hrows.header_told l hrest hrest' hkind
    obtain ⟨rfl, rfl⟩ : m = 0 ∧ j = 0 := by omega
    exact ⟨0, h, rfl, ⟨rfl, hheader.full (Nat.zero_le _)⟩, hrecord.of_adds hadds⟩
  reads_content := by
    intro l g h r r' c c' hrows hrecord hrest hrest' hkind
    obtain ⟨rfl, p, ln, p', ln', -, hrows⟩ := hrows.away hkind.not_expression
    obtain ⟨m, j, hpaid, hcontent, hadds⟩ := hrows.content_told l hrest hrest' hkind
    obtain ⟨rfl, rfl⟩ : m = 0 ∧ j = 0 := by omega
    exact ⟨0, h, rfl, ⟨rfl, hcontent.weighs.full (Nat.zero_le _), hcontent.start⟩,
      hrecord.of_adds hadds⟩
  reads_expression := by
    intro l g h r r' c c' hrows hrecord hrest hrest' hkind
    rcases hrows with ⟨rfl, p, ln, p', ln', hp, hrows⟩ |
      ⟨rfl, ⟨p, content, hhole, hr⟩, p', content', hhole', hr'⟩
    · obtain ⟨m, j, hpaid, hvalue, hadds⟩ := hrows.expression_told l hrest hrest' hkind
      obtain ⟨rfl, rfl⟩ : m = 0 ∧ j = 0 := by omega
      exact ⟨0, h, rfl, statements_of_single hp hvalue, hrecord.of_adds hadds⟩
    · obtain ⟨⟨e, s, hvalue, hline⟩, hlast, hreports⟩ := hhole.reads hr l hrest
      obtain ⟨⟨e', s', hvalue', hline'⟩, hlast', hreports'⟩ := hhole'.reads hr' l hrest'
      refine ⟨1, h, rfl, ?_, hrecord.of_reports hlast hlast' hreports hreports'⟩
      rw [hvalue, hvalue']
      exact statements_hole hline hline'
  reads_comment := by
    intro l g h r r' c c' hrows hrecord hrest hrest' hkind
    obtain ⟨rfl, p, ln, p', ln', hp, hrows⟩ := hrows.away (by rintro hmark; simp [hmark] at hkind)
    obtain ⟨m, j, hpaid, hvalue, hadds⟩ := hrows.comment_told hrest hrest' hkind
    obtain ⟨rfl, rfl⟩ : m = 0 ∧ j = 0 := by omega
    exact ⟨0, h, rfl, statements_of_single hp hvalue, hrecord.of_adds hadds⟩
  keyword := by
    rintro x y z h h' subs subs' body body' p p' q q' ⟨rfl, hheader⟩ hsubs hbody hp -
    obtain ⟨hsame, hcounts⟩ := same_subKeywords hsubs
    obtain ⟨hsame', hcounts'⟩ := same_statements hbody
    refine ⟨?_, .cons ?_ rfl rfl⟩
    · rw [Statement.forget, Statement.forget, Statement.reshape, Statement.reshape, hheader, hsame,
        hsame', Reshape.span_onLines hp.1]
    · rw [append_assoc, append_assoc]
      exact (counts_of_isInner h.isInner_nodes h'.isInner_nodes).append (hcounts.append hcounts')
  sub := by
    rintro x z h h' body body' p p' q q' ⟨rfl, hheader⟩ hbody hp -
    obtain ⟨hsame, hcounts⟩ := same_statements hbody
    refine ⟨?_, .cons ((counts_of_isInner h.isInner_nodes h'.isInner_nodes).append hcounts) rfl rfl⟩
    rw [SubKeyword.forget, SubKeyword.forget, SubKeyword.reshape, SubKeyword.reshape,
      hheader, hsame, Reshape.span_onLines hp.1]
  text := by
    rintro x t t' ⟨rfl, hsame, -⟩
    refine ⟨?_, .cons (counts_of_isInner t.isInner_parts t'.isInner_parts) rfl rfl⟩
    rw [Statement.forget, Statement.forget, Statement.reshape, Statement.reshape, hsame]
  answer := by
    rintro x z t t' body body' q q' ⟨rfl, hlabel, hstart⟩ - hbody hq
    obtain ⟨hsame, hcounts⟩ := same_statements hbody
    refine ⟨?_, .cons ((counts_of_isInner t.isInner_nodes t'.isInner_nodes).append hcounts) rfl rfl⟩
    rw [Statement.forget, Statement.forget, Statement.reshape, Statement.reshape, hlabel, hsame,
      Reshape.span_onLines hstart]

end Pairing

section Sources

open ScriptLint.Parser

variable (line : Nat)

/-- Two lines that are not blank are the same, and not the line with the number, or both are that
line. -/
def Written (n : Nat) (p : Position) (ln : Line) (p' : Position) (ln' : Line) : Prop :=
  (n = 0 ∧ p.line ≠ line ∧ onLines.retelling.Lines 0 p ln p' ln') ∨
  (n = 1 ∧ IsHole line p ln.content ∧ IsHole line p' ln'.content)

/-- Two lines at their places are the same, and not the line with the number, or both are that
line. -/
def Lines (n : Nat) (x x' : Position × Line) : Prop :=
  (n = 0 ∧ x.1.line ≠ line ∧ onLines.retelling.Placed 0 x x') ∨
  (n = 1 ∧ (x'.2.ending = [] ↔ x.2.ending = []) ∧ tabCount x'.2.content = tabCount x.2.content ∧
    IsHole line x.1 x.2.content ∧ IsHole line x'.1 x'.2.content)

variable {line} {p' : Position} {ls : List Line}

theorem lines_away {ln : Line} (hline : p'.line = p.line) (hp : p.line ≠ line)
    (hproper : ln.IsProper) : Lines line 0 (p, ln) (p', ln) := by
  refine .inl ⟨rfl, hp, Moving.placed_same rfl hproper.content
    (fun _ _ _ => hline) ?_ (fun _ _ => rfl) Iff.rfl⟩
  unfold endingStop
  split
  · exact hline
  · exact hline

theorem written_of_lines {x x' : Position × Line} (h : Lines line n x x') :
    (x'.2.ending = [] ↔ x.2.ending = []) ∧
      ((n = 0 ∧ allBlank x.2.content ∧ allBlank x'.2.content) ∨
        (allBlank x.2.content = false ∧ allBlank x'.2.content = false ∧
          tabCount x'.2.content = tabCount x.2.content ∧ Written line n x.1 x.2 x'.1 x'.2)) := by
  rcases h with ⟨rfl, hp, hplaced⟩ | ⟨rfl, hending, htabs, hhole, hhole'⟩
  · refine ⟨hplaced.ending, hplaced.content.imp_right ?_⟩
    rintro ⟨hwritten, hwritten', htabs, hlines⟩
    exact ⟨hwritten, hwritten', htabs, .inl ⟨rfl, hp, hlines⟩⟩
  · exact ⟨hending, .inr ⟨hhole.allBlank, hhole'.allBlank, htabs, .inr ⟨rfl, hhole, hhole'⟩⟩⟩

/-- Behind the line the lines are the same. -/
theorem tally_after (hline : p'.line = p.line) (hp : line < p.line)
    (hproper : ∀ ln ∈ ls, ln.IsProper) :
    Tally (Lines line) 0 (placedLines p ls) (placedLines p' ls) := by
  induction ls generalizing p p' with
  | nil => exact .nil
  | cons ln ls ih =>
    obtain ⟨hfirst, hrest⟩ := forall_mem_cons.1 hproper
    have hnext : line < (afterLine p ln).line := by
      rw [line_afterLine]
      split <;> omega
    exact .cons (lines_away hline (by omega) hfirst)
      (ih (by rw [line_afterLine, line_afterLine, hline]) hnext hrest)

/-- Before the line the lines are the same, and each of them has an ending. -/
theorem tally_before {rest rest' : List Line} (hline : p'.line = p.line)
    (hp : p.line + ls.length = line) (hproper : ∀ ln ∈ ls, ln.IsProper)
    (hending : ∀ ln ∈ ls, ln.ending ≠ [])
    (hrest : ∀ {q q' : Position}, q.line = line → q'.line = line →
      Tally (Lines line) 1 (placedLines q rest) (placedLines q' rest')) :
    Tally (Lines line) 1 (placedLines p (ls ++ rest)) (placedLines p' (ls ++ rest')) := by
  induction ls generalizing p p' with
  | nil => exact hrest hp (hline.trans hp)
  | cons ln ls ih =>
    obtain ⟨hfirst, hothers⟩ := forall_mem_cons.1 hproper
    obtain ⟨hends, hendings⟩ := forall_mem_cons.1 hending
    rw [length_cons] at hp
    have hnext : (afterLine p ln).line = p.line + 1 := by rw [line_afterLine, if_neg hends]
    have hnext' : (afterLine p' ln).line = p.line + 1 := by
      rw [line_afterLine, if_neg hends, hline]
    exact .cons (lines_away hline (by omega) hfirst)
      (ih (hnext'.trans hnext.symm) (by omega) hothers hendings)

variable {source source' : String}

/-- **Sources whose lines are the same but for one** have programs that agree away from it, and the
same messages there; on the line each of them has one expression. -/
theorem parse_isolated (h : Tally (Lines line) 1 (linesOf source) (linesOf source')) :
    ((parse source).program.forget line).reshape .onLines =
      ((parse source').program.forget line).reshape .onLines ∧
      Counts line 1 (parse source).program.nodes (parse source').program.nodes ∧
      messagesOff line (parse source').diagnostics = messagesOff line
        (parse source).diagnostics := by
  have hpaired : Paired (pairing line).line (pairing line).indent maxDepth 1 (tokenize source)
      (tokenize source') := by
    rw [tokenize_eq_firstLine, tokenize_eq_firstLine source']
    refine paired_ofLines (Nat.le_refl maxDepth) ?_ ?_
      (Retelling.rows_of_tally written_of_lines h (pairwise_ending_lines _))
    · rintro l n p ln p' ln' r r' (⟨rfl, hp, hlines⟩ | ⟨rfl, hhole, hhole'⟩)
        hleft hright hends hends' hkinds
      · exact .inl ⟨rfl, p, ln, p', ln', hp, hlines, hleft, hright, hends, hends', hkinds⟩
      · exact .inr ⟨rfl, ⟨p, ln.content, hhole, hleft⟩, p', ln'.content, hhole', hright⟩
    · rintro l n p ln p' ln' (⟨rfl, hp, hlines⟩ | ⟨rfl, hhole, hhole'⟩)
      · exact hlines.start
      · exact hhole'.number.trans hhole.number.symm
  have hrecord : Records line 0 (Cursor.ofSource source).record (Cursor.ofSource source').record :=
    ⟨rfl, (line_lastEnd_ofSource source').trans (line_lastEnd_ofSource source).symm, rfl⟩
  obtain ⟨x, y, hxy, hbody, hend⟩ := (pairing line).gives_programBody
    ⟨1, 0, rfl, hpaired, hrecord⟩ ⟨Cursor.supplied_anything _, Cursor.supplied_anything _⟩
  obtain rfl : x = 1 := by
    have hzero := hend.weightless
    omega
  obtain ⟨hsame, hcounts⟩ := same_statements hbody
  refine ⟨congrArg (Program.mk · default) hsame, hcounts.cons rfl rfl, ?_⟩
  show messagesOff line (programBody _).2.diagnostics.reverse =
    messagesOff line (programBody _).2.diagnostics.reverse
  rw [messagesOff_reverse, messagesOff_reverse]
  exact congrArg reverse hend.others

end Sources

end Isolation

namespace Text

/-- A text of complete lines: it is empty, or a line feed ends it. -/
def IsClosed (cs : List Char) : Prop :=
  cs = [] ∨ cs.getLast? = some '\n'

variable {xs : List Char}

theorem IsClosed.of_cons {c : Char} (h : IsClosed (c :: xs)) : IsClosed xs := by
  cases xs with
  | nil => exact .inl rfl
  | cons d xs =>
    refine .inr ?_
    rcases h with hnil | hlast
    · cases hnil
    · rwa [getLast?_cons_cons] at hlast

theorem IsClosed.ne_nil {c : Char} (h : IsClosed (c :: xs)) (hc : c ≠ '\n') : xs ≠ [] := by
  rintro rfl
  rcases h with hnil | hlast
  · cases hnil
  · exact hc (Option.some.inj hlast)

theorem lines_ne_nil (h : xs ≠ []) : lines xs ≠ [] := by
  intro hnil
  have hjoin := flatMap_full_lines xs
  rw [hnil] at hjoin
  exact h hjoin.symm

/-- The lines of a text behind complete lines. -/
theorem lines_append (h : IsClosed xs) (ys : List Char) :
    lines (xs ++ ys) = lines xs ++ lines ys := by
  fun_induction lines xs with
  | case1 => rfl
  | case2 rest ih =>
    rw [cons_append, cons_append, lines, ih h.of_cons.of_cons]
    rfl
  | case3 c rest hreturn hend ih =>
    rw [cons_append, lines, if_pos hend, ih h.of_cons]
    · rfl
    · rintro after rfl happ
      cases rest with
      | nil => exact h.ne_nil (by decide) rfl
      | cons d rest => exact hreturn rest rfl (by rw [(cons.inj happ).1])
  | case4 c rest _ hend ih =>
    have hc : isLineEnd c = false := by simpa using hend
    have hne : c ≠ '\n' := by
      rintro rfl
      cases hc
    rw [cons_append, lines_cons hc, ih h.of_cons]
    cases hrest : lines rest with
    | nil => exact absurd hrest (lines_ne_nil (h.ne_nil hne))
    | cons => rfl

theorem IsClosed.ending_ne_nil (h : IsClosed xs) : ∀ line ∈ lines xs, line.ending ≠ [] := by
  have hmore : lines (xs ++ ['>']) = lines xs ++ ⟨['>'], []⟩ :: [] := lines_append h ['>']
  exact ending_ne_nil_of_lines_eq hmore

/-- Behind the mark the lines are complete too, and as many. -/
theorem IsClosed.withoutMark (h : IsClosed xs) :
    IsClosed (withoutMark xs) ∧ (lines (withoutMark xs)).length = (lines xs).length := by
  cases xs with
  | nil => exact ⟨h, rfl⟩
  | cons c xs =>
    by_cases hc : c = byteOrderMark
    · subst hc
      rw [withoutMark, if_pos rfl, lines_cons (by decide)]
      refine ⟨h.of_cons, ?_⟩
      cases hrest : lines xs with
      | nil => exact absurd hrest (lines_ne_nil (h.ne_nil (by decide)))
      | cons => rfl
    · rw [withoutMark, if_neg hc]
      exact ⟨h, rfl⟩

/-- The line behind complete lines, and those that follow it. -/
theorem lines_inline_append {content after : List Char} (hne : content ≠ [])
    (hinline : OneLine content) (hafter : after = [] ∨ after.head? = some '\n') :
    lines (content ++ after) = ⟨content, after.take 1⟩ :: lines (after.drop 1) := by
  cases after with
  | nil => rw [append_nil, Piece.lines_of_inline hne hinline]; rfl
  | cons c after =>
    obtain rfl : c = '\n' := by simpa using hafter
    have hline : Line.IsProper ⟨content, ['\n']⟩ := ⟨hinline, .inr (.inl rfl)⟩
    have hlines := @lines_full_append _ after hline (by simp) (by simp)
    rw [Line.full, append_assoc] at hlines
    exact hlines

end Text

section Source

open Isolation

/-- The line with an expression, under some tabs. -/
def expressionRow (tabs : Nat) (e : List Char) : List Char :=
  replicate tabs '\t' ++ '>' :: '>' :: e

/-- A source with complete lines, then a line with an expression under some tabs, and what follows
it. -/
def withExpression (before : List Char) (tabs : Nat) (e after : List Char) : String :=
  String.ofList (before ++ (expressionRow tabs e ++ after))

variable {before e e' after : List Char} {tabs : Nat}

theorem isGap_of_mem_replicate : ∀ c ∈ replicate tabs '\t', isGap c := by
  intro c hc
  rw [eq_of_mem_replicate hc]
  decide

theorem inline_expressionRow (he : OneLine e) : OneLine (expressionRow tabs e) := by
  refine forall_mem_append.2 ⟨fun c hc => ?_, ?_⟩
  · rw [eq_of_mem_replicate hc]
    rfl
  · exact forall_mem_cons.2 ⟨rfl, forall_mem_cons.2 ⟨rfl, he⟩⟩

theorem isHole_expressionRow (p : Position) (he : OneLine e) :
    IsHole p.line p (expressionRow tabs e) := by
  refine ⟨rfl, inline_expressionRow he, e, ?_⟩
  rw [expressionRow, dropWhile_append_of_pos isGap_of_mem_replicate]
  rfl

theorem tabCount_expressionRow (tabs : Nat) (e : List Char) :
    tabCount (expressionRow tabs e) = tabs := by
  rw [tabCount, expressionRow, takeWhile_append_of_pos]
  · simp
  · intro c hc
    rw [eq_of_mem_replicate hc]
    rfl

theorem withoutMark_append_expressionRow :
    withoutMark (before ++ (expressionRow tabs e ++ after)) =
      withoutMark before ++ (expressionRow tabs e ++ after) := by
  cases before with
  | nil =>
    cases tabs with
    | zero => rfl
    | succ tabs => rfl
  | cons c before =>
    rw [cons_append, withoutMark, withoutMark]
    split <;> rfl

theorem linesOf_withExpression (hbefore : IsClosed before)
    (he : OneLine e) (hafter : after = [] ∨ after.head? = some '\n') :
    linesOf (withExpression before tabs e after) =
      placedLines (firstLine (withExpression before tabs e after)) (lines (withoutMark before) ++
          ⟨expressionRow tabs e, after.take 1⟩ :: lines (after.drop 1)) := by
  rw [linesOf]
  rw [withExpression, String.toList_ofList, withoutMark_append_expressionRow,
    lines_append hbefore.withoutMark.1,
    lines_inline_append (by simp [expressionRow]) (inline_expressionRow he) hafter]

/-- The sources are the same, line by line, but for the line with the expression. -/
theorem tally_withExpression (hbefore : IsClosed before)
    (he : OneLine e) (he' : OneLine e')
    (hafter : after = [] ∨ after.head? = some '\n') :
    Tally (Lines ((lines before).length + 1)) 1 (linesOf (withExpression before tabs e after))
      (linesOf (withExpression before tabs e' after)) := by
  obtain ⟨hclosed, hlength⟩ := hbefore.withoutMark
  rw [linesOf_withExpression hbefore he hafter, linesOf_withExpression hbefore he' hafter]
  refine tally_before ?_ ?_ ?_ ?_ ?_
  · rw [line_firstLine, line_firstLine]
  · rw [line_firstLine]
    omega
  · exact fun ln hln => isProper_of_mem_lines hln
  · exact hclosed.ending_ne_nil
  · intro q q' hq hq'
    refine .cons (h := 0) (.inr ⟨rfl, Iff.rfl, ?_, ?_, ?_⟩) ?_
    · rw [tabCount_expressionRow, tabCount_expressionRow]
    · exact hq ▸ isHole_expressionRow q he
    · exact hq' ▸ isHole_expressionRow q' he'
    · cases after with
      | nil => exact .nil
      | cons c after =>
        refine tally_after ?_ ?_ fun ln hln => isProper_of_mem_lines hln
        · rw [line_afterLine, line_afterLine, hq, hq']
        · rw [line_afterLine, hq]
          exact Nat.lt_succ_self _

/-- **An expression stays on its line.**  Let a source have complete lines, a line with an
expression under some tabs, and other lines behind it.  Whatever the line holds behind its mark,
there is one statement with an expression on it.  With another text in its place, the program is the
same away from that statement's expression, up to the columns and offsets of places, and so are the
messages on other lines, in the same order. -/
theorem expressionLine_isolated (hbefore : Text.IsClosed before)
    (he : ∀ c ∈ e, Text.isLineEnd c = false) (he' : ∀ c ∈ e', Text.isLineEnd c = false)
    (hafter : after = [] ∨ after.head? = some '\n') :
    let line := (Text.lines before).length + 1
    let parsed := parse (withExpression before tabs e after)
    let parsed' := parse (withExpression before tabs e' after)
    (parsed.program.forget line).reshape .onLines = (parsed'.program.forget line).reshape .onLines ∧
      parsed.program.nodes.countP (Node.isExpressionOn line) = 1 ∧
      parsed'.program.nodes.countP (Node.isExpressionOn line) = 1 ∧
      messagesOff line parsed.diagnostics = messagesOff line parsed'.diagnostics := by
  intro line parsed parsed'
  obtain ⟨hprogram, hcounts, hmessages⟩ :=
    parse_isolated (@tally_withExpression before e e' after tabs hbefore he he' hafter)
  exact ⟨hprogram, hcounts.left, hcounts.right, hmessages.symm⟩

/-- Brackets that are never closed take nothing from the line below, whose own fault is still
told. -/
theorem expressionLine_isolated_unclosed :
    let before := "*if: x\n".toList
    let after := "\n\t\x7b".toList
    let parsed := parse (withExpression before 1 " f([\"\x7b".toList after)
    let parsed' := parse (withExpression before 1 " 1".toList after)
    Text.IsClosed before ∧ after.head? = some '\n' ∧
      (parsed.program.forget 2).reshape .onLines = (parsed'.program.forget 2).reshape .onLines ∧
      parsed.program.nodes.countP (Node.isExpressionOn 2) = 1 ∧
      parsed'.program.nodes.countP (Node.isExpressionOn 2) = 1 ∧
      messagesOff 2 parsed.diagnostics = messagesOff 2 parsed'.diagnostics ∧
      messagesOff 2 parsed'.diagnostics = [(3, "unterminated interpolation `\x7b`")] := by
  intro before after parsed parsed'
  obtain ⟨hprogram, hcount, hcount', hmessages⟩ := @expressionLine_isolated before
    " f([\"\x7b".toList " 1".toList after 1 (.inr rfl) (by simp [isLineEnd])
      (by simp [isLineEnd])
    (.inr rfl)
  exact ⟨.inr rfl, rfl, hprogram, hcount, hcount', hmessages, by decide +kernel⟩

end Source

end ScriptLint

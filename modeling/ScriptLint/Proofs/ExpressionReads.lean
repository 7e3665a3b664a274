import ScriptLint.Proofs.Supply
import ScriptLint.Proofs.WrittenForm

/-!
# Expressions are read from the supply

Every parser of expressions stays within its line, and every node of the expression that it gives
names only spans of the supply.  This covers the expressions inside the strings, which are read from
tokens of their own, at any depth.

**Properties.**  What holds of all expressions that are read is shown in one walk through the
grammar: `Kept` asks of a property that each way to put an expression together keeps it.  The
property may depend on the levels that are left for brackets and on the cursors before and after the
expression.

**Cost.**  A run pays for the operations of its value from the count that the cursor carries.  It
pays once at most for a report that the nesting is too deep: the report skips to a boundary, and no
expression goes on there.  The costs of runs add up.

**Results.**
* `Cost.trans`, `cost_iterate`: sequences and repetitions of steps.
* `Kept.cost_inside`, `Kept.cost_expression`: expressions with any number of levels left for
  brackets.
* `reads_expression`: they are read from the supply.
-/

namespace ScriptLint

open List Cursor

variable {e : Expression} {t : Token} {c d : Cursor} {fault : Fault}
  {operands : List Expression}
  {S : Supply} {text : String} {α : Type} {P : Cursor → Cursor → α → Prop}

/-- The place of a run of text. -/
def TextPart.run? : TextPart → Option Span
  | run _ span => some span
  | interpolation _ => none

/-- The places of the runs of a text. -/
def TextContent.runs (content : TextContent) : List Span :=
  content.parts.filterMap TextPart.run?

/-- The characters of a run, with their place. -/
def TextPart.passage? : TextPart → Option (String × Span)
  | .run text span => some (text, span)
  | .interpolation _ => none

/-- The runs of a text. -/
def TextContent.passages (content : TextContent) : List (String × Span) :=
  content.parts.filterMap TextPart.passage?

theorem TextContent.runs_eq (content : TextContent) :
    content.runs = content.passages.map Prod.snd := by
  rw [passages, map_filterMap]
  exact filterMap_congr fun part _ => by cases part <;> rfl

namespace Supply

/-- The text is that of a token of the supply, at the place of the token. -/
def HasToken (S : Supply) (kind : Token.Kind) (text : String) (span : Span) : Prop :=
  ∃ t, S.token t ∧ t.kind = kind ∧ text = t.text ∧ span = t.span

/-- The run is a token of content, at its place. -/
def HasRun (S : Supply) (run : String × Span) : Prop :=
  ∃ t, S.token t ∧ t.kind.isStructural = false ∧ run = (t.text, t.span)

end Supply

namespace Node

/-- The places of the names and of the runs of text that a node holds itself. -/
def labels : Node → List Span
  | expression (.member _ name _ _) => [name.span]
  | statement (.keyword header _ _ _) => [header.nameSpan]
  | statement (.text text) => text.runs
  | subKeyword (.mk header _ _) => [header.nameSpan]
  | content text => text.runs
  | _ => []

/-- The names, runs and literals that a node holds itself are tokens of the supply. -/
def IsCut (S : Supply) : Node → Prop
  | content text => ∀ run ∈ text.passages, S.HasRun run
  | statement (.text text) => ∀ run ∈ text.passages, S.HasRun run
  | expression (.literal (.string _) raw _ span) => S.HasToken .string raw span
  | expression (.literal (.number _) raw _ span) => S.HasToken .number raw span
  | expression (.identifier name span) => S.HasToken .identifier name span
  | expression (.member _ name _ _) => S.HasToken .identifier name.text name.span
  | statement (.keyword header _ _ _) => S.span header.nameSpan
  | subKeyword (.mk header _ _) => S.span header.nameSpan
  | _ => True

/-- The place of the node and all that it holds itself are of the supply. -/
structure IsSupplied (S : Supply) (node : Node) : Prop where
  span : S.span node.span
  cut : node.IsCut S

theorem IsSupplied.labels {S : Supply} {node : Node} (h : node.IsSupplied S) :
    ∀ span ∈ node.labels, S.span span := by
  have hcut := h.cut
  have hruns : ∀ text : TextContent, (∀ run ∈ text.passages, S.HasRun run) →
      ∀ span ∈ text.runs, S.span span := by
    intro text htext
    rw [TextContent.runs_eq]
    refine forall_mem_map.2 fun run hrun => ?_
    obtain ⟨t, ht, -, rfl⟩ := htext run hrun
    exact S.span_token ht
  unfold Node.labels
  split
  · obtain ⟨t, ht, -, -, hspan⟩ := hcut
    exact forall_mem_singleton.2 (hspan ▸ S.span_token ht)
  · exact forall_mem_singleton.2 hcut
  · exact hruns _ hcut
  · exact forall_mem_singleton.2 hcut
  · exact hruns _ hcut
  · exact nofun

end Node

namespace Expression

/-- The value, the text and the place of a literal that holds no expressions. -/
def plainLiteral? : Expression → Option (LiteralValue × String × Span)
  | literal value raw [] span => some (value, raw, span)
  | _ => none

theorem eq_of_plainLiteral? {value : LiteralValue} {raw : String} {span : Span}
    (h : e.plainLiteral? = some (value, raw, span)) : e = .literal value raw [] span := by
  unfold plainLiteral? at h
  split at h
  · cases h
    rfl
  · cases h

/-- All nodes of the expression are of the supply. -/
def IsSupplied (S : Supply) (e : Expression) : Prop :=
  ∀ node ∈ e.nodes, node.IsSupplied S

theorem self_mem_nodes (e : Expression) : .expression e ∈ e.nodes := by
  cases e <;> exact mem_cons_self

theorem nodesOfList_eq_flatMap (es : List Expression) : nodesOfList es = es.flatMap nodes := by
  induction es with
  | nil => rfl
  | cons e es ih => rw [nodesOfList, ih, flatMap_cons]

theorem IsSupplied.span (h : e.IsSupplied S) : S.span e.span :=
  (h _ e.self_mem_nodes).span

theorem isSupplied_of_mem_nodesOfList {es : List Expression} (h : ∀ e ∈ es, e.IsSupplied S) :
    ∀ node ∈ nodesOfList es, node.IsSupplied S := by
  rw [nodesOfList_eq_flatMap]
  exact forall_mem_flatMap.2 h

/-- An expression with the nodes under it. -/
theorem IsSupplied.node {under : List Node} (hnodes : e.nodes = .expression e :: under)
    (hspan : S.span e.span) (hcut : (Node.expression e).IsCut S)
    (hunder : ∀ node ∈ under, node.IsSupplied S) : e.IsSupplied S := by
  rw [IsSupplied, hnodes]
  exact forall_mem_cons.2 ⟨⟨hspan, hcut⟩, hunder⟩

theorem isSupplied_identifier (h : S.token t) (hkind : t.kind = .identifier) :
    (identifier t.text t.span).IsSupplied S :=
  .node rfl (S.span_token h) ⟨t, h, hkind, rfl, rfl⟩ nofun

theorem isSupplied_number (h : S.token t) (hkind : t.kind = .number) :
    (literal (Parser.numberValue t.text) t.text [] t.span).IsSupplied S := by
  refine .node rfl (S.span_token h) ?_ nofun
  unfold Parser.numberValue
  split
  · exact ⟨t, h, hkind, rfl, rfl⟩
  · trivial

theorem isSupplied_null {span : Span} (h : S.span span) : (null span).IsSupplied S :=
  .node rfl h trivial nofun

theorem isSupplied_join {op : BinaryOp} {f : Expression} (he : e.IsSupplied S)
    (hf : f.IsSupplied S) :
    (join op e f).IsSupplied S :=
  .node rfl (S.span_between (S.start_span he.span) (S.stop_span hf.span)) trivial
    (forall_mem_append.2 ⟨he, hf⟩)

end Expression

namespace Property

/-- All nodes of the property are of the supply. -/
def IsSupplied (S : Supply) (property : Property) : Prop :=
  ∀ node ∈ property.nodes, node.IsSupplied S

theorem nodesOfList_eq_flatMap (properties : List Property) :
    nodesOfList properties = properties.flatMap nodes := by
  induction properties with
  | nil => rfl
  | cons property properties ih => rw [nodesOfList, ih, flatMap_cons]

theorem isSupplied_of_mem_nodesOfList {properties : List Property}
    (h : ∀ property ∈ properties, property.IsSupplied S) :
    ∀ node ∈ nodesOfList properties, node.IsSupplied S := by
  rw [nodesOfList_eq_flatMap]
  exact forall_mem_flatMap.2 h

end Property

namespace Token

variable {word : String}

theorem kind_of_isPunctuation (h : t.isPunctuation word) : t.kind = .punctuation :=
  (by simpa [isPunctuation] using h : t.kind = .punctuation ∧ t.text = word).1

theorem kind_of_isOperator (h : t.isOperator word) : t.kind = .operator :=
  (by simpa [isOperator] using h : t.kind = .operator ∧ t.text = word).1

theorem isBoundary_of_isPunctuation (h : t.isPunctuation word) : t.kind.isBoundary = false := by
  rw [kind_of_isPunctuation h]
  rfl

theorem isBoundary_of_isOperator (h : t.isOperator word) : t.kind.isBoundary = false := by
  rw [kind_of_isOperator h]
  rfl

theorem isStructural_of_isPunctuation (h : t.isPunctuation word) : t.kind.isStructural = false := by
  rw [kind_of_isPunctuation h]
  rfl

theorem isStructural_of_isOperator (h : t.isOperator word) : t.kind.isStructural = false := by
  rw [kind_of_isOperator h]
  rfl

theorem isStructural_of_not_isBoundary (h : ¬ t.kind.isBoundary) : t.kind.isStructural = false := by
  cases hlayout : t.kind.isStructural with
  | false => rfl
  | true => exact absurd (Parser.isBoundary_of_isStructural hlayout) h

theorem kind_of_ofToken? {op : UnaryOp} (h : UnaryOp.ofToken? t = some op) :
    t.kind = .operator := by
  unfold UnaryOp.ofToken? at h
  split at h
  · next hnot => exact kind_of_isOperator hnot
  · split at h
    · next hminus => exact kind_of_isOperator hminus
    · cases h

theorem kind_of_binaryOp {op : BinaryOp} (h : BinaryOp.ofToken? t = some op) :
    t.kind = .operator := by
  unfold BinaryOp.ofToken? at h
  split at h
  · assumption
  · cases h

end Token

namespace Parser

open Token

theorem isBoundary_of_isSuffixStart (h : isSuffixStart t) : t.kind.isBoundary = false := by
  unfold isSuffixStart at h
  simp only [Bool.or_eq_true] at h
  rcases h with ((h | h) | h) | h
  · rw [kind_of_isPunctuation h]; rfl
  · rw [kind_of_isOperator h]; rfl
  · rw [kind_of_isPunctuation h]; rfl
  · rw [kind_of_isPunctuation h]; rfl

end Parser

namespace Cursor

/-- The cursor with a new count of operations. -/
def fresh (c : Cursor) : Cursor :=
  { c with operations := 0 }

/-- From the first cursor to the second nothing is reported, with operations within their limit
before. -/
def Sound (c d : Cursor) : Prop :=
  c.operations ≤ maxOperations ∧ d.diagnostics.length ≤ c.diagnostics.length

theorem Sound.left {S : Supply} {e : Cursor} (h : c.Sound e) (hline : d.WithinLine S e) :
    c.Sound d :=
  ⟨h.1, hline.diagnostics.trans h.2⟩

theorem lastEnd_advance (h : c.AtContent) : c.advance.lastEnd = c.current.span.stop := by
  rw [advance, if_neg (by simp [h])]

/-- The operations counted so far, up to the limit. -/
def spent (c : Cursor) : Nat :=
  min c.operations maxOperations

/-- How often it was reported that the nesting is too deep. -/
def tooDeep (c : Cursor) : Nat :=
  c.diagnostics.countP (·.fault == .nestedTooDeeply)

/-- One, if an expression may go on at the next token. -/
def ahead? (c : Cursor) : Nat :=
  if c.current.kind.isBoundary then 0 else 1

theorem ahead?_le (c : Cursor) : c.ahead? ≤ 1 := by
  unfold ahead?
  split <;> omega

theorem ahead?_of_isBoundary (h : c.current.kind.isBoundary = false) : c.ahead? = 1 := by
  rw [ahead?, h]
  rfl

theorem ahead?_skipTo (c : Cursor) : (c.skipTo Token.Kind.isBoundary).ahead? = 0 := by
  rw [ahead?, if_pos (current_skipTo rfl c)]

end Cursor

namespace Parser

open Token Lexeme

variable {span : Span}

theorem lexeme_of_isPunctuation (h : t.isPunctuation text) : t.lexeme = mark text := by
  rw [t.isPunctuation_eq] at h
  exact of_decide_eq_true h

theorem lexeme_of_isOperator (h : t.isOperator text) : t.lexeme = operator text := by
  rw [t.isOperator_eq] at h
  exact of_decide_eq_true h

theorem isBoundary_of_mark (h : t.lexeme = mark text) : t.kind.isBoundary = false := by
  rw [show t.kind = .punctuation from congrArg Lexeme.kind h]
  rfl

/-- A suffix starts with a mark or an operator of its own. -/
theorem lexeme_of_isSuffixStart (h : isSuffixStart t) :
    t.isPunctuation "(" ∨ t.isPunctuation "[" ∨
      t.lexeme = PropertyName.separator (t.isOperator "::") := by
  unfold isSuffixStart at h
  simp only [Bool.or_eq_true] at h
  rcases h with ((h | h) | h) | h
  · have hdot := lexeme_of_isPunctuation h
    refine .inr (.inr ?_)
    rw [t.isOperator_eq, hdot]
    rfl
  · refine .inr (.inr ?_)
    rw [h, lexeme_of_isOperator h]
    rfl
  · exact .inl h
  · exact .inr (.inl h)

section Standalone

theorem diagnostics_expectEnd (h : c.current.kind.isBoundary) :
    (expectEnd c).2.diagnostics = c.diagnostics := by
  change ((if !c.current.kind.isBoundary then _ else _ : Parser Unit) c).2.diagnostics = _
  rw [if_neg (by simp [h])]
  rfl

theorem isBoundary_of_expectEnd
    (h : (expectEnd c).2.diagnostics.length ≤ c.diagnostics.length) :
    c.current.kind.isBoundary := by
  change ((if !c.current.kind.isBoundary then _ else _ :
    Parser Unit) c).2.diagnostics.length ≤ _ at h
  split at h
  · exact absurd h (Nat.not_succ_le_self _)
  · next hbound => simpa using hbound

variable {p : Parser Expression}

/-- Where an expression may start, the one that fills the line is read from there. -/
theorem standalone_eq (h : ¬ c.current.kind.isBoundary) :
    standalone p c = ((p c.fresh).1, (expectEnd (p c.fresh).2).2) := by
  change (if c.current.kind.isBoundary then _ else _ : Parser Expression) _ = _
  rw [if_neg h]
  rfl

/-- A clean run of an expression that fills the line is a clean run up to a boundary. -/
theorem standalone_of_clean (hgrows : c.diagnostics.length ≤ (p c.fresh).2.diagnostics.length)
    (h : (standalone p c).2.diagnostics = c.diagnostics) :
    (standalone p c).1 = (p c.fresh).1 ∧ (p c.fresh).2.current.kind.isBoundary ∧
      (p c.fresh).2.diagnostics = c.diagnostics := by
  by_cases hstart : c.current.kind.isBoundary
  · change ((if c.current.kind.isBoundary then _ else _ :
      Parser Expression) c).2.diagnostics = _ at h
    rw [if_pos hstart] at h
    exact absurd (congrArg length h) (Nat.succ_ne_self _)
  · rw [standalone_eq hstart] at h ⊢
    have hbound := isBoundary_of_expectEnd ((congrArg length h).le.trans hgrows)
    exact ⟨rfl, hbound, (diagnostics_expectEnd hbound).symm.trans h⟩

end Standalone

/-- Values are read one after another, with other tokens between them. -/
inductive Series {α : Type} (gap : Cursor → Cursor → Prop) (P : Cursor → Cursor → α → Prop)
    (c : Cursor) :
    Cursor → List α → Prop
  | nil {d : Cursor} (h : gap c d) : Series gap P c d []
  | snoc {d e g : Cursor} {xs : List α} {a : α} (h : Series gap P c d xs)
      (ha : P d e a) (hgap : gap e g) :
      Series gap P c g (xs ++ [a])

section Series

variable {gap : Cursor → Cursor → Prop} {e : Cursor} {xs : List α}

theorem Series.later (h : Series gap P c d xs) (hgap : gap d e)
    (htrans : ∀ {a b c : Cursor}, gap a b → gap b c → gap a c) : Series gap P c e xs := by
  cases h with
  | nil h => exact .nil (htrans h hgap)
  | snoc h ha h' => exact h.snoc ha (htrans h' hgap)

theorem Series.forall_mem {R : α → Prop} (h : Series gap P c d xs) (hR : ∀ c d a, P c d a → R a) :
    ∀ a ∈ xs, R a := by
  induction h with
  | nil => exact nofun
  | snoc _ ha _ ih => exact forall_mem_append.2 ⟨ih, forall_mem_singleton.2 (hR _ _ _ ha)⟩

end Series

/-- The second cursor is further on in an expression: no operation is taken back, and a sound run
keeps the limit. -/
structure Counted (S : Supply) (c d : Cursor) : Prop extends Stretch S c d where
  spent : c.spent ≤ d.spent
  limit : c.Sound d → d.operations ≤ maxOperations

/-- The first cursor stands at a token with the lexeme, and the second one behind it. -/
structure Steps (l : Lexeme) (c d : Cursor) : Prop where
  lexeme : c.current.lexeme = l
  rest : c.rest = c.current :: d.rest
  lastEnd : d.lastEnd = c.current.span.stop

/-- A token with the lexeme is read, and an operation is paid for it. -/
structure Pays (S : Supply) (l : Lexeme) (c d : Cursor) :
    Prop extends Stretch S c d, Steps l c d where
  paid : c.spent + 1 ≤ d.spent
  limit : d.operations ≤ maxOperations

/-- A token with the lexeme is read, or its absence is reported. -/
structure Expected (S : Supply) (l : Lexeme) (c d : Cursor) : Prop extends Counted S c d where
  steps : c.Sound d → Steps l c d

/-- Nothing is read, unless there was a report. -/
structure Unmoved (S : Supply) (c d : Cursor) : Prop extends Counted S c d where
  same : c.Sound d → d = c

section Counted

variable {e : Cursor}

theorem Counted.trans (h : Counted S c d) (h' : Counted S d e) : Counted S c e :=
  ⟨h.toStretch.trans h'.toStretch, h.spent.trans h'.spent, fun hsound =>
    h'.limit ⟨h.limit (hsound.left h'.line), hsound.2.trans h.line.diagnostics⟩⟩

theorem Counted.refl (h : c.SuppliedLine S) : Counted S c c :=
  ⟨.refl h, Nat.le_refl _, And.left⟩

/-- Where a run goes on soundly, it was sound. -/
theorem Counted.sound (h : Counted S c d) (h' : Counted S d e) (hsound : c.Sound e) :
    c.Sound d ∧ d.Sound e :=
  ⟨hsound.left h'.line, h.limit (hsound.left h'.line), hsound.2.trans h.line.diagnostics⟩

theorem Pays.counted {l : Lexeme} (h : Pays S l c d) : Counted S c d :=
  ⟨h.toStretch, Nat.le_of_succ_le h.paid, fun _ => h.limit⟩

theorem Pays.left_lt {l : Lexeme} (h : Pays S l c d) : d.left < c.left := by
  rw [d.left_eq, c.left_eq, h.rest]
  exact Nat.lt_succ_self _

theorem Unmoved.refl (h : c.SuppliedLine S) : Unmoved S c c :=
  ⟨.refl h, fun _ => rfl⟩

theorem Unmoved.trans (h : Unmoved S c d) (h' : Unmoved S d e) : Unmoved S c e := by
  refine ⟨h.toCounted.trans h'.toCounted, fun hsound => ?_⟩
  obtain ⟨hfirst, hsecond⟩ := h.sound h'.toCounted hsound
  rw [h'.same hsecond, h.same hfirst]

/-- Where something is reported, nothing has to be shown of a sound run. -/
theorem Counted.reported (h : Counted S c d)
    (h' : Counted S (d.report fault span) e) : ¬ c.Sound e := by
  intro hsound
  have hle := (h.line.diagnostics.trans_lt (Nat.lt_succ_self _)).trans_le h'.line.diagnostics
  exact absurd hsound.2 (Nat.not_le.2 hle)

end Counted

section Rules

variable {β σ : Type} {j k : Nat} {Q : Cursor → β → Prop} {f : α → Parser β} {r : β × Cursor}

/-- What a run gives from a supplied cursor: a value with a property, and no more reports of too
deep a nesting than were open; `k` is one if one is open anyway. -/
def Cost {α : Type} (S : Supply) (k : Nat) (Q : Cursor → α → Prop) (c : Cursor)
    (r : α × Cursor) : Prop :=
  c.SuppliedLine S → (Counted S c r.2 ∧ Q r.2 r.1) ∧
    r.2.tooDeep + r.2.ahead? ≤ c.tooDeep + max k c.ahead?

theorem Cost.runs (h : Cost S k Q c r) : Runs S Q c r := by
  intro hc
  obtain ⟨⟨hgoes, hvalue⟩, -⟩ := h hc
  exact ⟨hvalue, hgoes.supplied, hgoes.line⟩

theorem Cost.intro (h : c.SuppliedLine S → Cost S k Q c r) : Cost S k Q c r :=
  fun hc => h hc hc

theorem Cost.pure {b : β} (h : Q c b) : Cost S k Q c ((Pure.pure b : Parser β) c) :=
  fun hc => ⟨⟨.refl hc, h⟩, Nat.add_le_add_left (Nat.le_max_right _ _) _⟩

theorem Cost.mono {Q' : Cursor → β → Prop} (h : Cost S k Q c r) (hQ : Q r.2 r.1 → Q' r.2 r.1) :
    Cost S k Q' c r :=
  fun hc => (h hc).imp_left (.imp_right hQ)

/-- One run after another. -/
theorem Cost.trans {R : Cursor → α → Prop} {s : α × Cursor} (h : Cost S k R c s)
    (h' : Counted S c s.2 → R s.2 s.1 → Cost S 0 Q s.2 r) : Cost S k Q c r := by
  intro hc
  obtain ⟨⟨hgoes, hvalue⟩, hdeep⟩ := h hc
  obtain ⟨⟨hgoes', hvalue'⟩, hdeep'⟩ := h' hgoes hvalue hgoes.supplied
  exact ⟨⟨hgoes.trans hgoes', hvalue'⟩, by omega⟩

theorem Cost.bind {p : Parser α} {R : Cursor → α → Prop} (hp : Cost S k R c (p c))
    (hf : ∀ a d, Counted S c d → R d a → Cost S 0 Q d (f a d)) : Cost S k Q c ((p >>= f) c) :=
  hp.trans fun hgoes hvalue => hf _ _ hgoes hvalue

/-- A test reads nothing. -/
theorem Cost.test {p : Parser α} {a : α} (hp : p c = (a, c)) (h : Cost S k Q c (f a c)) :
    Cost S k Q c ((p >>= f) c) := by
  rw [run_bind, hp]
  exact h

/-- A run may begin with a step to another cursor. -/
theorem Cost.step (hstep : c.SuppliedLine S → Counted S c d)
    (hdeep : d.tooDeep + max j d.ahead? ≤ c.tooDeep + max k c.ahead?)
    (h : Counted S c d → Cost S j Q d r) : Cost S k Q c r := by
  intro hc
  obtain ⟨⟨hgoes, hvalue⟩, hreports⟩ := h (hstep hc) (hstep hc).supplied
  exact ⟨⟨(hstep hc).trans hgoes, hvalue⟩, by omega⟩

/-- Where an expression may go on, a report is open. -/
theorem Cost.opened (ht : c.current.kind.isBoundary = false) (h : Cost S 1 Q c r) :
    Cost S k Q c r := by
  refine .step .refl ?_ fun _ => h
  rw [ahead?_of_isBoundary ht]
  omega

theorem counted_advance (hc : c.SuppliedLine S) (ht : c.current.kind.isBoundary = false) :
    Counted S c c.advance := by
  refine ⟨.advance hc (isStructural_of_not_isBoundary (t := c.current) (by simp [ht])),
    Nat.le_of_eq ?_, fun h => ?_⟩
  · rw [spent, spent, operations_advance]
  · rw [operations_advance]
    exact h.1

theorem counted_report (hc : c.SuppliedLine S) (fault : Fault) (hspan : S.span span) :
    Counted S c (c.report fault span) :=
  ⟨.report hc fault hspan, Nat.le_refl _, And.left⟩

theorem steps_advance (ht : c.current.kind.isBoundary = false) :
    Steps c.current.lexeme c c.advance := by
  have hcontent := isStructural_of_not_isBoundary (t := c.current) (by simp [ht])
  exact ⟨rfl, rest_eq_cons hcontent, lastEnd_advance hcontent⟩

/-- A token before a boundary may be read; the report stays open. -/
theorem Cost.next {f : Token → Parser β} (ht : c.current.kind.isBoundary = false)
    (h : Counted S c c.advance → Cost S 1 Q c.advance (f c.current c.advance)) :
    Cost S k Q c ((Parser.next >>= f) c) := by
  refine .step (fun hc => counted_advance hc ht) ?_ h
  have hle := c.advance.ahead?_le
  rw [ahead?_of_isBoundary ht, tooDeep, tooDeep, diagnostics_advance]
  omega

theorem Cost.report (hspan : S.span span)
    (hfault : (fault == .nestedTooDeeply) = false)
    (h : Counted S c (c.report fault span) → Cost S k Q (c.report fault span) r) :
    Cost S k Q c r := by
  refine .step (fun hc => counted_report hc fault hspan) ?_ h
  have hsame : (c.report fault span).tooDeep = c.tooDeep := countP_cons_of_neg (by simp [hfault])
  rw [hsame]
  exact Nat.le_refl _

theorem Cost.reportHere (hfault : (fault == .nestedTooDeeply) = false)
    (h : Counted S c (c.report fault c.current.span) →
      Cost S k Q (c.report fault c.current.span) r) : Cost S k Q c r :=
  .intro fun hc => .report (S.span_token hc.current) hfault h

/-- Too deep a nesting takes the report that is open, and there is no other until the expression
ends. -/
theorem Cost.giveUp (hstep : c.SuppliedLine S → Counted S c d) (hdeep : d.tooDeep ≤ c.tooDeep + 1)
    (h : Counted S c (d.skipTo Kind.isBoundary) → Counted S d (d.skipTo Kind.isBoundary) →
      Cost S 0 Q (d.skipTo Kind.isBoundary) r) : Cost S 1 Q c r := by
  have hskip : c.SuppliedLine S → Counted S d (d.skipTo Kind.isBoundary) := fun hc =>
    ⟨.skipTo (hstep hc).supplied fun _ => isBoundary_of_isStructural, Nat.le_refl _, And.left⟩
  refine .intro fun hc => .step (fun _ => (hstep hc).trans (hskip hc)) ?_
    fun hgoes => h hgoes (hskip hc)
  rw [d.ahead?_skipTo]
  exact hdeep.trans (Nat.add_le_add_left (Nat.le_max_left _ _) _)

/-- An operation is paid for, or the rest of the expression is given up. -/
theorem Cost.operate {f : Bool → Parser β} {g : Token → Parser β}
    (ht : c.current.kind.isBoundary = false)
    (hgo : f true = Parser.next >>= g)
    (hnext : ∀ d, Pays S c.current.lexeme c d → Cost S 1 Q d (g c.current d))
    (hstop : ∀ d, Unmoved S c d → Cost S 0 Q d (f false d)) :
    Cost S k Q c ((countOperation >>= f) c) := by
  refine .opened ht (.intro fun hc => ?_)
  rw [run_bind]
  unfold countOperation
  split
  · next hless =>
    rw [hgo]
    have hpaid : c.spent + 1 ≤ spent { c with operations := c.operations + 1 } := by
      unfold spent
      dsimp only
      omega
    refine .step (fun _ => ⟨.operations hc _, Nat.le_of_succ_le hpaid, fun _ => hless⟩)
      (Nat.le_refl _) fun hcount => ?_
    refine .next ht fun hgoes =>
      hnext _ ⟨hcount.toStretch.trans hgoes.toStretch, ?_, hpaid.trans hgoes.spent, ?_⟩
    · obtain ⟨hlexeme, hrest, hlast⟩ :=
        steps_advance (c := { c with operations := c.operations + 1 }) ht
      exact ⟨hlexeme, hrest, hlast⟩
    · rw [operations_advance]
      exact hless
  split
  · have hreport := Stretch.report hc .nestedTooDeeply (S.span_token hc.current)
    refine .giveUp
      (fun _ => ⟨hreport.trans (.operations hreport.supplied _), ?_, fun hsound => ?_⟩) ?_
      fun hgoes _ => hstop _ ⟨hgoes, fun hsound => ?_⟩
    · exact (by omega : min c.operations maxOperations ≤ min (c.operations + 1) maxOperations)
    · exact absurd hsound.2 (Nat.not_succ_le_self _)
    · exact Nat.le_of_eq (countP_cons_of_pos rfl)
    · exact absurd hsound.2 (Nat.not_succ_le_self _)
  · next hlimit hpassed =>
    refine .giveUp .refl (Nat.le_succ _) fun hgoes _ => hstop _ ⟨hgoes, fun hsound => ?_⟩
    have hbound := hsound.1
    omega

/-- What a step of a repetition gives: what is known, which may change with the last step, and a
token that was read if there is to be another step. -/
def StepCost (S : Supply) (I : Bool → Cursor → σ → Prop) (c : Cursor)
    (r : (σ × Bool) × Cursor) : Prop :=
  Cost S 0 (fun d r => I (!r.2) d r.1 ∧ (r.2 = true → d.left < c.left)) c r

/-- A step with an operation that is paid for has read its sign. -/
theorem StepCost.operate {f : Bool → Parser (σ × Bool)} {g : Token → Parser (σ × Bool)}
    {I : Bool → Cursor → σ → Prop}
    {s : σ} (ht : c.current.kind.isBoundary = false) (hgo : f true = Parser.next >>= g)
    (hnext : ∀ d, Pays S c.current.lexeme c d →
      Cost S 1 (fun e r => I (!r.2) e r.1) d (g c.current d))
    (hstop : f false = Pure.pure (s, false)) (hlast : ∀ d, Unmoved S c d → I true d s) :
    StepCost S I c ((countOperation >>= f) c) := by
  refine Cost.operate ht hgo (fun d hpays hd => ?_) fun d hrests => ?_
  · obtain ⟨⟨hgoes, hvalue⟩, hdeep⟩ := hnext d hpays hd
    exact ⟨⟨hgoes, hvalue, fun _ => hgoes.line.left_le.trans_lt hpays.left_lt⟩, hdeep⟩
  · rw [hstop]
    exact .pure ⟨hlast d hrests, nofun⟩

variable {step : σ → Parser (σ × Bool)} {I : Bool → Cursor → σ → Prop}
  (hstep : ∀ s d, I false d s → StepCost S I d (step s d))

include hstep

/-- A repetition ends with a step that does not go on. -/
theorem cost_iterate (s : σ) (d : Cursor) (hs : I false d s) :
    Cost S 0 (I true) d (Parser.iterate step s d) := by
  fun_induction Parser.iterate step s d with
  | case1 s d result hgo ih =>
    have hvalue : result.1.2 = true := (Bool.and_eq_true_iff.1 hgo).1
    refine (hstep s d hs).trans fun _ h => ih ?_
    have hnext := h.1
    rwa [show (step s d).1.2 = true from hvalue] at hnext
  | case2 s d result hstop =>
    intro hd
    obtain ⟨⟨hgoes, hlast, hleft⟩, hdeep⟩ := hstep s d hs hd
    have hvalue : (step s d).1.2 = false :=
      Bool.eq_false_iff.2 fun hgo =>
        hstop (Bool.and_eq_true_iff.2 ⟨hgo, decide_eq_true (hleft hgo)⟩)
    rw [hvalue] at hlast
    exact ⟨⟨hgoes, hlast⟩, hdeep⟩

theorem cost_loop {first : σ} (hfirst : c.SuppliedLine S → I false c first) :
    Cost S k (I true) c (Parser.loop first step c) :=
  .intro fun hc => .step (j := 0) .refl (by omega) fun _ => cost_iterate hstep first c (hfirst hc)

end Rules

section Expected

variable {l : Lexeme}

theorem marks_advance (hgoes : Counted S c c.advance) (h : c.current.isPunctuation text) :
    Expected S (mark text) c c.advance :=
  ⟨hgoes, fun _ => lexeme_of_isPunctuation h ▸ steps_advance (isBoundary_of_isPunctuation h)⟩

theorem marks_report (hgoes : Counted S c (c.report fault span)) :
    Expected S l c (c.report fault span) :=
  ⟨hgoes, fun hsound => absurd hsound.2 (Nat.not_succ_le_self _)⟩

theorem cost_expectMark {k : Nat} (text : String) :
    Cost S k (fun d _ => Expected S (mark text) c d) c (expectMark text c) := by
  refine .test rfl ?_
  split
  · next hmark =>
      exact .next (isBoundary_of_isPunctuation hmark) fun hgoes => .pure (marks_advance hgoes hmark)
  · exact .reportHere rfl fun hgoes => .pure (marks_report hgoes)

end Expected

/-- Items are read with a comma after each; in the end the last one may be without, and a mark
closes the list. -/
inductive CommaList {α : Type} (S : Supply) (close : String) (P : Cursor → Cursor → α → Prop)
    (c : Cursor) :
    Bool → Cursor → List α → Prop
  | nil (h : c.SuppliedLine S) : CommaList S close P c false c []
  | more {d e g : Cursor} {xs : List α} {a : α} (h : CommaList S close P c false d xs)
      (ha : P d e a)
      (hcomma : Expected S (mark ",") e g) : CommaList S close P c false g (xs ++ [a])
  | last {d e g : Cursor} {xs : List α} {a : α} (h : CommaList S close P c false d xs)
      (ha : P d e a)
      (hclose : Expected S (mark close) e g) : CommaList S close P c true g (xs ++ [a])
  | close {d g : Cursor} {xs : List α} (h : CommaList S close P c false d xs)
      (hclose : Expected S (mark close) d g) :
      CommaList S close P c true g xs

theorem CommaList.series {α : Type} {P : Cursor → Cursor → α → Prop} {close : String}
    {closed : Bool}
    {xs : List α} (h : CommaList S close P c closed d xs) : Series (Counted S) P c d xs := by
  induction h with
  | nil h => exact .nil (.refl h)
  | more _ ha hmark ih | last _ ha hmark ih => exact ih.snoc ha hmark.toCounted
  | close _ hmark ih => exact ih.later hmark.toCounted .trans

section Items

variable {item : Parser α} (hitem : ∀ c, Cost S 1 (P c) c (item c)) (close : String)

include hitem

theorem cost_itemStep {items : List α} (h : CommaList S close P c false d items) :
    StepCost S (CommaList S close P c) d (itemStep item close items d) := by
  refine Cost.test rfl ?_
  split
  · next hclose =>
    exact .next (isBoundary_of_isPunctuation hclose) fun hgoes =>
      .pure ⟨h.close (marks_advance hgoes hclose), nofun⟩
  refine .test rfl ?_
  split
  · exact .reportHere rfl fun hgoes => .pure ⟨h.close (marks_report hgoes), nofun⟩
  next hahead =>
  refine .bind (.opened (by simpa using hahead) (hitem d)) fun a e hgoes ha => .test rfl ?_
  split
  · next hcomma =>
    refine .next (isBoundary_of_isPunctuation hcomma) fun hgoes' =>
      .pure ⟨h.more ha (marks_advance hgoes' hcomma), fun _ => ?_⟩
    exact (left_advance_lt (isStructural_of_isPunctuation hcomma)).trans_le
      hgoes.line.left_le
  refine .test rfl ?_
  split
  · next hclose =>
    exact .next (isBoundary_of_isPunctuation hclose) fun hgoes =>
      .pure ⟨h.last ha (marks_advance hgoes hclose), nofun⟩
  · exact .reportHere rfl fun hgoes => .pure ⟨h.last ha (marks_report hgoes), nofun⟩

theorem cost_items {k : Nat} :
    Cost S k (CommaList S close P c true) c (loop [] (itemStep item close) c) :=
  cost_loop (fun _ _ => cost_itemStep hitem close) .nil

end Items

/-- The parser for what stands inside brackets, with a number of levels left for them. -/
def innerAt : Nat → Option (Parser Expression)
  | 0 => none
  | levels + 1 => some (expression levels .condition)

theorem expression_eq (levels : Nat) (mode : Mode) :
    expression levels mode = inMode (innerAt levels) mode := by
  cases levels <;> rfl

/-- The cursor at the start of a region of a string. -/
def regionStart (region : Position × List Char) : Cursor :=
  start (tokenizeExpression (String.ofList region.2) region.1) (region.1.advance region.2)

/-- Expressions are read, without a report, from some of the regions of a string. -/
inductive Regions (P : Cursor → Cursor → Expression → Prop) :
    List (Position × List Char) → List Expression → Prop
  | nil : Regions P [] []
  | skip {region : Position × List Char} {regions : List (Position × List Char)}
      {es : List Expression} (h : Regions P regions es) : Regions P (region :: regions) es
  | take {region : Position × List Char} {regions : List (Position × List Char)}
      {es : List Expression}
      {e : Expression} {d : Cursor} (hclean : d.diagnostics = []) (he : P (regionStart region) d e)
      (h : Regions P regions es) : Regions P (region :: regions) (e :: es)

theorem Regions.forall_mem {P : Cursor → Cursor → Expression → Prop} {R : Expression → Prop}
    {regions : List (Position × List Char)} {es : List Expression} (h : Regions P regions es)
    (hR : ∀ c d e, P c d e → R e) : ∀ e ∈ es, R e := by
  induction h with
  | nil => exact nofun
  | skip _ ih => exact ih
  | take _ he _ ih => exact forall_mem_cons.2 ⟨hR _ _ _ he, ih⟩

/-- How much of the grammar an expression may make use of. -/
inductive Grade where
  /-- An operand with all that follows it. -/
  | operand
  /-- Operations of the layers; without any, an operand with the operators before it. -/
  | layered (layers : List (List BinaryOp))
  /-- An expression in a mode. -/
  | inMode (mode : Mode)
  /-- What stands in brackets. -/
  | item

/-- A relation between two cursors, with a number of levels, and what is read between them, that is
kept by every way in which a parser puts an expression together. -/
structure Kept (S : Supply) where
  expression : Nat → Grade → Cursor → Cursor → Expression → Prop
  property : Nat → Cursor → Cursor → Property → Prop
  earlier : ∀ {b grade c c' d e}, Unmoved S c c' → expression b grade c' d e →
    expression b grade c d e
  later : ∀ {b grade c d d' e}, expression b grade c d e → Unmoved S d d' →
    expression b grade c d' e
  null : ∀ {b grade c d g fault span s}, Counted S c d → Counted S (d.report fault span) g →
    S.span s → expression b grade c g (.null s)
  identifier : ∀ {b c}, Counted S c c.advance → c.current.kind = .identifier →
    expression (b + 1) .operand c c.advance (.identifier c.current.text c.current.span)
  number : ∀ {b c}, Counted S c c.advance → c.current.kind = .number →
    expression (b + 1) .operand c c.advance
      (.literal (numberValue c.current.text) c.current.text [] c.current.span)
  string : ∀ {b c}, Counted S c c.advance → c.current.kind = .string →
    Regions (expression b .item) (braceRegions c.current.span.start c.current.text.toList)
      (interpolations (innerAt b) c.current) →
    expression (b + 1) .operand c c.advance
      (.literal (.string (stringValue c.current.text)) c.current.text
      (interpolations (innerAt b) c.current) c.current.span)
  group : ∀ {b c d g e}, c.current.lexeme = mark "(" → Counted S c c.advance →
    expression b .item c.advance d e → Expected S (mark ")") d g → expression (b + 1) .operand c g e
  array : ∀ {b c d es}, c.current.lexeme = mark "[" → Counted S c c.advance →
    Counted S c.advance d → CommaList S "]" (expression b .item) c.advance true d es →
    expression (b + 1) .operand c d (.array es (Span.between c.current.span.start d.lastEnd))
  object : ∀ {b c d ps}, c.current.lexeme = mark "\x7b" → Counted S c c.advance →
    Counted S c.advance d → CommaList S "\x7d" (property b) c.advance true d ps →
    expression (b + 1) .operand c d (.object ps (Span.between c.current.span.start d.lastEnd))
  pair : ∀ {b c d d' g e f}, Counted S c g → expression b .item c d e → Counted S d d' →
    (d.Sound g → Steps (operator "->") d d') → expression b .item d' g f →
    property b c g (.mk e f (Span.between c.current.span.start g.lastEnd))
  member : ∀ {b c d d' e namespaced}, expression (b + 1) .operand c d e →
    Pays S (PropertyName.separator namespaced) d d' →
    Counted S d' d'.advance → d'.current.kind = .identifier →
    expression (b + 1) .operand c d'.advance
      (.member e ⟨d'.current.text, d'.current.span⟩ namespaced
      (Span.between e.span.start d'.current.span.stop))
  call : ∀ {b c d d' g e es}, expression (b + 1) .operand c d e → Pays S (mark "(") d d' →
    Counted S d' g → CommaList S ")" (expression b .item) d' true g es →
    expression (b + 1) .operand c g (.call e es (Span.between e.span.start g.lastEnd))
  index : ∀ {b c d d' g h e i}, expression (b + 1) .operand c d e → Pays S (mark "[") d d' →
    expression b .item d' g i →
    Expected S (mark "]") g h →
      expression (b + 1) .operand c h (.index e i (Span.between e.span.start h.lastEnd))
  bare : ∀ {b c d e}, expression (b + 1) .operand c d e → expression (b + 1) (.layered []) c d e
  unary : ∀ {b c d g op e}, Pays S op.lexeme c d → expression (b + 1) (.layered []) d g e →
    expression (b + 1) (.layered []) c g (applyPrefix (op, c.current.span.start) e)
  tighter : ∀ {b ops layers c d e}, expression (b + 1) (.layered layers) c d e →
    expression (b + 1) (.layered (ops :: layers)) c d e
  binary : ∀ {b ops layers c d d' g op e f}, expression (b + 1) (.layered (ops :: layers)) c d e →
    op ∈ ops → Pays S op.lexeme d d' → expression (b + 1) (.layered layers) d' g f →
    expression (b + 1) (.layered (ops :: layers)) c g (.join op e f)
  unassigned : ∀ {b c d e}, expression (b + 1) (.layered Mode.statement.layers) c d e →
    expression (b + 1) (.inMode .statement) c d e
  assign : ∀ {b c d d' g e f}, expression (b + 1) (.layered Mode.statement.layers) c d e →
    Pays S BinaryOp.assign.lexeme d d' → expression (b + 1) (.inMode .statement) d' g f →
    expression (b + 1) (.inMode .statement) c g (.join .assign e f)
  condition : ∀ {b c d e}, expression (b + 1) (.layered Mode.condition.layers) c d e →
    expression (b + 1) (.inMode .condition) c d e
  inside : ∀ {b c d e}, expression (b + 1) (.inMode .condition) c d e →
    expression (b + 1) .item c d e

namespace Kept

variable {K : Kept S} {k l : Nat}

theorem cost_unexpected {grade : Grade} (h : c.current.kind.isBoundary = false) :
    Cost S k (K.expression l grade c) c (unexpected c.current c) := by
  refine .intro fun hc => .next h fun hgoes => ?_
  have hspan := S.span_token hc.current
  exact .report hspan rfl fun hreport => .pure (K.null hgoes (.refl hreport.supplied) hspan)

variable (hnested : ∀ c, Cost S 1 (K.expression l .item c) c (nested (innerAt l) c))
  (hstrings : ∀ t, S.token t → t.kind = .string →
    Regions (K.expression l .item) (braceRegions t.span.start t.text.toList)
      (interpolations (innerAt l) t))

include hnested

theorem cost_propertyValue :
    Cost S k (fun g e => ∃ d, Counted S c d ∧ (c.Sound g → Steps (operator "->") c d) ∧
    K.expression l .item d g e) c (propertyValue (innerAt l) c) := by
  refine .test rfl ?_
  split
  · next harrow =>
    have hahead := isBoundary_of_isOperator harrow
    refine .next hahead fun hgoes => (hnested _).mono fun he => ⟨_, hgoes, fun _ => ?_, he⟩
    exact lexeme_of_isOperator harrow ▸ steps_advance hahead
  · refine .intro fun hc => .reportHere rfl fun hreport =>
      .test rfl (.pure ⟨c, .refl hc, fun hsound => ?_, ?_⟩)
    · exact absurd hsound.2 (Nat.not_succ_le_self _)
    · exact K.null (.refl hc) (.refl hreport.supplied) (S.span_point (S.start_token hc.current))

theorem cost_propertyItem : Cost S 1 (K.property l c) c (propertyItem (innerAt l) c) := by
  refine .test rfl (.bind (hnested c) fun key d hgoes hkey => ?_)
  refine .bind (cost_propertyValue hnested) fun value g hgoes' ⟨d', harrow, hsteps, hvalue⟩ =>
    .test rfl (.pure ?_)
  exact K.pair (hgoes.trans hgoes') hkey harrow hsteps hvalue

theorem cost_bracketed (hkind : c.current.kind = .punctuation) :
    Cost S k (K.expression (l + 1) .operand c) c (bracketed (innerAt l) c.current c) := by
  have hahead : c.current.kind.isBoundary = false := by
    rw [hkind]
    rfl
  have hlexeme : ∀ {text : String}, c.current.text = text → c.current.lexeme = mark text :=
    fun htext => congrArg₂ Lexeme.mk hkind htext
  unfold bracketed
  split
  · next htext =>
    refine .next hahead fun hgoes => .bind (hnested _) fun e d _ he =>
      .bind (cost_expectMark ")") fun _ g _ hmarks => ?_
    exact .pure (K.group (hlexeme htext) hgoes he hmarks)
  split
  · next htext =>
    refine .next hahead fun hgoes => .bind (cost_items hnested "]")
      fun es d hgoes' hes => .test rfl (.pure ?_)
    exact K.array (hlexeme htext) hgoes hgoes' hes
  split
  · next htext =>
    refine .next hahead fun hgoes => ?_
    refine .bind (cost_items (fun _ => cost_propertyItem hnested) "\x7d")
      fun ps d hgoes' hps => .test rfl (.pure ?_)
    exact K.object (hlexeme htext) hgoes hgoes' hps
  · exact cost_unexpected hahead

theorem cost_suffixStep (he : K.expression (l + 1) .operand c d e) :
    StepCost S (fun _ => K.expression (l + 1) .operand c) d (suffixStep (innerAt l) e d) := by
  refine Cost.test rfl ?_
  split
  · exact .pure ⟨he, nofun⟩
  next hsuffix =>
  have hsuffix : isSuffixStart d.current := by simpa using hsuffix
  refine StepCost.operate (I := fun _ => K.expression (l + 1) .operand c)
    (isBoundary_of_isSuffixStart hsuffix) rfl (fun d' hpays => ?_) rfl fun _ => K.later he
  split
  · next hopen =>
    rw [lexeme_of_isPunctuation hopen] at hpays
    exact .bind (cost_items hnested ")") fun es g hgoes hes =>
      .test rfl (.pure (K.call he hpays hgoes hes))
  split
  · next hopen =>
    rw [lexeme_of_isPunctuation hopen] at hpays
    refine .bind (hnested d') fun i g _ hi => .bind (cost_expectMark "]")
      fun _ h _ hmarks => .test rfl (.pure ?_)
    exact K.index he hpays hi hmarks
  next hcall hindex =>
  refine .test rfl ?_
  split
  · next hname =>
    have hkind := eq_of_beq hname
    rw [((lexeme_of_isSuffixStart hsuffix).resolve_left hcall).resolve_left hindex] at hpays
    exact .next (by rw [hkind]; rfl) fun hgoes => .pure (K.member he hpays hgoes hkind)
  · refine .reportHere rfl fun hgoes =>
      .pure (K.later he ⟨hpays.counted.trans hgoes, fun hsound => ?_⟩)
    exact absurd hsound (hpays.counted.reported (.refl hgoes.supplied))

include hstrings

theorem cost_primary : Cost S k (K.expression (l + 1) .operand c) c (primary (innerAt l) c) := by
  refine .intro fun hc => .test rfl ?_
  have hspan := S.span_token hc.current
  cases hkind : c.current.kind with
  | number => exact .next (by rw [hkind]; rfl) fun hgoes => .pure (K.number hgoes hkind)
  | string =>
    exact .next (by rw [hkind]; rfl) fun hgoes =>
      .pure (K.string hgoes hkind (hstrings _ hc.current hkind))
  | identifier => exact .next (by rw [hkind]; rfl) fun hgoes => .pure (K.identifier hgoes hkind)
  | punctuation => exact cost_bracketed hnested hkind
  | invalid =>
    refine .next (by rw [hkind]; rfl) fun hgoes => .report hspan rfl fun hreport => .pure ?_
    exact K.null hgoes (.refl hreport.supplied) hspan
  | _ =>
    have hpoint := S.span_point (S.start_span hspan)
    first
    | exact .report hpoint rfl fun hreport =>
      .pure (K.null (.refl hc) (.refl hreport.supplied) hpoint)
    | exact cost_unexpected (by rw [hkind]; rfl)

theorem cost_postfixed : Cost S k (K.expression (l + 1) .operand c) c (postfixed (innerAt l) c) :=
  .bind (cost_primary hnested hstrings) fun e d _ he =>
    cost_iterate (I := fun _ => K.expression (l + 1) .operand c)
      (fun _ _ => cost_suffixStep hnested) e d he

omit hnested hstrings

/-- An operator before an operand, which is paid for. -/
def Prefix (S : Supply) (c d : Cursor) (op : UnaryOp × Position) : Prop :=
  Pays S op.1.lexeme c d ∧ op.2 = c.current.span.start

theorem cost_prefixStep {ops : List (UnaryOp × Position)}
    (h : Series (Unmoved S) (Prefix S) c d ops) :
    StepCost S (fun _ => Series (Unmoved S) (Prefix S) c) d (prefixStep ops d) := by
  refine Cost.test rfl ?_
  cases hop : UnaryOp.ofToken? d.current with
  | none => exact .pure ⟨h, nofun⟩
  | some op =>
    refine StepCost.operate (I := fun _ => Series (Unmoved S) (Prefix S) c)
      (by rw [kind_of_ofToken? hop]; rfl) rfl
      (fun g hpays => .pure ?_) rfl fun _ hrests => h.later hrests .trans
    rw [UnaryOp.ofToken?_eq_some_iff.1 hop] at hpays
    exact h.snoc ⟨hpays, rfl⟩ (.refl hpays.supplied)

theorem foldr_applyPrefix {g : Cursor} {ops : List (UnaryOp × Position)}
    (hops : Series (Unmoved S) (Prefix S) c d ops) (he : K.expression (l + 1) (.layered []) d g e) :
    K.expression (l + 1) (.layered []) c g (ops.foldr applyPrefix e) := by
  induction hops generalizing e with
  | nil hrests => exact K.earlier hrests he
  | @snoc d' e' g' ops op _ hop hgap ih =>
    obtain ⟨op, p⟩ := op
    obtain ⟨hpays, rfl⟩ := hop
    rw [foldr_append]
    exact ih (K.unary hpays (K.earlier hgap he))

include hnested hstrings

theorem cost_prefixed :
    Cost S k (K.expression (l + 1) (.layered []) c) c (prefixed (innerAt l) c) := by
  refine .bind (cost_loop (I := fun _ => Series (Unmoved S) (Prefix S) c)
    (fun _ _ => cost_prefixStep) fun hc => .nil (.refl hc)) fun ops d _ hops => ?_
  exact .bind (cost_postfixed hnested hstrings) fun e g _ he =>
    .pure (foldr_applyPrefix hops (K.bare he))

omit hnested hstrings in
theorem cost_layerStep {ops : List BinaryOp} {layers : List (List BinaryOp)} {left : Expression}
    (htighter : ∀ c, Cost S 1 (K.expression (l + 1) (.layered layers) c) c
      (layered (innerAt l) layers c))
    (hleft : K.expression (l + 1) (.layered (ops :: layers)) c d left) :
    StepCost S (fun _ => K.expression (l + 1) (.layered (ops :: layers)) c) d
      (layerStep ops (layered (innerAt l) layers) left d) := by
  refine Cost.test rfl ?_
  cases hop : (BinaryOp.ofToken? d.current).filter ops.contains with
  | none => exact .pure ⟨hleft, nofun⟩
  | some op =>
    obtain ⟨hop, hmem⟩ := Option.filter_eq_some_iff.1 hop
    refine StepCost.operate (I := fun _ => K.expression (l + 1) (.layered (ops :: layers)) c)
      (by rw [kind_of_binaryOp hop]; rfl) rfl (fun d' hpays => ?_) rfl fun _ => K.later hleft
    rw [(BinaryOp.ofToken?_eq_some_iff.1 hop).2] at hpays
    exact .bind (htighter d') fun right g _ hright =>
      .pure (K.binary hleft (by simpa using hmem) hpays hright)

theorem cost_layered (layers : List (List BinaryOp)) :
    Cost S k (K.expression (l + 1) (.layered layers) c) c (layered (innerAt l) layers c) := by
  induction layers generalizing c k with
  | nil => exact cost_prefixed hnested hstrings
  | cons ops layers ih =>
    refine .bind ih fun first d _ hfirst => ?_
    exact cost_iterate (I := fun _ => K.expression (l + 1) (.layered (ops :: layers)) c)
      (fun _ _ => cost_layerStep fun _ => ih) first d (K.tighter hfirst)

omit hnested hstrings

/-- An operand of a chain of assignments, which is paid with its sign. -/
def Assigned (K : Kept S) (l : Nat) (c d : Cursor) (e : Expression) : Prop :=
  ∃ c', Pays S BinaryOp.assign.lexeme c c' ∧
    K.expression (l + 1) (.layered Mode.statement.layers) c' d e

theorem assignAll_snoc (first e f : Expression) (operands : List Expression) :
    assignAll first (operands ++ [e] ++ [f]) = assignAll first
      (operands ++ [.join .assign e f]) := by
  induction operands generalizing first with
  | nil => rfl
  | cons x operands ih => exact congrArg (Expression.join .assign first) (ih x)

theorem assigned_snoc {d' g g' : Cursor} {first : Expression}
    (hoperands : Series (Unmoved S) (K.Assigned l) d d' operands)
    (hfirst : K.expression (l + 1) (.layered Mode.statement.layers) c d first)
    (hpays : Pays S BinaryOp.assign.lexeme d' g')
    (he : K.expression (l + 1) (.inMode .statement) g' g e) :
    K.expression (l + 1) (.inMode .statement) c g (assignAll first (operands ++ [e])) := by
  induction hoperands generalizing e g' with
  | nil hrests => exact K.assign (K.later hfirst hrests) hpays he
  | @snoc d₁ d₂ d₃ operands a _ ha hgap ih =>
    obtain ⟨c₁, hpays₁, ha⟩ := ha
    rw [assignAll_snoc]
    exact ih hpays₁ (K.assign (K.later ha hgap) hpays he)

theorem assigned {g : Cursor} {first : Expression}
    (hfirst : K.expression (l + 1) (.layered Mode.statement.layers) c d first)
    (h : Series (Unmoved S) (K.Assigned l) d g operands) :
    K.expression (l + 1) (.inMode .statement) c g (assignAll first operands) := by
  cases h with
  | nil hrests => exact K.unassigned (K.later hfirst hrests)
  | snoc h ha hgap =>
    obtain ⟨c', hpays, ha⟩ := ha
    exact assigned_snoc h hfirst hpays (K.unassigned (K.later ha hgap))

include hnested hstrings

theorem cost_assignmentStep
    (h : Series (Unmoved S) (K.Assigned l) c d operands) :
    StepCost S (fun _ => Series (Unmoved S) (K.Assigned l) c) d
      (assignmentStep (innerAt l) operands d) := by
  refine Cost.test rfl ?_
  split
  · next hequals =>
    refine StepCost.operate (I := fun _ => Series (Unmoved S) (K.Assigned l) c)
      (isBoundary_of_isOperator hequals) rfl
      (fun g hpays => ?_) rfl fun _ hrests => h.later hrests .trans
    rw [lexeme_of_isOperator hequals] at hpays
    refine .bind (cost_layered hnested hstrings _) fun e g' hgoes he => .pure ?_
    exact h.snoc ⟨g, hpays, he⟩ (.refl hgoes.supplied)
  · exact .pure ⟨h, nofun⟩

theorem cost_inMode (mode : Mode) :
    Cost S k (K.expression (l + 1) (.inMode mode) c) c (inMode (innerAt l) mode c) := by
  cases mode with
  | condition => exact (cost_layered hnested hstrings _).mono K.condition
  | statement =>
    refine .bind (cost_layered hnested hstrings _) fun first d _ hfirst => ?_
    refine .bind (cost_loop (I := fun _ => Series (Unmoved S) (K.Assigned l) d)
      (fun _ _ => cost_assignmentStep hnested hstrings) fun hd => .nil (.refl hd))
        fun operands g _ h => ?_
    exact .pure (assigned hfirst h)

omit hnested hstrings

/-- The braces of a string are read by a parser of their own, from tokens of their own. -/
theorem interpolated {p : Parser Expression} (hp : ∀ c, Cost S 0 (K.expression l .item c) c (p c))
    (ht : S.token t) (hkind : t.kind = .string) :
    Regions (K.expression l .item) (braceRegions t.span.start t.text.toList)
      (interpolations (some p) t) := by
  have hregions := fun (region : Position × List Char) => @S.region t region.1 region.2 ht hkind
  show Regions _ _ ((braceRegions t.span.start t.text.toList).filterMap (regionExpression? p))
  generalize braceRegions t.span.start t.text.toList = regions at hregions
  induction regions with
  | nil => exact .nil
  | cons region regions ih =>
    have hrest := ih fun r hr => hregions r (mem_cons_of_mem _ hr)
    cases hregion : regionExpression? p region with
    | none =>
      rw [filterMap_cons_none hregion]
      exact .skip hrest
    | some e =>
      rw [filterMap_cons_some hregion]
      obtain ⟨hstop, htokens, hchain⟩ := hregions region mem_cons_self
      have hstart : (regionStart region).SuppliedLine S :=
        (supplied_start htokens hchain hstop).line
      obtain ⟨hgoes, hvalue⟩ := (hp (regionStart region) hstart).1
      unfold regionExpression? at hregion
      dsimp only at hregion
      split at hregion
      · cases hregion
      split at hregion
      · next hclean =>
        obtain ⟨hsame, -, hnone⟩ := standalone_of_clean hgoes.line.diagnostics
          (isEmpty_iff.1 hclean)
        have hread : K.expression l .item (regionStart region) (p (regionStart region)).2
            (standalone p (regionStart region)).1 := by
          rw [hsame]
          exact hvalue
        cases hregion
        exact .take hnone hread hrest
      · cases hregion

/-- What stands inside brackets and inside strings, by induction on the levels left. -/
theorem cost_inside (K : Kept S) (l : Nat) :
    (∀ c, Cost S 1 (K.expression l .item c) c (nested (innerAt l) c)) ∧
    ∀ t, S.token t → t.kind = .string →
      Regions (K.expression l .item) (braceRegions t.span.start t.text.toList)
        (interpolations (innerAt l) t) := by
  induction l with
  | zero =>
    refine ⟨fun c => .intro fun hc => ?_, fun t _ _ => ?_⟩
    · have hspan := S.span_token hc.current
      refine .giveUp (fun hc => counted_report hc .nestedTooDeeply hspan)
        (Nat.le_of_eq (countP_cons_of_pos rfl)) fun _ hskip => .pure ?_
      exact K.null (.refl hc) hskip hspan
    · induction braceRegions t.span.start t.text.toList with
      | nil => exact .nil
      | cons _ _ ih => exact .skip ih
  | succ l ih =>
    have hitem : ∀ {k} c, Cost S k (K.expression (l + 1) .item c) c
        (Parser.expression l .condition c) := fun c => by
      rw [expression_eq]
      exact (cost_inMode ih.1 ih.2 .condition).mono K.inside
    exact ⟨hitem, fun t => interpolated hitem⟩

/-- **Expressions.** -/
theorem cost_expression (K : Kept S) (l : Nat) (mode : Mode) :
    Cost S k (K.expression (l + 1) (.inMode mode) c) c (Parser.expression l mode c) := by
  rw [expression_eq]
  exact cost_inMode (K.cost_inside l).1 (K.cost_inside l).2 mode

end Kept

open Expression in
/-- All nodes are of the supply, wherever they are read. -/
def Kept.supplied (S : Supply) : Kept S where
  expression _ _ _ _ e := e.IsSupplied S
  property _ _ _ p := p.IsSupplied S
  earlier _ h := h
  later h _ := h
  null _ _ h := isSupplied_null h
  identifier hgoes hkind := isSupplied_identifier hgoes.source.current hkind
  number hgoes hkind := isSupplied_number hgoes.source.current hkind
  string hgoes hkind hes := .node rfl (S.span_token hgoes.source.current)
    ⟨_, hgoes.source.current, hkind, rfl, rfl⟩
    (isSupplied_of_mem_nodesOfList (hes.forall_mem fun _ _ _ h => h))
  group _ _ h _ := h
  array _ hgoes hgoes' hes := .node rfl (hgoes.trans hgoes').span trivial
    (isSupplied_of_mem_nodesOfList (hes.series.forall_mem fun _ _ _ h => h))
  object _ hgoes hgoes' hps := .node rfl (hgoes.trans hgoes').span trivial
    (Property.isSupplied_of_mem_nodesOfList (hps.series.forall_mem fun _ _ _ h => h))
  pair hgoes he _ _ hf := forall_mem_cons.2 ⟨⟨hgoes.span, trivial⟩, forall_mem_append.2 ⟨he, hf⟩⟩
  member he hpays _ hkind :=
    have hname := hpays.supplied.current
    .node rfl (S.span_between (S.start_span he.span) (S.stop_span (S.span_token hname)))
      ⟨_, hname, hkind, rfl, rfl⟩ he
  call he _ hgoes hes := .node rfl
    (S.span_between (S.start_span he.span) (S.stop_start hgoes.supplied.lastEnd)) trivial
    (forall_mem_append.2
      ⟨he, isSupplied_of_mem_nodesOfList (hes.series.forall_mem fun _ _ _ h => h)⟩)
  index he _ hi hmarks := .node rfl
    (S.span_between (S.start_span he.span) (S.stop_start hmarks.supplied.lastEnd)) trivial
    (forall_mem_append.2 ⟨he, hi⟩)
  bare h := h
  unary hpays he :=
    .node rfl (S.span_between (S.start_token hpays.source.current) (S.stop_span he.span)) trivial he
  tighter h := h
  binary he _ _ hf := isSupplied_join he hf
  unassigned h := h
  assign he _ hf := isSupplied_join he hf
  condition h := h
  inside h := h

/-- Expressions of any depth are read from the supply. -/
theorem reads_expression (levels : Nat) (mode : Mode) :
    Reads S (expression levels mode) (Expression.IsSupplied S) :=
  fun _ => ((Kept.supplied S).cost_expression (k := 0) levels mode).runs

end Parser

end ScriptLint

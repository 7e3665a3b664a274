import ScriptLint.Proofs.DerivedReads

/-!
# What is written is read back

An expression is written with the parentheses that it needs, and read again.  Within the limits of
the parser this gives the expression up to places, without a report.

**Idea.**  `ReadsBack e` says that the written form of `e` is derived wherever it may stand, in
every mode and at every level of brackets that it fits into.  An operand of a greater precedence is
lifted to the looser layers, and one of a smaller precedence stands in parentheses.  What is derived
is read.

**Results.**
* `readsBack`: every expression is read back, by induction over its children.
* `consumes_writtenChain`: chains of assignments, which group to the right.
* `standalone_written`: expressions and chains that fill their line.
-/

namespace ScriptLint

open List Expression
variable {levels : Nat} {mode : Mode} {e : Expression}

namespace Parser

open Lexeme

/-- Tokens with the lexemes derive an expression of the grade, which is the given one up to
places. -/
def Writes (levels : Nat) (grade : Grade) (run : List Lexeme) (n : Nat) (e : Expression) : Prop :=
  ∃ e', Derived grade levels (tokensOf run) n e' ∧ e.SameAs e'

/-- The grade of an operand where a least precedence is asked for. -/
def gradeFrom (mode : Mode) (least : Nat) : Grade :=
  if least = suffixPrecedence then .operand else .layered (mode.layersFrom least)

theorem gradeFrom_eq (mode : Mode) {least : Nat} (h : least ≤ prefixPrecedence) :
    gradeFrom mode least = .layered (mode.layersFrom least) :=
  if_neg (Nat.ne_of_lt (Nat.lt_succ_of_le h))

theorem tokensOf_append (run run' : List Lexeme) :
    tokensOf (run ++ run') = tokensOf run ++ tokensOf run' :=
  map_append

theorem tokensOf_bracketed (first last : Lexeme) (run : List Lexeme) :
    tokensOf (first :: (run ++ [last])) = ⟨first.kind, first.text, .point .origin⟩ ::
      (tokensOf run ++ [⟨last.kind, last.text, .point .origin⟩]) :=
  congrArg (cons _) (tokensOf_append run [last])

theorem map_lexeme_tokensOf (run : List Lexeme) : (tokensOf run).map Token.lexeme = run := by
  rw [tokensOf, map_map]
  exact map_id run

section Writes

variable {n : Nat} {run : List Lexeme} {layers : List (List BinaryOp)}

theorem Writes.intro {grade : Grade} {ts : List Token} {m : Nat} {e' : Expression}
    (h : Derived grade levels ts m e')
    (hts : tokensOf run = ts) (hm : m = n) (hsame : e.SameAs e') : Writes levels grade run n e :=
  ⟨e', hts ▸ hm ▸ h, hsame⟩

theorem Writes.loosen (h : Writes (levels + 1) (.layered layers) run n e)
    (before : List (List BinaryOp)) :
    Writes (levels + 1) (.layered (before ++ layers)) run n e := by
  obtain ⟨e', hderives, hsame⟩ := h
  refine ⟨e', ?_, hsame⟩
  induction before with
  | nil => exact hderives
  | cons ops before ih => exact Derives.tighter ih

/-- What is derived for a precedence is derived where less is asked for. -/
theorem Writes.fits {least precedence : Nat}
    (h : Writes (levels + 1) (.layered (mode.layersFrom precedence)) run n e)
    (hle : least ≤ precedence) (hprecedence : precedence ≤ prefixPrecedence) :
    Writes (levels + 1) (gradeFrom mode least) run n e := by
  obtain ⟨before, hbefore⟩ := mode.layersFrom_suffix hle hprecedence
  rw [gradeFrom_eq mode (hle.trans hprecedence), ← hbefore]
  exact h.loosen before

/-- An operand is derived whatever is asked for. -/
theorem Writes.bare (h : Writes (levels + 1) .operand run n e) (mode : Mode) (least : Nat) :
    Writes (levels + 1) (gradeFrom mode least) run n e := by
  unfold gradeFrom
  split
  · exact h
  · obtain ⟨e', hderives, hsame⟩ := h
    have hlayered : Writes (levels + 1) (.layered []) run n e := ⟨e', .bare hderives, hsame⟩
    rw [← append_nil (mode.layersFrom least)]
    exact hlayered.loosen _

/-- Whatever is derived where an equals sign compares may stand in brackets. -/
theorem Writes.inside (h : Writes (levels + 1) (gradeFrom .condition 0) run n e) :
    Writes (levels + 1) .item run n e := by
  obtain ⟨e', hderives, hsame⟩ := h
  exact ⟨e', .nested (.condition hderives), hsame⟩

theorem Writes.enclosed (h : Writes levels .item run n e) :
    Writes (levels + 1) .operand (mark "(" :: (run ++ [mark ")"])) n e := by
  obtain ⟨e', hderives, hsame⟩ := h
  exact .intro (Derives.group rfl hderives rfl) (tokensOf_bracketed ..) rfl hsame

/-- Items are derived with commas between them. -/
theorem exists_list {x : Item} {written : x.Value → List Lexeme} {operations : x.Value → Nat}
    {bare : x.Value → x.Value} {items : List x.Value} (h : ∀ a ∈ items, ∃ a',
      Derives levels (.item x) (tokensOf (written a)) (operations a) a' ∧ bare a' = bare a) :
    ∃ items', Derives levels (.list x) (tokensOf (commas (items.map written)))
      (items.map operations).sum items' ∧ items'.map bare = items.map bare := by
  induction items with
  | nil => exact ⟨[], .empty, rfl⟩
  | cons a items ih =>
    obtain ⟨⟨a', ha, hsame⟩, hitems⟩ := forall_mem_cons.1 h
    obtain ⟨items', hderives, hrest⟩ := ih hitems
    cases items with
    | nil => exact ⟨[a'], .last ha, congrArg ([·]) hsame⟩
    | cons b items =>
      refine ⟨a' :: items', ?_, congrArg₂ cons hsame hrest⟩
      rw [map_cons, map_cons, commas, tokensOf_append]
      exact .more ha rfl hderives

end Writes

/-- An operand with the lexemes of the expression is derived wherever it may stand. -/
def ReadsBack (e : Expression) : Prop :=
  ∀ mode least levels, deepest 0 (e.operand mode least) ≤ levels →
    Writes (levels + 1) (gradeFrom mode least) (e.operand mode least) e.operations e

section ReadsBack

variable {least : Nat}

theorem ReadsBack.layered (h : ReadsBack e) (hleast : least ≤ prefixPrecedence)
    (hdepth : deepest 0 (e.operand mode least) ≤ levels) :
    Writes (levels + 1) (.layered (mode.layersFrom least)) (e.operand mode least)
      e.operations e := by
  rw [← gradeFrom_eq mode hleast]
  exact h mode least levels hdepth

/-- In brackets no expression needs parentheses. -/
theorem ReadsBack.inside (h : ReadsBack e) (hdepth : deepest 0 (e.written .condition) < levels) :
    Writes levels .item (e.written .condition) e.operations e := by
  obtain ⟨levels, rfl⟩ : ∃ n, levels = n + 1 := ⟨levels - 1, by omega⟩
  exact (h .condition 0 levels (Nat.le_of_lt_succ hdepth)).inside

/-- An operand that needs parentheses is derived in them. -/
theorem readsBack_of_written (h : ∀ mode least levels, e.needsParentheses mode least = false →
      deepest 0 (e.written mode) ≤ levels →
      Writes (levels + 1) (gradeFrom mode least) (e.written mode) e.operations e) :
        ReadsBack e := by
  intro mode least levels hdepth
  cases hneeds : e.needsParentheses mode least with
  | false =>
    rw [operand, hneeds] at hdepth ⊢
    exact h mode least levels hneeds hdepth
  | true =>
    rw [operand, hneeds] at hdepth ⊢
    rw [show deepest 0 (Lexeme.enclose true _ _) =
      _ from (e.balanced_written .condition).deepest_bracketed rfl rfl] at hdepth
    obtain ⟨levels, rfl⟩ : ∃ n, levels = n + 1 := ⟨levels - 1, by omega⟩
    have hfits : e.needsParentheses .condition 0 = false :=
      needsParentheses_eq_false_iff.2 ⟨Nat.zero_le _, nofun⟩
    exact (h .condition 0 levels hfits (Nat.le_of_succ_le_succ hdepth)).inside.enclosed.bare
      mode least

theorem readsBack_of_operand (h : ∀ mode levels, deepest 0 (e.written mode) ≤ levels →
    Writes (levels + 1) .operand (e.written mode) e.operations e) : ReadsBack e :=
  readsBack_of_written fun mode least levels _ hdepth => (h mode levels hdepth).bare mode least

theorem ReadsBack.consumes_expression (h : ReadsBack e)
    (hdepth : deepest 0 (e.written .condition) ≤ levels) :
    Consumes (expression levels .condition) (e.written .condition) e.operations
      (Ends Mode.condition.layers) e.SameAs := by
  obtain ⟨e', hderives, hsame⟩ := h .condition 0 levels hdepth
  have hread := (Derives.condition hderives).consumes
  rw [map_lexeme_tokensOf] at hread
  exact hread.mono (fun _ hl => hl) fun _ he => he.trans hsame

end ReadsBack

section Forms

variable {span : Span}

theorem readsBack_binary {op : BinaryOp} {left right : Expression} (hop : op ≠ .assign)
    (hleft : ReadsBack left) (hright : ReadsBack right) :
    ReadsBack (.binary op left right span) := by
  refine readsBack_of_written fun mode least levels hfits hdepth => ?_
  obtain ⟨hle, hequal⟩ := needsParentheses_eq_false_iff.1 hfits
  obtain ⟨ops, hmem, hops⟩ := mode.exists_layersFrom_eq_cons hop
    (by rintro hmode rfl; exact hequal hmode rfl)
  obtain ⟨hl, hr⟩ := (left.balanced_operand mode op.precedence).deepest_append_le.1 hdepth
  obtain ⟨left', hleft, hsame⟩ := hleft.layered op.precedence_lt.le hl
  obtain ⟨right', hright, hsame'⟩ := hright.layered op.precedence_lt hr
  have hcount : left.operations + (right.operations + 1) =
      (binary op left right span).operations := by
    rw [operations_eq (.binary ..)]
    simp [Node.isOperation, children]
    omega
  rw [hops] at hleft
  have hderives := Derives.binary (t := ⟨.operator, op.text, .point .origin⟩) hleft hmem rfl hright
  rw [← hops] at hderives
  refine Writes.fits (.intro hderives (tokensOf_append ..) hcount ?_) hle op.precedence_lt.le
  exact congrArg₂ (binary op · · default) hsame hsame'

theorem readsBack_unary {argument : Expression} (op : UnaryOp) (h : ReadsBack argument) :
    ReadsBack (.unary op argument span) := by
  refine readsBack_of_written fun mode least levels hfits hdepth => ?_
  obtain ⟨e', hderives, hsame⟩ := h.layered (Nat.le_refl _) hdepth
  have hcount : argument.operations + 1 = (unary op argument span).operations := by
    rw [operations_eq (.unary ..)]
    simp [Node.isOperation, children]
    omega
  have hlayers : mode.layersFrom prefixPrecedence = [] := by cases mode <;> rfl
  rw [hlayers] at hderives
  have hderives := Derives.unary (t := ⟨.operator, op.text, .point .origin⟩) rfl hderives
  rw [← hlayers] at hderives
  exact Writes.fits (.intro hderives rfl hcount (congrArg (unary op · default) hsame))
    (needsParentheses_eq_false_iff.1 hfits).1 (Nat.le_refl _)

theorem readsBack_member {base : Expression} (h : ReadsBack base) (name : PropertyName)
    (namespaced : Bool) : ReadsBack (.member base name namespaced span) := by
  refine readsBack_of_operand fun mode levels hdepth => ?_
  have hcount : base.operations + 1 = (member base name namespaced span).operations := by
    rw [operations_eq (.member ..)]
    simp [Node.isOperation, children]
    omega
  have hdepth := (base.balanced_operand mode suffixPrecedence).deepest_append_le.1 hdepth
  obtain ⟨e', hderives, hsame⟩ := h mode suffixPrecedence levels hdepth.1
  let word : Token := ⟨.identifier, name.text, .point .origin⟩
  exact .intro (Derives.member hderives rfl (rfl : word.kind = .identifier))
    (tokensOf_append ..) hcount
    (congrArg (member · ⟨name.text, default⟩ namespaced default) hsame)

theorem readsBack_call {callee : Expression} {arguments : List Expression} (h : ReadsBack callee)
    (harguments : ∀ x ∈ arguments, ReadsBack x) : ReadsBack (.call callee arguments span) := by
  refine readsBack_of_operand fun mode levels hdepth => ?_
  have hcount : callee.operations + ((arguments.map operations).sum + 1) =
      (call callee arguments span).operations := by
    rw [operations_eq (.call ..)]
    simp [Node.isOperation, children]
    omega
  rw [written_call] at hdepth ⊢
  obtain ⟨hcallee, hdepth⟩ :=
    (callee.balanced_operand mode suffixPrecedence).deepest_append_le.1 hdepth
  obtain ⟨e', hderives, hsame⟩ := h mode suffixPrecedence levels hcallee
  obtain ⟨es, hlist, hmap⟩ := exists_list (x := .expression) fun x hx =>
    (harguments x hx).inside (deepest_written_lt rfl rfl hdepth x hx)
  refine .intro (Derives.call hderives rfl hlist rfl)
    (by rw [tokensOf_append, tokensOf_bracketed]) hcount ?_
  show _ = _
  rw [withoutSpans_call, withoutSpans_call, hmap, hsame]

theorem readsBack_index {base i : Expression} (h : ReadsBack base) (hi : ReadsBack i) :
    ReadsBack (.index base i span) := by
  refine readsBack_of_operand fun mode levels hdepth => ?_
  have hcount : base.operations + (i.operations + 1) =
      (index base i span).operations := by
    rw [operations_eq (.index ..)]
    simp [Node.isOperation, children]
    omega
  obtain ⟨hbase, hdepth⟩ := (base.balanced_operand mode suffixPrecedence).deepest_append_le.1 hdepth
  have hinside := (i.balanced_written .condition).deepest_bracketed
    (show (mark "[").opens from rfl) (show (mark "]").closes from rfl)
  obtain ⟨e', hderives, hsame⟩ := h mode suffixPrecedence levels hbase
  obtain ⟨i', hderives', hsame'⟩ := hi.inside (Nat.le_trans hinside.ge hdepth)
  exact .intro (Derives.index hderives rfl hderives' rfl)
    ((tokensOf_append ..).trans (congrArg _ (tokensOf_bracketed (mark "[") (mark "]") _))) hcount
    (congrArg₂ (index · · default) hsame hsame')

theorem readsBack_array {elements : List Expression} (h : ∀ x ∈ elements, ReadsBack x) :
    ReadsBack (.array elements span) := by
  refine readsBack_of_operand fun mode levels hdepth => ?_
  have hcount : (elements.map operations).sum =
      (array elements span).operations := by
    rw [operations_eq (.array ..)]
    simp [Node.isOperation, children]
  rw [written_array] at hdepth ⊢
  obtain ⟨es, hlist, hmap⟩ := exists_list (x := .expression) fun x hx =>
    (h x hx).inside (deepest_written_lt rfl rfl hdepth x hx)
  refine .intro (Derives.array rfl hlist rfl) (tokensOf_bracketed ..) hcount ?_
  show _ = _
  rw [withoutSpans_array, withoutSpans_array, hmap]

theorem readsBack_object {properties : List Property}
    (h : ∀ x ∈ properties, ReadsBack x.key ∧ ReadsBack x.value) :
    ReadsBack (.object properties span) := by
  refine readsBack_of_operand fun mode levels hdepth => ?_
  have hcount : (properties.map fun x => x.key.operations + x.value.operations).sum =
      (object properties span).operations := by
    rw [operations_eq, sum_children_object]
    simp [Node.isOperation]
  rw [written_object] at hdepth ⊢
  obtain ⟨ps, hlist, hmap⟩ := @exists_list levels .property Property.written
    (fun x => x.key.operations + x.value.operations) Property.withoutSpans properties <| by
      rintro ⟨key, value, place⟩ hx
      obtain ⟨hkey, hvalue⟩ := deepest_property_lt hdepth _ hx
      obtain ⟨key', hderives, hsame⟩ := (h _ hx).1.inside hkey
      obtain ⟨value', hderives', hsame'⟩ := (h _ hx).2.inside hvalue
      refine ⟨.mk key' value' place, ?_, congrArg₂ (Property.mk · · default) hsame hsame'⟩
      exact (tokensOf_append ..).symm ▸ .property hderives rfl hderives' place
  refine .intro (Derives.object rfl hlist rfl) (tokensOf_bracketed ..) hcount ?_
  show _ = _
  rw [withoutSpans_object, withoutSpans_object, hmap]

theorem readsBack_literal {value : LiteralValue} {raw : String} {interpolations : List Expression}
    (h : (literal value raw interpolations span).isPlain) :
    ReadsBack (.literal value raw interpolations span) := by
  refine readsBack_of_operand fun mode levels _ => ?_
  obtain ⟨rfl, rfl | ⟨rfl, hbrace⟩⟩ := h
  · exact ⟨_, Derives.number (t := ⟨_, raw, _⟩) (kind_numberValue raw), rfl⟩
  · refine ⟨_, Derives.string (t := ⟨.string, raw, _⟩) rfl, ?_⟩
    have hnone : ∀ place, Parser.interpolations (innerAt levels) ⟨.string, raw, place⟩ = [] := by
      intro place
      unfold Parser.interpolations
      split
      · rfl
      · rw [braceRegions_eq_nil hbrace]
        rfl
    rw [hnone]
    rfl

/-- Every expression that can be written is read back. -/
theorem readsBack (e : Expression) (he : e.IsWritable) : ReadsBack e := by
  induction e using childInduction with
  | step e ih =>
  obtain ⟨hself, hchildren⟩ := isWritable_iff.1 he
  have ih : ∀ child ∈ e.children, ReadsBack child :=
    fun child hchild => ih child hchild (hchildren child hchild)
  cases e with
  | binary op left right span =>
    obtain ⟨hleft, hright⟩ := forall_mem_cons.1 ih
    exact readsBack_binary hself hleft (forall_mem_singleton.1 hright)
  | unary op argument span => exact readsBack_unary op (forall_mem_singleton.1 ih)
  | member base name namespaced span =>
    exact readsBack_member (forall_mem_singleton.1 ih) name namespaced
  | call callee arguments span =>
    obtain ⟨hcallee, harguments⟩ := forall_mem_cons.1 ih
    exact readsBack_call hcallee harguments
  | index base i span =>
    obtain ⟨hbase, hi⟩ := forall_mem_cons.1 ih
    exact readsBack_index hbase (forall_mem_singleton.1 hi)
  | identifier name span =>
    exact readsBack_of_operand fun _ _ _ =>
      ⟨_, Derives.identifier (t := ⟨.identifier, name, _⟩) rfl, rfl⟩
  | literal value raw interpolations span => exact readsBack_literal hself
  | array elements span => exact readsBack_array ih
  | object properties span =>
    refine readsBack_object fun x hx => ?_
    obtain ⟨hkey, hvalue⟩ := mem_children_object hx
    exact ⟨ih _ hkey, ih _ hvalue⟩

end Forms

theorem ReadsBack.exists_statement {e : Expression} (h : ReadsBack e)
    (hdepth : deepest 0 (e.operand .statement 0) ≤ levels) :
    Writes (levels + 1) (.layered Mode.statement.layers) (e.operand .statement 0)
      e.operations e := by
  exact h.layered (Nat.zero_le _) hdepth

/-- Operands with an equals sign before each are derived. -/
theorem exists_assigned {others : List Expression}
    (h : ∀ e ∈ others, ReadsBack e ∧ deepest 0 (e.operand .statement 0) ≤ levels) :
    ∃ es, Derives levels .assigned
        (tokensOf (others.flatMap fun e => BinaryOp.assign.lexeme :: e.operand .statement 0))
        (others.map fun e => e.operations + 1).sum es ∧
      es.map withoutSpans = others.map withoutSpans := by
  induction others with
  | nil => exact ⟨[], .unassigned, rfl⟩
  | cons e others ih =>
    obtain ⟨⟨he, hdepth⟩, hothers⟩ := forall_mem_cons.1 h
    obtain ⟨e', hderives, hsame⟩ := he.exists_statement hdepth
    obtain ⟨es, hderives', hmap⟩ := ih hothers
    refine ⟨e' :: es, ?_, congrArg₂ cons hsame hmap⟩
    rw [flatMap_cons, tokensOf_append]
    exact .assign rfl hderives hderives'

theorem sameAs_assignChain (first : Expression) (others : List Expression) :
    (first.assignChain others).SameAs (assignAll first others) := by
  induction others generalizing first with
  | nil => rfl
  | cons e others ih =>
    exact congrArg (binary .assign first.withoutSpans · default) (ih e)

/-- Where nothing goes on in a statement, and nothing is assigned, nothing goes on if an equals sign
compares. -/
theorem ends_condition {l : Lexeme} (h : Ends Mode.statement.layers l)
    (hassign : l ≠ BinaryOp.assign.lexeme) :
    Ends Mode.condition.layers l := by
  have hops : ∀ op ∈ Mode.condition.layers.flatten,
      op ∈ Mode.statement.layers.flatten ∨ op.lexeme = BinaryOp.assign.lexeme := by decide
  refine ⟨h.suffix, fun op hop => ?_⟩
  rcases hops op hop with hmem | heq
  · exact h.operator op hmem
  · rwa [heq]

theorem consumes_writtenChain {first : Expression} {others : List Expression}
    (h : ∀ e ∈ first :: others, ReadsBack e)
    (hdepth : deepest 0 (first.writtenChain others) ≤ levels) :
    Consumes (inMode (innerAt levels) .statement) (first.writtenChain others)
      (first.assignChain others).operations
      (fun l => Ends Mode.statement.layers l ∧ l ≠ BinaryOp.assign.lexeme)
        (first.assignChain others).SameAs := by
  have hall : ∀ e ∈ first :: others, ReadsBack e ∧ deepest 0 (e.operand .statement 0) ≤ levels :=
    fun e he => ⟨h e he, deepest_operand_le hdepth e he⟩
  obtain ⟨⟨hfirst, hfirstDepth⟩, hothers⟩ := forall_mem_cons.1 hall
  obtain ⟨first', hderives, hsame⟩ := hfirst.exists_statement hfirstDepth
  obtain ⟨es, hderives', hmap⟩ := exists_assigned hothers
  have hread := (Derives.statement hderives hderives').consumes
  rw [← tokensOf_append, map_lexeme_tokensOf] at hread
  rw [writtenChain_eq, operations_assignChain, ← expression_eq]
  refine hread.mono (fun l hl => ends_condition hl.1 hl.2) fun e he => he.trans ?_
  exact (sameAs_assignAll_of_map hsame hmap).trans (sameAs_assignChain first others)

/-- An expression that fills the line is read from its lexemes without a report. -/
theorem standalone_of_consumes {p : Parser Expression} {run : List Lexeme} {n : Nat}
    {after : Lexeme → Prop} {R : Expression → Prop} (h : Consumes p run n after R)
    (hrun : ∃ l, run.head? = some l ∧ l.kind.isBoundary = false) (hops : n ≤ maxOperations)
    (hafter : after .ending) {tokens : List Token} (htokens : tokens.map Token.lexeme = run)
    (stop : Position) :
    (standalone p (Cursor.start tokens stop)).2.diagnostics = [] ∧
    R (standalone p (Cursor.start tokens stop)).1 := by
  have hahead : (Cursor.start tokens stop).ahead = run ++ [] := by rwa [append_nil]
  exact standalone_of_consumed h hrun hops (by exact hafter) (by rfl) hahead

end Parser

/-- An expression that fills its line, written with the parentheses that it needs, is read back up
to places and without a report, if it applies no more operations and nests no deeper than the
parser allows.  At the top of a statement the same holds of a chain of assignments. -/
theorem standalone_written :
    (∀ (e : Expression) (tokens : List Token) (stop : Position), e.IsWritable →
      e.operations ≤ maxOperations → Lexeme.deepest 0 (e.written .condition) ≤ maxDepth →
      tokens.map Token.lexeme = e.written .condition →
      let result :=
        Parser.standalone (Parser.expression maxDepth .condition) (Cursor.start tokens stop)
      result.2.diagnostics = [] ∧ result.1.withoutSpans = e.withoutSpans) ∧
    (∀ (first : Expression) (others : List Expression) (tokens : List Token) (stop : Position),
      (∀ e ∈ first :: others, e.IsWritable) →
      (first.assignChain others).operations ≤ maxOperations →
      Lexeme.deepest 0 (first.writtenChain others) ≤ maxDepth →
      tokens.map Token.lexeme = first.writtenChain others →
      let result :=
        Parser.standalone (Parser.expression maxDepth .statement) (Cursor.start tokens stop)
      result.2.diagnostics = [] ∧
        result.1.withoutSpans = (first.assignChain others).withoutSpans) := by
  constructor
  · intro e tokens stop he hops hdepth htokens
    have hread := (Parser.readsBack e he).consumes_expression hdepth
    obtain ⟨l, hhead, hl⟩ := e.head?_written .condition
    have hends : Parser.Ends Mode.condition.layers .ending := ⟨by decide, by decide⟩
    exact Parser.standalone_of_consumes hread ⟨l, hhead, (Parser.not_closes_of_begins hl).2⟩ hops
      hends htokens stop
  · intro first others tokens stop hall hops hdepth htokens
    have hread := Parser.consumes_writtenChain (fun e he => Parser.readsBack e (hall e he)) hdepth
    rw [← Parser.expression_eq] at hread
    obtain ⟨l, hhead, hl⟩ := first.head?_operand .statement 0
    have hhead : (first.writtenChain others).head? = some l := by
      rw [writtenChain_eq]
      simp [hhead]
    have hends : Parser.Ends Mode.statement.layers .ending ∧ .ending ≠ BinaryOp.assign.lexeme :=
      ⟨⟨by decide, by decide⟩, by decide⟩
    exact Parser.standalone_of_consumes hread ⟨l, hhead, (Parser.not_closes_of_begins hl).2⟩ hops
      hends htokens stop

/-- A sum in parentheses with an index that is negated. -/
def indexedSum : Expression :=
  .index (.binary .add (.identifier "a" default) (.identifier "b" default) default)
    (.unary .negate (.identifier "x" default) default) default

/-- A comparison and the negation of a call. -/
def comparison : Expression :=
  .binary .and (.binary .equal (.identifier "a" default) (.identifier "b" default) default)
    (.unary .not (.call (.identifier "f" default) [.array [] default] default) default) default

/-- The comparison where an equals sign compares. -/
def comparisonLexemes : List Lexeme :=
  [⟨.identifier, "a"⟩, .operator "=", ⟨.identifier, "b"⟩, .operator "and", .operator "not",
    ⟨.identifier, "f"⟩, .mark "(", .mark "[", .mark "]", .mark ")"]

/-- The comparison assigned to the sum, so that its equals sign stands in parentheses. -/
def assignmentLexemes : List Lexeme :=
  [.mark "(", ⟨.identifier, "a"⟩, .operator "+", ⟨.identifier, "b"⟩, .mark ")", .mark "[",
    .operator "-", ⟨.identifier, "x"⟩, .mark "]", .operator "=", .mark "(", ⟨.identifier, "a"⟩,
    .operator "=", ⟨.identifier, "b"⟩, .mark ")", .operator "and", .operator "not",
    ⟨.identifier, "f"⟩, .mark "(", .mark "[", .mark "]", .mark ")"]

theorem standalone_written_assignment :
    (let result := Parser.standalone (Parser.expression maxDepth .condition)
      (Cursor.start (tokensOf comparisonLexemes) Position.origin)
    result.2.diagnostics = [] ∧ result.1.withoutSpans = comparison) ∧
    (let result := Parser.standalone (Parser.expression maxDepth .statement)
      (Cursor.start (tokensOf assignmentLexemes) Position.origin)
    result.2.diagnostics = [] ∧
      result.1.withoutSpans = .binary .assign indexedSum comparison default) := by
  have hwritable : ∀ e ∈ [indexedSum, comparison], e.IsWritable := by
    simp [indexedSum, comparison, IsWritable, nodes, nodesOfList,
      isPlain]
  constructor
  · exact standalone_written.1 comparison _ Position.origin (hwritable _ (by simp)) (by decide)
      (by decide) rfl
  · exact standalone_written.2 indexedSum [comparison] _ Position.origin hwritable (by decide)
      (by decide) rfl

end ScriptLint

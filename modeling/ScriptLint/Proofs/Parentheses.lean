import ScriptLint.Proofs.WrittenForm

/-!
# Expressions with the parentheses they need

**Parentheses.**  An operand is put in parentheses when it binds less tightly than its operator
asks for: as tightly as the operator on its left, and more tightly on its right.  At the top of a
statement an equals sign assigns, so that a comparison for equality stands in parentheses there.

**Limits.**  The brackets that are open at once are counted on the lexemes, and the operations on
the tree.  Written forms are balanced, so that their brackets can be counted part by part.

**Layers.**  `Mode.layersFrom` are the layers of operators that bind at least as tightly as a
precedence; what is written without parentheses there is read by these layers.
-/

namespace ScriptLint

open List

variable {e : Expression} {items : List (List Lexeme)} {n : Nat}

namespace Lexeme

/-- The greatest number of brackets open at once, when `depth` are open at the start. -/
def deepest : (depth : Nat) → List Lexeme → Nat
  | depth, [] => depth
  | depth, l :: rest =>
    if l.opens then deepest (depth + 1) rest
    else if l.closes then max depth (deepest (depth - 1) rest)
    else deepest depth rest

theorem le_deepest (depth : Nat) (run : List Lexeme) : depth ≤ deepest depth run := by
  induction run generalizing depth with
  | nil => exact Nat.le_refl _
  | cons l rest ih =>
    rw [deepest]
    split
    · exact Nat.le_trans (Nat.le_succ _) (ih _)
    · split
      · exact Nat.le_max_left _ _
      · exact ih _

/-- The brackets of the run are closed in it, and it closes no others. -/
def Balanced (run : List Lexeme) : Prop :=
  ∀ depth rest, deepest depth (run ++ rest) = max (depth + deepest 0 run) (deepest depth rest)

section Balance

variable {run run' : List Lexeme} {l first last : Lexeme}

theorem balanced_nil : Balanced [] :=
  fun depth rest => (Nat.max_eq_right (le_deepest depth rest)).symm

theorem Balanced.deepest_append (h : Balanced run) (run' : List Lexeme) :
    deepest 0 (run ++ run') = max (deepest 0 run) (deepest 0 run') := by
  rw [h, Nat.zero_add]

theorem Balanced.deepest_append_le (h : Balanced run) :
    deepest 0 (run ++ run') ≤ n ↔ deepest 0 run ≤ n ∧ deepest 0 run' ≤ n := by
  rw [h.deepest_append, Nat.max_le]

theorem Balanced.append (h : Balanced run) (h' : Balanced run') : Balanced (run ++ run') := by
  intro depth rest
  rw [append_assoc, h, h', h.deepest_append]
  omega

theorem deepest_plain (hopens : l.opens = false) (hcloses : l.closes = false) (depth : Nat)
    (rest : List Lexeme) : deepest depth (l :: rest) = deepest depth rest := by
  rw [deepest]
  simp [hopens, hcloses]

theorem Balanced.plain (hopens : l.opens = false) (hcloses : l.closes = false)
    (h : Balanced run) : Balanced (l :: run) := by
  intro depth rest
  rw [cons_append, deepest_plain hopens hcloses, deepest_plain hopens hcloses, h]

theorem deepest_close (hlast : last.closes) (depth : Nat) (rest : List Lexeme) :
    deepest (depth + 1) (last :: rest) = max (depth + 1) (deepest depth rest) := by
  rcases (closes_iff last).1 hlast with rfl | rfl | rfl <;> rfl

theorem deepest_open (hfirst : first.opens) (depth : Nat) (rest : List Lexeme) :
    deepest depth (first :: rest) = deepest (depth + 1) rest := by
  rw [deepest, if_pos hfirst]

/-- A bracket adds one level to what stands inside. -/
theorem Balanced.deepest_bracketed (h : Balanced run) (hfirst : first.opens) (hlast : last.closes) :
    deepest 0 (first :: (run ++ [last])) = deepest 0 run + 1 := by
  rw [deepest_open hfirst, h, deepest_close hlast]
  simp only [deepest]
  omega

theorem Balanced.bracketed (h : Balanced run) (hfirst : first.opens) (hlast : last.closes) :
    Balanced (first :: (run ++ [last])) := by
  intro depth rest
  rw [h.deepest_bracketed hfirst hlast, cons_append, append_assoc, singleton_append,
    deepest_open hfirst, h, deepest_close hlast]
  omega

theorem balanced_commas (h : ∀ item ∈ items, Balanced item) : Balanced (commas items) := by
  induction items with
  | nil => exact balanced_nil
  | cons item items ih =>
    obtain ⟨hitem, hitems⟩ := forall_mem_cons.1 h
    cases items with
    | nil => exact hitem
    | cons next rest => exact hitem.append ((ih hitems).plain rfl rfl)

/-- An item is nested no deeper than the whole list. -/
theorem deepest_le_commas (h : ∀ item ∈ items, Balanced item) :
    ∀ item ∈ items, deepest 0 item ≤ deepest 0 (commas items) := by
  induction items with
  | nil => simp
  | cons item items ih =>
    obtain ⟨hitem, hitems⟩ := forall_mem_cons.1 h
    cases items with
    | nil => exact forall_mem_singleton.2 (Nat.le_refl _)
    | cons next rest =>
      have hwhole : deepest 0 (commas (item :: next :: rest)) =
          max (deepest 0 item) (deepest 0 (commas (next :: rest))) := by
        rw [commas, hitem.deepest_append, deepest_plain rfl rfl]
      rw [hwhole]
      refine forall_mem_cons.2 ⟨Nat.le_max_left _ _, fun other hother => ?_⟩
      exact Nat.le_trans (ih hitems other hother) (Nat.le_max_right _ _)

/-- The items inside a bracket are nested less deeply than the whole. -/
theorem deepest_item_lt (h : ∀ item ∈ items, Balanced item) (hfirst : first.opens)
    (hlast : last.closes)
    (hdepth : deepest 0 (first :: (commas items ++ [last])) ≤ n) :
    ∀ item ∈ items, deepest 0 item < n := by
  intro item hitem
  rw [(balanced_commas h).deepest_bracketed hfirst hlast] at hdepth
  exact Nat.lt_of_le_of_lt (deepest_le_commas h item hitem) hdepth

end Balance

end Lexeme

namespace Expression

open Lexeme

/-- The operand needs parentheses where an operator asks for a least precedence. -/
def needsParentheses (mode : Mode) (least : Nat) (e : Expression) : Bool :=
  e.precedence < least || mode == .statement && e.precedence == BinaryOp.equal.precedence

/-- The lexemes of an expression with the parentheses that it needs. -/
def written (mode : Mode) (e : Expression) : List Lexeme :=
  e.write needsParentheses mode

/-- The lexemes of an operand where a least precedence is asked for. -/
def operand (mode : Mode) (least : Nat) (e : Expression) : List Lexeme :=
  enclose (e.needsParentheses mode least) (e.written .condition) (e.written mode)

/-- The expression is written as it is read: no assignment, and literals whose values are those of
their texts, without expressions inside strings. -/
def isPlain : Expression → Prop
  | binary op _ _ _ => op ≠ .assign
  | literal value raw interpolations _ =>
    interpolations = [] ∧
      (value = Parser.numberValue raw ∨ value = .string (Parser.stringValue raw) ∧ '{' ∉ raw.toList)
  | _ => True

/-- All expressions of the tree are written as they are read. -/
def IsWritable (e : Expression) : Prop :=
  ∀ x, .expression x ∈ e.nodes → x.isPlain

theorem isWritable_iff : e.IsWritable ↔ e.isPlain ∧ ∀ child ∈ e.children, child.IsWritable := by
  constructor
  · intro h
    refine ⟨h e (mem_nodes_iff.2 (.inl rfl)), fun child hchild x hx => ?_⟩
    exact h x (mem_nodes_iff.2 (.inr ⟨child, hchild, hx⟩))
  · rintro ⟨hself, hchildren⟩ x hx
    rcases mem_nodes_iff.1 hx with rfl | ⟨child, hchild, hx⟩
    · exact hself
    · exact hchildren child hchild x hx

end Expression

/-- The lexemes of a property with the parentheses that it needs. -/
def Property.written (property : Property) : List Lexeme :=
  property.write Expression.needsParentheses

/-- The node applies an operation. -/
def Node.isOperation : Node → Bool
  | expression (.binary _ _ _ _) | expression (.unary _ _ _) | expression (.member _ _ _ _)
  | expression (.call _ _ _) | expression (.index _ _ _) => true
  | _ => false

/-- How many operations the expression applies. -/
def Expression.operations (e : Expression) : Nat :=
  e.nodes.countP Node.isOperation

theorem Expression.operations_eq (e : Expression) :
    e.operations = (if Node.isOperation (.expression e) then 1 else 0) +
      (e.children.map operations).sum :=
  countP_nodes (fun _ => rfl) e

mutual

/-- The expression without its places. -/
def Expression.withoutSpans : Expression → Expression
  | .binary op left right _ => .binary op left.withoutSpans right.withoutSpans default
  | .unary op argument _ => .unary op argument.withoutSpans default
  | .member object name namespaced _ =>
    .member object.withoutSpans ⟨name.text, default⟩ namespaced default
  | .call callee arguments _ =>
    .call callee.withoutSpans (Expression.withoutSpansEach arguments) default
  | .index object index _ => .index object.withoutSpans index.withoutSpans default
  | .identifier name _ => .identifier name default
  | .literal value raw interpolations _ =>
    .literal value raw (Expression.withoutSpansEach interpolations) default
  | .array elements _ => .array (Expression.withoutSpansEach elements) default
  | .object properties _ => .object (Property.withoutSpansEach properties) default

/-- The expressions without their places. -/
def Expression.withoutSpansEach : List Expression → List Expression
  | [] => []
  | e :: rest => e.withoutSpans :: Expression.withoutSpansEach rest

/-- The property without its places. -/
def Property.withoutSpans : Property → Property
  | .mk key value _ => .mk key.withoutSpans value.withoutSpans default

/-- The properties without their places. -/
def Property.withoutSpansEach : List Property → List Property
  | [] => []
  | property :: rest => property.withoutSpans :: Property.withoutSpansEach rest

end

theorem Expression.withoutSpansEach_eq_map (es : List Expression) :
    withoutSpansEach es = es.map withoutSpans := by
  induction es with
  | nil => rfl
  | cons e es ih => exact congrArg (_ :: ·) ih

theorem Property.withoutSpansEach_eq_map (properties : List Property) :
    withoutSpansEach properties = properties.map withoutSpans := by
  induction properties with
  | nil => rfl
  | cons property properties ih => exact congrArg (_ :: ·) ih

theorem BinaryOp.precedence_lt (op : BinaryOp) : op.precedence < prefixPrecedence := by
  cases op <;> decide

namespace Expression

open Lexeme

theorem withoutSpans_call (callee : Expression) (arguments : List Expression) (span : Span) :
    (call callee arguments span).withoutSpans =
      call callee.withoutSpans (arguments.map withoutSpans) default := by
  rw [withoutSpans, withoutSpansEach_eq_map]

theorem withoutSpans_array (elements : List Expression) (span : Span) :
    (array elements span).withoutSpans = array (elements.map withoutSpans) default := by
  rw [withoutSpans, withoutSpansEach_eq_map]

theorem withoutSpans_object (properties : List Property) (span : Span) :
    (object properties span).withoutSpans =
      object (properties.map Property.withoutSpans) default := by
  rw [withoutSpans, Property.withoutSpansEach_eq_map]

section Forms

variable (mode : Mode)

theorem written_call (callee : Expression) (arguments : List Expression) (span : Span) :
    (call callee arguments span).written mode = callee.operand mode suffixPrecedence ++
      mark "(" :: (commas (arguments.map (written .condition)) ++ [mark ")"]) := by
  unfold written
  rw [write, writeEach_eq_map]
  rfl

theorem written_array (elements : List Expression) (span : Span) :
    (array elements span).written mode =
      mark "[" :: (commas (elements.map (written .condition)) ++ [mark "]"]) := by
  unfold written
  rw [write, writeEach_eq_map]

theorem written_object (properties : List Property) (span : Span) :
    (object properties span).written mode =
      mark "\x7b" :: (commas (properties.map Property.written) ++ [mark "\x7d"]) := by
  unfold written
  rw [write, Property.writeEach_eq_map]
  rfl

theorem balanced_operand_of_written (h : ∀ mode, Balanced (e.written mode)) (least : Nat) :
    Balanced (e.operand mode least) := by
  unfold operand
  cases e.needsParentheses mode least with
  | false => exact h mode
  | true => exact (h .condition).bracketed rfl rfl

end Forms

/-- The key and the value of a property are children of the object. -/
theorem mem_children_object {properties : List Property} {property : Property} {span : Span}
    (h : property ∈ properties) :
    property.key ∈ (object properties span).children ∧
      property.value ∈ (object properties span).children := by
  constructor <;> exact mem_flatMap.2 ⟨property, h, by simp⟩

theorem balanced_written (e : Expression) : ∀ mode, Balanced (e.written mode) := by
  induction e using childInduction with
  | step e ih =>
  intro mode
  cases e with
  | binary op left right span =>
    obtain ⟨hleft, hright⟩ := forall_mem_cons.1 ih
    have hright := forall_mem_singleton.1 hright
    refine (balanced_operand_of_written mode hleft _).append ?_
    exact (balanced_operand_of_written mode hright _).plain rfl rfl
  | unary op argument span =>
    have hargument := forall_mem_singleton.1 ih
    exact (balanced_operand_of_written mode hargument _).plain rfl rfl
  | member base name namespaced span =>
    have hbase := forall_mem_singleton.1 ih
    refine (balanced_operand_of_written mode hbase _).append ?_
    refine Balanced.plain ?_ ?_ (.plain rfl rfl balanced_nil) <;> cases namespaced <;> rfl
  | call callee arguments span =>
    obtain ⟨hcallee, harguments⟩ := forall_mem_cons.1 ih
    rw [written_call]
    refine (balanced_operand_of_written mode hcallee _).append ?_
    refine .bracketed (balanced_commas ?_) rfl rfl
    exact forall_mem_map.2 fun argument hargument => harguments argument hargument .condition
  | index base i span =>
    obtain ⟨hbase, hindex⟩ := forall_mem_cons.1 ih
    have hindex := forall_mem_singleton.1 hindex
    refine (balanced_operand_of_written mode hbase _).append ?_
    exact .bracketed (hindex .condition) rfl rfl
  | identifier name span => exact balanced_nil.plain rfl rfl
  | literal value raw interpolations span =>
    cases value <;> exact balanced_nil.plain rfl rfl
  | array elements span =>
    rw [written_array]
    refine .bracketed (balanced_commas ?_) rfl rfl
    exact forall_mem_map.2 fun element helement => ih element helement .condition
  | object properties span =>
    rw [written_object]
    refine .bracketed (balanced_commas (forall_mem_map.2 ?_)) rfl rfl
    rintro ⟨key, value, place⟩ hproperty
    obtain ⟨hkey, hvalue⟩ := mem_children_object hproperty
    exact (ih key hkey .condition).append ((ih value hvalue .condition).plain rfl rfl)

theorem deepest_written_lt {es : List Expression} {first last : Lexeme}
    (hfirst : first.opens) (hlast : last.closes)
    (hdepth : deepest 0 (first :: (commas (es.map (written .condition)) ++ [last])) ≤ n) :
    ∀ e ∈ es, deepest 0 (e.written .condition) < n := by
  intro e he
  refine deepest_item_lt ?_ hfirst hlast hdepth _ (mem_map_of_mem he)
  exact forall_mem_map.2 fun e _ => e.balanced_written .condition

theorem balanced_property (property : Property) : Balanced property.written := by
  obtain ⟨key, value, span⟩ := property
  exact (key.balanced_written .condition).append ((value.balanced_written .condition).plain rfl rfl)

theorem deepest_property_lt {properties : List Property}
    (hdepth : deepest 0
      (mark "\x7b" :: (commas (properties.map Property.written) ++ [mark "\x7d"])) ≤ n) :
    ∀ x ∈ properties, deepest 0 (x.key.written .condition) < n ∧
      deepest 0 (x.value.written .condition) < n := by
  intro x hx
  have hitem : deepest 0 x.written < n := by
    refine deepest_item_lt ?_ rfl rfl hdepth _ (mem_map_of_mem hx)
    exact forall_mem_map.2 fun x _ => balanced_property x
  obtain ⟨key, value, span⟩ := x
  have hsplit : deepest 0 (Property.mk key value span).written =
      max (deepest 0 (key.written .condition)) (deepest 0 (value.written .condition)) :=
    (key.balanced_written .condition).deepest_append _
  rwa [hsplit, Nat.max_lt] at hitem

theorem balanced_operand (e : Expression) (mode : Mode) (least : Nat) :
    Balanced (e.operand mode least) :=
  balanced_operand_of_written mode e.balanced_written least

/-- What an expression may begin with: an operator only where operators may stand before it. -/
def Begins (precedence : Nat) (l : Lexeme) : Prop :=
  l.kind ∈ [.identifier, .number, .string] ∨ l.opens ∨
    precedence < suffixPrecedence ∧ ∃ op : UnaryOp, l = op.lexeme

theorem Begins.mono {precedence precedence' : Nat} {l : Lexeme} (h : Begins precedence' l)
    (hle : precedence ≤ precedence') : Begins precedence l := by
  rcases h with h | h | ⟨hlt, hop⟩
  · exact .inl h
  · exact .inr (.inl h)
  · exact .inr (.inr ⟨Nat.lt_of_le_of_lt hle hlt, hop⟩)

theorem needsParentheses_eq_false_iff {mode : Mode} {least : Nat} :
    e.needsParentheses mode least = false ↔
      least ≤ e.precedence ∧ (mode = .statement → e.precedence ≠ BinaryOp.equal.precedence) := by
  simp [needsParentheses]

/-- An operand begins as an expression of the least precedence does, if its written form begins as
an expression of its own precedence does. -/
theorem head?_operand_of_written (mode : Mode) (least : Nat)
    (h : ∀ mode, ∃ l, (e.written mode).head? = some l ∧ Begins e.precedence l) :
    ∃ l, (e.operand mode least).head? = some l ∧ Begins least l := by
  unfold operand
  cases hneeds : e.needsParentheses mode least with
  | true => exact ⟨_, rfl, .inr (.inl rfl)⟩
  | false =>
    obtain ⟨l, hhead, hl⟩ := h mode
    exact ⟨l, hhead, hl.mono (needsParentheses_eq_false_iff.1 hneeds).1⟩

/-- A written form begins with an operand, a bracket or an operator before an operand. -/
theorem head?_written (e : Expression) (mode : Mode) :
    ∃ l, (e.written mode).head? = some l ∧ Begins e.precedence l := by
  induction e using childInduction generalizing mode with
  | step e ih =>
  have hoperand : ∀ child ∈ e.children, ∀ least rest,
      ∃ l, (child.operand mode least ++ rest).head? = some l ∧ Begins least l := by
    intro child hchild least rest
    obtain ⟨l, hhead, hl⟩ := head?_operand_of_written mode least (ih child hchild)
    exact ⟨l, by simp [hhead], hl⟩
  cases e with
  | binary op left right span => exact hoperand left mem_cons_self _ _
  | unary op argument span => exact ⟨_, rfl, .inr (.inr ⟨Nat.lt_succ_self _, op, rfl⟩)⟩
  | member base name namespaced span => exact hoperand base mem_cons_self _ _
  | call callee arguments span => exact hoperand callee mem_cons_self _ _
  | index base i span => exact hoperand base mem_cons_self _ _
  | identifier name span => exact ⟨_, rfl, .inl mem_cons_self⟩
  | literal value raw interpolations span =>
    refine ⟨_, rfl, .inl ?_⟩
    cases value <;> simp [LiteralValue.kind]
  | array elements span => exact ⟨_, rfl, .inr (.inl rfl)⟩
  | object properties span => exact ⟨_, rfl, .inr (.inl rfl)⟩

theorem head?_operand (e : Expression) (mode : Mode) (least : Nat) :
    ∃ l, (e.operand mode least).head? = some l ∧ Begins least l :=
  head?_operand_of_written mode least e.head?_written

/-- A chain of assignments, which groups to the right. -/
def assignChain : Expression → List Expression → Expression
  | first, [] => first
  | first, e :: rest => .binary .assign first (assignChain e rest) default

/-- The lexemes of a chain of assignments, with an equals sign between its operands. -/
def writtenChain : Expression → List Expression → List Lexeme
  | first, [] => first.operand .statement 0
  | first, e :: rest => first.operand .statement 0 ++ BinaryOp.assign.lexeme :: writtenChain e rest

theorem writtenChain_eq (first : Expression) (others : List Expression) :
    first.writtenChain others = first.operand .statement 0 ++
      others.flatMap fun e => BinaryOp.assign.lexeme :: e.operand .statement 0 := by
  induction others generalizing first with
  | nil => simp [writtenChain]
  | cons e others ih => simp [writtenChain, ih]

theorem operations_assignChain (first : Expression) (others : List Expression) :
    (first.assignChain others).operations =
      first.operations + (others.map fun e => e.operations + 1).sum := by
  induction others generalizing first with
  | nil => rfl
  | cons e others ih =>
    rw [assignChain, operations_eq]
    simp [Node.isOperation, children, ih]
    omega

theorem deepest_operand_le {first : Expression} {others : List Expression}
    (hdepth : deepest 0 (first.writtenChain others) ≤ n) :
    ∀ e ∈ first :: others, deepest 0 (e.operand .statement 0) ≤ n := by
  induction others generalizing first with
  | nil => exact forall_mem_singleton.2 hdepth
  | cons e others ih =>
    obtain ⟨hfirst, hrest⟩ := (first.balanced_operand .statement 0).deepest_append_le.1 hdepth
    exact forall_mem_cons.2 ⟨hfirst, ih hrest⟩

end Expression

namespace Mode

/-- The layers of a mode whose operators bind at least that tightly. -/
def layersFrom (mode : Mode) (least : Nat) : List (List BinaryOp) :=
  mode.layers.filter fun ops => ops.all fun op => least ≤ op.precedence

/-- An operator is in the first of the layers that bind as tightly as it does. -/
theorem exists_layersFrom_eq_cons (mode : Mode) {op : BinaryOp} (hassign : op ≠ .assign)
    (hequal : mode = .statement → op ≠ .equal) :
    ∃ ops, op ∈ ops ∧
      mode.layersFrom op.precedence = ops :: mode.layersFrom (op.precedence + 1) := by
  cases mode <;> cases op <;> first | exact ⟨_, by decide, rfl⟩ | simp at hassign hequal

/-- The layers that bind more tightly come last. -/
theorem layersFrom_suffix (mode : Mode) {least least' : Nat} (h : least ≤ least')
    (h' : least' ≤ prefixPrecedence) : mode.layersFrom least' <:+ mode.layersFrom least := by
  have hall : ∀ m ∈ [condition, statement], ∀ b ≤ prefixPrecedence, ∀ a ≤ b,
      m.layersFrom b <:+ m.layersFrom a := by decide
  exact hall mode (by cases mode <;> decide) least' h' least h

end Mode

end ScriptLint

import ScriptLint.Parse.Expression
import ScriptLint.Tree.Node
import Mathlib.Algebra.GroupWithZero.Nat

/-!
# Expressions as they are written

**Lexemes.**  A lexeme is a token without its place.  What a parser does with a token, other than
to name a place, it decides by the lexeme.

**Writing.**  An expression is written from left to right as its lexemes.  Which operands are put
in parentheses is a parameter: without any, the lexemes are those that the tree itself stands for;
with those that the order of the operators asks for, the expression can be read back.

**Trees.**  The expressions right under an expression are its children, whatever its form.  Facts
about all nodes of a tree, and inductions over trees, go through them.
-/

namespace ScriptLint

open List

/-- A token without its place. -/
structure Lexeme where
  kind : Token.Kind
  text : String
deriving DecidableEq, Repr

namespace Lexeme

/-- A punctuation mark. -/
def mark (text : String) : Lexeme :=
  ⟨.punctuation, text⟩

/-- An operator. -/
def operator (text : String) : Lexeme :=
  ⟨.operator, text⟩

/-- What stands past the last token. -/
def ending : Lexeme :=
  ⟨.endOfInput, ""⟩

/-- The lexeme opens a bracket. -/
def opens (l : Lexeme) : Bool :=
  l.kind == .punctuation && ["(", "[", "\x7b"].contains l.text

/-- The lexeme closes a bracket. -/
def closes (l : Lexeme) : Bool :=
  l.kind == .punctuation && [")", "]", "\x7d"].contains l.text

theorem closes_iff (l : Lexeme) : l.closes ↔ l = mark ")" ∨ l = mark "]" ∨ l = mark "\x7d" := by
  obtain ⟨kind, text⟩ := l
  simp only [closes, mark, Bool.and_eq_true, beq_iff_eq]
  constructor
  · rintro ⟨rfl, h⟩
    simpa using h
  · rintro (⟨rfl, rfl⟩ | ⟨rfl, rfl⟩ | ⟨rfl, rfl⟩) <;> simp

/-- Lists of lexemes with commas between them. -/
def commas : List (List Lexeme) → List Lexeme
  | [] => []
  | [item] => item
  | item :: next :: rest => item ++ mark "," :: commas (next :: rest)

/-- Lexemes in parentheses, or others without them. -/
def enclose : Bool → (inside outside : List Lexeme) → List Lexeme
  | true, inside, _ => mark "(" :: (inside ++ [mark ")"])
  | false, _, outside => outside

/-- Commas stand after all items but the last. -/
theorem commas_append_singleton (items : List (List Lexeme)) (last : List Lexeme) :
    commas (items ++ [last]) = items.flatMap (· ++ [mark ","]) ++ last := by
  induction items with
  | nil => rfl
  | cons item items ih =>
    cases items with
    | nil => simp [commas]
    | cons next rest =>
      rw [cons_append, cons_append, commas, ← cons_append, ih]
      simp

end Lexeme

/-- The token without its place. -/
def Token.lexeme (t : Token) : Lexeme :=
  ⟨t.kind, t.text⟩

theorem Token.lexeme_of_kind {t : Token} {kind : Kind} (h : t.kind = kind) :
    t.lexeme = ⟨kind, t.text⟩ :=
  congrArg (Lexeme.mk · _) h

theorem Token.isPunctuation_eq (t : Token) (text : String) :
    t.isPunctuation text = decide (t.lexeme = .mark text) := by
  simp [isPunctuation, lexeme, Lexeme.mark, Bool.beq_eq_decide_eq]

theorem Token.isOperator_eq (t : Token) (text : String) :
    t.isOperator text = decide (t.lexeme = .operator text) := by
  simp [isOperator, lexeme, Lexeme.operator, Bool.beq_eq_decide_eq]

/-- Tokens with the lexemes, all at one place. -/
def tokensOf (lexemes : List Lexeme) : List Token :=
  lexemes.map fun l => ⟨l.kind, l.text, Span.point Position.origin⟩

namespace Cursor

/-- The lexemes of the tokens that are left. -/
def ahead (c : Cursor) : List Lexeme :=
  c.rest.map Token.lexeme

/-- The lexeme of the next token is the first one ahead. -/
theorem lexeme_current (c : Cursor) : c.current.lexeme = c.ahead.headD .ending := by
  unfold Cursor.current Cursor.ahead
  cases c.rest <;> rfl

theorem left_eq_length_ahead (c : Cursor) : c.left = c.ahead.length := by
  rw [c.left_eq, ahead, length_map]

end Cursor

namespace BinaryOp

/-- How tightly the operator binds its operands. -/
def precedence : BinaryOp → Nat
  | assign => 0
  | or => 1
  | and => 2
  | equal => 3
  | less | greater | lessEqual | greaterEqual => 4
  | isIn => 5
  | add | subtract => 6
  | multiply | divide | remainder => 7

/-- The operator as a lexeme. -/
def lexeme (op : BinaryOp) : Lexeme :=
  .operator op.text

end BinaryOp

/-- The operator as a lexeme. -/
def UnaryOp.lexeme (op : UnaryOp) : Lexeme :=
  .operator op.text

theorem UnaryOp.ofToken?_eq_some_iff {t : Token} {op : UnaryOp} :
    ofToken? t = some op ↔ t.lexeme = op.lexeme := by
  unfold ofToken?
  rw [t.isOperator_eq, t.isOperator_eq]
  generalize t.lexeme = l
  constructor
  · intro h
    split at h
    · next hnot =>
      cases h
      exact of_decide_eq_true hnot
    · split at h
      · next hnegate =>
        cases h
        exact of_decide_eq_true hnegate
      · cases h
  · rintro rfl
    cases op <;> rfl

theorem BinaryOp.ofToken?_eq_some_iff {t : Token} {op : BinaryOp} :
    ofToken? t = some op ↔ op ≠ .assign ∧ t.lexeme = op.lexeme := by
  obtain ⟨kind, text, span⟩ := t
  unfold ofToken?
  constructor
  · intro h
    split at h
    · next hkind =>
      have htext : op.text = text := by simpa using find?_some h
      have hmem := mem_of_find?_eq_some h
      refine ⟨?_, ?_⟩
      · rintro rfl
        simp at hmem
      · subst htext
        exact congrArg (Lexeme.mk · _) hkind
    · cases h
  · rintro ⟨hop, hlexeme⟩
    obtain ⟨rfl, rfl⟩ := Lexeme.mk.inj hlexeme
    cases op
    case assign => exact absurd rfl hop
    all_goals rfl

/-- What stands between an object and the name of its property. -/
def PropertyName.separator (namespaced : Bool) : Lexeme :=
  if namespaced then .operator "::" else .mark "."

/-- The name of a property as a lexeme. -/
def PropertyName.lexeme (name : PropertyName) : Lexeme :=
  ⟨.identifier, name.text⟩

/-- The kind of token that a literal is written as. -/
def LiteralValue.kind : LiteralValue → Token.Kind
  | string _ => .string
  | number _ | null => .number

theorem kind_numberValue (raw : String) : (Parser.numberValue raw).kind = .number := by
  unfold Parser.numberValue
  split <;> rfl

/-- How tightly operators before an operand bind it. -/
def prefixPrecedence : Nat :=
  8

/-- How tightly what follows an operand is bound to it. -/
def suffixPrecedence : Nat :=
  9

/-- How tightly the parts of the expression are bound to each other. -/
def Expression.precedence : Expression → Nat
  | .binary op _ _ _ => op.precedence
  | .unary _ _ _ => prefixPrecedence
  | _ => suffixPrecedence

section Writing

-- Whether an operand is put in parentheses where the operator asks for a least precedence.
variable (encloses : Mode → (least : Nat) → Expression → Bool)

mutual

/-- The lexemes of an expression in a mode. -/
def Expression.write (mode : Mode) : Expression → List Lexeme
  | .binary op left right _ =>
    Lexeme.enclose (encloses mode op.precedence left) (left.write .condition) (left.write mode) ++
      op.lexeme ::
        Lexeme.enclose (encloses mode (op.precedence + 1) right) (right.write .condition)
          (right.write mode)
  | .unary op argument _ =>
    op.lexeme ::
      Lexeme.enclose (encloses mode prefixPrecedence argument) (argument.write .condition)
        (argument.write mode)
  | .member object name namespaced _ =>
    Lexeme.enclose (encloses mode suffixPrecedence object) (object.write .condition)
      (object.write mode) ++ [PropertyName.separator namespaced, name.lexeme]
  | .call callee arguments _ =>
    Lexeme.enclose (encloses mode suffixPrecedence callee) (callee.write .condition)
      (callee.write mode) ++
        .mark "(" :: (Lexeme.commas (Expression.writeEach arguments) ++ [.mark ")"])
  | .index object index _ =>
    Lexeme.enclose (encloses mode suffixPrecedence object) (object.write .condition)
      (object.write mode) ++ .mark "[" :: (index.write .condition ++ [.mark "]"])
  | .identifier name _ => [⟨.identifier, name⟩]
  | .literal value raw _ _ => [⟨value.kind, raw⟩]
  | .array elements _ =>
    .mark "[" :: (Lexeme.commas (Expression.writeEach elements) ++ [.mark "]"])
  | .object properties _ =>
    .mark "\x7b" :: (Lexeme.commas (Property.writeEach properties) ++ [.mark "\x7d"])

/-- The lexemes of expressions inside brackets, one list for each. -/
def Expression.writeEach : List Expression → List (List Lexeme)
  | [] => []
  | e :: rest => e.write .condition :: Expression.writeEach rest

/-- The lexemes of a property. -/
def Property.write : Property → List Lexeme
  | .mk key value _ => key.write .condition ++ .operator "->" :: value.write .condition

/-- The lexemes of properties, one list for each. -/
def Property.writeEach : List Property → List (List Lexeme)
  | [] => []
  | property :: rest => property.write :: Property.writeEach rest

end

theorem Expression.writeEach_eq_map (es : List Expression) :
    Expression.writeEach encloses es = es.map (write encloses .condition) := by
  induction es with
  | nil => rfl
  | cons e es ih => exact congrArg (_ :: ·) ih

theorem Property.writeEach_eq_map (properties : List Property) :
    Property.writeEach encloses properties = properties.map (write encloses) := by
  induction properties with
  | nil => rfl
  | cons property properties ih => exact congrArg (_ :: ·) ih

end Writing

namespace Expression

/-- The expressions right under an expression. -/
def children : Expression → List Expression
  | .binary _ left right _ => [left, right]
  | .unary _ argument _ => [argument]
  | .member base _ _ _ => [base]
  | .call callee arguments _ => callee :: arguments
  | .index base i _ => [base, i]
  | .identifier _ _ => []
  | .literal _ _ interpolations _ => interpolations
  | .array elements _ => elements
  | .object properties _ => properties.flatMap fun property => [property.key, property.value]

theorem sizeOf_lt_of_mem_children {child e : Expression} (h : child ∈ e.children) :
    sizeOf child < sizeOf e := by
  cases e with
  | binary op left right span =>
    simp only [children, mem_cons, not_mem_nil, or_false] at h
    rcases h with rfl | rfl <;> simp only [binary.sizeOf_spec] <;> omega
  | unary op argument span =>
    obtain rfl := mem_singleton.1 h
    simp only [unary.sizeOf_spec]
    omega
  | member base name namespaced span =>
    obtain rfl := mem_singleton.1 h
    simp only [member.sizeOf_spec]
    omega
  | call callee arguments span =>
    simp only [call.sizeOf_spec]
    rcases mem_cons.1 h with rfl | h
    · omega
    · have hlt := sizeOf_lt_of_mem h
      omega
  | index base i span =>
    simp only [children, mem_cons, not_mem_nil, or_false] at h
    rcases h with rfl | rfl <;> simp only [index.sizeOf_spec] <;> omega
  | identifier name span => cases h
  | literal value raw interpolations span =>
    have hlt : sizeOf child < sizeOf interpolations := sizeOf_lt_of_mem h
    simp only [literal.sizeOf_spec]
    omega
  | array elements span =>
    have hlt : sizeOf child < sizeOf elements := sizeOf_lt_of_mem h
    simp only [array.sizeOf_spec]
    omega
  | object properties span =>
    obtain ⟨⟨key, value, place⟩, hproperty, hchild⟩ := mem_flatMap.1 h
    have hlt := sizeOf_lt_of_mem hproperty
    simp only [Property.mk.sizeOf_spec] at hlt
    simp only [object.sizeOf_spec]
    simp only [mem_cons, not_mem_nil, or_false] at hchild
    rcases hchild with rfl | rfl <;> omega

/-- What holds of an expression whenever it holds of its children holds of all expressions. -/
@[elab_as_elim]
theorem childInduction {motive : Expression → Prop}
    (step : ∀ e : Expression, (∀ child ∈ e.children, motive child) → motive e) (e : Expression) :
    motive e :=
  step e fun child _ => childInduction step child
termination_by sizeOf e
decreasing_by exact sizeOf_lt_of_mem_children ‹_›

theorem mem_nodesOfList {node : Node} {es : List Expression} :
    node ∈ nodesOfList es ↔ ∃ e ∈ es, node ∈ e.nodes := by
  induction es with
  | nil => simp [nodesOfList]
  | cons e es ih => simp [nodesOfList, ih]

theorem mem_nodesOfList_property {x : Expression} {properties : List Property} :
    .expression x ∈ Property.nodesOfList properties ↔
      ∃ child ∈ properties.flatMap fun property => [property.key, property.value],
        .expression x ∈ child.nodes := by
  induction properties with
  | nil => simp [Property.nodesOfList]
  | cons property properties ih =>
    obtain ⟨key, value, span⟩ := property
    simp [Property.nodesOfList, Property.nodes, ih, Property.key, Property.value]

/-- A node of an expression is the expression itself or a node of a child. -/
theorem mem_nodes_iff {x e : Expression} :
    .expression x ∈ e.nodes ↔ x = e ∨ ∃ child ∈ e.children, .expression x ∈ child.nodes := by
  cases e <;> simp [nodes, children, mem_nodesOfList, mem_nodesOfList_property]

/-- Nodes are counted in an expression itself and in its children. -/
theorem countP_nodes {p : Node → Bool} (hp : ∀ property, p (.property property) = false)
    (e : Expression) :
    e.nodes.countP p =
      (if p (.expression e) then 1 else 0) +
        (e.children.map fun child => child.nodes.countP p).sum := by
  have hlist : ∀ es : List Expression,
      (nodesOfList es).countP p = (es.map fun child => child.nodes.countP p).sum := by
    intro es
    induction es with
    | nil => rfl
    | cons e es ih => rw [nodesOfList, countP_append, ih, map_cons, sum_cons]
  have hproperties : ∀ properties : List Property,
      (Property.nodesOfList properties).countP p =
        ((properties.flatMap fun property => [property.key, property.value]).map
          fun child => child.nodes.countP p).sum := by
    intro properties
    induction properties with
    | nil => rfl
    | cons property properties ih =>
      obtain ⟨key, value, span⟩ := property
      simp [Property.nodesOfList, Property.nodes, Property.key, Property.value, hp, ih]
  cases e <;>
    simp only [nodes, children, countP_cons, countP_append, countP_nil, hlist,
      hproperties, map_cons, map_nil, sum_cons, sum_nil] <;> omega

/-- What is summed over the children of an object is summed over keys and values. -/
theorem sum_children_object (f : Expression → Nat) (properties : List Property) (span : Span) :
    ((object properties span).children.map f).sum =
      (properties.map fun property => f property.key + f property.value).sum := by
  show ((properties.flatMap fun property => [property.key, property.value]).map f).sum = _
  induction properties with
  | nil => rfl
  | cons property properties ih => simp [ih, Nat.add_assoc]

end Expression

end ScriptLint

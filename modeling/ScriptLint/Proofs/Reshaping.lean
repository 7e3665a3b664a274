import ScriptLint.Proofs.Outline
import ScriptLint.Proofs.Parentheses

/-!
# Programs with other places and names

A reshape gives new places, names and texts to the parts of a tree, and changes nothing else of it.
Two programs that are the same up to some reshape say the same in other words, or at other places.

**Results.**
* `Node.nodes_reshape`: the nodes of what is reshaped are its nodes, reshaped, in the same order.
* `Statement.reshapeList_same`: where nothing is new, the statements are the same.
-/

namespace ScriptLint

/-- New places, names and texts for the parts of a tree. -/
structure Reshape where
  /-- The new place. -/
  span : Span → Span
  /-- The new name of an identifier at a place. -/
  identifier : Span → String → String := fun _ name => name
  /-- The new text of a string literal at a place, with its quotes. -/
  raw : Span → String → String := fun _ raw => raw
  /-- The new value of a string literal at a place. -/
  value : Span → String → String := fun _ value => value
  /-- The new name of a keyword. -/
  keyword : String → String := id

namespace Reshape

/-- Nothing is new. -/
def same : Reshape where
  span := id

/-- All places are forgotten. -/
def erased : Reshape where
  span _ := default

end Reshape

variable (r : Reshape)

/-- A literal value with the new text of a string. -/
def LiteralValue.reshape (span : Span) : LiteralValue → LiteralValue
  | .string value => .string (r.value span value)
  | value => value

/-- The new raw text of a literal; only that of a string changes. -/
def LiteralValue.reshapeRaw (span : Span) (raw : String) : LiteralValue → String
  | .string _ => r.raw span raw
  | _ => raw

mutual

/-- The expression with new places, names and texts. -/
def Expression.reshape : Expression → Expression
  | .binary op left right span => .binary op left.reshape right.reshape (r.span span)
  | .unary op argument span => .unary op argument.reshape (r.span span)
  | .member object property namespaced span =>
    .member object.reshape ⟨property.text, r.span property.span⟩ namespaced (r.span span)
  | .call callee arguments span =>
    .call callee.reshape (Expression.reshapeList arguments) (r.span span)
  | .index object index span => .index object.reshape index.reshape (r.span span)
  | .identifier name span => .identifier (r.identifier span name) (r.span span)
  | .literal value raw interpolations span =>
    .literal (value.reshape r span) (value.reshapeRaw r span raw)
      (Expression.reshapeList interpolations) (r.span span)
  | .array elements span => .array (Expression.reshapeList elements) (r.span span)
  | .object properties span => .object (Property.reshapeList properties) (r.span span)

/-- The expressions with new places, names and texts. -/
def Expression.reshapeList : List Expression → List Expression
  | [] => []
  | e :: es => e.reshape :: Expression.reshapeList es

/-- The property with new places, names and texts. -/
def Property.reshape : Property → Property
  | .mk key value span => .mk key.reshape value.reshape (r.span span)

/-- The properties with new places, names and texts. -/
def Property.reshapeList : List Property → List Property
  | [] => []
  | p :: ps => p.reshape :: Property.reshapeList ps

end

/-- The part of a text with new places, names and texts. -/
def TextPart.reshape : TextPart → TextPart
  | .run text span => .run text (r.span span)
  | .interpolation e => .interpolation (e.reshape r)

/-- The text with new places, names and texts. -/
def TextContent.reshape (content : TextContent) : TextContent :=
  ⟨content.parts.map (TextPart.reshape r), r.span content.span⟩

/-- The argument with new places, names and texts. -/
def Argument.reshape : Argument → Argument
  | .text content => .text (content.reshape r)
  | .expression e => .expression (e.reshape r)
  | .loop names collection span =>
    .loop (names.map (Expression.reshape r)) (collection.reshape r) (r.span span)

/-- The header with new places, names and texts. -/
def Header.reshape (header : Header) : Header :=
  ⟨r.keyword header.name, r.span header.nameSpan, header.argument.map (Argument.reshape r)⟩

mutual

/-- The statement with new places, names and texts. -/
def Statement.reshape : Statement → Statement
  | .keyword header subKeywords body span =>
    .keyword (header.reshape r) (SubKeyword.reshapeList subKeywords) (Statement.reshapeList body)
      (r.span span)
  | .expression e span => .expression (e.reshape r) (r.span span)
  | .text content => .text (content.reshape r)
  | .comment text span => .comment text (r.span span)
  | .answer label body span =>
    .answer (label.reshape r) (Statement.reshapeList body) (r.span span)

/-- The statements with new places, names and texts. -/
def Statement.reshapeList : List Statement → List Statement
  | [] => []
  | s :: body => s.reshape :: Statement.reshapeList body

/-- The sub-keyword with new places, names and texts. -/
def SubKeyword.reshape : SubKeyword → SubKeyword
  | .mk header body span => .mk (header.reshape r) (Statement.reshapeList body) (r.span span)

/-- The sub-keywords with new places, names and texts. -/
def SubKeyword.reshapeList : List SubKeyword → List SubKeyword
  | [] => []
  | s :: subs => s.reshape :: SubKeyword.reshapeList subs

end

/-- The program with new places, names and texts. -/
def Program.reshape (program : Program) : Program :=
  ⟨Statement.reshapeList r program.body, r.span program.span⟩

/-- The node with new places, names and texts. -/
def Node.reshape : Node → Node
  | .program p => .program (p.reshape r)
  | .statement s => .statement (s.reshape r)
  | .subKeyword s => .subKeyword (s.reshape r)
  | .content c => .content (c.reshape r)
  | .argument a => .argument (a.reshape r)
  | .expression e => .expression (e.reshape r)
  | .property p => .property (p.reshape r)

theorem Expression.reshapeList_eq_map (es : List Expression) :
    Expression.reshapeList r es = es.map (Expression.reshape r) := by
  induction es with
  | nil => rfl
  | cons e es ih => rw [Expression.reshapeList, ih, List.map_cons]

theorem Property.reshapeList_eq_map (ps : List Property) :
    Property.reshapeList r ps = ps.map (Property.reshape r) := by
  induction ps with
  | nil => rfl
  | cons p ps ih => rw [Property.reshapeList, ih, List.map_cons]

theorem Statement.reshapeList_eq_map (body : List Statement) :
    Statement.reshapeList r body = body.map (Statement.reshape r) := by
  induction body with
  | nil => rfl
  | cons s body ih => rw [Statement.reshapeList, ih, List.map_cons]

theorem SubKeyword.reshapeList_eq_map (subs : List SubKeyword) :
    SubKeyword.reshapeList r subs = subs.map (SubKeyword.reshape r) := by
  induction subs with
  | nil => rfl
  | cons s subs ih => rw [SubKeyword.reshapeList, ih, List.map_cons]

theorem TextPart.expression?_reshape (part : TextPart) :
    (part.reshape r).expression? = part.expression?.map (Expression.reshape r) := by
  cases part <;> rfl

namespace Node

theorem beside_reshape (x : Node) : (x.reshape r).beside = x.beside.map (Node.reshape r) := by
  cases x with
  | program p => simp [Node.reshape, Program.reshape, beside, Statement.reshapeList_eq_map]
  | statement s =>
    cases s <;> simp [Node.reshape, Statement.reshape, Header.reshape,
      TextContent.reshape, beside, units,
      TextPart.expression?_reshape, List.map_filterMap, Option.toList_map, Function.comp_def]
  | subKeyword s =>
    cases s
    simp [Node.reshape, SubKeyword.reshape, Header.reshape, beside, Option.toList_map]
  | content c =>
    simp [Node.reshape, TextContent.reshape, beside, units, TextPart.expression?_reshape,
      List.map_filterMap, Function.comp_def]
  | argument a => cases a <;> simp [Node.reshape, Argument.reshape, beside, units]
  | expression e => cases e <;> simp [Node.reshape, Expression.reshape, beside]
  | property p =>
    cases p
    simp [Node.reshape, Property.reshape, Property.key, Property.value, beside]

theorem within_reshape (x : Node) : (x.reshape r).within = x.within.map (Node.reshape r) := by
  cases x with
  | statement s =>
    cases s <;> simp [Node.reshape, Statement.reshape, within, children,
      Statement.reshapeList_eq_map, SubKeyword.reshapeList_eq_map, Function.comp_def]
  | subKeyword s =>
    cases s
    simp [Node.reshape, SubKeyword.reshape, SubKeyword.body, within, children,
      Statement.reshapeList_eq_map]
  | expression e =>
    cases e <;> simp [Node.reshape, Expression.reshape, within, children,
      Expression.reshapeList_eq_map, Property.reshapeList_eq_map]
  | _ => rfl

/-- The nodes of a reshaped node. -/
theorem nodes_reshape (x : Node) : (x.reshape r).nodes = x.nodes.map (Node.reshape r) := by
  induction x using underInduction with
  | step x ih =>
  rw [nodes_eq, nodes_eq x, beside_reshape, within_reshape, ← List.map_append,
    List.flatMap_map, List.map_cons, List.map_flatMap]
  exact congrArg _ (List.flatMap_congr ih)

end Node

theorem Statement.nodesOfList_reshape (body : List Statement) :
    Statement.nodesOfList (Statement.reshapeList r body) = (Statement.nodesOfList body).map
      (Node.reshape r) := by
  rw [nodesOfList_eq_flatMap, nodesOfList_eq_flatMap, reshapeList_eq_map,
    List.flatMap_map, List.map_flatMap]
  exact List.flatMap_congr fun s _ => Node.nodes_reshape r (.statement s)

section Same

open Reshape

theorem LiteralValue.reshape_same (span : Span) (raw : String) (value : LiteralValue) :
    value.reshape same span = value ∧ value.reshapeRaw same span raw = raw := by
  cases value <;> exact ⟨rfl, rfl⟩

theorem map_eq_self {α : Type} {f : α → α} {xs : List α} (h : ∀ x ∈ xs, f x = x) : xs.map f = xs :=
  (List.map_congr_left h).trans (List.map_id xs)

theorem Expression.reshape_same (e : Expression) : e.reshape same = e := by
  induction e using childInduction with
  | step e ih =>
  cases e with
  | literal value raw interpolations span =>
    have hinside : interpolations.map (reshape same) = interpolations := map_eq_self ih
    rw [reshape, (value.reshape_same span raw).1, (value.reshape_same span raw).2,
      reshapeList_eq_map, hinside]
    rfl
  | object properties span =>
    have hproperties : ∀ p ∈ properties, p.reshape same = p := by
      rintro ⟨key, value, place⟩ hp
      obtain ⟨hkey, hvalue⟩ := mem_children_object hp
      rw [Property.reshape, ih key hkey, ih value hvalue]
      rfl
    rw [reshape, Property.reshapeList_eq_map, map_eq_self hproperties]
    rfl
  | _ => simp_all [reshape, children, reshapeList_eq_map, same, map_eq_self]

theorem TextPart.reshape_same (part : TextPart) : part.reshape same = part := by
  cases part with
  | run text span => rfl
  | interpolation e => rw [TextPart.reshape, e.reshape_same]

theorem TextContent.reshape_same (content : TextContent) : content.reshape same = content := by
  have hparts : content.parts.map (TextPart.reshape same) = content.parts :=
    map_eq_self fun part _ => part.reshape_same
  rw [TextContent.reshape, hparts]
  rfl

theorem Argument.reshape_same (argument : Argument) : argument.reshape same = argument := by
  cases argument with
  | text content => rw [Argument.reshape, content.reshape_same]
  | expression e => rw [Argument.reshape, e.reshape_same]
  | loop names collection span =>
    have hnames : names.map (Expression.reshape same) = names :=
      map_eq_self fun e _ => e.reshape_same
    rw [Argument.reshape, collection.reshape_same, hnames]
    rfl

theorem Header.reshape_same (header : Header) : header.reshape same = header := by
  obtain ⟨name, span, argument⟩ := header
  cases argument with
  | none => rfl
  | some argument =>
    show Header.mk name span (some (argument.reshape same)) = _
    rw [argument.reshape_same]

mutual

theorem Statement.reshape_same : (s : Statement) → s.reshape same = s
  | .keyword header subKeywords body span => by
      rw [Statement.reshape, header.reshape_same, SubKeyword.reshapeList_same subKeywords,
        Statement.reshapeList_same body]
      rfl
  | .expression e span => by
      rw [Statement.reshape, e.reshape_same]
      rfl
  | .text content => by rw [Statement.reshape, content.reshape_same]
  | .comment text span => rfl
  | .answer label body span => by
      rw [Statement.reshape, label.reshape_same, Statement.reshapeList_same body]
      rfl

theorem Statement.reshapeList_same :
    (body : List Statement) → Statement.reshapeList same body = body
  | [] => rfl
  | s :: body => by rw [Statement.reshapeList, s.reshape_same, Statement.reshapeList_same body]

theorem SubKeyword.reshape_same : (s : SubKeyword) → s.reshape same = s
  | .mk header body span => by
      rw [SubKeyword.reshape, header.reshape_same, Statement.reshapeList_same body]
      rfl

theorem SubKeyword.reshapeList_same :
    (subs : List SubKeyword) → SubKeyword.reshapeList same subs = subs
  | [] => rfl
  | s :: subs => by
      rw [SubKeyword.reshapeList, s.reshape_same, SubKeyword.reshapeList_same subs]

end

end Same

end ScriptLint

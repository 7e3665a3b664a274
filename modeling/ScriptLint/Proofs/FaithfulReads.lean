import ScriptLint.Proofs.Derivation
import ScriptLint.Proofs.TokenCover

/-!
# A clean expression says what its tokens say

The lexemes of a tree are those that it stands for, from left to right and without grouping.  When
an expression is read without a report, they are the lexemes that were read, less the grouping:
nothing is dropped, repeated or moved, and nothing stands in the tree for what is missing.

A number without characters cannot be told from a missing operand.  The tokenizer gives none, so
that nothing is missing in the expressions inside strings, whatever the tokens around them.

**Results.**
* `Derives.spells`: every derivation, by induction over its rules.
* `Parser.missing_of_mem_interpolations`: the expressions inside strings, by induction on the
  levels.
* `standalone_faithful`: an expression that fills its line.
-/

namespace ScriptLint

open List Expression ScriptLint.Parser

namespace Piece

/-- No number is cut without characters. -/
theorem number_nil_not_mem_ofExpression (comments : Bool) (cs : List Char) :
    token .number [] ∉ ofExpression comments cs := by
  fun_induction ofExpression comments cs with
  | case1 => simp
  | case2 c rest _ ih => simpa using ih
  | case3 c rest _ _ => simp [ofComment]
  | case4 c rest _ _ shape ih => simpa using ih

theorem number_nil_not_mem_ofText (cs : List Char) : token .number [] ∉ ofText cs := by
  fun_induction ofText cs with
  | case1 => simp
  | case2 rest inner after _ ih => simpa [number_nil_not_mem_ofExpression] using ih
  | case3 rest _ => simp
  | case4 c rest _ ih => simpa using ih

theorem number_nil_not_mem_ofKeywordLine (indented : Bool) (line : List Char) :
    token .number [] ∉ ofKeywordLine indented line := by
  unfold ofKeywordLine ofArgument
  dsimp only
  split
  · exact number_nil_not_mem_ofText _
  · simp only [mem_cons, not_or]
    refine ⟨by simp, ?_, ?_⟩
    · split <;> simp
    · split <;> simp [number_nil_not_mem_ofText]

theorem number_nil_not_mem_ofLines (levels : List Nat) (lines : List Text.Line) :
    token .number [] ∉ ofLines levels lines := by
  intro h
  rcases mem_ofLines h with ⟨_, _, ⟨⟩⟩ | ⟨_, _, hkind, ⟨⟩⟩ | ⟨indented, cs, h⟩
  · cases hkind
  revert h
  unfold ofContent
  split <;> simp [ofComment, number_nil_not_mem_ofExpression, number_nil_not_mem_ofText,
    number_nil_not_mem_ofKeywordLine]

theorem number_nil_not_mem_ofExpressionText (cs : List Char) :
    token .number [] ∉ ofExpressionText cs := by
  unfold ofExpressionText ofEnding
  split
  · simp
  · simp [number_nil_not_mem_ofExpression, number_nil_not_mem_ofLines]

end Piece

/-- A number without characters. -/
def Lexeme.emptyNumber : Lexeme :=
  ⟨.number, ""⟩

/-- The tokenizer gives no number without characters. -/
theorem emptyNumber_not_mem_tokenizeExpression (text : String) (anchor : Position) :
    Lexeme.emptyNumber ∉ (tokenizeExpression text anchor).map Token.lexeme := by
  intro hmem
  obtain ⟨t, ht, heq⟩ := mem_map.1 hmem
  obtain ⟨cs, hpiece, hcs⟩ := Piece.exists_piece_of_mem_place (mem_filter.1 ht).1
  obtain ⟨hkind, htext⟩ := Lexeme.mk.inj heq
  obtain rfl : cs = [] := by simpa [htext] using hcs
  exact Piece.number_nil_not_mem_ofExpressionText text.toList (hkind ▸ hpiece)

/-- The lexemes that the tree stands for, without any grouping. -/
def Expression.lexemes (e : Expression) : List Lexeme :=
  e.write (fun _ _ _ => false) .condition

/-- The lexemes that the property stands for, without any grouping. -/
def Property.lexemes (property : Property) : List Lexeme :=
  property.write fun _ _ _ => false

theorem Expression.lexemes_call (callee : Expression) (arguments : List Expression) (span : Span) :
    (call callee arguments span).lexemes =
      callee.lexemes ++ .mark "(" :: (Lexeme.commas (arguments.map lexemes) ++ [.mark ")"]) := by
  unfold lexemes
  rw [write, writeEach_eq_map]
  rfl

theorem Expression.lexemes_array (elements : List Expression) (span : Span) :
    (array elements span).lexemes =
      .mark "[" :: (Lexeme.commas (elements.map lexemes) ++ [.mark "]"]) := by
  unfold lexemes
  rw [write, writeEach_eq_map]

theorem Expression.lexemes_object (properties : List Property) (span : Span) :
    (object properties span).lexemes =
      .mark "\x7b" :: (Lexeme.commas (properties.map Property.lexemes) ++ [.mark "\x7d"]) := by
  unfold lexemes Property.lexemes
  rw [write, Property.writeEach_eq_map]

/-- The node is what stands for a missing operand: a null literal without text. -/
def Node.isMissing : Node → Bool
  | expression (.literal .null raw _ _) => raw == ""
  | _ => false

/-- How many nodes of the expression stand for a missing operand. -/
def Expression.missing (e : Expression) : Nat :=
  e.nodes.countP Node.isMissing

theorem Expression.missing_eq (e : Expression) :
    e.missing = (if Node.isMissing (.expression e) then 1 else 0) + (e.children.map missing).sum :=
  countP_nodes (fun _ => rfl) e

/-- The run says what the expression says, and a node stands for a missing operand only where the
run has a number without characters. -/
structure Spells (read : List Lexeme) (e : Expression) : Prop where
  grouped : Lexeme.Grouped read e.lexemes
  missing : e.missing = read.count .emptyNumber

/-- The run says what the property says. -/
structure SpellsProperty (read : List Lexeme) (property : Property) : Prop where
  grouped : Lexeme.Grouped read property.lexemes
  missing : property.key.missing + property.value.missing = read.count .emptyNumber

/-- Items, each with a comma after it. -/
def Listed {α : Type} (R : List Lexeme → α → Prop) (read : List Lexeme) (items : List α) : Prop :=
  ∃ reads, Forall₂ R reads items ∧ read = reads.flatMap (· ++ [.mark ","])

/-- Items with commas between them, and maybe after the last, up to a closing mark. -/
def Closed {α : Type} (R : List Lexeme → α → Prop) (close : String) (read : List Lexeme)
    (items : List α) : Prop :=
  ∃ before, (Listed R before items ∧ read = before ++ [.mark close]) ∨
    ∃ others last item, items = others ++ [item] ∧ Listed R before others ∧ R last item ∧
      read = before ++ (last ++ [.mark close])

section Items

open Lexeme

variable {α : Type} {R : List Lexeme → α → Prop} {close : String} {read : List Lexeme}
  {items : List α}

theorem Closed.last {run : List Lexeme} {item : α} (h : R run item) :
    Closed R close (run ++ [mark close]) [item] :=
  ⟨[], .inr ⟨[], run, item, rfl, ⟨[], .nil, rfl⟩, h, rfl⟩⟩

theorem Closed.cons {run : List Lexeme} {item : α} (h : Closed R close read items)
    (hitem : R run item) : Closed R close (run ++ mark "," :: read) (item :: items) := by
  obtain ⟨before, hclosed⟩ := h
  refine ⟨run ++ mark "," :: before, ?_⟩
  have hlisted : ∀ {others : List α}, Listed R before others →
      Listed R (run ++ mark "," :: before) (item :: others) := by
    rintro others ⟨reads, hreads, rfl⟩
    exact ⟨run :: reads, .cons hitem hreads, by simp⟩
  rcases hclosed with ⟨hbefore, rfl⟩ | ⟨others, last, x, rfl, hbefore, hlast, rfl⟩
  · exact .inl ⟨hlisted hbefore, by simp⟩
  · exact .inr ⟨item :: others, last, x, rfl, hlisted hbefore, hlast, by simp⟩

theorem Listed.sum {f : α → Nat} (h : Listed R read items)
    (hR : ∀ read a, R read a → f a = read.count emptyNumber) :
    (items.map f).sum = read.count emptyNumber := by
  obtain ⟨reads, hreads, rfl⟩ := h
  induction hreads with
  | nil => rfl
  | cons hitem _ ih =>
    rw [map_cons, sum_cons, ih, hR _ _ hitem, flatMap_cons, count_append, count_append]
    rfl

theorem Closed.sum {f : α → Nat} (h : Closed R close read items)
    (hR : ∀ read a, R read a → f a = read.count emptyNumber) :
    (items.map f).sum = read.count emptyNumber := by
  have hclose : [mark close].count emptyNumber = 0 := rfl
  obtain ⟨before, ⟨hlisted, rfl⟩ | ⟨others, last, item, rfl, hlisted, hlast, rfl⟩⟩ := h
  · rw [count_append]
    exact hlisted.sum hR
  · rw [map_append, sum_append, hlisted.sum hR, count_append, count_append,
      hclose, ← hR _ _ hlast]
    simp

theorem Closed.itemized {lexemes : α → List Lexeme} (h : Closed R close read items)
    (hR : ∀ read a, R read a → Grouped read (lexemes a)) (hclose : (mark close).closes) :
    Itemized (mark close) read (items.map lexemes) := by
  have hgrouped : ∀ {reads : List (List Lexeme)} {items : List α}, Forall₂ R reads items →
      Forall₂ Grouped reads (items.map lexemes) :=
    fun hreads => forall₂_map_right_iff.2 (hreads.imp hR)
  obtain ⟨before, ⟨⟨reads, hreads, rfl⟩, rfl⟩ | ⟨others, last, item, rfl,
    ⟨reads, hreads, rfl⟩, hlast, rfl⟩⟩ := h
  · exact itemized_commas (hgrouped hreads) hclose
  · rw [map_append]
    exact itemized_append (hgrouped hreads) (hR _ _ hlast) hclose

end Items

section Forms

open Lexeme

variable {read read' : List Lexeme} {e e' : Expression} {span : Span}

theorem spells_identifier (name : String) : Spells [⟨.identifier, name⟩] (.identifier name span) :=
  ⟨grouped_operand rfl, rfl⟩

theorem spells_number (raw : String) :
    Spells [⟨.number, raw⟩] (.literal (numberValue raw) raw [] span) := by
  constructor
  · show Grouped [⟨.number, raw⟩] [⟨(numberValue raw).kind, raw⟩]
    rw [kind_numberValue]
    exact grouped_operand rfl
  · by_cases hraw : raw = ""
    · subst hraw
      rfl
    · have hlexeme : (⟨.number, raw⟩ : Lexeme) ≠ emptyNumber := fun heq => hraw (mk.inj heq).2
      have hnode : Node.isMissing (.expression (.literal (numberValue raw) raw [] span)) =
          false := by
        cases numberValue raw with
        | null => exact beq_eq_false_iff_ne.2 hraw
        | number _ => rfl
        | string _ => rfl
      simp [missing, nodes, nodesOfList, hnode, hlexeme]

theorem spells_string (value raw : String) {es : List Expression} (hes : ∀ x ∈ es, x.missing = 0) :
    Spells [⟨.string, raw⟩] (.literal (.string value) raw es span) := by
  refine ⟨grouped_operand rfl, ?_⟩
  have hsum : (es.map missing).sum = 0 := by
    rw [List.sum_eq_zero_iff_forall_eq_nat]
    simpa using hes
  rw [missing_eq, children, hsum]
  rfl

theorem Spells.enclosed (h : Spells read e) : Spells (mark "(" :: (read ++ [mark ")"])) e := by
  refine ⟨h.grouped.enclosed, ?_⟩
  rw [h.missing]
  simp [mark, emptyNumber]

theorem Spells.unary (op : UnaryOp) (h : Spells read e) :
    Spells (op.lexeme :: read) (.unary op e span) :=
  ⟨h.grouped.prefixed rfl, h.missing⟩

theorem Spells.binary (op : BinaryOp) (h : Spells read e) (h' : Spells read' e') :
    Spells (read ++ op.lexeme :: read') (.binary op e e' span) := by
  refine ⟨h.grouped.infixed rfl h'.grouped, ?_⟩
  rw [count_append, ← h.missing]
  show _ = e.missing + read'.count emptyNumber
  rw [← h'.missing, missing_eq]
  simp [Node.isMissing, children]

theorem Spells.member (h : Spells read e) (namespaced : Bool) (name : PropertyName) :
    Spells (read ++ [PropertyName.separator namespaced, name.lexeme])
      (.member e name namespaced span) := by
  refine ⟨h.grouped.property namespaced rfl, ?_⟩
  rw [count_append, ← h.missing]
  cases namespaced <;> rfl

theorem Spells.call {arguments : List Expression} (h : Spells read e)
    (h' : Closed Spells ")" read' arguments) :
    Spells (read ++ mark "(" :: read') (.call e arguments span) := by
  constructor
  · rw [lexemes_call]
    exact h.grouped.arguments (h'.itemized (fun _ _ hitem => hitem.grouped) rfl)
  · rw [count_append, ← h.missing]
    show _ = e.missing + read'.count emptyNumber
    rw [← h'.sum fun _ _ hitem => hitem.missing, missing_eq]
    simp [Node.isMissing, children]

theorem Spells.index (h : Spells read e) (h' : Spells read' e') :
    Spells (read ++ mark "[" :: (read' ++ [mark "]"])) (.index e e' span) := by
  refine ⟨h.grouped.index h'.grouped, ?_⟩
  rw [missing_eq]
  simp [Node.isMissing, children, h.missing, h'.missing, mark, emptyNumber]

theorem spells_array {elements : List Expression} (h : Closed Spells "]" read elements) :
    Spells (mark "[" :: read) (.array elements span) := by
  constructor
  · rw [lexemes_array]
    exact (h.itemized (fun _ _ hitem => hitem.grouped) rfl).bracketed (.inl rfl)
  · have hsum := h.sum fun _ _ hitem => hitem.missing
    rw [missing_eq, children, hsum]
    simp [Node.isMissing, mark, emptyNumber]

theorem spellsProperty_mk (span : Span) (h : Spells read e) (h' : Spells read' e') :
    SpellsProperty (read ++ operator "->" :: read') (.mk e e' span) := by
  refine ⟨h.grouped.infixed rfl h'.grouped, ?_⟩
  show e.missing + e'.missing = _
  rw [h.missing, h'.missing, count_append]
  rfl

theorem spells_object {properties : List Property}
    (h : Closed SpellsProperty "\x7d" read properties) :
    Spells (mark "\x7b" :: read) (.object properties span) := by
  constructor
  · rw [lexemes_object]
    exact (h.itemized (fun _ _ hitem => hitem.grouped) rfl).bracketed (.inr rfl)
  · have hsum := h.sum fun _ _ hitem => hitem.missing
    rw [missing_eq, sum_children_object, hsum]
    simp [Node.isMissing, mark, emptyNumber]

end Forms

section Derivations

open Lexeme

/-- The run says what the item says. -/
def Item.Spells : (x : Item) → List Lexeme → x.Value → Prop
  | expression => ScriptLint.Spells
  | property => SpellsProperty

/-- The run says what the value of the form says; operands are assigned to any that stands before
them, and items are closed by any mark. -/
def Form.Spells : (form : Form) → List Lexeme → form.Value → Prop
  | operand, read, e | layered _, read, e | inMode _, read, e => ScriptLint.Spells read e
  | assigned, read, es => ∀ before first, ScriptLint.Spells before first →
      ScriptLint.Spells (before ++ read) (assignAll first es)
  | item x, read, a => x.Spells read a
  | list x, read, items => ∀ close, Closed x.Spells close (read ++ [mark close]) items

/-- Tokens say what is derived from them, if nothing is missing in the expressions inside
strings. -/
theorem Derives.spells {levels n : Nat} {form : Form} {ts : List Token} {a : form.Value}
    (h : Derives levels form ts n a)
    (hstrings : ∀ l ≤ levels, ∀ t, ∀ e ∈ interpolations (innerAt l) t,
      e.missing = 0) :
    form.Spells (ts.map Token.lexeme) a := by
  induction h with
  | @identifier _ t ht =>
    rw [map_singleton, Token.lexeme_of_kind ht]
    exact spells_identifier t.text
  | @number _ t ht =>
    rw [map_singleton, Token.lexeme_of_kind ht]
    exact spells_number t.text
  | @string levels t ht =>
    rw [map_singleton, Token.lexeme_of_kind ht]
    exact spells_string _ _ (hstrings levels (Nat.le_refl _) t)
  | group hfirst _ hlast ih =>
    rw [map_cons, map_append, map_singleton, hfirst, hlast]
    exact (ih hstrings).enclosed
  | array hfirst _ hlast ih =>
    rw [map_cons, map_append, map_singleton, hfirst, hlast]
    exact spells_array (ih hstrings "]")
  | object hfirst _ hlast ih =>
    rw [map_cons, map_append, map_singleton, hfirst, hlast]
    exact spells_object (ih hstrings "\x7d")
  | @member _ _ t name ts e namespaced _ ht hname ih =>
    rw [map_append, map_cons, map_singleton, ht, Token.lexeme_of_kind hname]
    exact (ih hstrings).member namespaced ⟨name.text, name.span⟩
  | call _ hfirst _ hlast ih ih' =>
    rw [map_append, map_cons, map_append, map_singleton, hfirst, hlast]
    exact (ih hstrings).call (ih' hstrings ")")
  | index _ hfirst _ hlast ih ih' =>
    rw [map_append, map_cons, map_append, map_singleton, hfirst, hlast]
    exact (ih hstrings).index (ih' hstrings)
  | bare _ ih | tighter _ ih | condition _ ih => exact ih hstrings
  | unary ht _ ih =>
    rw [map_cons, ht]
    exact (ih hstrings).unary _
  | binary _ _ ht _ ih ih' =>
    rw [map_append, map_cons, ht]
    exact (ih hstrings).binary _ (ih' hstrings)
  | unassigned =>
    intro before first hfirst
    rwa [map_nil, append_nil]
  | assign ht _ _ ih ih' =>
    intro before first hfirst
    rw [map_append, map_cons, ht]
    exact hfirst.binary _ (ih' hstrings _ _ (ih hstrings))
  | statement _ _ ih ih' =>
    rw [map_append]
    exact ih' hstrings _ _ (ih hstrings)
  | nested _ ih => exact ih fun l hl => hstrings l (Nat.le_succ_of_le hl)
  | property _ ht _ span ih ih' =>
    rw [map_append, map_cons, ht]
    exact spellsProperty_mk span (ih hstrings) (ih' hstrings)
  | empty => exact fun close => ⟨[], .inl ⟨⟨[], .nil, rfl⟩, rfl⟩⟩
  | last _ ih => exact fun close => .last (ih hstrings)
  | more _ ht _ ih ih' =>
    intro close
    rw [map_append, map_cons, ht, append_assoc]
    exact (ih' hstrings close).cons (ih hstrings)

end Derivations

namespace Parser

/-- Nothing is missing in the expressions inside a string, as their tokens come from the tokenizer.
-/
theorem missing_of_mem_interpolations (levels : Nat) (t : Token) :
    ∀ e ∈ interpolations (innerAt levels) t, e.missing = 0 := by
  induction levels using Nat.strong_induction_on generalizing t with
  | _ levels ih =>
  intro e he
  unfold interpolations at he
  split at he
  · cases he
  next p hinner =>
  cases levels with
  | zero => cases hinner
  | succ levels =>
    cases hinner
    obtain ⟨⟨anchor, run⟩, -, hregion⟩ := mem_filterMap.1 he
    unfold regionExpression? at hregion
    dsimp only at hregion
    split at hregion
    · cases hregion
    split at hregion
    · next hclean =>
      cases hregion
      obtain ⟨n, -, hderives⟩ := derives_standalone (isEmpty_iff.1 hclean)
      have hspells := hderives.spells fun l hl t => ih l (Nat.lt_succ_of_le hl) t
      rw [Spells.missing hspells]
      refine count_eq_zero.2 fun hmem => ?_
      refine emptyNumber_not_mem_tokenizeExpression (String.ofList run) anchor ?_
      exact map_subset _ (takeWhile_subset _) hmem
    · cases hregion

/-- An expression that fills the rest of its line says what stands up to the first boundary. -/
theorem spells_standalone {levels : Nat} {mode : Mode} {ts : List Token} {stop : Position}
    (hclean : (standalone (expression levels mode) (Cursor.start ts stop)).2.diagnostics = []) :
    Spells ((ts.takeWhile fun t => !t.kind.isBoundary).map Token.lexeme)
      (standalone (expression levels mode) (Cursor.start ts stop)).1 := by
  obtain ⟨n, -, hderives⟩ := derives_standalone hclean
  exact hderives.spells fun l _ => missing_of_mem_interpolations l

end Parser

/-- When an expression that fills its line is read without a report, the lexemes of its tree are
those of the tokens up to the first boundary, less the grouping.  No invalid token is among them,
and a node stands for a missing operand only where there is a number without characters. -/
theorem standalone_faithful (levels : Nat) (mode : Mode) (ts : List Token) (stop : Position)
    (hclean : (Parser.standalone (Parser.expression levels mode)
      (Cursor.start ts stop)).2.diagnostics = []) :
    let e := (Parser.standalone (Parser.expression levels mode) (Cursor.start ts stop)).1
    let read := (ts.takeWhile fun t => !t.kind.isBoundary).map Token.lexeme
    e.lexemes = Lexeme.ungroup false [] read ∧
    (∀ l ∈ read, l.kind ≠ .invalid) ∧
    e.nodes.countP Node.isMissing = read.count .emptyNumber := by
  intro e read
  obtain ⟨hgrouped, hmissing⟩ := spells_standalone hclean
  refine ⟨?_, ?_, hmissing⟩
  · simpa [Lexeme.ungroup] using (hgrouped.ungroup [] []).symm
  · intro l hl hkind
    have hpart := hgrouped.isPart l hl
    simp [Lexeme.isPart, Lexeme.isOperand, hkind] at hpart

/-- An index of a sum in parentheses, with a comma after the last argument, is assigned a string
that holds an expression; an invalid token stands in the comment. -/
def groupedLexemes : List Lexeme :=
  [.mark "(", ⟨.identifier, "a"⟩, .operator "+", ⟨.identifier, "f"⟩, .mark "(", ⟨.identifier, "x"⟩,
    .mark ",", .mark ")", .mark ")", .mark "[", ⟨.identifier, "y"⟩, .mark "]", .operator "=",
    ⟨.string, "\x7bz\x7d"⟩, ⟨.commentStart, "--"⟩, ⟨.invalid, "?"⟩]

set_option maxRecDepth 2000 in
theorem standalone_faithful_grouped :
    (Parser.standalone (Parser.expression 2 .statement)
      (Cursor.start (tokensOf groupedLexemes) Position.origin)).2.diagnostics = [] ∧
    (Parser.standalone (Parser.expression 2 .statement)
      (Cursor.start (tokensOf groupedLexemes) Position.origin)).1.lexemes =
        [⟨.identifier, "a"⟩, .operator "+", ⟨.identifier, "f"⟩, .mark "(", ⟨.identifier, "x"⟩,
          .mark ")", .mark "[", ⟨.identifier, "y"⟩, .mark "]", .operator "=",
          ⟨.string, "\x7bz\x7d"⟩] := by
  have hclean : (standalone (expression 2 .statement)
      (Cursor.start (tokensOf groupedLexemes) Position.origin)).2.diagnostics = [] := by
    decide +kernel
  exact ⟨hclean, (standalone_faithful 2 .statement _ _ hclean).1⟩

/-- A number without characters is read without a report, and stands in the tree as a missing
operand does. -/
theorem emptyNumber_reads_as_missing :
    (Parser.standalone (Parser.expression maxDepth .condition)
      (Cursor.start (tokensOf [.emptyNumber]) Position.origin)).2.diagnostics = [] ∧
    (Parser.standalone (Parser.expression maxDepth .condition)
      (Cursor.start (tokensOf [.emptyNumber]) Position.origin)).1 =
        .literal .null "" [] (Span.point Position.origin) := by
  have hvalue : (standalone (expression maxDepth .condition)
      (Cursor.start (tokensOf [.emptyNumber]) Position.origin)).1.plainLiteral? =
        some (.null, "", Span.point Position.origin) := by decide +kernel
  exact ⟨by decide +kernel, eq_of_plainLiteral? hvalue⟩

end ScriptLint

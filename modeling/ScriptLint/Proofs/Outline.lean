import ScriptLint.Proofs.LineReads
import Mathlib.Data.List.Perm.Basic

/-!
# Outlines

The outline of a program says which lines hold a statement, and under which line each of them
stands.  It is found in two ways.

**Tree.**  Every node gives one link to each of the statements that it holds in its body
(`Node.links`).

**Tokens.**  The tokens are read once from left to right with a stack of open blocks.  The line that
an indent follows becomes the owner of a new block, and a dedent closes the innermost block.  An
indent with no line to own it is a stray: its statements stay with the owner of the block around
it.  Past the greatest depth no block is opened.

**Results.**
* `outline_content`, `outline_newline`, `outline_dedent`, `outline_indent`: one step over tokens.
* `outline_opener_irrelevant`, `outline_opened`: what an owner is for.
* `links_keyword`, `links_answer`, `links_subKeyword`: the links of a statement are those of its
  parts.
* `Node.filterMap_line?_nodes_perm`: the links lead to every statement once.
-/

namespace ScriptLint

open List

variable {line : Nat}

/-- Lines that hold a statement, each after the line it stands under, and the number of stray
indents. -/
structure Outline where
  lines : List (Option Nat × Nat)
  strays : Nat

namespace Outline

/-- The outline of nothing. -/
def empty : Outline :=
  ⟨[], 0⟩

/-- The outline with one more line. -/
def addLine (link : Option Nat × Nat) (o : Outline) : Outline :=
  { o with lines := link :: o.lines }

/-- The outline with one more stray indent. -/
def addStray (o : Outline) : Outline :=
  { o with strays := o.strays + 1 }

end Outline

namespace Token

/-- The line of a token, if the statement that begins with the token may own a block. -/
def opener? (t : Token) : Option Nat :=
  match t.kind with
  | .expressionStart | .commentStart | .comment => none
  | _ => some t.span.start.line

/-- What is left after the statement that begins with a token. -/
def afterLine (t : Token) (rest : List Token) : List Token :=
  match t.kind with
  | .commentStart => if rest.head?.map kind = some .comment then rest.tail else rest
  | .comment => rest
  | _ => rest.dropWhile fun u => !u.kind.isStructural

theorem length_afterLine_le (t : Token) (rest : List Token) :
    (t.afterLine rest).length ≤ rest.length := by
  unfold afterLine
  split
  · split
    · rw [length_tail]
      exact Nat.sub_le _ _
    · exact Nat.le_refl _
  · exact Nat.le_refl _
  · exact (dropWhile_sublist _).length_le

end Token

/-- The outline of tokens under open blocks, the owner of the innermost first; the statement before
the tokens may own a block if `opener` has its line. -/
def outline (blocks : List (Option Nat)) (opener : Option Nat) (ts : List Token) : Outline :=
  match ts with
  | [] => .empty
  | t :: rest =>
    match t.kind with
    | .endOfInput => .empty
    | .newline => outline blocks opener rest
    | .dedent => outline blocks.tail none rest
    | .indent =>
      if blocks.length < maxDepth then
        match opener with
        | some line => outline (some line :: blocks) none rest
        | none => (outline (blocks.headD none :: blocks) none rest).addStray
      else
        (outline blocks none rest).addStray
    | _ =>
      (outline blocks t.opener? (t.afterLine rest)).addLine
        (blocks.headD none, t.span.start.line)
termination_by ts.length
decreasing_by
  all_goals
    have := t.length_afterLine_le rest
    simp only [length_cons]
    omega

section Steps

variable {blocks : List (Option Nat)} {opener : Option Nat} {t : Token} {rest : List Token}

theorem outline_nil : outline blocks opener [] = .empty := by
  rw [outline]

theorem outline_endOfInput (h : t.kind = .endOfInput) :
    outline blocks opener (t :: rest) = .empty := by
  rw [outline.eq_def]
  simp only [h]

theorem outline_newline (h : t.kind = .newline) :
    outline blocks opener (t :: rest) = outline blocks opener rest := by
  rw [outline.eq_def]
  simp only [h]

theorem outline_dedent (h : t.kind = .dedent) :
    outline blocks opener (t :: rest) = outline blocks.tail none rest := by
  rw [outline.eq_def]
  simp only [h]

theorem outline_indent (h : t.kind = .indent) (hdepth : blocks.length < maxDepth) :
    outline blocks none (t :: rest) =
      (outline (blocks.headD none :: blocks) none rest).addStray := by
  rw [outline.eq_def]
  simp only [h, if_pos hdepth]

theorem outline_indent_opened (h : t.kind = .indent) (hdepth : blocks.length < maxDepth) :
    outline blocks (some line) (t :: rest) = outline (some line :: blocks) none rest := by
  rw [outline.eq_def]
  simp only [h, if_pos hdepth]

theorem outline_indent_deep (h : t.kind = .indent) (hdepth : ¬ blocks.length < maxDepth) :
    outline blocks opener (t :: rest) = (outline blocks none rest).addStray := by
  rw [outline.eq_def]
  simp only [h, if_neg hdepth]

theorem outline_content (h : t.kind.isStructural = false) :
    outline blocks opener (t :: rest) =
      (outline blocks t.opener? (t.afterLine rest)).addLine
        (blocks.headD none, t.span.start.line) := by
  rw [outline.eq_def]
  cases hkind : t.kind with
  | newline | indent | dedent | endOfInput =>
    rw [hkind] at h
    cases h
  | _ => simp only [hkind]

/-- The tokens begin with an indent, after any blank lines. -/
def AtIndent (ts : List Token) : Prop :=
  ∃ blank u rest, ts = blank ++ u :: rest ∧ (∀ b ∈ blank, b.kind = .newline) ∧ u.kind = .indent

/-- Without an indent, or without room for a block, it is the same who would own one. -/
theorem outline_opener_irrelevant {ts : List Token}
    (h : ¬ AtIndent ts ∨ ¬ blocks.length < maxDepth) :
    outline blocks opener ts = outline blocks none ts := by
  induction ts with
  | nil => rw [outline_nil, outline_nil]
  | cons t rest ih =>
    cases hkind : t.kind.isStructural with
    | false => rw [outline_content hkind, outline_content hkind]
    | true =>
      cases hlayout : t.kind with
      | newline =>
        rw [outline_newline hlayout, outline_newline hlayout]
        refine ih (h.imp_left fun hnot hrest => hnot ?_)
        obtain ⟨blank, u, after, rfl, hblank, hu⟩ := hrest
        refine ⟨t :: blank, u, after, rfl, ?_, hu⟩
        intro b hb
        rcases mem_cons.1 hb with rfl | hb
        · exact hlayout
        · exact hblank b hb
      | indent =>
        rcases h with hnot | hdeep
        · exact absurd ⟨[], t, rest, rfl, by simp, hlayout⟩ hnot
        · rw [outline_indent_deep hlayout hdeep, outline_indent_deep hlayout hdeep]
      | dedent => rw [outline_dedent hlayout, outline_dedent hlayout]
      | endOfInput => rw [outline_endOfInput hlayout, outline_endOfInput hlayout]
      | _ =>
        rw [hlayout] at hkind
        cases hkind

/-- An indent with an owner opens a block. -/
theorem outline_opened {blank : List Token} (hblank : ∀ b ∈ blank, b.kind = .newline)
    (h : t.kind = .indent) (hdepth : blocks.length < maxDepth) :
    outline blocks (some line) (blank ++ t :: rest) =
      outline (some line :: blocks) none rest := by
  induction blank with
  | nil => exact outline_indent_opened h hdepth
  | cons b blank ih =>
    rw [cons_append, outline_newline (hblank b mem_cons_self)]
    exact ih fun b' hb' => hblank b' (mem_cons_of_mem b hb')

end Steps

/-- The expression, if the part is one. -/
def TextPart.expression? : TextPart → Option Expression
  | run _ _ => none
  | interpolation e => some e

namespace Node

/-- The statements that a node holds in its body, the sub-keywords of a keyword among them. -/
def children : Node → List Node
  | program p => p.body.map statement
  | statement (.keyword _ subKeywords body _) =>
    subKeywords.map subKeyword ++ body.map statement
  | statement (.answer _ body _) => body.map statement
  | subKeyword s => s.body.map statement
  | _ => []

/-- The expressions that the node holds with a count of operations of their own. -/
def units : Node → List Expression
  | statement (.expression e _) | argument (.expression e) => [e]
  | statement (.text text) | content text => text.parts.filterMap TextPart.expression?
  | argument (.loop names collection _) => names ++ [collection]
  | expression (.literal _ _ es _) => es
  | _ => []

/-- The nodes right under a node that are nested as deeply as it is. -/
def beside : Node → List Node
  | program p => p.body.map statement
  | statement (.keyword header _ _ _) | subKeyword (.mk header _ _) =>
    header.argument.toList.map argument
  | statement (.answer label _ _) | argument (.text label) => [content label]
  | expression (.binary _ left right _) => [expression left, expression right]
  | expression (.unary _ e _) | expression (.member e _ _ _) | expression (.call e _ _)
  | expression (.index e _ _) => [expression e]
  | expression _ => []
  | property p => [expression p.key, expression p.value]
  | node => node.units.map expression

/-- The nodes right under a node that are nested more deeply: in its body, its brackets or its
string. -/
def within : Node → List Node
  | expression (.call _ es _) | expression (.array es _) | expression (.literal _ _ es _) =>
    es.map expression
  | expression (.index _ i _) => [expression i]
  | expression (.object ps _) => ps.map property
  | program _ => []
  | node => node.children

/-- The node and all the nodes under it. -/
def nodes : Node → List Node
  | program p => p.nodes
  | statement s => s.nodes
  | subKeyword s => s.nodes
  | content c => c.nodes
  | argument a => a.nodes
  | expression e => e.nodes
  | property p => p.nodes

theorem nodes_parts (parts : List TextPart) :
    parts.flatMap TextPart.nodes = (parts.filterMap TextPart.expression?).flatMap
      Expression.nodes := by
  induction parts with
  | nil => rfl
  | cons part parts ih =>
    cases part <;> simp [TextPart.nodes, TextPart.expression?, filterMap_cons, ih]

theorem nodes_header (header : Header) :
    header.nodes = (header.argument.toList.map argument).flatMap nodes := by
  unfold Header.nodes
  cases header.argument <;> simp [nodes]

/-- The nodes of a node are itself and those of the nodes right under it. -/
theorem nodes_eq (x : Node) : x.nodes = x :: (x.beside ++ x.within).flatMap nodes := by
  cases x with
  | program p =>
    simp [nodes, Program.nodes, beside, within, Statement.nodesOfList_eq_flatMap, flatMap_map]
  | statement s =>
    cases s <;> simp [nodes, Statement.nodes, beside, within, units, children,
      nodes_header, nodes_parts,
      Statement.nodesOfList_eq_flatMap, SubKeyword.nodesOfList_eq_flatMap, flatMap_map]
  | subKeyword s =>
    cases s
    simp [nodes, SubKeyword.nodes, SubKeyword.body, beside, within, children, nodes_header,
      Statement.nodesOfList_eq_flatMap, flatMap_map]
  | content c =>
    simp [nodes, TextContent.nodes, beside, within, units, children, nodes_parts, flatMap_map]
  | argument a =>
    cases a <;> simp [nodes, Argument.nodes, beside, within, units, children, flatMap_map]
  | expression e =>
    cases e <;> simp [nodes, Expression.nodes, beside, within, children,
      Expression.nodesOfList_eq_flatMap, Property.nodesOfList_eq_flatMap, flatMap_map]
  | property p =>
    cases p
    simp [nodes, Property.nodes, Property.key, Property.value, beside, within, children]

/-- Induction over the nodes right under a node. -/
theorem underInduction {motive : Node → Prop}
    (step : ∀ x : Node, (∀ y ∈ x.beside ++ x.within, motive y) → motive x)
    (x : Node) : motive x := by
  generalize hn : x.nodes.length = n
  induction n using Nat.strong_induction_on generalizing x with
  | _ n ih =>
  refine step x fun y hy => ih _ ?_ y rfl
  have hle := (sublist_flatten_of_mem (mem_map_of_mem (f := nodes) hy)).length_le
  rw [← hn, x.nodes_eq]
  exact Nat.lt_succ_of_le hle

/-- What goes over from a node to those right under it holds of all its nodes. -/
theorem forall_nodes {R : Node → Prop} (hR : ∀ x, R x → ∀ y ∈ x.beside ++ x.within, R y)
    {x : Node} (h : R x) :
    ∀ y ∈ x.nodes, R y := by
  induction x using underInduction with
  | step x ih =>
  rw [nodes_eq]
  exact forall_mem_cons.2 ⟨h, forall_mem_flatMap.2 fun y hy => ih y hy (hR x h y hy)⟩

/-- The line that a statement or sub-keyword begins on. -/
def line? : Node → Option Nat
  | statement s => some s.span.start.line
  | subKeyword s => some s.span.start.line
  | _ => none

/-- The links from a node to the statements of its body, by the lines they begin on. -/
def links (node : Node) : List (Option Nat × Nat) :=
  node.children.map fun child => (node.line?, child.span.start.line)

/-- The node is a part of one line. -/
def isInner : Node → Bool
  | content _ | argument _ | expression _ | property _ => true
  | _ => false

/-- The node is a part of an expression. -/
def isTerm : Node → Bool
  | expression _ | property _ => true
  | _ => false

theorem isTerm_under (x : Node) (h : x.isTerm) : ∀ y ∈ x.beside ++ x.within, y.isTerm := by
  cases x with
  | expression e => cases e <;> simp [beside, within, children, isTerm]
  | property p => simp [beside, within, children, isTerm]
  | _ => cases h

theorem isInner_under (x : Node) (h : x.isInner) : ∀ y ∈ x.beside ++ x.within, y.isInner := by
  cases x with
  | argument a | expression a => cases a <;> simp [beside, within, children, isInner]
  | content _ | property _ => simp [beside, within, children, isInner]
  | _ => cases h

theorem links_of_isInner {node : Node} (h : node.isInner) : node.links = [] := by
  cases node with
  | program _ | statement _ | subKeyword _ => cases h
  | _ => rfl

theorem line?_of_isInner {node : Node} (h : node.isInner) : node.line? = none := by
  cases node with
  | program _ | statement _ | subKeyword _ => cases h
  | _ => rfl

theorem flatMap_links_of_isInner {nodes : List Node} (h : nodes.all isInner) :
    nodes.flatMap links = [] :=
  flatMap_eq_nil_iff.2 fun node hnode => links_of_isInner (all_eq_true.1 h node hnode)

theorem filterMap_line?_under (x : Node) :
    (x.beside ++ x.within).filterMap line? = x.links.map Prod.snd := by
  cases x with
  | statement s | subKeyword s | argument s | expression s =>
    cases s <;> simp [beside, within, links, children, line?, span, filterMap_cons,
      Function.comp_def]
  | _ => simp [beside, within, links, children, line?, span, Function.comp_def]

/-- Every statement is right under one node, so that the lines of all statements are the second
halves of all links. -/
theorem filterMap_line?_nodes_perm (x : Node) :
    x.nodes.filterMap line? ~ x.line?.toList ++ (x.nodes.flatMap links).map Prod.snd := by
  induction x using underInduction with
  | step x ih =>
  have hfirst : ∀ ys : List Node, (x :: ys).filterMap line? =
      x.line?.toList ++ ys.filterMap line? := by
    intro ys
    rw [filterMap_cons]
    cases x.line? <;> rfl
  rw [nodes_eq, hfirst, filterMap_flatMap, flatMap_cons, map_append, ← filterMap_line?_under,
    flatMap_assoc, map_flatMap, filterMap_eq_flatMap_toList]
  refine .append_left _ (.trans (.flatMap_left _ ih) ?_)
  exact (flatMap_append_perm _ _ _).symm

end Node

section Inner

open Node

theorem Expression.isTerm_nodes (e : Expression) : e.nodes.all isTerm :=
  all_eq_true.2 (forall_nodes (x := .expression e) isTerm_under rfl)

theorem Expression.isInner_nodes (e : Expression) : e.nodes.all isInner :=
  all_eq_true.2 (forall_nodes (x := .expression e) isInner_under rfl)

theorem TextContent.isInner_nodes (content : TextContent) : content.nodes.all isInner :=
  all_eq_true.2 (forall_nodes (x := .content content) isInner_under rfl)

theorem TextContent.isInner_parts (content : TextContent) :
    (content.parts.flatMap TextPart.nodes).all isInner :=
  (Bool.and_eq_true_iff.1 content.isInner_nodes).2

theorem Header.isInner_nodes (header : Header) : header.nodes.all isInner := by
  rw [nodes_header, flatMap_map, all_flatMap, all_eq_true]
  exact fun a _ => all_eq_true.2 (forall_nodes (x := .argument a) isInner_under rfl)

end Inner

/-- The links of a statement that stands under a line, and those inside it. -/
def Statement.links (parent : Option Nat) (s : Statement) : List (Option Nat × Nat) :=
  (parent, s.span.start.line) :: s.nodes.flatMap Node.links

/-- The links of a sub-keyword that stands under a line, and those inside it. -/
def SubKeyword.links (parent : Option Nat) (s : SubKeyword) : List (Option Nat × Nat) :=
  (parent, s.span.start.line) :: s.nodes.flatMap Node.links

section Links

variable {parent : Option Nat} {header : Header} {subKeywords : List SubKeyword}
  {body : List Statement} {span : Span}

theorem links_statements (line : Option Nat) (body : List Statement) :
    (body.map Node.statement).map (fun child => (line, child.span.start.line)) ++
      (Statement.nodesOfList body).flatMap Node.links ~ body.flatMap (Statement.links line) := by
  rw [Statement.nodesOfList_eq_flatMap, flatMap_assoc, map_map]
  exact map_append_flatMap_perm body _ _

theorem links_subKeywords (line : Option Nat) (subKeywords : List SubKeyword) :
    (subKeywords.map Node.subKeyword).map (fun child => (line, child.span.start.line)) ++
      (SubKeyword.nodesOfList subKeywords).flatMap Node.links ~
        subKeywords.flatMap (SubKeyword.links line) := by
  rw [SubKeyword.nodesOfList_eq_flatMap, flatMap_assoc, map_map]
  exact map_append_flatMap_perm subKeywords _ _

theorem links_keyword (hline : span.start.line = line) :
    (Statement.keyword header subKeywords body span).links parent ~
      (parent, line) :: (subKeywords.flatMap (SubKeyword.links (some line)) ++
        body.flatMap (Statement.links (some line))) := by
  subst hline
  refine Perm.cons _ ?_
  have hsub := links_subKeywords (some span.start.line) subKeywords
  have hbody := links_statements (some span.start.line) body
  rw [Statement.nodes, flatMap_cons, flatMap_append, flatMap_append,
    Node.flatMap_links_of_isInner header.isInner_nodes, nil_append, Node.links,
    Node.children, map_append, append_assoc]
  refine .trans ?_ (hsub.append hbody)
  rw [append_assoc]
  refine .append_left _ ?_
  rw [← append_assoc, ← append_assoc]
  exact perm_append_comm.append_right _

theorem links_subKeyword (hline : span.start.line = line) :
    (SubKeyword.mk header body span).links parent ~
      (parent, line) :: body.flatMap (Statement.links (some line)) := by
  subst hline
  refine Perm.cons _ ?_
  rw [SubKeyword.nodes, flatMap_cons, flatMap_append,
    Node.flatMap_links_of_isInner header.isInner_nodes]
  exact links_statements (some span.start.line) body

theorem links_answer {label : TextContent} (hline : span.start.line = line) :
    (Statement.answer label body span).links parent ~
      (parent, line) :: body.flatMap (Statement.links (some line)) := by
  subst hline
  refine Perm.cons _ ?_
  rw [Statement.nodes, flatMap_cons, flatMap_append,
    Node.flatMap_links_of_isInner label.isInner_nodes]
  exact links_statements (some span.start.line) body

theorem links_text {content : TextContent} :
    (Statement.text content).links parent = [(parent, content.span.start.line)] := by
  rw [Statement.links, Statement.nodes, flatMap_cons,
    Node.flatMap_links_of_isInner content.isInner_parts]
  rfl

theorem links_expression {e : Expression} :
    (Statement.expression e span).links parent = [(parent, span.start.line)] := by
  rw [Statement.links, Statement.nodes, flatMap_cons, Node.flatMap_links_of_isInner e.isInner_nodes]
  rfl

theorem links_comment {text : String} :
    (Statement.comment text span).links parent = [(parent, span.start.line)] :=
  rfl

end Links

end ScriptLint

import ScriptLint.Tree.Statement

/-!
# Nodes of a program

The nodes of a program in the order in which rules look at them: every node before the nodes inside
it, and these in the order of the source, the sub-keywords of a keyword before its body.
-/

namespace ScriptLint

inductive Node where
  | program (program : Program)
  | statement (statement : Statement)
  | subKeyword (subKeyword : SubKeyword)
  | content (content : TextContent)
  | argument (argument : Argument)
  | expression (expression : Expression)
  | property (property : Property)

namespace Node

def span : Node → Span
  | program p => p.span
  | statement s => s.span
  | subKeyword s => s.span
  | content c => c.span
  | argument a => a.span
  | expression e => e.span
  | property p => p.span

/-- The line of the keyword or sub-keyword, if the node is one. -/
def header? : Node → Option Header
  | statement (.keyword header _ _ _) => some header
  | subKeyword s => some s.header
  | _ => none

end Node

mutual

def Expression.nodes : Expression → List Node
  | .binary op left right span =>
    .expression (.binary op left right span) :: (left.nodes ++ right.nodes)
  | .unary op argument span => .expression (.unary op argument span) :: argument.nodes
  | .member object property namespaced span =>
    .expression (.member object property namespaced span) :: object.nodes
  | .call callee arguments span =>
    .expression (.call callee arguments span) ::
      (callee.nodes ++ Expression.nodesOfList arguments)
  | .index object index span =>
    .expression (.index object index span) :: (object.nodes ++ index.nodes)
  | .identifier name span => [.expression (.identifier name span)]
  | .literal value raw interpolations span =>
    .expression (.literal value raw interpolations span) ::
      Expression.nodesOfList interpolations
  | .array elements span =>
    .expression (.array elements span) :: Expression.nodesOfList elements
  | .object properties span =>
    .expression (.object properties span) :: Property.nodesOfList properties

def Expression.nodesOfList : List Expression → List Node
  | [] => []
  | expression :: rest => expression.nodes ++ Expression.nodesOfList rest

def Property.nodes : Property → List Node
  | .mk key value span => .property (.mk key value span) :: (key.nodes ++ value.nodes)

def Property.nodesOfList : List Property → List Node
  | [] => []
  | property :: rest => property.nodes ++ Property.nodesOfList rest

end

/-- The nodes inside a part of a text. -/
def TextPart.nodes : TextPart → List Node
  | run _ _ => []
  | interpolation e => e.nodes

def TextContent.nodes (content : TextContent) : List Node :=
  .content content :: content.parts.flatMap TextPart.nodes

def Argument.nodes (argument : Argument) : List Node :=
  .argument argument ::
    match argument with
    | text content => content.nodes
    | expression e => e.nodes
    | loop names collection _ => names.flatMap Expression.nodes ++ collection.nodes

/-- The nodes of the argument of a header, if it has one. -/
def Header.nodes (header : Header) : List Node :=
  match header.argument with
  | none => []
  | some argument => argument.nodes

mutual

def Statement.nodes : Statement → List Node
  | .keyword header subKeywords body span =>
    .statement (.keyword header subKeywords body span) ::
      (header.nodes ++ SubKeyword.nodesOfList subKeywords ++ Statement.nodesOfList body)
  | .expression expression span =>
    .statement (.expression expression span) :: expression.nodes
  | .text content => .statement (.text content) :: content.parts.flatMap TextPart.nodes
  | .comment text span => [.statement (.comment text span)]
  | .answer label body span =>
    .statement (.answer label body span) :: (label.nodes ++ Statement.nodesOfList body)

def Statement.nodesOfList : List Statement → List Node
  | [] => []
  | statement :: rest => statement.nodes ++ Statement.nodesOfList rest

def SubKeyword.nodes : SubKeyword → List Node
  | .mk header body span =>
    .subKeyword (.mk header body span) :: (header.nodes ++ Statement.nodesOfList body)

def SubKeyword.nodesOfList : List SubKeyword → List Node
  | [] => []
  | subKeyword :: rest => subKeyword.nodes ++ SubKeyword.nodesOfList rest

end

def Program.nodes (program : Program) : List Node :=
  .program program :: Statement.nodesOfList program.body

/-- A number of the program stands for no number, and so differs from itself as a number. -/
def Program.holdsNaN (program : Program) : Bool :=
  program.nodes.any fun
    | .expression expression => expression.isNaN
    | _ => false

end ScriptLint

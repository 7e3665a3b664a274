import ScriptLint.Proofs.WordPlaces
import ScriptLint.Rules.Variables

/-!
# The parts that identifiers play

An identifier of a program defines a variable, is the name of what is called, or is read.  Which of
these it is follows from the place where it stands in the tree alone.

The rules on variables do not look at the tree: they walk over the nodes and keep the offsets of
identifiers that are no reads.  They find the same, since a node comes before the nodes inside it
and no two identifiers start at the same offset.

**Method.**  `Announces` says of a list of nodes which identifiers it holds, and that each
identifier that is no read is named by an earlier node.  `Recorded` says what a walk knows after
some nodes.

**Results.**
* `Program.announces`: the nodes of a program.
* `recorded_program`: what the walk over a program knows in the end.
* `variables_reported`: the findings of the two rules on variables.
-/

namespace ScriptLint

open List VariableUsage

variable {o : Occurrence} {told os : List Occurrence} {nodes : List Node}

/-- The part that an identifier plays. -/
inductive Role where
  | definition
  | called
  | read
deriving DecidableEq, Repr

/-- An identifier of a program and the part that it plays. -/
structure Occurrence where
  role : Role
  name : String
  span : Span
deriving DecidableEq, Repr

mutual

/-- The identifiers of an expression, in order; the expression itself plays a part. -/
def Expression.occurrences (role : Role) : Expression → List Occurrence
  | .binary op left right _ =>
    left.occurrences (if op = .assign then .definition else .read) ++ right.occurrences .read
  | .unary _ argument _ => argument.occurrences .read
  | .member object _ _ _ => object.occurrences .read
  | .call callee arguments _ => callee.occurrences .called ++ Expression.occurrencesOfList arguments
  | .index object index _ => object.occurrences .read ++ index.occurrences .read
  | .identifier name span => [⟨role, name, span⟩]
  | .literal _ _ interpolations _ => Expression.occurrencesOfList interpolations
  | .array elements _ => Expression.occurrencesOfList elements
  | .object properties _ => Property.occurrencesOfList properties

/-- The identifiers of several expressions, whose values are asked for. -/
def Expression.occurrencesOfList : List Expression → List Occurrence
  | [] => []
  | expression :: rest => expression.occurrences .read ++ Expression.occurrencesOfList rest

/-- The identifiers of a property. -/
def Property.occurrences : Property → List Occurrence
  | .mk key value _ => key.occurrences .read ++ value.occurrences .read

/-- The identifiers of several properties. -/
def Property.occurrencesOfList : List Property → List Occurrence
  | [] => []
  | property :: rest => property.occurrences ++ Property.occurrencesOfList rest

end

/-- The identifiers of a part of a text. -/
def TextPart.occurrences : TextPart → List Occurrence
  | run _ _ => []
  | interpolation e => e.occurrences .read

/-- The identifiers of a text. -/
def TextContent.occurrences (content : TextContent) : List Occurrence :=
  content.parts.flatMap TextPart.occurrences

/-- The identifiers of an argument, which may define a variable as a whole. -/
def Argument.occurrences (defines : Bool) : Argument → List Occurrence
  | text content => content.occurrences
  | expression e => e.occurrences (if defines then .definition else .read)
  | loop names collection _ =>
    names.flatMap (Expression.occurrences .definition) ++ collection.occurrences .read

/-- The identifiers in the header of a keyword; the arguments of `set` and `save` define. -/
def Header.occurrences (header : Header) : List Occurrence :=
  match header.argument with
  | none => []
  | some argument => argument.occurrences (header.isNamed "set" || header.isNamed "save")

mutual

/-- The identifiers of a statement. -/
def Statement.occurrences : Statement → List Occurrence
  | .keyword header subKeywords body _ =>
    header.occurrences ++ SubKeyword.occurrencesOfList subKeywords ++
      Statement.occurrencesOfList body
  | .expression expression _ => expression.occurrences .read
  | .text content => content.occurrences
  | .comment _ _ => []
  | .answer label body _ => label.occurrences ++ Statement.occurrencesOfList body

/-- The identifiers of several statements. -/
def Statement.occurrencesOfList : List Statement → List Occurrence
  | [] => []
  | statement :: rest => statement.occurrences ++ Statement.occurrencesOfList rest

/-- The identifiers of a sub-keyword. -/
def SubKeyword.occurrences : SubKeyword → List Occurrence
  | .mk header body _ => header.occurrences ++ Statement.occurrencesOfList body

/-- The identifiers of several sub-keywords. -/
def SubKeyword.occurrencesOfList : List SubKeyword → List Occurrence
  | [] => []
  | subKeyword :: rest => subKeyword.occurrences ++ SubKeyword.occurrencesOfList rest

end

/-- The identifiers of a program, in the order of the nodes, with the parts that they play. -/
def Program.occurrences (program : Program) : List Occurrence :=
  Statement.occurrencesOfList program.body

/-- An expression that is an identifier, in a part that it plays. -/
def Expression.asOccurrence (role : Role) : Expression → List Occurrence
  | .identifier name span => [⟨role, name, span⟩]
  | _ => []

/-- The identifiers that a header defines. -/
def Header.targets (header : Header) : List Occurrence :=
  match header.argument with
  | some (.expression e) =>
    if header.isNamed "set" || header.isNamed "save" then e.asOccurrence .definition else []
  | _ => []

/-- The identifiers inside a node that are no reads because of it. -/
def Node.targets : Node → List Occurrence
  | .statement (.keyword header _ _ _) => header.targets
  | .subKeyword s => s.header.targets
  | .argument (.loop names _ _) => names.flatMap (Expression.asOccurrence .definition)
  | .expression (.binary .assign left _ _) => left.asOccurrence .definition
  | .expression (.call callee _ _) => callee.asOccurrence .called
  | _ => []

/-- The nodes hold the identifiers, in order.  Every identifier that is no read is told before or is
a target of an earlier node, and the targets of the nodes are among the identifiers. -/
inductive Announces : (told : List Occurrence) → List Node → List Occurrence → Prop
  | nil {told : List Occurrence} : Announces told [] []
  | identifier {told : List Occurrence} {nodes : List Node} {os : List Occurrence} (o : Occurrence)
      (htold : o.role ≠ .read → o ∈ told) (rest : Announces told nodes os) :
      Announces told (.expression (.identifier o.name o.span) :: nodes) (o :: os)
  | other {told : List Occurrence} {nodes : List Node} {os : List Occurrence} (node : Node)
      (hnode : node.identifierStart? = none) (htargets : ∀ o ∈ node.targets, o ∈ os)
      (rest : Announces (node.targets.reverse ++ told) nodes os) :
      Announces told (node :: nodes) os

namespace Announces

variable {told' : List Occurrence} {more : List Node} {ps : List Occurrence}

theorem mono (h : Announces told nodes os) (hsub : told ⊆ told') : Announces told' nodes os := by
  induction h generalizing told' with
  | nil => exact .nil
  | identifier o htold _ ih => exact .identifier o (fun hrole => hsub (htold hrole)) (ih hsub)
  | other node hnode htargets _ ih =>
    refine .other node hnode htargets (ih (append_subset.2 ⟨?_, ?_⟩))
    · exact subset_append_left _ _
    · exact Subset.trans hsub (subset_append_right _ _)

theorem append (h : Announces told nodes os) (h' : Announces told more ps) :
    Announces told (nodes ++ more) (os ++ ps) := by
  induction h with
  | nil => exact h'
  | identifier o htold _ ih => exact .identifier o htold (ih h')
  | other node hnode htargets _ ih =>
    refine .other node hnode (fun o ho => mem_append_left ps (htargets o ho)) (ih ?_)
    exact h'.mono (subset_append_right _ _)

/-- A node without targets that is no identifier may stand before. -/
theorem cons (h : Announces told nodes os) {node : Node} (hnode : node.identifierStart? = none)
    (htargets : node.targets = []) : Announces told (node :: nodes) os := by
  refine .other node hnode (by simp [htargets]) ?_
  rwa [htargets]

theorem flatMap {α : Type} {xs : List α} {f : α → List Node} {g : α → List Occurrence}
    (h : ∀ x ∈ xs, Announces told (f x) (g x)) : Announces told (xs.flatMap f) (xs.flatMap g) := by
  induction xs with
  | nil => exact .nil
  | cons x xs ih =>
    obtain ⟨hfirst, hrest⟩ := forall_mem_cons.1 h
    exact hfirst.append (ih hrest)

/-- The starts of the identifiers are those of the occurrences. -/
theorem starts (h : Announces told nodes os) :
    nodes.filterMap Node.identifierStart? = os.map fun o => o.span.start.offset := by
  induction h with
  | nil => rfl
  | identifier o _ _ ih =>
    rw [map_cons, ← ih]
    exact filterMap_cons_some rfl
  | other node hnode _ _ ih => rw [filterMap_cons_none hnode, ih]

/-- The identifiers among the nodes are the occurrences. -/
theorem identifiers (h : Announces told nodes os) :
    nodes.filter (·.identifierStart?.isSome) =
      os.map fun o => .expression (.identifier o.name o.span) := by
  induction h with
  | nil => rfl
  | identifier o _ _ ih =>
    rw [map_cons, ← ih]
    exact filter_cons_of_pos rfl
  | other node hnode _ _ ih =>
    rw [← ih]
    exact filter_cons_of_neg (by simp [hnode])

end Announces

theorem Expression.asOccurrence_subset (role : Role) (e : Expression) :
    ∀ o ∈ e.asOccurrence role, o ∈ e.occurrences role := by
  cases e with
  | identifier name span => exact fun o ho => ho
  | _ => exact nofun

theorem Node.targets_of_ne_assign {op : BinaryOp} (h : op ≠ .assign) (left right : Expression)
    (span : Span) : Node.targets (.expression (.binary op left right span)) = [] := by
  cases op with
  | assign => exact absurd rfl h
  | _ => rfl

theorem Expression.role_of_mem_asOccurrence {role : Role} {e : Expression}
    (h : o ∈ e.asOccurrence role) : o.role = role := by
  cases e with
  | identifier name span => rw [mem_singleton.1 h]
  | _ => cases h

theorem Header.role_of_mem_targets {header : Header} (h : o ∈ header.targets) : o.role ≠ .read := by
  unfold Header.targets at h
  split at h
  · split at h
    · rw [Expression.role_of_mem_asOccurrence h]
      exact nofun
    · cases h
  · cases h

/-- The targets of a node are no reads. -/
theorem Node.role_of_mem_targets (node : Node) (h : o ∈ node.targets) : o.role ≠ .read := by
  unfold Node.targets at h
  split at h
  · exact Header.role_of_mem_targets h
  · exact Header.role_of_mem_targets h
  · obtain ⟨e, -, ho⟩ := mem_flatMap.1 h
    rw [Expression.role_of_mem_asOccurrence ho]
    exact nofun
  · rw [Expression.role_of_mem_asOccurrence h]
    exact nofun
  · rw [Expression.role_of_mem_asOccurrence h]
    exact nofun
  · cases h

mutual

/-- The nodes of an expression; if it is an identifier and no read, it must be told. -/
theorem Expression.announces {told : List Occurrence} (role : Role) : (e : Expression) →
    (role ≠ .read → e.asOccurrence role ⊆ told) → Announces told e.nodes (e.occurrences role)
  | .binary op left right span, _ => by
      rw [Expression.nodes, Expression.occurrences]
      have hright := @Expression.announces told .read right (absurd rfl)
      by_cases hop : op = .assign
      · subst hop
        refine .other _ rfl ?_ ?_
        · exact fun o ho => mem_append_left _ (left.asOccurrence_subset .definition o ho)
        · refine (left.announces .definition fun _ o ho => ?_).append
            (hright.mono (subset_append_right _ _))
          exact mem_append_left _ (mem_reverse.2 ho)
      · rw [if_neg hop]
        exact ((left.announces .read (absurd rfl)).append hright).cons rfl
          (Node.targets_of_ne_assign hop left right span)
  | .unary op argument span, _ => (argument.announces .read (absurd rfl)).cons rfl rfl
  | .member object property namespaced span, _ => (object.announces .read (absurd rfl)).cons rfl rfl
  | .call callee arguments span, _ => by
      refine .other _ rfl ?_ ?_
      · exact fun o ho => mem_append_left _ (callee.asOccurrence_subset .called o ho)
      · refine (callee.announces .called fun _ o ho => ?_).append
          (Expression.announcesOfList arguments)
        exact mem_append_left _ (mem_reverse.2 ho)
  | .index object index span, _ =>
    ((object.announces .read (absurd rfl)).append (index.announces .read (absurd rfl))).cons rfl rfl
  | .identifier name span, h =>
    .identifier ⟨role, name, span⟩ (fun hrole => h hrole mem_cons_self) .nil
  | .literal value raw interpolations span, _ =>
    (Expression.announcesOfList interpolations).cons rfl rfl
  | .array elements span, _ => (Expression.announcesOfList elements).cons rfl rfl
  | .object properties span, _ => (Property.announcesOfList properties).cons rfl rfl

theorem Expression.announcesOfList {told : List Occurrence} : (es : List Expression) →
    Announces told (Expression.nodesOfList es) (Expression.occurrencesOfList es)
  | [] => .nil
  | e :: es => (e.announces .read (absurd rfl)).append (Expression.announcesOfList es)

theorem Property.announces {told : List Occurrence} :
    (p : Property) → Announces told p.nodes p.occurrences
  | .mk key value _ =>
    ((key.announces .read (absurd rfl)).append (value.announces .read (absurd rfl))).cons rfl rfl

theorem Property.announcesOfList {told : List Occurrence} : (ps : List Property) →
    Announces told (Property.nodesOfList ps) (Property.occurrencesOfList ps)
  | [] => .nil
  | p :: ps => p.announces.append (Property.announcesOfList ps)

end

theorem TextPart.announces (part : TextPart) : Announces told part.nodes part.occurrences := by
  cases part with
  | run text span => exact .nil
  | interpolation e => exact e.announces .read (absurd rfl)

theorem TextContent.announces_parts (content : TextContent) :
    Announces told (content.parts.flatMap TextPart.nodes) content.occurrences :=
  .flatMap fun part _ => part.announces

theorem TextContent.announces (content : TextContent) :
    Announces told content.nodes content.occurrences :=
  content.announces_parts.cons rfl rfl

/-- The nodes of an argument; if it is an identifier and defines, it must be told. -/
theorem Argument.announces (defines : Bool) (argument : Argument)
    (h : ∀ e, argument = .expression e → defines = true → e.asOccurrence .definition ⊆ told) :
    Announces told argument.nodes (argument.occurrences defines) := by
  cases argument with
  | text content => exact content.announces.cons rfl rfl
  | expression e =>
    refine Announces.cons ?_ rfl rfl
    cases defines with
    | false => exact e.announces .read (absurd rfl)
    | true => exact e.announces .definition fun _ => h e rfl rfl
  | loop names collection span =>
    refine .other _ rfl ?_
      (.append (.flatMap fun e he => ?_) (collection.announces .read (absurd rfl)))
    · intro o ho
      obtain ⟨e, he, ho⟩ := mem_flatMap.1 ho
      exact mem_append_left _ (mem_flatMap.2 ⟨e, he, e.asOccurrence_subset .definition o ho⟩)
    · refine e.announces .definition fun _ o ho => ?_
      exact mem_append_left _ (mem_reverse.2 (mem_flatMap.2 ⟨e, he, ho⟩))

/-- The nodes of a header, whose targets are told. -/
theorem Header.announces (header : Header) (h : header.targets ⊆ told) :
    Announces told header.nodes header.occurrences := by
  obtain ⟨name, span, argument⟩ := header
  cases argument with
  | none => exact .nil
  | some argument =>
    refine argument.announces _ ?_
    rintro e rfl hdefines o ho
    refine h ?_
    rw [Header.targets]
    dsimp only
    rwa [if_pos hdefines]

theorem Header.targets_subset (header : Header) : ∀ o ∈ header.targets, o ∈ header.occurrences := by
  intro o ho
  rw [Header.targets] at ho
  split at ho
  · next e hargument =>
    split at ho
    · next hdefines =>
      rw [Header.occurrences, hargument]
      dsimp only
      rw [Argument.occurrences, if_pos hdefines]
      exact e.asOccurrence_subset .definition o ho
    · cases ho
  · cases ho

mutual

theorem Statement.announces {told : List Occurrence} :
    (s : Statement) → Announces told s.nodes s.occurrences
  | .keyword header subKeywords body span => by
      refine .other _ rfl ?_ ?_
      · exact fun o ho => mem_append_left _ (mem_append_left _ (header.targets_subset o ho))
      · refine ((header.announces fun o ho => ?_).append
          (SubKeyword.announcesOfList subKeywords)).append (Statement.announcesOfList body)
        exact mem_append_left _ (mem_reverse.2 ho)
  | .expression expression span => (expression.announces .read (absurd rfl)).cons rfl rfl
  | .text content => content.announces_parts.cons rfl rfl
  | .comment text span => Announces.nil.cons rfl rfl
  | .answer label body span =>
    (label.announces.append (Statement.announcesOfList body)).cons rfl rfl

theorem Statement.announcesOfList {told : List Occurrence} : (body : List Statement) →
    Announces told (Statement.nodesOfList body) (Statement.occurrencesOfList body)
  | [] => .nil
  | s :: body => s.announces.append (Statement.announcesOfList body)

theorem SubKeyword.announces {told : List Occurrence} :
    (s : SubKeyword) → Announces told s.nodes s.occurrences
  | .mk header body span => by
      refine .other _ rfl ?_ ?_
      · exact fun o ho => mem_append_left _ (header.targets_subset o ho)
      · refine (header.announces fun o ho => ?_).append (Statement.announcesOfList body)
        exact mem_append_left _ (mem_reverse.2 ho)

theorem SubKeyword.announcesOfList {told : List Occurrence} : (subs : List SubKeyword) →
    Announces told (SubKeyword.nodesOfList subs) (SubKeyword.occurrencesOfList subs)
  | [] => .nil
  | s :: subs => s.announces.append (SubKeyword.announcesOfList subs)

end

/-- The nodes of a program announce its identifiers. -/
theorem Program.announces (program : Program) : Announces [] program.nodes program.occurrences :=
  (Statement.announcesOfList program.body).cons rfl rfl

namespace VariableUsage

/-- An identifier that is no read is met in a node around it. -/
def announce (usage : VariableUsage) (o : Occurrence) : VariableUsage :=
  if o.role = .definition then usage.define (.identifier o.name o.span)
  else usage.exclude o.span.start.offset

theorem define_eq (usage : VariableUsage) (e : Expression) :
    usage.define e = (e.asOccurrence .definition).foldl announce usage := by
  cases e with
  | identifier name span => rfl
  | _ => rfl

theorem recordHeader_eq (usage : VariableUsage) (header : Header) :
    usage.recordHeader header = header.targets.foldl announce usage := by
  unfold recordHeader definesArgument Header.targets
  cases hargument : header.argument with
  | none => split <;> rfl
  | some argument =>
    cases argument with
    | expression e =>
      split
      · exact usage.define_eq e
      · rfl
    | _ => split <;> rfl

theorem foldl_define_eq (usage : VariableUsage) (names : List Expression) :
    names.foldl define usage =
      (names.flatMap (Expression.asOccurrence .definition)).foldl announce usage := by
  induction names generalizing usage with
  | nil => rfl
  | cons e names ih => rw [foldl_cons, flatMap_cons, foldl_append, define_eq, ih]

/-- A node that is no identifier says which identifiers inside it are no reads. -/
theorem record_eq (usage : VariableUsage) {node : Node} (hnode : node.identifierStart? = none) :
    usage.record node = node.targets.foldl announce usage := by
  cases node with
  | statement s =>
    cases s with
    | keyword header _ _ _ => exact usage.recordHeader_eq header
    | _ => rfl
  | subKeyword s => exact usage.recordHeader_eq s.header
  | argument a =>
    cases a with
    | loop names _ _ => exact usage.foldl_define_eq names
    | _ => rfl
  | expression e =>
    cases e with
    | identifier => cases hnode
    | binary op left _ _ =>
      cases op with
      | assign => exact usage.define_eq left
      | _ => rfl
    | call callee _ _ => cases callee <;> rfl
    | _ => rfl
  | _ => rfl

/-- What a walk over nodes knows: the identifiers that were told, and the reads that were met. -/
structure Recorded (usage : VariableUsage) (told reads : List Occurrence) : Prop where
  notReads : ∀ offset, offset ∈ usage.notReads ↔ ∃ o ∈ told, o.span.start.offset = offset
  reads_eq : usage.reads.reverse = reads.map fun o => (o.name, o.span)
  nodup : (usage.definitions.map Prod.fst).Nodup
  definitions : ∀ d ∈ usage.definitions, ∃ o ∈ told, o.role = .definition ∧ (o.name, o.span) = d
  defined : ∀ o ∈ told, o.role = .definition → o.name ∈ usage.definitions.map Prod.fst

variable {usage : VariableUsage} {reads : List Occurrence}

theorem recorded_empty : Recorded .empty [] [] where
  notReads := by simp [empty]
  reads_eq := rfl
  nodup := nodup_nil
  definitions := nofun
  defined := nofun

theorem isDefined_iff (usage : VariableUsage) (name : String) :
    usage.isDefined name = true ↔ name ∈ usage.definitions.map Prod.fst := by
  simp [isDefined]

theorem Recorded.exclude (h : Recorded usage told reads)
    (ho : o.role = .definition → o.name ∈ usage.definitions.map Prod.fst) :
    Recorded (usage.exclude o.span.start.offset) (o :: told) reads where
  notReads offset := by
    rw [exists_mem_cons_iff, ← h.notReads]
    show offset ∈ o.span.start.offset :: usage.notReads ↔ _
    rw [mem_cons, eq_comm]
  reads_eq := h.reads_eq
  nodup := h.nodup
  definitions d hd := by
    obtain ⟨o', ho', hrest⟩ := h.definitions d hd
    exact ⟨o', mem_cons_of_mem o ho', hrest⟩
  defined := forall_mem_cons.2 ⟨ho, h.defined⟩

theorem Recorded.define (h : Recorded usage told reads)
    (hrole : o.role = .definition) (hfresh : o.name ∉ usage.definitions.map Prod.fst) :
    Recorded { usage with
      definitions := (o.name, o.span) :: usage.definitions
      notReads := o.span.start.offset :: usage.notReads } (o :: told) reads where
  notReads offset := by
    rw [exists_mem_cons_iff, ← h.notReads, mem_cons, eq_comm]
  reads_eq := h.reads_eq
  nodup := nodup_cons.2 ⟨hfresh, h.nodup⟩
  definitions := by
    intro d hd
    rcases mem_cons.1 hd with rfl | hd
    · exact ⟨o, mem_cons_self, hrole, rfl⟩
    · obtain ⟨o', ho', hrest⟩ := h.definitions d hd
      exact ⟨o', mem_cons_of_mem o ho', hrest⟩
  defined := by
    refine forall_mem_cons.2 ⟨fun _ => mem_cons_self, fun o' ho' hrole' => ?_⟩
    exact mem_cons_of_mem _ (h.defined o' ho' hrole')

theorem Recorded.announce (h : Recorded usage told reads) (o : Occurrence) :
    Recorded (usage.announce o) (o :: told) reads := by
  unfold VariableUsage.announce
  split
  · next hrole =>
    unfold VariableUsage.define
    dsimp only
    split
    · next hdefined => exact h.exclude fun _ => (isDefined_iff usage o.name).1 hdefined
    · next hnew =>
      have hfresh : o.name ∉ usage.definitions.map Prod.fst :=
        fun hmem => hnew ((isDefined_iff usage o.name).2 hmem)
      exact h.define hrole hfresh
  · next hrole => exact h.exclude fun hdefinition => absurd hdefinition hrole

theorem Recorded.foldl (h : Recorded usage told reads) (os : List Occurrence) :
    Recorded (os.foldl VariableUsage.announce usage) (os.reverse ++ told) reads := by
  induction os generalizing usage told with
  | nil => exact h
  | cons o os ih =>
    rw [reverse_cons, append_assoc]
    exact ih (h.announce o)

theorem Recorded.read (h : Recorded usage told reads)
    (hkept : o.span.start.offset ∉ usage.notReads) :
    Recorded (usage.read o.name o.span) told (reads ++ [o]) := by
  unfold VariableUsage.read
  rw [if_neg (by simpa using hkept)]
  refine ⟨h.notReads, ?_, h.nodup, h.definitions, h.defined⟩
  rw [reverse_cons, h.reads_eq, map_append]
  rfl

/-- The walk over nodes that announce their identifiers, all of which start at different offsets. -/
theorem Recorded.record (hannounces : Announces told nodes os) (h : Recorded usage told reads)
    {before : List Occurrence} (htold : ∀ o ∈ told, o ∈ before ++ os ∧ o.role ≠ .read)
    (hnodup : ((before ++ os).map fun o => o.span.start.offset).Nodup) :
    ∃ told', (∀ o, o ∈ told' ↔ o ∈ told ∨ o ∈ os ∧ o.role ≠ .read) ∧
      Recorded (nodes.foldl record usage) told'
        (reads ++ os.filter (·.role = .read)) := by
  induction hannounces generalizing usage reads before with
  | @nil told => exact ⟨told, fun o => by simp, by simpa using h⟩
  | @identifier told nodes os o hearlier _ ih =>
    rw [foldl_cons]
    have hnext : (before ++ [o]) ++ os = before ++ o :: os := by simp
    rw [← hnext] at hnodup htold
    have hmem : ∀ x, (x ∈ told ∨ x ∈ os ∧ x.role ≠ .read) ↔ x ∈ told ∨
        x ∈ o :: os ∧ x.role ≠ .read := by
      intro x
      rw [mem_cons]
      constructor
      · rintro (hx | ⟨hx, hother⟩)
        · exact .inl hx
        · exact .inr ⟨.inr hx, hother⟩
      · rintro (hx | ⟨rfl | hx, hother⟩)
        · exact .inl hx
        · exact .inl (hearlier hother)
        · exact .inr ⟨hx, hother⟩
    by_cases hrole : o.role = .read
    · have hkept : o.span.start.offset ∉ usage.notReads := by
        rw [h.notReads]
        rintro ⟨o', ho', hsame⟩
        obtain ⟨hmem, hother⟩ := htold o' ho'
        have heq := inj_on_of_nodup_map hnodup hmem (by simp) hsame
        exact hother (heq ▸ hrole)
      obtain ⟨told', hiff, hrecorded⟩ := ih (h.read hkept) htold hnodup
      refine ⟨told', fun x => (hiff x).trans (hmem x), ?_⟩
      rw [filter_cons_of_pos (by simpa using hrole), append_cons]
      exact hrecorded
    · have hdropped : usage.record (.expression (.identifier o.name o.span)) = usage := by
        show usage.read o.name o.span = usage
        unfold VariableUsage.read
        rw [if_pos (by simpa using (h.notReads _).2 ⟨o, hearlier hrole, rfl⟩)]
      obtain ⟨told', hiff, hrecorded⟩ := ih h htold hnodup
      refine ⟨told', fun x => (hiff x).trans (hmem x), ?_⟩
      rw [filter_cons_of_neg (by simpa using hrole), hdropped]
      exact hrecorded
  | @other told nodes os node hnode htargets _ ih =>
    rw [foldl_cons, record_eq usage hnode]
    have hmore : ∀ o ∈ node.targets.reverse ++ told, o ∈ before ++ os ∧ o.role ≠ .read := by
      intro o ho
      rcases mem_append.1 ho with ho | ho
      · rw [mem_reverse] at ho
        exact ⟨mem_append_right _ (htargets o ho), node.role_of_mem_targets ho⟩
      · exact htold o ho
    obtain ⟨told', hiff, hrecorded⟩ := ih (h.foldl node.targets) hmore hnodup
    refine ⟨told', fun x => ?_, hrecorded⟩
    rw [hiff, mem_append, mem_reverse]
    constructor
    · rintro ((hx | hx) | hx)
      · exact .inr ⟨htargets x hx, node.role_of_mem_targets hx⟩
      · exact .inl hx
      · exact .inr hx
    · rintro (hx | hx)
      · exact .inl (.inr hx)
      · exact .inr hx

end VariableUsage

/-- An identifier with the name plays the part. -/
def Program.HasRole (program : Program) (role : Role) (name : String) : Prop :=
  ∃ o ∈ program.occurrences, o.role = role ∧ o.name = name

instance (program : Program) (role : Role) (name : String) :
    Decidable (program.HasRole role name) :=
  inferInstanceAs (Decidable (∃ o ∈ program.occurrences, o.role = role ∧ o.name = name))

section Findings

variable (source : String)

/-- What the walk over a program knows in the end. -/
theorem recorded_program :
    ∃ told, (∀ o, o ∈ told ↔ o ∈ (parse source).program.occurrences ∧ o.role ≠ .read) ∧
      (ofNodes (parse source).program.nodes).Recorded told
        ((parse source).program.occurrences.filter (·.role = .read)) := by
  have hannounces := (parse source).program.announces
  have hnodup := nodup_identifierStarts source
  rw [hannounces.starts, ← nil_append (parse source).program.occurrences] at hnodup
  obtain ⟨told, hiff, hrecorded⟩ :=
    Recorded.record hannounces recorded_empty nofun hnodup
  refine ⟨told, fun o => ?_, hrecorded⟩
  rw [hiff]
  simp

theorem isDefined_program (name : String) :
    (ofNodes (parse source).program.nodes).isDefined name = true ↔
      (parse source).program.HasRole .definition name := by
  obtain ⟨told, hiff, hrecorded⟩ := recorded_program source
  rw [isDefined_iff]
  constructor
  · intro hmem
    obtain ⟨d, hd, rfl⟩ := mem_map.1 hmem
    obtain ⟨o, ho, hrole, rfl⟩ := hrecorded.definitions d hd
    exact ⟨o, ((hiff o).1 ho).1, hrole, rfl⟩
  · rintro ⟨o, ho, hrole, rfl⟩
    exact hrecorded.defined o ((hiff o).2 ⟨ho, by rw [hrole]; exact nofun⟩) hrole

theorem isRead_program (name : String) :
    (ofNodes (parse source).program.nodes).isRead name = true ↔
      (parse source).program.HasRole .read name := by
  obtain ⟨told, -, hrecorded⟩ := recorded_program source
  have hreads := hrecorded.reads_eq
  unfold isRead
  rw [← any_reverse, hreads, any_map, any_filter]
  simp only [any_eq_true, Program.HasRole, Bool.and_eq_true, decide_eq_true_eq,
    Function.comp_apply, beq_iff_eq]

theorem undefined_findings (globals : List String) (directives : DirectiveTable) :
    Rules.UndefinedVariables.findings globals directives (parse source).program.nodes =
      ((parse source).program.occurrences.filter fun o => o.role = .read ∧
        ¬ (parse source).program.HasRole .definition o.name ∧
        Rules.UndefinedVariables.isSupplied globals directives o.name = false).map
          (fun o => .plain ("`" ++ o.name ++ "` is used but never defined") o.span) := by
  obtain ⟨told, -, hrecorded⟩ := recorded_program source
  unfold Rules.UndefinedVariables.findings
  dsimp only
  rw [hrecorded.reads_eq, filter_map, map_map, filter_filter]
  congr 1
  congr 1
  funext o
  have hdefined := isDefined_program source o.name
  cases husage : (ofNodes (parse source).program.nodes).isDefined o.name with
  | true =>
    have hrole := hdefined.1 husage
    simp [husage, hrole]
  | false =>
    have hrole : ¬ (parse source).program.HasRole .definition o.name := by
      rw [← hdefined, husage]
      exact Bool.false_ne_true
    simp [husage, hrole, Bool.and_comm]

/-- The definitions that the walk keeps are one for each name. -/
theorem unused_findings (ignored : List String) (directives : DirectiveTable) :
    ∃ reported : List Occurrence,
      Rules.UnusedVariables.findings ignored directives (parse source).program.nodes =
        reported.map (fun o => .plain ("`" ++ o.name ++ "` is assigned but never used") o.span) ∧
      (reported.map Occurrence.name).Nodup ∧
      (∀ o ∈ reported, o ∈ (parse source).program.occurrences ∧ o.role = .definition) ∧
      ∀ name, name ∈ reported.map Occurrence.name ↔
        (parse source).program.HasRole .definition name ∧
        ¬ (parse source).program.HasRole .read name ∧
        Rules.UnusedVariables.isTaken ignored directives name = false := by
  obtain ⟨told, hiff, hrecorded⟩ := recorded_program source
  have hread := isRead_program source
  have hdefined := isDefined_program source
  set usage := ofNodes (parse source).program.nodes
  set kept := usage.definitions.reverse.filter fun definition =>
    !(usage.isRead definition.1 || Rules.UnusedVariables.isTaken ignored directives definition.1)
  have hsub : kept.Sublist usage.definitions.reverse := filter_sublist
  refine ⟨kept.map fun d => ⟨.definition, d.1, d.2⟩, ?_, ?_, ?_, fun name => ?_⟩
  · rw [map_map]
    rfl
  · rw [map_map]
    refine (hsub.map Prod.fst).nodup ?_
    rw [map_reverse]
    exact nodup_reverse.2 hrecorded.nodup
  · intro o ho
    obtain ⟨d, hd, rfl⟩ := mem_map.1 ho
    obtain ⟨o', ho', hrole, rfl⟩ := hrecorded.definitions d (mem_reverse.1 (hsub.mem hd))
    have hmem := ((hiff o').1 ho').1
    obtain ⟨role, name, span⟩ := o'
    obtain rfl : role = .definition := hrole
    exact ⟨hmem, rfl⟩
  · rw [map_map, ← hdefined, ← hread, isDefined_iff]
    constructor
    · intro hmem
      obtain ⟨d, hd, rfl⟩ := mem_map.1 hmem
      obtain ⟨hd, hkeeps⟩ := mem_filter.1 hd
      exact ⟨mem_map_of_mem (mem_reverse.1 hd), by simpa using hkeeps⟩
    · rintro ⟨hmem, hkeeps⟩
      obtain ⟨d, hd, rfl⟩ := mem_map.1 hmem
      refine mem_map.2 ⟨d, mem_filter.2 ⟨mem_reverse.2 hd, ?_⟩, rfl⟩
      simpa using hkeeps

/-- **The rules on variables.**  The occurrences of a program are its identifiers, in order.  The
rule on undefined variables finds every read, at its place, whose name no identifier defines and
nobody supplies.  The rule on unused variables finds every name once, at a definition, that an
identifier defines and none reads, and that nobody takes. -/
theorem variables_reported (globals ignored : List String) (severity : Severity)
    (context : RuleContext) :
    (parse source).program.nodes.filter (·.identifierStart?.isSome) =
      (parse source).program.occurrences.map (fun o => .expression (.identifier o.name o.span)) ∧
    (Rules.undefinedVariables globals severity).check context (parse source).program.nodes =
      ((parse source).program.occurrences.filter fun o => o.role = .read ∧
        ¬ (parse source).program.HasRole .definition o.name ∧
        ¬ context.directives.declares .fromParent o.name ∧
        ¬ context.directives.declares .fromChild o.name ∧ o.name ∉ globals).map
          (fun o => .plain ("`" ++ o.name ++ "` is used but never defined") o.span) ∧
    ∃ reported : List Occurrence,
      (Rules.unusedVariables ignored severity).check context (parse source).program.nodes =
        reported.map (fun o => .plain ("`" ++ o.name ++ "` is assigned but never used") o.span) ∧
      (reported.map Occurrence.name).Nodup ∧
      (∀ o ∈ reported, o ∈ (parse source).program.occurrences ∧ o.role = .definition) ∧
      ∀ name, name ∈ reported.map Occurrence.name ↔
        (parse source).program.HasRole .definition name ∧
        ¬ (parse source).program.HasRole .read name ∧
        ¬ context.directives.declares .toParent name ∧
        ¬ context.directives.declares .toChild name ∧ name ∉ ignored := by
  refine ⟨(parse source).program.announces.identifiers, ?_, ?_⟩
  · rw [show (Rules.undefinedVariables globals severity).check context
      (parse source).program.nodes =
      Rules.UndefinedVariables.findings globals context.directives
        (parse source).program.nodes from rfl,
      undefined_findings source]
    congr 2
    funext o
    simp [Rules.UndefinedVariables.isSupplied, and_assoc]
  · obtain ⟨reported, hfindings, hnodup, hmem, hiff⟩ :=
      unused_findings source ignored context.directives
    refine ⟨reported, hfindings, hnodup, hmem, fun name => ?_⟩
    rw [hiff]
    simp [Rules.UnusedVariables.isTaken, and_assoc]

end Findings

end ScriptLint

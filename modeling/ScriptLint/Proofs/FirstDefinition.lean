import ScriptLint.Proofs.SourceNesting
import ScriptLint.Proofs.VariableRoles

/-!
# Where an unused variable is found

A name may have many definitions, and the rule on unused variables finds it at one of them: the
first that the walk over the nodes meets.  A walk meets the argument of a keyword, then its
sub-keywords, and then its body, also where a statement of the body stands before a sub-keyword in
the source.  Elsewhere it goes on as the source does, if that is read without a report.

**Method.**  `IsFirst` says that a walk has kept the first definition of every name so far.  What a
node defines itself are nodes right under it, so that a walk meets no more definitions than it meets
starts of nodes, in the same order.

**Results.**
* `isFirst_ofNodes`: the walk over nodes.
* `Node.pairwise_defined`: when a walk meets the definitions in the order of the source.
* `unusedVariables_at_first_definition`: the findings of the rule.
-/

namespace ScriptLint

open List Occurrence

/-- The first definition of a name among identifiers. -/
def Occurrence.definition? (os : List Occurrence) (name : String) : Option Occurrence :=
  os.find? fun o => o.role = .definition ∧ o.name = name

theorem Occurrence.definition?_concat (os : List Occurrence) (o : Occurrence) (name : String) :
    definition? (os ++ [o]) name =
      (definition? os name).or (if o.role = .definition ∧ o.name = name then some o else none) := by
  simp [definition?]

/-- Where the definitions among identifiers start. -/
def Occurrence.starts (os : List Occurrence) : List Nat :=
  (os.filter (·.role = .definition)).map (·.span.start.offset)

/-- If the definitions start one after another, then the first one of a name starts first. -/
theorem Occurrence.start_le_of_definition? {os : List Occurrence} {name : String} {o : Occurrence}
    (h : definition? os name = some o) (horder : (starts os).Pairwise (· ≤ ·)) :
    ∀ o' ∈ os, o'.role = .definition → o'.name = name →
      o.span.start.offset ≤ o'.span.start.offset := by
  intro o' hmem hrole hname
  obtain ⟨ho, before, after, rfl, hbefore⟩ := find?_eq_some_iff_append.1 h
  rcases mem_append.1 hmem with hmem | hmem
  · exact absurd (hbefore o' hmem) (by simp [hrole, hname])
  rcases mem_cons.1 hmem with rfl | hlater
  · exact Nat.le_refl _
  have ho := (of_decide_eq_true ho).1
  rw [starts, pairwise_map, filter_append, filter_cons_of_pos (by simp [ho])] at horder
  exact (pairwise_cons.1 (pairwise_append.1 horder).2.1).1 o'
    (mem_filter.2 ⟨hlater, by simp [hrole]⟩)

namespace VariableUsage

/-- Of the definitions that were told, the first of each name is kept. -/
structure IsFirst (usage : VariableUsage) (told : List Occurrence) : Prop where
  kept : ∀ d ∈ usage.definitions, definition? told d.1 = some ⟨.definition, d.1, d.2⟩
  missing : ∀ name, usage.isDefined name = false → definition? told name = none

variable {usage : VariableUsage} {told : List Occurrence}

theorem isFirst_empty : IsFirst .empty [] :=
  ⟨nofun, fun _ _ => rfl⟩

/-- Nothing changes if the name is known already, or if nothing is defined. -/
theorem IsFirst.exclude (h : usage.IsFirst told) {o : Occurrence} (offset : Nat)
    (ho : o.role = .definition → usage.isDefined o.name) :
    (usage.exclude offset).IsFirst (told ++ [o]) where
  kept d hd := by rw [definition?_concat, h.kept d hd, Option.some_or]
  missing name hname := by
    have hother : ¬(o.role = .definition ∧ o.name = name) := by
      rintro ⟨hrole, rfl⟩
      exact Bool.false_ne_true (hname.symm.trans (ho hrole))
    rw [definition?_concat, h.missing name hname, if_neg hother, Option.or_none]

/-- A name that is not known yet is kept with its definition. -/
theorem IsFirst.define (h : usage.IsFirst told) (name : String) (span : Span) :
    (usage.define (.identifier name span)).IsFirst (told ++ [⟨.definition, name, span⟩]) := by
  cases hname : usage.isDefined name with
  | true =>
    have heq : usage.define (.identifier name span) = usage.exclude span.start.offset :=
      if_pos hname
    rw [heq]
    exact h.exclude _ fun _ => hname
  | false =>
    have heq : usage.define (.identifier name span) = { usage.exclude span.start.offset with
        definitions := (name, span) :: usage.definitions } := if_neg (Bool.eq_false_iff.1 hname)
    rw [heq]
    constructor
    · refine forall_mem_cons.2 ⟨?_, fun d hd => ?_⟩
      · rw [definition?_concat, h.missing name hname, if_pos ⟨rfl, rfl⟩, Option.none_or]
      · rw [definition?_concat, h.kept d hd, Option.some_or]
    · intro name' hname'
      obtain ⟨hother, hname'⟩ := Bool.or_eq_false_iff.1 hname'
      rw [definition?_concat, h.missing name' hname',
        if_neg fun heq => ?_, Option.or_none]
      exact beq_eq_false_iff_ne.1 hother heq.2

theorem IsFirst.announce (h : usage.IsFirst told) (o : Occurrence) :
    (usage.announce o).IsFirst (told ++ [o]) := by
  obtain ⟨role, name, span⟩ := o
  unfold VariableUsage.announce
  split
  · next hrole =>
    obtain rfl : role = .definition := hrole
    exact h.define name span
  · next hrole => exact h.exclude _ fun hdefinition => absurd hdefinition hrole

theorem IsFirst.foldl (h : usage.IsFirst told) (os : List Occurrence) :
    (os.foldl VariableUsage.announce usage).IsFirst (told ++ os) := by
  induction os generalizing usage told with
  | nil => rwa [append_nil]
  | cons o os ih =>
    rw [append_cons]
    exact ih (h.announce o)

/-- One step of the walk: a node tells its targets, and an identifier none. -/
theorem IsFirst.record (h : usage.IsFirst told) (node : Node) :
    (usage.record node).IsFirst (told ++ node.targets) := by
  cases hnode : node.identifierStart? with
  | none =>
    rw [record_eq usage hnode]
    exact h.foldl node.targets
  | some start =>
    unfold Node.identifierStart? at hnode
    split at hnode
    · next name span =>
      show (usage.read name span).IsFirst (told ++ [])
      rw [append_nil]
      unfold read
      split
      · exact h
      · exact ⟨h.kept, h.missing⟩
    · cases hnode

/-- The walk over nodes keeps the first definition of every name. -/
theorem isFirst_ofNodes (nodes : List Node) :
    (ofNodes nodes).IsFirst (nodes.flatMap Node.targets) := by
  have hrun : ∀ {usage : VariableUsage} {told : List Occurrence}, usage.IsFirst told →
      (nodes.foldl VariableUsage.record usage).IsFirst (told ++ nodes.flatMap Node.targets) := by
    induction nodes with
    | nil => exact fun h => by rwa [flatMap_nil, append_nil]
    | cons node nodes ih =>
      intro usage told h
      rw [flatMap_cons, ← append_assoc]
      exact ih (h.record node)
  exact hrun isFirst_empty

end VariableUsage

namespace Node

variable {x : Node}

/-- Where the definitions start that a walk over the node meets. -/
def defined (x : Node) : List Nat :=
  starts (x.nodes.flatMap targets)

theorem defined_eq (x : Node) :
    x.defined = starts x.targets ++ (x.beside ++ x.within).flatMap defined := by
  rw [defined, nodes_eq, flatMap_cons, starts, filter_append, map_append, flatMap_assoc,
    filter_flatMap, map_flatMap]
  rfl

/-- Where the node starts, and the definitions in it. -/
def spots (x : Node) : List Nat :=
  x.span.start.offset :: x.defined

/-- The walk goes on as the source does: the sub-keywords of a keyword stand before its statements,
and the variables of a loop define nothing inside. -/
def IsForward : Node → Prop
  | statement (.keyword _ subs body _) =>
    ∀ s ∈ subs, ∀ b ∈ body, (subKeyword s).Before (statement b)
  | argument (.loop names _ _) => ∀ e ∈ names, (expression e).defined = []
  | _ => True

instance : DecidablePred IsForward := fun x => by
  unfold IsForward Before
  split <;> infer_instance

theorem pairwise_under (h : x.IsNested) (hx : x.IsForward) :
    (x.beside ++ x.within).Pairwise Before := by
  have hrows := h.order
  unfold rows at hrows
  split at hrows
  · next header subs body span =>
    obtain ⟨harguments, hsubs, hafter⟩ := pairwise_append.1 (hrows _ mem_cons_self)
    obtain ⟨-, hbody, hafter'⟩ := pairwise_append.1 (hrows _ (mem_cons_of_mem _ mem_cons_self))
    have hitems : ∀ s ∈ subs.map subKeyword, ∀ b ∈ body.map statement, Before s b :=
      forall_mem_map.2 fun s hs => forall_mem_map.2 fun b hb => hx s hs b hb
    refine pairwise_append.2 ⟨harguments, pairwise_append.2 ⟨hsubs, hbody, hitems⟩, ?_⟩
    exact fun y hy => forall_mem_append.2 ⟨hafter y hy, hafter' y hy⟩
  · exact hrows _ mem_cons_self

/-- The definitions in the node are where nodes right under it start, or in those. -/
def Heads (x : Node) : Prop :=
  x.defined.Sublist ((x.beside ++ x.within).flatMap spots)

theorem defined_sublist (ys : List Node) : (ys.flatMap defined).Sublist (ys.flatMap spots) := by
  induction ys with
  | nil => exact .slnil
  | cons y ys ih => exact (sublist_cons_self _ _).append ih

section Targets

variable {header : Header} {more : List Node} {y : Node}

theorem heads_of_nil (h : starts x.targets = []) : x.Heads := by
  rw [Heads, defined_eq, h]
  exact defined_sublist _

/-- The first node under another one is what that defines. -/
theorem heads_of_single (hunder : x.beside ++ x.within = y :: more) (hy : y.defined = [])
    (h : starts x.targets = [y.span.start.offset]) : x.Heads := by
  rw [Heads, defined_eq, h, hunder, flatMap_cons, flatMap_cons, hy, spots, hy]
  exact (defined_sublist more).cons_cons _

theorem heads_of_header
    (hunder : x.beside ++ x.within = header.argument.toList.map argument ++ more)
    (h : x.targets = header.targets) : x.Heads := by
  unfold Header.targets at h
  split at h
  · next e hargument =>
    rw [hargument] at hunder
    split at h
    · cases e with
      | identifier name span => exact heads_of_single hunder rfl (by rw [h]; rfl)
      | _ => exact heads_of_nil (by rw [h]; rfl)
    · exact heads_of_nil (by rw [h]; rfl)
  · exact heads_of_nil (by rw [h]; rfl)

theorem starts_sublist (es : List Expression) :
    (starts (es.flatMap (Expression.asOccurrence .definition))).Sublist
      ((es.map expression).flatMap spots) := by
  induction es with
  | nil => exact .slnil
  | cons e es ih =>
    rw [flatMap_cons, starts, filter_append, map_append]
    refine Sublist.append ?_ ih
    cases e with
    | identifier name span => exact (nil_sublist _).cons_cons _
    | _ => exact nil_sublist _

theorem heads_of_names {es : List Expression}
    (hunder : x.beside ++ x.within = es.map expression ++ more)
    (hes : ∀ e ∈ es, (expression e).defined = [])
    (h : x.targets = es.flatMap (Expression.asOccurrence .definition)) : x.Heads := by
  rw [Heads, defined_eq, h, hunder, flatMap_append, flatMap_append,
    flatMap_eq_nil_iff.2 (forall_mem_map.2 hes)]
  exact (starts_sublist es).append (defined_sublist more)

end Targets

theorem heads (h : x.IsForward) : x.Heads := by
  cases x with
  | statement s =>
    cases s with
    | keyword header subs body span => exact heads_of_header rfl rfl
    | _ => exact heads_of_nil rfl
  | subKeyword s =>
    obtain ⟨header, body, span⟩ := s
    exact heads_of_header rfl rfl
  | argument a =>
    cases a with
    | loop names collection span =>
      exact heads_of_names ((append_nil _).trans map_append) h rfl
    | _ => exact heads_of_nil rfl
  | expression e =>
    cases e with
    | binary op left right span =>
      by_cases hop : op = .assign
      · subst hop
        cases left with
        | identifier name place => exact heads_of_single rfl rfl rfl
        | _ => exact heads_of_nil rfl
      · exact heads_of_nil (by rw [targets_of_ne_assign hop]; rfl)
    | call callee es span => cases callee <;> exact heads_of_nil rfl
    | _ => exact heads_of_nil rfl
  | _ => exact heads_of_nil rfl

/-- In nodes that nest, and over which a walk goes on as the source does, the definitions stand in
the order of the walk. -/
theorem pairwise_defined (h : ∀ y ∈ x.nodes, y.IsNested ∧ y.IsForward) :
    (∀ n ∈ x.defined, x.span.start.offset ≤ n ∧ n ≤ x.span.stop.offset) ∧
      x.defined.Pairwise (· ≤ ·) := by
  induction x using underInduction with
  | step x ih =>
  rw [nodes_eq] at h
  obtain ⟨⟨hnested, hforward⟩, hunder⟩ := forall_mem_cons.1 h
  have hsublist : x.defined.Sublist _ := heads hforward
  have hparts : ∀ y ∈ x.beside ++ x.within, (∀ n ∈ y.spots, y.span.start.offset ≤ n ∧
      n ≤ y.span.stop.offset) ∧ y.spots.Pairwise (· ≤ ·) := by
    intro y hy
    obtain ⟨hplaces, horder⟩ := ih y hy fun z hz => hunder z (mem_flatMap_of_mem hy hz)
    exact ⟨forall_mem_cons.2 ⟨⟨Nat.le_refl _, (hnested.inside y hy).order⟩, hplaces⟩,
      pairwise_cons.2 ⟨fun n hn => (hplaces n hn).1, horder⟩⟩
  refine ⟨fun n hn => ?_, .sublist hsublist
    (pairwise_flatMap.2 ⟨fun y hy => (hparts y hy).2, ?_⟩)⟩
  · obtain ⟨y, hy, hn⟩ := mem_flatMap.1 (hsublist.subset hn)
    have hplace := hnested.inside y hy
    obtain ⟨hstart, hstop⟩ := (hparts y hy).1 n hn
    exact ⟨hplace.start.trans hstart, hstop.trans hplace.stop⟩
  · exact (pairwise_under hnested hforward).imp_of_mem fun hy hz hle n hn m hm =>
      ((hparts _ hy).1 n hn).2.trans (hle.trans ((hparts _ hz).1 m hm).1)

example : ∀ x ∈ (parse "*question: a\n\t*save: x\n\t>> x = 1\n").program.nodes, x.IsForward := by
  decide +kernel

end Node

/-- **Unused variables are found at their first definition.**  A walk over nodes finds a name at the
first definition of it that a node tells: at the target of an assignment, a variable of a loop, or
the argument of `set` or `save`.  In a source that is read without a report, and in which the
sub-keywords of a keyword stand before its statements, that one starts before all the others. -/
theorem unusedVariables_at_first_definition (ignored : List String) (severity : Severity)
    (context : RuleContext) (nodes : List Node) :
    ∀ finding ∈ (Rules.unusedVariables ignored severity).check context nodes, ∃ o,
      Occurrence.definition? (nodes.flatMap Node.targets) o.name = some o ∧
      finding = .plain ("`" ++ o.name ++ "` is assigned but never used") o.span ∧
      ∀ source, nodes = (parse source).program.nodes → (parse source).diagnostics = [] →
        (∀ x ∈ nodes, x.IsForward) →
        ∀ o' ∈ nodes.flatMap Node.targets, o'.role = .definition → o'.name = o.name →
          o.span.start.offset ≤ o'.span.start.offset := by
  intro finding hfinding
  obtain ⟨d, hd, rfl⟩ := mem_map.1 hfinding
  have hmem := mem_reverse.1 (mem_filter.1 hd).1
  have hkept := (VariableUsage.isFirst_ofNodes nodes).kept d hmem
  refine ⟨⟨.definition, d.1, d.2⟩, hkept, rfl, ?_⟩
  rintro source rfl hclean hforward
  obtain ⟨_, hspread⟩ := spread_program hclean
  have horder := Node.pairwise_defined (x := .program (parse source).program) fun y hy =>
    ⟨hspread.nested _ mem_cons_self y hy, hforward y hy⟩
  exact start_le_of_definition? hkept horder.2

/-- A question that saves its answer behind a statement which defines the same variable. -/
def savedQuestion : String :=
  "*question: a\n\t>> x = 1\n\t*save: x\n"

theorem unusedVariables_at_saved_question :
    ∃ finding ∈ (Rules.unusedVariables [] .warning).check
        ⟨"", savedQuestion, .warning, .ofSource savedQuestion⟩
        (parse savedQuestion).program.nodes, ∃ o,
      Occurrence.definition? ((parse savedQuestion).program.nodes.flatMap Node.targets)
        o.name = some o ∧
      finding = .plain ("`" ++ o.name ++ "` is assigned but never used") o.span :=
  have hmem : Finding.plain "`x` is assigned but never used" ⟨⟨3, 9, 31⟩, ⟨3, 10, 32⟩⟩ ∈
      (Rules.unusedVariables [] .warning).check
      ⟨"", savedQuestion, .warning, .ofSource savedQuestion⟩
        (parse savedQuestion).program.nodes := by decide +kernel
  have ⟨o, hfirst, hfinding, _⟩ := unusedVariables_at_first_definition _ _ _ _ _ hmem
  ⟨_, hmem, o, hfirst, hfinding⟩

/-- The variable is found at the sub-keyword, though its definition in the body stands before it in
the source. -/
theorem unusedVariables_behind_definition :
    ((Rules.unusedVariables [] .warning).check
      ⟨"", savedQuestion, .warning, .ofSource savedQuestion⟩
      (parse savedQuestion).program.nodes).map
        (fun finding => (finding.message, finding.span.start.offset)) =
      [("`x` is assigned but never used", 31)] ∧
    (parse savedQuestion).program.occurrences.map (fun o => (o.role, o.name, o.span.start.offset)) =
      [(.definition, "x", 31), (.definition, "x", 17)] := by
  decide +kernel

end ScriptLint

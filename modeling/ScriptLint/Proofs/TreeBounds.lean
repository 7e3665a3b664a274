import ScriptLint.Proofs.Parentheses
import ScriptLint.Proofs.ProgramWalk

/-!
# How large and how deep a program grows

The levels left for blocks and brackets and the count of operations bound every program, whatever
the tokens are and however the parser recovers.

**Depth.**  `Below` counts the bodies, brackets and strings on the way to a node.  With so many
levels left nothing lies deeper, and on the last level there is nothing but what stands for a
missing expression.

**Size.**  An expression that is read with a count of its own applies no more operations than the
limit.  Those in its strings are counted apart, each on its own.

**Reports.**  Only an expression reports that the nesting is too deep or that the limit is passed,
and does so at most once.  So there are no more such reports than expressions outside others.

**Results.**
* `Fit`, `Kept.fit`: the bounds of an expression, which its parsers keep.
* `boundWalk`: the bounds of the lines, and of the blocks by the levels left.
* `parse_bounded`: the bounds of a program.
-/

namespace ScriptLint

open List

namespace Expression

/-- The expressions under an expression that count with it: those in a string do not. -/
def counted : Expression → List Expression
  | literal _ _ _ _ => []
  | e => e.children

theorem mem_children_of_mem_counted {e child : Expression} (h : child ∈ e.counted) :
    child ∈ e.children := by
  cases e <;> first | exact h | cases h

/-- How many operations the expression applies outside its strings. -/
def ownOperations (e : Expression) : Nat :=
  (if Node.isOperation (.expression e) then 1 else 0) +
  (e.counted.attach.map fun x => x.1.ownOperations).sum
termination_by e
decreasing_by exact sizeOf_lt_of_mem_children (mem_children_of_mem_counted x.2)

theorem ownOperations_eq (e : Expression) : e.ownOperations =
    (if Node.isOperation (.expression e) then 1 else 0) + (e.counted.map ownOperations).sum := by
  rw [ownOperations, attach_map_val (f := ownOperations)]

end Expression

namespace Node

/-- A node lies under another, so many levels deeper. -/
inductive Below : Node → Nat → Node → Prop
  | self (x : Node) : Below x 0 x
  | beside {x y z : Node} {d : Nat} (hy : y ∈ x.beside) (h : Below y d z) : Below x d z
  | within {x y z : Node} {d : Nat} (hy : y ∈ x.within) (h : Below y d z) : Below x (d + 1) z

/-- Every node of a node lies under it. -/
theorem exists_below {x y : Node} (h : y ∈ x.nodes) : ∃ d, x.Below d y := by
  induction x using underInduction with
  | step x ih =>
  rw [nodes_eq] at h
  rcases mem_cons.1 h with rfl | h
  · exact ⟨0, .self y⟩
  obtain ⟨z, hz, h⟩ := mem_flatMap.1 h
  obtain ⟨d, hd⟩ := ih z hz h
  rcases mem_append.1 hz with hz | hz
  · exact ⟨d, .beside hz hd⟩
  · exact ⟨d + 1, .within hz hd⟩

/-- The expressions of a node that are no part of another one. -/
def outer : Node → List Expression
  | expression _ => []
  | x => x.units

/-- How many expressions under a node are no part of another one. -/
def outerCount (x : Node) : Nat :=
  (x.nodes.flatMap outer).length

theorem outerCount_eq (x : Node) :
    x.outerCount = x.outer.length + ((x.beside ++ x.within).map outerCount).sum := by
  rw [outerCount, nodes_eq, flatMap_cons, length_append, flatMap_assoc, length_flatMap]
  rfl

theorem within_statement (s : Statement) : (statement s).within = (statement s).children := rfl

theorem within_subKeyword (s : SubKeyword) : (subKeyword s).within = s.body.map statement := rfl

theorem length_outer_le (x : Node) : x.outer.length ≤ x.outerCount :=
  x.outerCount_eq ▸ Nat.le_add_right _ _

/-- The node stands for a missing expression, or is a property that holds nothing else. -/
def IsNull : Node → Prop
  | expression e => ∃ span, e = .null span
  | property p => (∃ span, p.key = .null span) ∧ ∃ span, p.value = .null span
  | _ => False

/-- Under the node, nothing lies more than so many levels deeper, and so deep only what stands for a
missing expression; the operations keep the limit. -/
def Bounded (b : Nat) (x : Node) : Prop :=
  ∀ d y, x.Below d y → d ≤ b ∧ (d = b → y.IsNull) ∧ ∀ e ∈ y.units, e.ownOperations ≤ maxOperations

variable {b b' : Nat} {x : Node}

theorem Bounded.mono (h : x.Bounded b) (hle : b ≤ b') : x.Bounded b' := by
  intro d y hy
  obtain ⟨hd, hnull, hunits⟩ := h d y hy
  exact ⟨hd.trans hle, fun heq => hnull (by omega), hunits⟩

theorem Bounded.intro (hunits : ∀ e ∈ x.units, e.ownOperations ≤ maxOperations)
    (hbeside : ∀ y ∈ x.beside, y.Bounded (b + 1)) (hwithin : ∀ y ∈ x.within, y.Bounded b) :
    x.Bounded (b + 1) := by
  intro d z h
  cases h with
  | self => exact ⟨Nat.zero_le _, nofun, hunits⟩
  | beside hy h => exact hbeside _ hy d z h
  | within hy h =>
    obtain ⟨hd, hnull, hz⟩ := hwithin _ hy _ z h
    exact ⟨Nat.succ_le_succ hd, fun heq => hnull (Nat.succ.inj heq), hz⟩

theorem bounded_null (b : Nat) (span : Span) : (expression (.null span)).Bounded b := by
  intro d z h
  cases h with
  | self => exact ⟨Nat.zero_le _, fun _ => ⟨span, rfl⟩, forall_mem_nil _⟩
  | beside hy _ => cases hy
  | within hy _ => cases hy

theorem bounded_property {key value : Expression} (hkey : (expression key).Bounded b)
    (hvalue : (expression value).Bounded b) (span : Span) :
    (property (.mk key value span)).Bounded b := by
  intro d z h
  cases h with
  | self =>
    refine ⟨Nat.zero_le _, fun heq => ?_, forall_mem_nil _⟩
    exact ⟨(hkey 0 _ (.self _)).2.1 heq, (hvalue 0 _ (.self _)).2.1 heq⟩
  | beside hy h =>
    rcases mem_cons.1 hy with rfl | hy
    · exact hkey d z h
    · obtain rfl := mem_singleton.1 hy
      exact hvalue d z h
  | within hy _ => cases hy

/-- The expression is bounded, and its operations are counted from one number up to the other. -/
structure Fit (b n m : Nat) (e : Expression) : Prop where
  own : n + e.ownOperations ≤ m
  bounded : (expression e).Bounded b

/-- So are the key and the value of a property together. -/
structure FitPair (b n m : Nat) (p : Property) : Prop where
  own : n + (p.key.ownOperations + p.value.ownOperations) ≤ m
  bounded : (property p).Bounded b

section Fit

variable {n m k : Nat} {e : Expression} {es : List Expression}

/-- An expression with what stands beside it and inside it. -/
theorem Fit.intro
    (hown : n + ((if isOperation (expression e) then 1 else 0) +
      (e.counted.map Expression.ownOperations).sum) ≤ m)
    (hunits : ∀ x ∈ (expression e).units, x.ownOperations ≤ maxOperations)
    (hbeside : ∀ y ∈ (expression e).beside, y.Bounded (b + 1))
    (hwithin : ∀ y ∈ (expression e).within, y.Bounded b) :
    Fit (b + 1) n m e :=
  ⟨e.ownOperations_eq.symm ▸ hown, .intro hunits hbeside hwithin⟩

/-- An operation on one operand, with some expressions inside it. -/
theorem fit_operation {x : Expression} {k' : Nat} (hunits : (expression x).units = [])
    (hcounted : x.counted = e :: es)
    (hbeside : (expression x).beside = [expression e])
    (hwithin : (expression x).within = es.map expression)
    (he : Fit (b + 1) n k e) (hpaid : k + 1 ≤ k')
    (hsum : k' + (es.map Expression.ownOperations).sum ≤ m)
    (hes : ∀ e ∈ es, (expression e).Bounded b) :
    Fit (b + 1) n m x := by
  refine .intro ?_ (by simp [hunits]) (by simp [hbeside, he.bounded]) ?_
  · have hown := he.own
    rw [hcounted, map_cons, sum_cons]
    split <;> omega
  · rw [hwithin]
    exact forall_mem_map.2 hes

theorem fit_unary (hpaid : n + 1 ≤ k) (he : Fit (b + 1) k m e) (op : UnaryOp) (span : Span) :
    Fit (b + 1) n m (.unary op e span) := by
  refine .intro ?_ nofun (by simp [beside, he.bounded]) nofun
  have hown := he.own
  simp [isOperation, Expression.counted, Expression.children]
  omega

theorem fit_binary {left right : Expression} {m' : Nat} (hleft : Fit (b + 1) n m left)
    (hpaid : m + 1 ≤ m')
    (hright : Fit (b + 1) m' k right) (op : BinaryOp) (span : Span) :
    Fit (b + 1) n k (.binary op left right span) := by
  refine .intro ?_ nofun (by simp [beside, hleft.bounded, hright.bounded]) nofun
  have hown := hleft.own
  have hown' := hright.own
  simp [isOperation, Expression.counted, Expression.children]
  omega

theorem fit_array (hsum : n + (es.map Expression.ownOperations).sum ≤ m)
    (hes : ∀ e ∈ es, (expression e).Bounded b) (span : Span) :
    Fit (b + 1) n m (.array es span) := by
  refine .intro ?_ nofun nofun (forall_mem_map.2 hes)
  simpa [isOperation, Expression.counted, Expression.children] using hsum

theorem fit_object {ps : List Property}
    (hown : n + (ps.map fun p => p.key.ownOperations + p.value.ownOperations).sum ≤ m)
    (h : ∀ p ∈ ps, (property p).Bounded b) (span : Span) : Fit (b + 1) n m (.object ps span) := by
  rw [← Expression.sum_children_object _ ps span, ← Nat.zero_add (sum _)] at hown
  exact .intro hown nofun nofun (forall_mem_map.2 h)

theorem fit_null (hle : n ≤ m) (span : Span) : Fit b n m (.null span) :=
  have hown : (Expression.null span).ownOperations = 0 := by
    simp [Expression.ownOperations_eq, Expression.null, isOperation, Expression.counted]
  ⟨by rwa [hown], bounded_null b span⟩

theorem fit_identifier (hle : n ≤ m) (name : String) (span : Span) :
    Fit (b + 1) n m (.identifier name span) :=
  .intro hle nofun nofun nofun

/-- A node that holds nothing but expressions with counts of their own. -/
theorem bounded_units (hbeside : x.beside = x.units.map expression) (hwithin : x.within = [])
    (h : ∀ e ∈ x.units, Fit (b + 1) 0 maxOperations e) : x.Bounded (b + 1) := by
  refine .intro (fun e he => (Nat.zero_add _).symm.trans_le (h e he).own) ?_ (by simp [hwithin])
  rw [hbeside]
  exact forall_mem_map.2 fun e he => (h e he).bounded

end Fit

end Node

namespace Parser

open Node

theorem sum_le_of_series {α : Type} {P : Cursor → Cursor → α → Prop} {own : α → Nat}
    {c d : Cursor} {xs : List α}
    (h : Series (Counted .anything) P c d xs)
    (hown : ∀ c d a, P c d a → c.spent + own a ≤ d.spent) :
    c.spent + (xs.map own).sum ≤ d.spent := by
  induction h with
  | nil h => exact h.spent
  | snoc _ ha hgap ih =>
    have ha := hown _ _ _ ha
    have hgap := hgap.spent
    rw [map_append, sum_append, map_singleton, sum_singleton]
    omega

theorem spent_le (c : Cursor) : c.spent ≤ maxOperations :=
  Nat.min_le_right _ _

theorem own_le {b n : Nat} {e : Expression} {d : Cursor} (h : Fit b n d.spent e) :
    e.ownOperations ≤ maxOperations :=
  (Nat.le_add_left _ n).trans (h.own.trans (spent_le d))

/-- The bounds are kept by the parsers of expressions. -/
def Kept.fit : Kept .anything where
  expression b _ c d := Fit b c.spent d.spent
  property b c d := FitPair b c.spent d.spent
  earlier hrests h := ⟨(Nat.add_le_add_right hrests.spent _).trans h.own, h.bounded⟩
  later h hrests := ⟨h.own.trans hrests.spent, h.bounded⟩
  null hgoes hgoes' _ := fit_null (hgoes.spent.trans hgoes'.spent) _
  identifier hgoes _ := fit_identifier hgoes.spent _ _
  number hgoes _ := .intro hgoes.spent nofun nofun nofun
  string hgoes _ hes :=
    have hinner := hes.forall_mem fun _ _ _ h => h.bounded
    .intro hgoes.spent (hes.forall_mem fun _ _ _ h => own_le h) nofun (forall_mem_map.2 hinner)
  group _ hgoes h hmarks :=
    have hown := h.own.trans hmarks.spent
    ⟨(Nat.add_le_add_right hgoes.spent _).trans hown, h.bounded.mono (Nat.le_succ _)⟩
  array _ hgoes _ hes :=
    have hsum := sum_le_of_series hes.series fun _ _ _ h => h.own
    have hinner := hes.series.forall_mem fun _ _ _ h => h.bounded
    fit_array ((Nat.add_le_add_right hgoes.spent _).trans hsum) hinner _
  object _ hgoes _ hps :=
    have hsum := sum_le_of_series hps.series fun _ _ _ h => h.own
    have hinner := hps.series.forall_mem fun _ _ _ h => h.bounded
    fit_object ((Nat.add_le_add_right hgoes.spent _).trans hsum) hinner _
  pair _ he hgoes _ hf :=
    have hown := (Nat.add_le_add_right (he.own.trans hgoes.spent) _).trans hf.own
    ⟨(Nat.add_assoc _ _ _).symm.trans_le hown, bounded_property he.bounded hf.bounded _⟩
  member he hpays hgoes _ := fit_operation rfl rfl rfl rfl he hpays.paid hgoes.spent nofun
  call he hpays _ hes :=
    have hsum := sum_le_of_series hes.series fun _ _ _ h => h.own
    have hinner := hes.series.forall_mem fun _ _ _ h => h.bounded
    fit_operation rfl rfl rfl rfl he hpays.paid hsum hinner
  index he hpays hi hmarks :=
    have hown := hi.own.trans hmarks.spent
    fit_operation rfl rfl rfl rfl he hpays.paid hown (forall_mem_singleton.2 hi.bounded)
  bare h := h
  unary hpays he := fit_unary hpays.paid he _ _
  tighter h := h
  binary he _ hpays hf := fit_binary he hpays.paid hf _ _
  unassigned h := h
  assign he hpays hf := fit_binary he hpays.paid hf _ _
  condition h := h
  inside h := h

theorem tooDeep_report_le (c : Cursor) (fault : Fault) (span : Span) :
    (c.report fault span).tooDeep ≤ c.tooDeep + 1 :=
  countP_cons.trans_le (Nat.add_le_add_left (by split <;> decide) _)

theorem runs_fit {c : Cursor} (l : Nat) (mode : Mode) (hcount : c.operations = 0) :
    Runs .anything (fun d e => Fit (l + 1) 0 maxOperations e ∧ d.tooDeep ≤ c.tooDeep + 1) c
      (expression l mode c) := by
  intro hc
  obtain ⟨⟨hcounted, hfit⟩, hdeep⟩ := Kept.fit.cost_expression (k := 1) l mode hc
  have hstart : c.spent = 0 := by simp [Cursor.spent, hcount]
  have hown := (hstart ▸ hfit.own).trans (spent_le _)
  have hle := c.ahead?_le
  exact ⟨⟨⟨hown, hfit.bounded⟩, by omega⟩, hcounted.supplied, hcounted.line⟩

/-- What is read with a count of its own keeps the bounds, and reports at most once that the nesting
is too deep. -/
def LineReading.fit (l : Nat) : LineReading .anything l where
  read c d e := Fit (l + 1) 0 maxOperations e ∧ d.tooDeep ≤ c.tooDeep + 1
  earlier hgap h := ⟨h.1, h.2.trans (Nat.succ_le_succ hgap.tooDeep)⟩
  later h hgap := ⟨h.1, hgap.tooDeep.trans h.2⟩
  null hgap hgap' _ :=
    have hreport := hgap'.tooDeep.trans (tooDeep_report_le _ _ _)
    ⟨fit_null (Nat.zero_le _) _, hreport.trans (Nat.succ_le_succ hgap.tooDeep)⟩
  identifier hc hkind :=
    have hgap := Gap.advance (.advance hc (.of_kind hkind rfl))
    ⟨fit_identifier (Nat.zero_le _) _ _, hgap.tooDeep.trans (Nat.le_succ _)⟩
  runs mode hcount := runs_fit l mode hcount

section Line

variable {l : Nat} {c d : Cursor} {text : TextContent} {given : Argument} {header : Header}

theorem tooDeep_le_of_series {α : Type} {P : Cursor → Cursor → α → Prop}
    {f : α → List Expression} {xs : List α} (h : Series (Gap .anything) P c d xs)
    (hP : ∀ {c d a}, P c d a → d.tooDeep ≤ c.tooDeep + (f a).length) :
    d.tooDeep ≤ c.tooDeep + (xs.flatMap f).length := by
  induction h with
  | nil h => exact h.tooDeep
  | snoc _ ha hgap ih =>
    have ha := hP ha
    have hgap := hgap.tooDeep
    rw [flatMap_append, flatMap_singleton, length_append]
    omega

theorem LineReading.Content.tooDeep_le (h : (LineReading.fit l).Content c d text) :
    d.tooDeep ≤ c.tooDeep + (content text).outer.length := by
  simp only [outer, units, filterMap_eq_flatMap_toList]
  refine tooDeep_le_of_series h.parts fun {c d part} hpart => ?_
  cases part with
  | run text place => exact hpart.1.tooDeep
  | interpolation e => exact hpart.2

theorem LineReading.Given.tooDeep_le (h : (LineReading.fit l).Given c d given) :
    d.tooDeep ≤ c.tooDeep + (Node.argument given).outer.length := by
  cases given with
  | text content => exact h.elim
  | expression e => exact h.2
  | loop names collection place =>
    obtain ⟨_, _, hnames, hcollection, -, hend, -⟩ := h
    have hnames := tooDeep_le_of_series (f := fun e => [e]) hnames fun h => h.2
    have hcollection := hcollection.2
    have hend := hend.tooDeep
    rw [flatMap_singleton'] at hnames
    simp only [outer, units, length_append, length_singleton]
    omega

theorem LineReading.Takes.tooDeep_le (h : (LineReading.fit l).Takes c d given) :
    d.tooDeep ≤ c.tooDeep + (Node.argument given).outerCount := by
  cases h with
  | @text _ text _ _ _ h =>
    have hcount : (Node.argument (.text text)).outerCount = 0 + (outerCount (.content text) + 0) :=
      outerCount_eq _
    have hread := h.tooDeep_le.trans (Nat.add_le_add_left (length_outer_le (.content text)) _)
    omega
  | @again d _ _ _ h =>
    have hgiven := h.tooDeep_le
    have hcount := (Node.argument given).length_outer_le
    have hnone : c.argument.tooDeep = 0 := rfl
    exact countP_append.trans_le (show d.tooDeep + c.tooDeep ≤ _ by omega)

theorem LineReading.Head.tooDeep_le (h : (LineReading.fit l).Head c d header) :
    d.tooDeep ≤ c.tooDeep + ((header.argument.toList.map Node.argument).map outerCount).sum := by
  have hread := h.argument
  cases hargument : header.argument with
  | none =>
    rw [hargument] at hread
    exact Gap.tooDeep hread
  | some given =>
    rw [hargument] at hread
    obtain ⟨_, _, hbefore, htakes, hafter⟩ := hread
    have hbefore := hbefore.tooDeep
    have hafter := hafter.tooDeep
    have hgiven := htakes.tooDeep_le
    simp only [Option.toList_some, map_cons, map_nil, sum_cons, sum_nil]
    omega

theorem LineReading.Content.fit (h : (LineReading.fit l).Content c d text) :
    ∀ e ∈ (content text).units, Fit (l + 1) 0 maxOperations e := by
  intro e he
  obtain ⟨part, hpart, hsome⟩ := mem_filterMap.1 he
  have hread := h.parts.forall_mem
      (R := fun part => ∀ e, part.expression? = some e → Fit (l + 1) 0 maxOperations e)
    (fun c d part hpart e he => by cases part <;> cases he; exact hpart.1)
  exact hread part hpart e hsome

theorem LineReading.Given.bounded (h : (LineReading.fit l).Given c d given) :
    (Node.argument given).Bounded (l + 1) := by
  cases given with
  | text content => exact h.elim
  | expression e => exact bounded_units rfl rfl (forall_mem_singleton.2 h.1)
  | loop names collection place =>
    obtain ⟨_, _, hnames, hcollection, -⟩ := h
    exact bounded_units rfl rfl (forall_mem_append.2
      ⟨hnames.forall_mem fun _ _ _ h => h.1, forall_mem_singleton.2 hcollection.1⟩)

theorem LineReading.Head.bounded (h : (LineReading.fit l).Head c d header) :
    ∀ y ∈ header.argument.toList.map Node.argument, y.Bounded (l + 1) := by
  refine forall_mem_map.2 fun given hgiven => ?_
  have hread := h.argument
  rw [show header.argument = some given by simpa using hgiven] at hread
  obtain ⟨_, _, -, htakes, -⟩ := hread
  cases htakes with
  | text _ _ _ h => exact .intro nofun (forall_mem_singleton.2 (bounded_units rfl rfl h.fit)) nofun
  | again _ _ h => exact h.bounded

end Line

/-- How many expressions of a statement or a sub-keyword are no part of another one. -/
def itemCount : Node → Nat
  | .statement s => outerCount (.statement s)
  | .subKeyword s => outerCount (.subKeyword s)
  | _ => 0

/-- A statement or a sub-keyword keeps the bounds, and the reports are no more than its outer
expressions. -/
structure WithinBounds (l n m : Nat) (x : Node) : Prop where
  bounded : x.Bounded (l + 1)
  tooDeep : m ≤ n + itemCount x

section Chain

variable {i l n m : Nat} {xs : List Node}

theorem bounded_of_chain (hlevels : i < l ∨ xs = []) (h : Chain (WithinBounds i) n m xs) :
    ∀ x ∈ xs, x.Bounded l := by
  rcases hlevels with hlt | rfl
  · exact h.forall_mem fun h => h.bounded.mono hlt
  · exact nofun

theorem tooDeep_of_chain (h : Chain (WithinBounds i) n m xs) :
    m ≤ n + (((xs.filterMap Node.subKeyword?).map Node.subKeyword).map outerCount).sum +
      (((xs.filterMap Node.statement?).map Node.statement).map outerCount).sum := by
  induction h with
  | nil => exact Nat.le_refl _
  | @cons _ _ _ x _ head _ ih =>
    have hhead := head.tooDeep
    cases x <;> simp only [itemCount, Node.statement?, Node.subKeyword?, filterMap_cons,
      map_cons, sum_cons] at hhead ih ⊢ <;> omega

end Chain

/-- The walk by the bounds: with so many levels left, nothing lies more than one level deeper.  The
mark counts the reports. -/
def boundWalk : Walk Nat where
  stands n c := c.tooDeep ≤ n
  reads := WithinBounds
  mono hle h := ⟨h.bounded.mono (Nat.succ_le_succ hle), h.tooDeep⟩
  layout {n c} h _ := (congrArg (countP _) c.diagnostics_advance).trans_le h
  stray {n c} h _ := (congrArg (countP _) c.diagnostics_advance).trans_le h
  header := by
    intro n c l hc _
    have hread := ((LineReading.fit l).runs_header c.supplied_anything).value
    refine ⟨_, Nat.le_refl _, fun i {k d xs} hlevels _ hchain => ?_⟩
    have hxs := bounded_of_chain hlevels hchain
    have hbody := forall_mem_map.2 fun s hs => hxs _ (Chain.mem_of_statement hs)
    have hsubs := forall_mem_map.2 fun s hs => hxs _ (Chain.mem_of_subKeyword hs)
    have hhead := hread.tooDeep_le
    have hitems := tooDeep_of_chain hchain
    refine ⟨⟨.intro nofun hread.bounded (forall_mem_append.2 ⟨hsubs, hbody⟩), ?_⟩,
      fun hnone => ⟨.intro nofun hread.bounded hbody, ?_⟩⟩
    · simp only [itemCount, outerCount_eq (.statement _), beside, within_statement, children,
        map_append, sum_append]
      omega
    · rw [hnone] at hitems
      simp only [itemCount, outerCount_eq (.subKeyword _), beside, within_subKeyword,
        SubKeyword.body, map_nil, sum_nil, map_append, sum_append] at hitems ⊢
      omega
  content := by
    intro n c l hc _
    have hread := ((LineReading.fit l).runs_textContent c.supplied_anything).value
    have htext := hread.tooDeep_le
    refine ⟨_, Nat.le_refl _, ⟨bounded_units rfl rfl hread.fit, ?_⟩, ?_⟩
    · have hcount := length_outer_le (.statement (.text (textContent (expression l) c).1))
      exact htext.trans (Nat.add_le_add hc hcount)
    intro i k d xs hi _ hchain hnone
    have hxs := bounded_of_chain (.inl hi) hchain
    have hitems := tooDeep_of_chain hchain
    refine ⟨.intro nofun (forall_mem_singleton.2 (bounded_units rfl rfl hread.fit))
      (forall_mem_map.2 fun s hs => hxs _ (Chain.mem_of_statement hs)), ?_⟩
    have hlabel := length_outer_le (.content (textContent (expression l) c).1)
    rw [hnone] at hitems
    simp only [itemCount, outerCount_eq (.statement _), beside, within_statement, children,
      map_append, sum_append, map_singleton, sum_singleton, map_nil, sum_nil] at hitems ⊢
    omega
  expressionLine := by
    intro n c l hc hkind
    obtain ⟨e, hs, he, hdeep⟩ :=
      ((LineReading.fit l).runs_expressionLine (.of_kind hkind rfl) c.supplied_anything).value
    have hstart : c.advance.tooDeep = c.tooDeep := congrArg (countP _) c.diagnostics_advance
    rw [hs]
    refine ⟨_, Nat.le_refl _, bounded_units rfl rfl (forall_mem_singleton.2 he), hdeep.trans ?_⟩
    exact Nat.add_le_add (hstart.trans_le hc) (length_outer_le (.statement (.expression e _)))
  comment := by
    intro n c l hc _
    have hgap := (runs_comment c.supplied_anything).value.1
    exact ⟨n, hgap.tooDeep.trans hc, .intro nofun nofun nofun, Nat.le_add_right _ _⟩

end Parser

/-- **The bounds of a program.**  Whatever the tokens are, every node lies at most 101 bodies,
brackets and strings deep, and at 101 only what stands for a missing expression.  An expression with
a count of its own applies at most 1000 operations.  While an expression is read, it is reported at
most once that the nesting is too deep or that the limit of operations is passed.  So the parser
reports it at most once for each expression of the program that is no part of another one. -/
theorem parse_bounded (tokens : List Token) :
    (∀ y ∈ (parseTokens tokens).program.nodes, ∃ d,
      (Node.program (parseTokens tokens).program).Below d y) ∧
    (∀ d y, (Node.program (parseTokens tokens).program).Below d y →
      d ≤ 101 ∧ (d = 101 → y.IsNull) ∧ ∀ e ∈ y.units, e.ownOperations ≤ 1000) ∧
    (∀ levels mode c, (Parser.expression levels mode c).2.tooDeep ≤ c.tooDeep + 1) ∧
    (parseTokens tokens).diagnostics.countP (·.fault == .nestedTooDeeply) ≤
      (Node.program (parseTokens tokens).program).outerCount := by
  obtain ⟨m, hstop, hchain⟩ := Parser.boundWalk.reaches_programBody (n := 0)
    (c := Cursor.start tokens _) (Nat.zero_le _)
  refine ⟨fun _ => Node.exists_below (x := .program _), ?_, fun levels mode c => ?_, ?_⟩
  · have hbody := Parser.bounded_of_chain (.inl (Nat.lt_succ_self maxDepth)) hchain
    exact Node.Bounded.intro (b := maxDepth) nofun hbody nofun
  · have hdeep := (Parser.Kept.fit.cost_expression (k := 1) levels mode c.supplied_anything).2
    have hle := c.ahead?_le
    omega
  · have hitems := Parser.tooDeep_of_chain hchain
    rw [Parser.Walk.filterMap_subKeyword?, Parser.Walk.filterMap_statement?] at hitems
    rw [Node.outerCount_eq, Node.beside, Node.within, append_nil]
    exact (countP_reverse.trans_le hstop).trans hitems

end ScriptLint

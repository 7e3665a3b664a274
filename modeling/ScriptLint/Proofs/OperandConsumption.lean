import ScriptLint.Proofs.Consumption
import ScriptLint.Proofs.Parentheses
import Mathlib.Data.List.TakeWhile

/-!
# What the parsers of an expression consume

For each form of an expression there is a lemma that says which lexemes its parser consumes, how
many operations it counts, and that the value is the expression up to places.  What stands inside
brackets is a parameter: `ReadsNested` says which run is read as which expression there.

**Where a form ends.**  An operand ends where no suffix begins, and the operations of some layers
end where none of their operators follows; `Ends` says both.

**Results.**
* `readsItem_itemStep`, `readsItem_property`: an item and the mark after it.
* `consumes_enclosed`, `consumes_array`, `consumes_object`: what begins with a bracket.
* `consumes_prefixedAfter_unary`: one more operator before an operand, after any others.
* `consumes_layerStep`: one more operand of a layer.
-/

namespace ScriptLint

open List Expression

variable {l : Lexeme}

/-- The second expression is the first up to places. -/
def Expression.SameAs (e e' : Expression) : Prop :=
  e'.withoutSpans = e.withoutSpans

namespace Parser

open Lexeme

/-- The lexemes that begin what may follow an operand. -/
def suffixStarts : List Lexeme :=
  [mark ".", operator "::", mark "(", mark "["]

theorem isSuffixStart_eq (t : Token) : isSuffixStart t = decide (t.lexeme ∈ suffixStarts) := by
  simp [isSuffixStart, suffixStarts, Token.isPunctuation_eq, Token.isOperator_eq, Bool.or_assoc]

/-- At the lexeme neither an operand nor an operation of the layers goes on. -/
structure Ends (layers : List (List BinaryOp)) (l : Lexeme) : Prop where
  suffix : l ∉ suffixStarts
  operator : ∀ op ∈ layers.flatten, l ≠ op.lexeme

section Operands

variable {inner : Option (Parser Expression)} {run : List Lexeme} {n : Nat} {after : Lexeme → Prop}

theorem consumes_expectMark (text : String) :
    Consumes (expectMark text) [mark text] 0 (fun _ => True) fun _ => True := by
  refine .of_cons fun t ht => .atMark ?_
  rw [if_pos (decide_eq_true ht)]
  exact .next (.pure trivial)

theorem ne_comma_of_closes (h : l.closes) : l ≠ mark "," := by
  rintro rfl
  cases h

theorem not_mem_suffixStarts_of_closes (h : l.closes) : l ∉ suffixStarts := by
  rcases (closes_iff l).1 h with rfl | rfl | rfl <;> decide

/-- A step of a repetition reads an item and the mark after it; another follows after a comma. -/
def ReadsItem {α : Type} (step : List α → Parser (List α × Bool)) (close : String)
    (x : α) (run : List Lexeme) (n : Nat) (bare : α → α) : Prop :=
  ∀ s l, l = mark "," ∨ l = mark close → Consumes (step s) (run ++ [l]) n (fun _ => True) fun r =>
    r.2 = decide (l = mark ",") ∧ (r.1.map bare = s.map bare ++ [bare x])

theorem ends_mark (layers : List (List BinaryOp)) {text : String} (h : mark text ∉ suffixStarts) :
    Ends layers (mark text) :=
  ⟨h, fun _ _ => by simp [mark, BinaryOp.lexeme, operator]⟩

/-- Inside brackets the run is read as the expression. -/
def ReadsNested (inner : Option (Parser Expression)) (run : List Lexeme) (n : Nat)
    (e : Expression) : Prop :=
  Consumes (nested inner) run n (Ends Mode.condition.layers) e.SameAs

/-- The run begins as an item does: with no boundary and no closing mark. -/
def Starts (run : List Lexeme) : Prop :=
  ∃ l, run.head? = some l ∧ l.closes = false ∧ l.kind.isBoundary = false

theorem not_closes_of_begins {precedence : Nat} (h : Begins precedence l) :
    l.closes = false ∧ l.kind.isBoundary = false := by
  rcases h with h | h | ⟨-, op, rfl⟩
  · simp only [mem_cons, not_mem_nil, or_false] at h
    rcases h with h | h | h <;> simp [closes, h, Token.Kind.isBoundary, Token.Kind.isStructural]
  · obtain ⟨kind, text⟩ := l
    simp only [opens, Bool.and_eq_true, beq_iff_eq, contains_eq_mem, mem_cons,
      not_mem_nil, or_false, decide_eq_true_eq] at h
    obtain ⟨rfl, rfl | rfl | rfl⟩ := h <;> decide
  · cases op <;> decide

theorem ends_separator {close : String} (layers : List (List BinaryOp))
    (hl : l = mark "," ∨ l = mark close) (hclose : (mark close).closes) : Ends layers l := by
  rcases hl with rfl | rfl
  · exact ends_mark _ (by decide)
  · exact ends_mark _ (not_mem_suffixStarts_of_closes hclose)

theorem consumes_itemStep_close {α : Type} (item : Parser α) (close : String) (s : List α) :
    Consumes (itemStep item close s) [mark close] 0 (fun _ => True) fun r => r = (s, false) := by
  refine .of_cons fun t ht => .atMark ?_
  rw [if_pos (decide_eq_true ht)]
  exact .next (.pure rfl)

/-- After an item, a comma lets another one follow and a closing mark does not. -/
theorem readsItem_itemStep {α : Type} {item : Parser α} {bare : α → α} {x : α} {close : String}
    (hitem : Consumes item run n (Ends Mode.condition.layers) fun y => bare y = bare x)
    (hrun : Starts run)
    (hclose : (mark close).closes) : ReadsItem (itemStep item close) close x run n bare := by
  intro s l hl
  obtain ⟨first, hfirst, hopen, hbound⟩ := hrun
  have hhead : (run ++ [l]).head? = some first := by simp [hfirst]
  have hnot : first ≠ mark close := by
    rintro rfl
    rw [hclose] at hopen
    cases hopen
  refine .of_head hhead fun t ht => .atMark ?_
  rw [if_neg (by simpa [ht] using hnot)]
  refine .atBoundary ?_
  rw [if_neg (by simp [ht, hbound])]
  show ConsumesAt t _ _ (n + 0) _ _
  refine (hitem t).bind (fun _ _ => ends_separator _ hl hclose) fun y hy => ?_
  refine .of_cons fun u hu => .atMark ?_
  rcases hl with rfl | rfl
  · rw [if_pos (decide_eq_true hu)]
    exact .next (.pure (by simp [hy]))
  · have hcomma := ne_comma_of_closes hclose
    rw [if_neg (by simpa [hu] using hcomma)]
    refine .atMark ?_
    rw [if_pos (decide_eq_true hu)]
    exact .next (.pure (by simp [hcomma, hy]))

theorem consumes_propertyValue {value : Expression} (hvalue : ReadsNested inner run n value) :
    Consumes (propertyValue inner) (operator "->" :: run) n (Ends Mode.condition.layers)
      value.SameAs := by
  refine .of_cons fun t ht => .atOperator ?_
  rw [if_pos (decide_eq_true ht)]
  exact .next hvalue

theorem readsItem_property {key value : Expression} {run' : List Lexeme} {n' : Nat} (span : Span)
    (hkey : ReadsNested inner run n key) (hrun : Starts run)
    (hvalue : ReadsNested inner run' n' value) :
    ReadsItem (propertyStep inner) "\x7d" (.mk key value span) (run ++ operator "->" :: run')
      (n + n') Property.withoutSpans := by
  obtain ⟨first, hfirst, hfirst'⟩ := hrun
  have harrow : Ends Mode.condition.layers (operator "->") := ⟨by decide, by decide⟩
  rw [propertyStep_eq]
  refine readsItem_itemStep (fun t => .peek ?_) ⟨first, by simp [hfirst], hfirst'⟩ rfl
  refine (hkey t).bind (fun _ _ => harrow) fun key' hkey' => ?_
  refine (consumes_propertyValue hvalue).bind_nil (fun _ hl => hl)
    fun value' hvalue' u => .spanFrom fun place => ?_
  refine Consumes.pure ?_ u
  exact congrArg₂ (Property.mk · · default) hkey' hvalue'

theorem braceRegions_eq_nil {cs : List Char} (h : '{' ∉ cs) (p : Position) :
    braceRegions p cs = [] := by
  have hdrop : cs.dropWhile (· ≠ '{') = [] := by
    rw [dropWhile_eq_nil_iff]
    intro c hc
    simpa using fun heq : c = '{' => h (heq ▸ hc)
  rw [braceRegions]
  split
  · rfl
  · next hcons =>
    rw [hdrop] at hcons
    cases hcons

theorem consumes_identifier (name : String) (span : Span) :
    Consumes (primary inner) [⟨.identifier, name⟩] 0 after
      (identifier name span).SameAs :=
  .of_token fun _ => .peek (.next (.pure rfl))

theorem consumes_enclosed {e : Expression} (he : ReadsNested inner run n e) :
    Consumes (primary inner) (mark "(" :: (run ++ [mark ")"])) n after e.SameAs := by
  refine .of_token fun _ => .peek (.next ?_)
  show Consumes _ _ (n + 0) _ _
  refine he.bind (fun _ _ => ends_mark _ (by decide)) fun e' he' => ?_
  exact (consumes_expectMark ")").bind_nil (fun _ _ => trivial) fun _ _ => .pure he'

theorem consumes_array {elements : List Expression} (span : Span)
    (h : Consumes (list inner "]") run n (fun _ => True) fun es =>
      es.map withoutSpans = elements.map withoutSpans) :
    Consumes (primary inner) (mark "[" :: run) n after (array elements span).SameAs := by
  refine .of_token fun _ => .peek (.next ?_)
  refine h.bind_nil (fun _ _ => trivial) fun elements' hsame t => ?_
  refine .spanFrom fun place => Consumes.pure ?_ t
  show _ = _
  rw [withoutSpans_array, withoutSpans_array, hsame]

theorem consumes_object {ps : List Property} (span : Span)
    (h : Consumes (properties inner) run n (fun _ => True) fun ps' =>
      ps'.map Property.withoutSpans = ps.map Property.withoutSpans) :
    Consumes (primary inner) (mark "\x7b" :: run) n after (object ps span).SameAs := by
  refine .of_token fun _ => .peek (.next ?_)
  refine h.bind_nil (fun _ _ => trivial) fun ps' hsame t => ?_
  refine .spanFrom fun place => Consumes.pure ?_ t
  show _ = _
  rw [withoutSpans_object, withoutSpans_object, hsame]

section Suffixes

variable {e e' : Expression}

theorem consumes_suffixStep_stop (e : Expression) :
    Consumes (suffixStep inner e) [] 0 (· ∉ suffixStarts) fun r => r = (e, false) := by
  refine .of_nil fun t ht => .peek ?_
  rw [if_pos (by simpa [isSuffixStart_eq] using ht)]
  exact Consumes.pure (R := fun r => r = (e, false)) rfl t

theorem consumes_postfixed_of_reaches
    (h : Reaches (postfixed inner) (suffixStep inner) run n (fun _ => True) e.SameAs) :
    Consumes (postfixed inner) run n (· ∉ suffixStarts) e.SameAs :=
  h.stop (fun _ _ => trivial) fun s _ => consumes_suffixStep_stop s

theorem consumes_suffixStep_member (h : e.SameAs e') (name : PropertyName)
    (namespaced : Bool) (span : Span) :
    Consumes (suffixStep inner e') [PropertyName.separator namespaced, name.lexeme] 1
      (fun _ => True) fun r =>
        r.2 = true ∧ (member e name namespaced span).SameAs r.1 := by
  refine .of_cons fun t ht => .peek ?_
  have hstart : isSuffixStart t := by
    rw [isSuffixStart_eq, ht]
    cases namespaced <;> rfl
  rw [if_neg (by simp [hstart])]
  refine .countOperation (.next ?_)
  rw [if_neg, if_neg]
  rotate_left
  · rw [Token.isPunctuation_eq, ht]
    cases namespaced <;> decide
  · rw [Token.isPunctuation_eq, ht]
    cases namespaced <;> decide
  refine .of_token fun place => .atKind (.next (.pure ⟨rfl, ?_⟩))
  have hnamespaced : t.isOperator "::" = namespaced := by
    rw [Token.isOperator_eq, ht]
    cases namespaced <;> rfl
  rw [hnamespaced]
  exact congrArg (member · ⟨name.text, default⟩ namespaced default) h

theorem consumes_suffixStep_call {arguments : List Expression} (h : e.SameAs e') (span : Span)
    (harguments : Consumes (list inner ")") run n (fun _ => True) fun es =>
      es.map withoutSpans = arguments.map withoutSpans) :
    Consumes (suffixStep inner e') (mark "(" :: run) (n + 1) (fun _ => True) fun r =>
      r.2 = true ∧ (call e arguments span).SameAs r.1 := by
  refine .of_token fun _ => .peek (.countOperation (.next ?_))
  refine harguments.bind_nil (fun _ _ => trivial) fun arguments' hsame t => ?_
  refine .spanFrom fun place => Consumes.pure ⟨rfl, ?_⟩ t
  show _ = _
  rw [withoutSpans_call, withoutSpans_call, hsame, h]

theorem consumes_suffixStep_index {i : Expression} (h : e.SameAs e') (span : Span)
    (hi : ReadsNested inner run n i) :
    Consumes (suffixStep inner e') (mark "[" :: (run ++ [mark "]"])) (n + 1) (fun _ => True)
      fun r => r.2 = true ∧ (index e i span).SameAs r.1 := by
  refine .of_token fun _ => .peek (.countOperation (.next ?_))
  show Consumes _ _ (n + 0) _ _
  refine hi.bind (fun _ _ => ends_mark _ (by decide)) fun i' hi' => ?_
  refine (consumes_expectMark "]").bind_nil (fun _ _ => trivial) fun _ _ t => ?_
  refine .spanFrom fun place => Consumes.pure ⟨rfl, ?_⟩ t
  exact congrArg₂ (index · · default) h hi'

end Suffixes

section Prefixes

variable {e e' : Expression}

/-- An operand with the operators before it, when some of them are read. -/
def prefixedAfter (inner : Option (Parser Expression)) (ops : List (UnaryOp × Position)) :
    Parser Expression := do
  let ops ← loop ops prefixStep
  let e ← postfixed inner
  return ops.foldr applyPrefix e

theorem sameAs_foldr (h : e.SameAs e') (ops : List (UnaryOp × Position)) :
    (ops.foldr applyPrefix e).SameAs (ops.foldr applyPrefix e') := by
  induction ops with
  | nil => exact h
  | cons op ops ih => exact congrArg (unary op.1 · default) ih

theorem ofToken?_eq_none {t : Token} (h : Begins suffixPrecedence t.lexeme) :
    UnaryOp.ofToken? t = none := by
  rw [Option.eq_none_iff_forall_ne_some]
  intro op hop
  rw [UnaryOp.ofToken?_eq_some_iff.1 hop] at h
  rcases h with h | h | ⟨h, -⟩
  · cases op <;> revert h <;> decide
  · cases op <;> cases h
  · exact Nat.lt_irrefl _ h

/-- Where an operand begins, there are no more operators before it. -/
theorem consumes_prefixLoop_stop (ops : List (UnaryOp × Position)) :
    Consumes (loop ops prefixStep) [] 0 (Begins suffixPrecedence) fun ops' =>
      ops' = ops := by
  refine Reaches.stop (.loop rfl) (fun _ h => h) fun s _ => .of_nil fun t ht => .peek ?_
  rw [ofToken?_eq_none ht]
  exact Consumes.pure (R := fun r => r = (s, false)) rfl t

theorem consumes_prefixedAfter_of_postfixed
    (h : Consumes (postfixed inner) run n (· ∉ suffixStarts) e.SameAs)
    (hrun : ∃ l, run.head? = some l ∧ Begins suffixPrecedence l)
    (ops : List (UnaryOp × Position)) :
    Consumes (prefixedAfter inner ops) run n (· ∉ suffixStarts)
      (ops.foldr applyPrefix e).SameAs := by
  obtain ⟨l, hhead, hl⟩ := hrun
  have hbegins : ∀ x, x ∉ suffixStarts → Begins suffixPrecedence (run.headD x) := by
    intro x _
    rwa [headD_eq_head?_getD, hhead]
  have hbind : Consumes (prefixedAfter inner ops) ([] ++ run) (0 + n) (· ∉ suffixStarts)
      (ops.foldr applyPrefix e).SameAs := by
    refine (consumes_prefixLoop_stop ops).bind hbegins fun ops' hops => ?_
    rw [hops]
    exact h.bind_nil (fun _ hx => hx) fun e' he' => .pure (sameAs_foldr he' ops)
  rwa [Nat.zero_add] at hbind

theorem consumes_prefixedAfter_unary (op : UnaryOp) (span : Span)
    (h : ∀ ops, Consumes (prefixedAfter inner ops) run n after (ops.foldr applyPrefix e).SameAs)
    (ops : List (UnaryOp × Position)) :
    Consumes (prefixedAfter inner ops) (op.lexeme :: run) (1 + n) after
      (ops.foldr applyPrefix (.unary op e span)).SameAs := by
  have hstep : Consumes (prefixStep ops) [op.lexeme] 1 (fun _ => True) fun r =>
      r.2 = true ∧ ∃ p, r.1 = ops ++ [(op, p)] := by
    refine .of_cons fun t ht => .peek ?_
    rw [UnaryOp.ofToken?_eq_some_iff.2 ht]
    exact .countOperation (.next (.pure ⟨rfl, _, rfl⟩))
  refine .loop_bind (R := fun s => ∃ p, s = ops ++ [(op, p)]) (cons_ne_nil _ _) hstep
    (fun _ _ => trivial) ?_
  rintro _ ⟨p, rfl⟩
  refine (h (ops ++ [(op, p)])).mono (fun _ hl => hl) fun e' he' => ?_
  rw [foldr_append] at he'
  have hunary : (unary op e span).SameAs (applyPrefix (op, p) e) := rfl
  exact Eq.trans he' (sameAs_foldr hunary ops)

end Prefixes

section Layers

variable {e e' : Expression} {layers : List (List BinaryOp)} {ops : List BinaryOp}
  {tighter : Parser Expression}

theorem Ends.of_append {before : List (List BinaryOp)} (h : Ends (before ++ layers) l) :
    Ends layers l := by
  refine ⟨h.suffix, fun op hop => h.operator op ?_⟩
  rw [flatten_append]
  exact mem_append_right _ hop

theorem consumes_layerStep_stop (e : Expression) :
    Consumes (layerStep ops tighter e) [] 0 (Ends (ops :: layers)) fun r => r = (e, false) := by
  refine .of_nil fun t ht => .peek ?_
  have hnone : (BinaryOp.ofToken? t).filter ops.contains = none := by
    rw [Option.eq_none_iff_forall_ne_some]
    intro op hop
    obtain ⟨hop, hmem⟩ := Option.filter_eq_some_iff.1 hop
    refine ht.operator op ?_ (BinaryOp.ofToken?_eq_some_iff.1 hop).2
    simp only [contains_eq_mem, decide_eq_true_eq] at hmem
    simp [hmem]
  rw [hnone]
  exact Consumes.pure (R := fun r => r = (e, false)) rfl t

theorem consumes_layerStep {op : BinaryOp} {right : Expression} (h : e.SameAs e')
    (hright : Consumes tighter run n after right.SameAs) (hop : op ∈ ops)
    (hassign : op ≠ .assign) (span : Span) :
    Consumes (layerStep ops tighter e') (op.lexeme :: run) (n + 1) after fun r =>
      r.2 = true ∧ (binary op e right span).SameAs r.1 := by
  refine .of_cons fun t ht => .peek ?_
  have hsome : (BinaryOp.ofToken? t).filter ops.contains = some op := by
    rw [BinaryOp.ofToken?_eq_some_iff.2 ⟨hassign, ht⟩]
    simp [hop]
  rw [hsome]
  refine .countOperation (.next (hright.bind_nil (fun _ hl => hl) fun right' hright' => ?_))
  refine .pure ⟨rfl, ?_⟩
  exact congrArg₂ (binary op · · default) h hright'

end Layers

theorem ends_assign : Ends Mode.statement.layers BinaryOp.assign.lexeme :=
  ⟨by decide, by decide⟩

theorem consumes_assignmentStep {e : Expression}
    (h : Consumes (layered inner Mode.statement.layers) run n (Ends Mode.statement.layers) e.SameAs)
    (s : List Expression) :
    Consumes (assignmentStep inner s) (BinaryOp.assign.lexeme :: run) (n + 1)
      (Ends Mode.statement.layers) fun r => r.2 = true ∧
        r.1.map withoutSpans = s.map withoutSpans ++ [e.withoutSpans] := by
  refine .of_cons fun t ht => .atOperator ?_
  rw [if_pos (decide_eq_true (show t.lexeme = operator "=" from ht))]
  refine .countOperation (.next ?_)
  refine h.bind_nil (fun _ hl => hl) fun e' he' => .pure ⟨rfl, ?_⟩
  simp [he'.symm]

theorem consumes_assignmentStep_stop (s : List Expression) :
    Consumes (assignmentStep inner s) [] 0 (· ≠ BinaryOp.assign.lexeme) fun r =>
      r = (s, false) := by
  refine .of_nil fun t ht => .atOperator ?_
  rw [if_neg (by simpa using (show t.lexeme ≠ operator "=" from ht))]
  exact Consumes.pure (R := fun r => r = (s, false)) rfl t

end Operands

/-- An expression that fills the line up to a boundary is read from its lexemes without a report. -/
theorem standalone_of_consumed {p : Parser Expression} {run rest : List Lexeme} {n : Nat}
    {after : Lexeme → Prop} {R : Expression → Prop} (h : Consumes p run n after R)
    (hrun : ∃ l, run.head? = some l ∧ l.kind.isBoundary = false) (hops : n ≤ maxOperations)
    (hafter : after (rest.headD .ending)) (hbound : (rest.headD .ending).kind.isBoundary)
    {c : Cursor} (hahead : c.ahead = run ++ rest) :
    (standalone p c).2.diagnostics = c.diagnostics ∧ R (standalone p c).1 := by
  obtain ⟨l, hhead, hl⟩ := hrun
  have hstart : ¬ c.current.kind.isBoundary := by
    have hlexeme : c.current.lexeme = l := by
      rw [Cursor.lexeme_current, hahead, headD_append, headD_eq_head?_getD, hhead]
      rfl
    rw [← hlexeme] at hl
    exact Bool.eq_false_iff.1 hl
  have hcount : c.fresh.operations + n ≤ maxOperations := by
    simpa [Cursor.fresh] using hops
  have hread := h _ c.fresh rest rfl hahead hafter hcount
  have hend : (p c.fresh).2.current.kind.isBoundary := by
    have hlexeme := (p c.fresh).2.lexeme_current
    rw [hread.ahead] at hlexeme
    rw [← hlexeme] at hbound
    exact hbound
  rw [standalone_eq hstart]
  exact ⟨(diagnostics_expectEnd hend).trans hread.diagnostics, hread.value⟩

end Parser
end ScriptLint

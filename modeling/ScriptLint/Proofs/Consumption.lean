import ScriptLint.Proofs.ExpressionReads

/-!
# Parsers that consume a run of lexemes

A parser consumes a run when, from any cursor that has the run ahead, it reads the run and nothing
more, reports nothing, counts a known number of operations and gives a value with the wanted
property.  What stands after the run may be restricted, as an operand ends where no operator goes
on with it.

**Rules.**  `ConsumesAt t p run n after R` fixes the token `t` that comes next.  There is one rule
for each step.

**Repetitions.**  `Reaches p step run n after R` says that, once the run is read, `p` is where a
repetition of `step` goes on from a state with the property.  An operation that groups to the left
is one more step of the repetition that has read its left operand.
-/

namespace ScriptLint

variable {c : Cursor} {rest run run' : List Lexeme} {text : String} {σ : Type}

theorem Cursor.ahead_advance_of_eq {l : Lexeme} (h : c.ahead = l :: rest) :
    c.advance.ahead = rest := by
  unfold Cursor.ahead at h ⊢
  rw [rest_advance, List.map_drop, h]
  rfl

theorem Cursor.left_lt_of_ahead {d : Cursor} {run : List Lexeme} (hc : c.ahead = run ++ rest)
    (hd : d.ahead = rest) (hrun : run ≠ []) : d.left < c.left := by
  rw [d.left_eq_length_ahead, c.left_eq_length_ahead, hc, hd, List.length_append]
  have hpos := List.length_pos_of_ne_nil hrun
  omega

namespace Parser

/-- What a run gave from a cursor: a value with the property, the rest ahead, a number of operations
and no new diagnostic. -/
structure Consumed {α : Type} (c : Cursor) (rest : List Lexeme) (n : Nat) (R : α → Prop)
    (r : α × Cursor) : Prop where
  value : R r.1
  ahead : r.2.ahead = rest
  operations : r.2.operations = c.operations + n
  diagnostics : r.2.diagnostics = c.diagnostics

/-- From a cursor at the token, the parser consumes the run. -/
def ConsumesAt {α : Type} (t : Token) (p : Parser α) (run : List Lexeme) (n : Nat)
    (after : Lexeme → Prop) (R : α → Prop) : Prop :=
  ∀ (c : Cursor) (rest : List Lexeme), c.current = t → c.ahead = run ++ rest →
    after (rest.headD .ending) → c.operations + n ≤ maxOperations → Consumed c rest n R (p c)

/-- From any cursor with the run ahead, the parser consumes it. -/
def Consumes {α : Type} (p : Parser α) (run : List Lexeme) (n : Nat) (after : Lexeme → Prop)
    (R : α → Prop) : Prop :=
  ∀ t, ConsumesAt t p run n after R

/-- With the run read, the parser goes on as a repetition from a state with the property. -/
def Reaches {σ : Type} (p : Parser σ) (step : σ → Parser (σ × Bool)) (run : List Lexeme) (n : Nat)
    (after : Lexeme → Prop) (R : σ → Prop) : Prop :=
  ∀ (c : Cursor) (rest : List Lexeme), c.ahead = run ++ rest → after (rest.headD .ending) →
    c.operations + n ≤ maxOperations →
      ∃ r, p c = Parser.iterate step r.1 r.2 ∧ Consumed c rest n R r

section Rules

variable {α β : Type} {t : Token} {l : Lexeme} {n n' : Nat} {before after : Lexeme → Prop}
  {R : β → Prop}

theorem headD_append (run rest : List Lexeme) :
    (run ++ rest).headD .ending = run.headD (rest.headD .ending) := by
  cases run <;> rfl

variable {R' : α → Prop}

theorem Consumed.trans {rest' : List Lexeme} {d : α × Cursor}
    {r : β × Cursor} (h : Consumed c rest n R' d) (h' : Consumed d.2 rest' n' R r) :
    Consumed c rest' (n + n') R r := by
  refine ⟨h'.value, h'.ahead, ?_, h'.diagnostics.trans h.diagnostics⟩
  rw [h'.operations, h.operations, Nat.add_assoc]

variable {p : Parser β}

/-- The run begins with the lexeme of the next token. -/
theorem Consumes.of_head (hrun : run.head? = some l)
    (h : ∀ t, t.lexeme = l → ConsumesAt t p run n after R) : Consumes p run n after R := by
  intro t c rest hcur hahead
  obtain ⟨tail, rfl⟩ := List.head?_eq_some_iff.1 hrun
  refine h t ?_ c rest hcur hahead
  rw [← hcur, c.lexeme_current, hahead]
  rfl

theorem Consumes.of_cons (h : ∀ t, t.lexeme = l → ConsumesAt t p (l :: run) n after R) :
    Consumes p (l :: run) n after R :=
  .of_head rfl h

/-- The next token is the first lexeme, somewhere. -/
theorem Consumes.of_token {kind : Token.Kind}
    (h : ∀ span, ConsumesAt ⟨kind, text, span⟩ p (⟨kind, text⟩ :: run) n after R) :
    Consumes p (⟨kind, text⟩ :: run) n after R := by
  refine .of_cons fun t ht => ?_
  obtain ⟨kind, text, span⟩ := t
  obtain ⟨rfl, rfl⟩ := Lexeme.mk.inj ht
  exact h span

/-- With an empty run, what stands after it comes next. -/
theorem Consumes.of_nil (h : ∀ t, after t.lexeme → ConsumesAt t p [] n after R) :
    Consumes p [] n after R := by
  intro t c rest hcur hahead hafter
  refine h t ?_ c rest hcur hahead hafter
  rw [← hcur, c.lexeme_current, hahead]
  exact hafter

theorem Consumes.mono {R' : β → Prop} (h : Consumes p run n before R)
    (hafter : ∀ l, after l → before l) (hR : ∀ b, R b → R' b) : Consumes p run n after R' := by
  intro t c rest hcur hahead hrest hops
  have hconsumed := h t c rest hcur hahead (hafter _ hrest) hops
  exact { hconsumed with value := hR _ hconsumed.value }

theorem Consumes.pure {b : β} (h : R b) : Consumes (Pure.pure b) [] 0 after R :=
  fun _ _ _ _ hahead _ _ => ⟨h, hahead, rfl, rfl⟩

/-- One parser after another. -/
theorem ConsumesAt.bind {p : Parser α} {f : α → Parser β}
    (hp : ConsumesAt t p run n before R') (hafter : ∀ l, after l → before (run'.headD l))
    (hf : ∀ a, R' a → Consumes (f a) run' n' after R) :
    ConsumesAt t (p >>= f) (run ++ run') (n + n') after R := by
  intro c rest hcur hahead hrest hops
  rw [List.append_assoc] at hahead
  have hbefore : before ((run' ++ rest).headD .ending) := by
    rw [headD_append]
    exact hafter _ hrest
  have hfirst := hp c (run' ++ rest) hcur hahead hbefore (by omega)
  refine hfirst.trans (hf _ hfirst.value _ _ rest rfl hfirst.ahead hrest ?_)
  rw [hfirst.operations]
  omega

theorem Consumes.bind {p : Parser α} {f : α → Parser β}
    (hp : Consumes p run n before R') (hafter : ∀ l, after l → before (run'.headD l))
    (hf : ∀ a, R' a → Consumes (f a) run' n' after R) :
    Consumes (p >>= f) (run ++ run') (n + n') after R :=
  fun t => (hp t).bind hafter hf

/-- A parser after which nothing more is read. -/
theorem Consumes.bind_nil {p : Parser α} {f : α → Parser β}
    (hp : Consumes p run n before R') (hafter : ∀ l, after l → before l)
    (hf : ∀ a, R' a → Consumes (f a) [] 0 after R) : Consumes (p >>= f) run n after R := by
  have hbind : Consumes (p >>= f) (run ++ []) (n + 0) after R := hp.bind hafter hf
  rwa [List.append_nil] at hbind

/-- A step that leaves the cursor in place, and whose value the token decides. -/
theorem ConsumesAt.test {p : Parser α} {f : α → Parser β} {a : α}
    (hp : ∀ c : Cursor, c.current = t → p c = (a, c)) (h : ConsumesAt t (f a) run n after R) :
    ConsumesAt t (p >>= f) run n after R := by
  intro c rest hcur hahead hrest hops
  show Consumed c rest n R (f (p c).1 (p c).2)
  rw [hp c hcur]
  exact h c rest hcur hahead hrest hops

theorem ConsumesAt.peek {f : Token → Parser β} (h : ConsumesAt t (f t) run n after R) :
    ConsumesAt t (Parser.peek >>= f) run n after R :=
  .test (fun c hcur => by rw [← hcur]; rfl) h

variable {f : Bool → Parser β}

theorem ConsumesAt.atMark (h : ConsumesAt t (f (decide (t.lexeme = .mark text))) run n after R) :
    ConsumesAt t (Parser.atMark text >>= f) run n after R :=
  .test (fun c hcur => by rw [← hcur, ← Token.isPunctuation_eq]; rfl) h

theorem ConsumesAt.atOperator
    (h : ConsumesAt t (f (decide (t.lexeme = .operator text))) run n after R) :
    ConsumesAt t (Parser.atOperator text >>= f) run n after R :=
  .test (fun c hcur => by rw [← hcur, ← Token.isOperator_eq]; rfl) h

theorem ConsumesAt.atKind {kind : Token.Kind}
    (h : ConsumesAt t (f (t.lexeme.kind == kind)) run n after R) :
    ConsumesAt t (Parser.atKind kind >>= f) run n after R :=
  .test (fun c hcur => by rw [← hcur]; rfl) h

theorem ConsumesAt.atBoundary (h : ConsumesAt t (f t.lexeme.kind.isBoundary) run n after R) :
    ConsumesAt t (Parser.atBoundary >>= f) run n after R :=
  .test (fun c hcur => by rw [← hcur]; rfl) h

/-- The first lexeme of the run is read. -/
theorem ConsumesAt.next {f : Token → Parser β} (h : Consumes (f t) run n after R) :
    ConsumesAt t (Parser.next >>= f) (l :: run) n after R := by
  intro c rest hcur hahead hrest hops
  subst hcur
  have hrun := h _ c.advance rest rfl (Cursor.ahead_advance_of_eq hahead) hrest
    (by rwa [Cursor.operations_advance])
  exact ⟨hrun.value, hrun.ahead, by rw [← c.operations_advance]; exact hrun.operations,
    by rw [← c.diagnostics_advance]; exact hrun.diagnostics⟩

/-- An operation within the limit is counted. -/
theorem ConsumesAt.countOperation (h : ConsumesAt t (f true) run n after R) :
    ConsumesAt t (Parser.countOperation >>= f) run (n + 1) after R := by
  intro c rest hcur hahead hrest hops
  have hlt : c.operations < maxOperations := by omega
  have hcount : Parser.countOperation c = (true, { c with operations := c.operations + 1 }) := by
    unfold Parser.countOperation
    rw [if_pos hlt]
  show Consumed c rest (n + 1) R (f (Parser.countOperation c).1 (Parser.countOperation c).2)
  rw [hcount]
  have hrun := h { c with operations := c.operations + 1 } rest hcur hahead hrest
    (by show c.operations + 1 + n ≤ maxOperations; omega)
  refine ⟨hrun.value, hrun.ahead, ?_, hrun.diagnostics⟩
  rw [hrun.operations]
  show c.operations + 1 + n = c.operations + (n + 1)
  omega

theorem ConsumesAt.spanFrom {p : Position} {f : Span → Parser β}
    (h : ∀ span, ConsumesAt t (f span) run n after R) :
    ConsumesAt t (Parser.spanFrom p >>= f) run n after R :=
  fun c rest hcur hahead hrest hops => h _ c rest hcur hahead hrest hops

end Rules

section Repetitions

variable {step : σ → Parser (σ × Bool)} {p : Parser σ} {n n' : Nat} {before after : Lexeme → Prop}
  {R R' : σ → Prop}

/-- A repetition goes on from its first state. -/
theorem Reaches.loop {first : σ} (h : R first) :
    Reaches (Parser.loop first step) step [] 0 after R :=
  fun c _ hahead _ _ => ⟨(first, c), rfl, h, hahead, rfl, rfl⟩

/-- A repetition goes on from what was read before it. -/
theorem Reaches.bind (h : Consumes p run n after R) :
    Reaches (p >>= fun first => Parser.loop first step) step run n after R :=
  fun c rest hahead hrest hops => ⟨p c, rfl, h _ c rest rfl hahead hrest hops⟩

/-- The step that comes next consumes what is ahead of it. -/
theorem Reaches.run_step (h : Reaches p step run n before R')
    (hafter : ∀ l, after l → before (run'.headD l)) {Q : σ × Bool → Prop}
    (hstep : ∀ s, R' s → Consumes (step s) run' n' after Q)
    (hahead : c.ahead = run ++ run' ++ rest) (hrest : after (rest.headD .ending))
    (hops : c.operations + (n + n') ≤ maxOperations) :
    ∃ s d, p c = Parser.iterate step s d ∧ d.ahead = run' ++ rest ∧
      Consumed c rest (n + n') Q (step s d) := by
  rw [List.append_assoc] at hahead
  obtain ⟨⟨s, d⟩, heq, hread⟩ :=
    h c (run' ++ rest) hahead (by rw [headD_append]; exact hafter _ hrest) (by omega)
  have hcount : d.operations = c.operations + n := hread.operations
  have hnext := hstep s hread.value _ d rest rfl hread.ahead hrest (by omega)
  exact ⟨s, d, heq, hread.ahead, hread.trans hnext⟩

/-- One more step of a repetition. -/
theorem Reaches.more (h : Reaches p step run n before R') (hrun' : run' ≠ [])
    (hafter : ∀ l, after l → before (run'.headD l))
    (hstep : ∀ s, R' s → Consumes (step s) run' n' after fun r => r.2 = true ∧ R r.1) :
    Reaches p step (run ++ run') (n + n') after R := by
  intro c rest hahead hrest hops
  obtain ⟨s, d, heq, hd, hnext⟩ := h.run_step hafter hstep hahead hrest hops
  have hleft := Cursor.left_lt_of_ahead hd hnext.ahead hrun'
  refine ⟨((step s d).1.1, (step s d).2), ?_, { hnext with value := hnext.value.2 }⟩
  rw [heq, Parser.iterate]
  simp [hnext.value.1, hleft]

/-- The last step of a repetition. -/
theorem Reaches.last (h : Reaches p step run n before R')
    (hafter : ∀ l, after l → before (run'.headD l))
    (hstep : ∀ s, R' s → Consumes (step s) run' n' after fun r => r.2 = false ∧ R r.1) :
    Consumes p (run ++ run') (n + n') after R := by
  intro t c rest _ hahead hrest hops
  obtain ⟨s, d, heq, -, hnext⟩ := h.run_step hafter hstep hahead hrest hops
  have hresult : p c = ((step s d).1.1, (step s d).2) := by
    rw [heq, Parser.iterate]
    simp [hnext.value.1]
  rw [hresult]
  exact { hnext with value := hnext.value.2 }

/-- A repetition ends where its step reads nothing. -/
theorem Reaches.stop (h : Reaches p step run n before R) (hafter : ∀ l, after l → before l)
    (hstep : ∀ s, R s → Consumes (step s) [] 0 after fun r => r = (s, false)) :
    Consumes p run n after R := by
  have hlast : Consumes p (run ++ []) (n + 0) after R := by
    refine h.last hafter fun s hs => (hstep s hs).mono (fun _ hl => hl) ?_
    rintro _ rfl
    exact ⟨rfl, hs⟩
  rwa [List.append_nil] at hlast

/-- A repetition with something after it goes on from the state after its first step. -/
theorem Consumes.loop_bind {β : Type} {s : σ} {f : σ → Parser β} {Q : β → Prop} (hrun : run ≠ [])
    (hstep : Consumes (step s) run n before fun r => r.2 = true ∧ R r.1)
    (hafter : ∀ l, after l → before (run'.headD l))
    (hnext : ∀ s, R s → Consumes (Parser.loop s step >>= f) run' n' after Q) :
    Consumes (Parser.loop s step >>= f) (run ++ run') (n + n') after Q := by
  intro t c rest hcur hahead hrest hops
  rw [List.append_assoc] at hahead
  have hfirst := hstep t c (run' ++ rest) hcur hahead (by rw [headD_append]; exact hafter _ hrest)
    (by omega)
  have hleft := Cursor.left_lt_of_ahead hahead hfirst.ahead hrun
  have hiterate : Parser.iterate step s c = Parser.iterate step (step s c).1.1 (step s c).2 := by
    rw [Parser.iterate]
    simp [hfirst.value.1, hleft]
  have hops' : (step s c).2.operations + n' ≤ maxOperations := by
    rw [hfirst.operations]
    omega
  have hrest := hnext _ hfirst.value.2 _ _ rest rfl hfirst.ahead hrest hops'
  show Consumed c rest (n + n') Q (f (Parser.iterate step s c).1 (Parser.iterate step s c).2)
  rw [hiterate]
  exact hfirst.trans hrest

end Repetitions

end Parser
end ScriptLint

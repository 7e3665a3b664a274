import ScriptLint.Proofs.Lockstep
import Mathlib.Algebra.GroupWithZero.Nat

/-!
# Two lines read in step

Two lines are read side by side, token by token.  A coupling says which tokens, places, expressions
and diagnostics correspond.  As the parsers look only at the kinds of tokens, and at the texts of
operators and marks, they take the same way through both lines.

**Accounts.**  Every token of the first line weighs something.  What a parser gives, what it reports
and what it leaves unread weigh no more together than what it began with: a token goes into one
place only.  A parser that is given values to go on with has their weight for its credit.

**Rules.**  `CouplesAt` fixes the two tokens that come next.  There is one rule for each step that a
parser is made of, as for `Runs`.

**Results.**
* `CouplesAt.bind`, `Couples.loop`: sequences and repetitions of steps.
-/

namespace ScriptLint

open List ScriptLint.Parser

variable {stops : Token.Kind → Bool} {n x : Nat} {C : Coupling} {counted : Bool}

namespace Fault

/-- The fault names no token. -/
def isPlain : Fault → Bool
  | afterExpression _ _ | unexpectedToken _ _ | invalidText _ => false
  | _ => true

/-- The faults that name a token. -/
def naming : List (Token → Fault) :=
  [fun t => .afterExpression t.kind t.text, fun t => .unexpectedToken t.kind t.text,
    fun t => .invalidText t.text]

end Fault

/-- What corresponds in two lines that are read in step. -/
structure Coupling where
  /-- Two tokens correspond. -/
  token : Token → Token → Prop
  /-- What a token of the first line weighs. -/
  weight : Token → Nat
  /-- What the text of a token costs where it is only quoted, in a fault or in a run of text; a
  token that is no part of an expression may be quoted in both. -/
  charge : Token → Nat
  /-- Two places correspond. -/
  place : Position → Position → Prop
  /-- Two spans correspond. -/
  span : Span → Span → Prop
  /-- Two expressions correspond, and weigh so much. -/
  expression : Nat → Expression → Expression → Prop
  /-- Two properties correspond, and weigh so much. -/
  property : Nat → Property → Property → Prop
  /-- Two diagnostics correspond, and weigh so much. -/
  diagnostic : Nat → Diagnostic → Diagnostic → Prop
  charge_le : ∀ t, charge t + charge t ≤ weight t
  kind : ∀ {t t'}, token t t' → t'.kind = t.kind
  same : ∀ {t t'}, token t t' → charge t = 0 → t'.text = t.text
  text : ∀ {t t'}, token t t' →
    t.kind ∈ [.operator, .punctuation, .keyword, .subKeyword] → t'.text = t.text
  span_token : ∀ {t t'}, token t t' → span t.span t'.span
  start_span : ∀ {s s'}, span s s' → place s.start s'.start
  stop_span : ∀ {s s'}, span s s' → place s.stop s'.stop
  span_between : ∀ {p p' q q'}, place p p' → place q q' →
    span (Span.between p q) (Span.between p' q')
  plain : ∀ {fault s s'}, fault.isPlain → span s s' → diagnostic 0 ⟨fault, s⟩ ⟨fault, s'⟩
  naming : ∀ {fault t t'}, fault ∈ Fault.naming → token t t' →
    diagnostic (charge t) ⟨fault t, t.span⟩ ⟨fault t', t'.span⟩
  span_expression : ∀ {n e e'}, expression n e e' → span e.span e'.span
  null : ∀ {s s'}, span s s' → expression 0 (.null s) (.null s')
  identifier : ∀ {t t'}, token t t' → t.kind = .identifier →
    expression (weight t) (.identifier t.text t.span) (.identifier t'.text t'.span)
  number : ∀ {t t'}, token t t' → t.kind = .number →
    expression (weight t) (.literal (numberValue t.text) t.text [] t.span)
      (.literal (numberValue t'.text) t'.text [] t'.span)
  string : ∀ {t t' n es es'}, token t t' → t.kind = .string → n ≤ weight t →
    Tally expression n es es' →
    expression (weight t) (.literal (.string (stringValue t.text)) t.text es t.span)
      (.literal (.string (stringValue t'.text)) t'.text es' t'.span)
  join : ∀ {m n e e' f f'} (op : BinaryOp), expression m e e' → expression n f f' →
    expression (m + n) (.join op e f) (.join op e' f')
  unary : ∀ {n e e' p p'} (op : UnaryOp), place p p' → expression n e e' →
    expression n (applyPrefix (op, p) e) (applyPrefix (op, p') e')
  member : ∀ {n e e' t t'} (namespaced : Bool), expression n e e' → token t t' →
    t.kind = .identifier →
    expression (n + weight t)
      (.member e ⟨t.text, t.span⟩ namespaced (Span.between e.span.start t.span.stop))
      (.member e' ⟨t'.text, t'.span⟩ namespaced (Span.between e'.span.start t'.span.stop))
  call : ∀ {m n e e' es es' s s'}, expression m e e' → Tally expression n es es' → span s s' →
    s.start = e.span.start → expression (m + n) (.call e es s) (.call e' es' s')
  index : ∀ {m n e e' f f' s s'}, expression m e e' → expression n f f' → span s s' →
    s.start = e.span.start → expression (m + n) (.index e f s) (.index e' f' s')
  array : ∀ {n es es' s s'}, Tally expression n es es' → span s s' →
    expression n (.array es s) (.array es' s')
  object : ∀ {n ps ps' s s'}, Tally property n ps ps' → span s s' →
    expression n (.object ps s) (.object ps' s')
  pair : ∀ {m n e e' f f' s s'}, expression m e e' → expression n f f' → span s s' →
    property (m + n) (.mk e f s) (.mk e' f' s')

namespace Coupling

/-- Tokens up to the end of a line correspond, and the tokens that end it; those of the line weigh
so much. -/
inductive Ahead (C : Coupling) (stop stop' : Position) : Nat → List Token → List Token → Prop
  | ends {ts ts' : List Token} (hkind : (ts.headD (Token.endAt stop)).kind.isStructural)
      (htoken : C.token (ts.headD (Token.endAt stop)) (ts'.headD (Token.endAt stop'))) :
      Ahead C stop stop' 0 ts ts'
  | cons {n : Nat} {t t' : Token} {ts ts' : List Token} (hkind : t.kind.isStructural = false)
      (htoken : C.token t t') (rest : Ahead C stop stop' n ts ts') :
      Ahead C stop stop' (C.weight t + n) (t :: ts) (t' :: ts')

variable {stop stop' : Position} {ts ts' : List Token}

theorem Ahead.head (h : C.Ahead stop stop' n ts ts') :
    C.token (ts.headD (Token.endAt stop)) (ts'.headD (Token.endAt stop')) := by
  cases h with
  | ends _ htoken => exact htoken
  | cons _ htoken _ => exact htoken

/-- What stands before the first token of a stopping kind corresponds, and so does the rest. -/
theorem Ahead.skip (hstops : StopsAtLine stops) (h : C.Ahead stop stop' n ts ts') :
    ∃ us us' vs vs' m, ts = us ++ vs ∧ ts' = us' ++ vs' ∧
      ts.takeWhile (fun t => !stops t.kind) = us ∧ ts'.takeWhile (fun t => !stops t.kind) = us' ∧
      Forall₂ C.token us us' ∧ C.Ahead stop stop' m vs vs' ∧ m ≤ n := by
  induction h with
  | @ends ts ts' hkind htoken =>
    refine ⟨[], [], ts, ts', 0, rfl, rfl, ?_, ?_, .nil, .ends hkind htoken, Nat.le_refl 0⟩
    · cases ts with
      | nil => rfl
      | cons t ts => exact takeWhile_cons_of_neg (by simpa using hstops _ hkind)
    · cases ts' with
      | nil => rfl
      | cons t' ts' =>
        rw [← C.kind htoken] at hkind
        exact takeWhile_cons_of_neg (by simpa using hstops _ hkind)
  | @cons n t t' ts ts' hkind htoken rest ih =>
    obtain ⟨us, us', vs, vs', m, rfl, rfl, htake, htake', hread, hrest, hle⟩ := ih
    by_cases hstop : stops t.kind
    · refine ⟨[], [], _, _, _, rfl, rfl, ?_, ?_, .nil, .cons hkind htoken rest, Nat.le_refl _⟩
      · exact takeWhile_cons_of_neg (by simpa using hstop)
      · exact takeWhile_cons_of_neg (by simpa [C.kind htoken] using hstop)
    · refine ⟨t :: us, t' :: us', vs, vs', m, rfl, rfl, ?_, ?_, .cons htoken hread, hrest, by omega⟩
      · rw [takeWhile_cons_of_pos (by simpa using hstop), htake]
      · rw [takeWhile_cons_of_pos (by simpa [C.kind htoken] using hstop), htake']

end Coupling

namespace Cursor

variable {c c' d d' : Cursor}

/-- The cursors stand at corresponding tokens of two lines, and what is ahead in the first weighs so
much; where operations are counted they have counted the same. -/
structure Coupled (C : Coupling) (counted : Bool) (load : Nat) (c c' : Cursor) : Prop where
  ahead : C.Ahead c.stop c'.stop load c.rest c'.rest
  lastEnd : C.place c.lastEnd c'.lastEnd
  operations : counted = true → c'.operations = c.operations

theorem Coupled.current (h : c.Coupled C counted x c') : C.token c.current c'.current :=
  h.ahead.head

theorem Coupled.uncounted (h : c.Coupled C true x c') : c.Coupled C counted x c' :=
  ⟨h.ahead, h.lastEnd, fun _ => h.operations rfl⟩

/-- Behind a token of content the cursors stand at corresponding tokens again. -/
theorem Coupled.advance (h : c.Coupled C counted x c') (hkind : c.AtContent) :
    ∃ y, C.weight c.current + y = x ∧ c.advance.Coupled C counted y c'.advance := by
  obtain ⟨hahead, hlast, hcount⟩ := h
  have htoken := hahead.head
  have hplace := C.stop_span (C.span_token htoken)
  have hkind' : c'.AtContent := .of_kind (C.kind htoken) hkind
  have hadvance : c.advance = { c.drop 1 with lastEnd := c.current.span.stop } := by
    rw [Cursor.advance, if_neg (by simp [hkind])]
  have hadvance' : c'.advance = { c'.drop 1 with lastEnd := c'.current.span.stop } := by
    rw [Cursor.advance, if_neg (by simp [hkind'])]
  rw [hadvance, hadvance']
  rw [rest_eq_cons hkind, rest_eq_cons hkind', rest_advance, rest_advance] at hahead
  cases hahead with
  | ends hlayout _ =>
    rw [headD_cons, hkind] at hlayout
    cases hlayout
  | cons _ _ hrest => exact ⟨_, rfl, hrest, hplace, hcount⟩

/-- From one pair of cursors to another the same number of tokens was read, and the diagnostics
that came in correspond and weigh so much. -/
structure Passes (C : Coupling) (reported : Nat) (c c' d d' : Cursor) : Prop where
  left : ∃ i, c.left = d.left + i ∧ c'.left = d'.left + i
  diagnostics : ∃ new new', d.diagnostics = new ++ c.diagnostics ∧
    d'.diagnostics = new' ++ c'.diagnostics ∧ Tally C.diagnostic reported new new'

theorem Passes.refl : Passes C 0 c c' c c' :=
  ⟨⟨0, rfl, rfl⟩, [], [], rfl, rfl, .nil⟩

theorem Passes.trans {m : Nat} {e e' : Cursor} (h : Passes C m c c' d d')
    (h' : Passes C n d d' e e') : Passes C (m + n) c c' e e' := by
  obtain ⟨⟨i, hi, hi'⟩, new, new', hnew, hnew', htally⟩ := h
  obtain ⟨⟨j, hj, hj'⟩, more, more', hmore, hmore', htally'⟩ := h'
  refine ⟨⟨j + i, by omega, by omega⟩, more ++ new, more' ++ new', ?_, ?_, ?_⟩
  · rw [hmore, hnew, append_assoc]
  · rw [hmore', hnew', append_assoc]
  · rw [Nat.add_comm]
    exact htally'.append htally

theorem left_eq_advance (h : c.AtContent) : c.left = c.advance.left + 1 := by
  rw [c.left_eq, c.advance.left_eq, rest_eq_cons h, length_cons]

theorem passes_advance (hkind : c.AtContent)
    (hkind' : c'.AtContent) : Passes C 0 c c' c.advance c'.advance :=
  ⟨⟨1, left_eq_advance hkind, left_eq_advance hkind'⟩, [], [], diagnostics_advance c,
    diagnostics_advance c', .nil⟩

theorem passes_report {fault fault' : Fault} {s s' : Span}
    (h : C.diagnostic n ⟨fault, s⟩ ⟨fault', s'⟩) :
    Passes C n c c' (c.report fault s) (c'.report fault' s') :=
  ⟨⟨0, rfl, rfl⟩, [⟨fault, s⟩], [⟨fault', s'⟩], rfl, rfl, .singleton h⟩

/-- Skipping tokens on both sides leads to corresponding tokens. -/
theorem Coupled.skipTo (hstops : StopsAtLine stops) (h : c.Coupled C counted x c') :
    ∃ y, y ≤ x ∧ (c.skipTo stops).Coupled C counted y (c'.skipTo stops) ∧
      Passes C 0 c c' (c.skipTo stops) (c'.skipTo stops) := by
  obtain ⟨hahead, hlast, hcount⟩ := h
  obtain ⟨us, us', vs, vs', y, hrest, hrest', htake, htake', hread, hafter, hle⟩ :=
    hahead.skip hstops
  have hlength : us.length = us'.length := hread.length_eq
  have hdrops : ∀ {c : Cursor} {us vs : List Token}, c.rest = us ++ vs → c.before stops = us →
      (c.skipTo stops).rest = vs := by
    intro c us vs hrest hbefore
    show c.rest.drop (c.before stops).length = vs
    rw [hbefore, hrest]
    exact drop_left
  have hdrop := hdrops hrest htake
  have hdrop' := hdrops hrest' htake'
  refine ⟨y, hle, ⟨?_, ?_, hcount⟩, ⟨us.length, ?_, ?_⟩, [], [], rfl, rfl, .nil⟩
  · rw [hdrop, hdrop']
    exact hafter
  · show C.place (((c.before stops).getLast?.map (·.span.stop)).getD c.lastEnd)
      (((c'.before stops).getLast?.map (·.span.stop)).getD c'.lastEnd)
    unfold Cursor.before
    rw [htake, htake']
    rcases getLast?_of_forall₂ hread with ⟨hnone, hnone'⟩ | ⟨t, t', hsome, hsome', htoken⟩
    · rw [hnone, hnone']
      exact hlast
    · rw [hsome, hsome']
      exact C.stop_span (C.span_token htoken)
  · rw [c.left_eq, (c.skipTo stops).left_eq, hdrop, hrest, length_append, Nat.add_comm]
  · rw [c'.left_eq, (c'.skipTo stops).left_eq, hdrop', hrest', length_append, hlength, Nat.add_comm]

theorem coupled_start {ts ts' : List Token} {stop stop' : Position}
    (h : C.Ahead stop stop' x ts ts') :
    (Cursor.start ts stop).Coupled C counted x (Cursor.start ts' stop') := by
  refine ⟨h, ?_, fun _ => rfl⟩
  have hhead := C.start_span (C.span_token h.head)
  cases h with
  | ends hkind htoken =>
    cases ts <;> cases ts' <;> exact hhead
  | cons _ _ _ => exact hhead

end Cursor

namespace Parser

variable {α α' β β' σ σ' : Type} {k : Nat} {t t' : Token} {c c' d d' : Cursor}

/-- What two parsers gave from two cursors: values that correspond, at cursors further on, and
together with the diagnostics no heavier than the credit and what was ahead. -/
def Outcome (C : Coupling) (counted : Bool) (budget : Nat) (V : Nat → α → α' → Prop)
    (c c' : Cursor) (r : α × Cursor) (r' : α' × Cursor) : Prop :=
  ∃ n m y, V n r.1 r'.1 ∧ r.2.Coupled C counted y r'.2 ∧ Cursor.Passes C m c c' r.2 r'.2 ∧
    n + m + y ≤ budget

/-- From coupled cursors at the tokens, the parsers read in step and give values that
correspond. -/
def CouplesAt (C : Coupling) (counted : Bool) (credit : Nat) (t t' : Token) (p : Parser α)
    (p' : Parser α') (V : Nat → α → α' → Prop) : Prop :=
  ∀ x (c c' : Cursor), c.Coupled C counted x c' → c.current = t → c'.current = t' →
    Outcome C counted (credit + x) V c c' (p c) (p' c')

/-- From any coupled cursors, the parsers read in step and give values that correspond. -/
def Couples (C : Coupling) (counted : Bool) (credit : Nat) (p : Parser α) (p' : Parser α')
    (V : Nat → α → α' → Prop) : Prop :=
  ∀ t t', C.token t t' → CouplesAt C counted credit t t' p p' V

section Rules

variable {V : Nat → β → β' → Prop} {f : Bool → Parser β} {f' : Bool → Parser β'}
  {g : Unit → Parser β} {g' : Unit → Parser β'}

theorem Outcome.of_passes {budget budget' : Nat} {r : β × Cursor} {r' : β' × Cursor}
    (hpass : Cursor.Passes C n c c' d d') (h : Outcome C counted budget V d d' r r')
    (hle : budget + n ≤ budget') : Outcome C counted budget' V c c' r r' := by
  obtain ⟨v, m, y, hvalue, hcoupled, hpasses, hpaid⟩ := h
  exact ⟨v, n + m, y, hvalue, hcoupled, hpass.trans hpasses, by omega⟩

theorem Couples.run {p : Parser β} {p' : Parser β'} (h : Couples C counted k p p' V)
    (hc : c.Coupled C counted x c') : Outcome C counted (k + x) V c c' (p c) (p' c') :=
  h c.current c'.current hc.current x c c' hc rfl rfl

theorem CouplesAt.pure {b : β} {b' : β'} (h : V n b b') (hn : n ≤ k) :
    CouplesAt C counted k t t' (Pure.pure b) (Pure.pure b') V := by
  intro x c c' hc _ _
  exact ⟨n, 0, x, h, hc, .refl, by omega⟩

theorem Couples.pure {b : β} {b' : β'} (h : V n b b') (hn : n ≤ k) :
    Couples C counted k (Pure.pure b) (Pure.pure b') V :=
  fun _ _ _ => .pure h hn

theorem CouplesAt.of_bind_pure {p : Parser β} {p' : Parser β'}
    (h : CouplesAt C counted k t t' (p >>= Pure.pure) (p' >>= Pure.pure) V) :
    CouplesAt C counted k t t' p p' V := h

/-- Values of the first parsers add to what is kept for the second. -/
theorem CouplesAt.bind {j : Nat} {p : Parser α} {p' : Parser α'} {f : α → Parser β}
    {f' : α' → Parser β'} {R : Nat → α → α' → Prop} (hp : CouplesAt C counted k t t' p p' R)
    (hf : ∀ n a a', R n a a' → Couples C counted (j + n) (f a) (f' a') V) :
    CouplesAt C counted (j + k) t t' (p >>= f) (p' >>= f') V := by
  intro x c c' hc hcur hcur'
  obtain ⟨n, m, y, hvalue, hcoupled, hpass, hpaid⟩ := hp x c c' hc hcur hcur'
  exact ((hf n _ _ hvalue).run hcoupled).of_passes hpass (by omega)

theorem Couples.bind {j : Nat} {p : Parser α} {p' : Parser α'} {f : α → Parser β}
    {f' : α' → Parser β'} {R : Nat → α → α' → Prop} (hp : Couples C counted k p p' R)
    (hf : ∀ n a a', R n a a' → Couples C counted (j + n) (f a) (f' a') V) :
    Couples C counted (j + k) (p >>= f) (p' >>= f') V :=
  fun t t' ht => (hp t t' ht).bind hf

theorem CouplesAt.mono {j : Nat} {p : Parser β} {p' : Parser β'}
    (h : CouplesAt C counted j t t' p p' V) (hle : j ≤ k) : CouplesAt C counted k t t' p p' V := by
  intro x c c' hc hcur hcur'
  exact (h x c c' hc hcur hcur').of_passes .refl (by omega)

/-- Steps that leave the cursors in place, and whose values the tokens decide. -/
theorem CouplesAt.test {p : Parser α} {p' : Parser α'} {f : α → Parser β} {f' : α' → Parser β'}
    {a : α} {a' : α'} (hp : ∀ c : Cursor, c.current = t → p c = (a, c))
    (hp' : ∀ c : Cursor, c.current = t' → p' c = (a', c))
    (h : CouplesAt C counted k t t' (f a) (f' a') V) :
    CouplesAt C counted k t t' (p >>= f) (p' >>= f') V := by
  intro x c c' hc hcur hcur'
  show Outcome C counted (k + x) V c c' (f (p c).1 (p c).2) (f' (p' c').1 (p' c').2)
  rw [hp c hcur, hp' c' hcur']
  exact h x c c' hc hcur hcur'

theorem CouplesAt.peek {f : Token → Parser β} {f' : Token → Parser β'}
    (h : CouplesAt C counted k t t' (f t) (f' t') V) :
    CouplesAt C counted k t t' (peek >>= f) (peek >>= f') V :=
  .test (fun c hcur => by rw [← hcur]; rfl) (fun c hcur => by rw [← hcur]; rfl) h

section Tests

variable (ht : C.token t t')

include ht

theorem Coupling.isPunctuation (mark : String) : t'.isPunctuation mark = t.isPunctuation mark := by
  unfold Token.isPunctuation
  rw [C.kind ht]
  by_cases hkind : t.kind = .punctuation
  · rw [C.text ht (by simp [hkind])]
  · rw [beq_eq_false_iff_ne.2 hkind, Bool.false_and, Bool.false_and]

theorem Coupling.isOperator (op : String) : t'.isOperator op = t.isOperator op := by
  unfold Token.isOperator
  rw [C.kind ht]
  by_cases hkind : t.kind = .operator
  · rw [C.text ht (by simp [hkind])]
  · rw [beq_eq_false_iff_ne.2 hkind, Bool.false_and, Bool.false_and]

theorem CouplesAt.atMark {mark : String}
    (h : CouplesAt C counted k t t' (f (t.isPunctuation mark)) (f' (t.isPunctuation mark)) V) :
    CouplesAt C counted k t t' (atMark mark >>= f) (atMark mark >>= f') V :=
  .test (fun c hcur => by rw [← hcur]; rfl)
    (fun c hcur => by rw [← Coupling.isPunctuation ht, ← hcur]; rfl) h

theorem CouplesAt.atOperator {op : String}
    (h : CouplesAt C counted k t t' (f (t.isOperator op)) (f' (t.isOperator op)) V) :
    CouplesAt C counted k t t' (atOperator op >>= f) (atOperator op >>= f') V :=
  .test (fun c hcur => by rw [← hcur]; rfl)
    (fun c hcur => by rw [← Coupling.isOperator ht, ← hcur]; rfl) h

theorem CouplesAt.atKind {kind : Token.Kind}
    (h : CouplesAt C counted k t t' (f (t.kind == kind)) (f' (t.kind == kind)) V) :
    CouplesAt C counted k t t' (atKind kind >>= f) (atKind kind >>= f') V :=
  .test (fun c hcur => by rw [← hcur]; rfl)
    (fun c hcur => by rw [← C.kind ht, ← hcur]; rfl) h

theorem CouplesAt.atBoundary
    (h : CouplesAt C counted k t t' (f t.kind.isBoundary) (f' t.kind.isBoundary) V) :
    CouplesAt C counted k t t' (atBoundary >>= f) (atBoundary >>= f') V :=
  .test (fun c hcur => by rw [← hcur]; rfl)
    (fun c hcur => by rw [← C.kind ht, ← hcur]; rfl) h

theorem CouplesAt.atLineEnd
    (h : CouplesAt C counted k t t' (f t.kind.isStructural) (f' t.kind.isStructural) V) :
    CouplesAt C counted k t t' (atLineEnd >>= f) (atLineEnd >>= f') V :=
  .test (fun c hcur => by rw [← hcur]; rfl)
    (fun c hcur => by rw [← C.kind ht, ← hcur]; rfl) h

/-- Tokens of content may be read; their weight becomes credit. -/
theorem CouplesAt.next {f : Token → Parser β} {f' : Token → Parser β'}
    (hkind : t.kind.isStructural = false) (h : Couples C counted (k + C.weight t) (f t) (f' t') V) :
    CouplesAt C counted k t t' (next >>= f) (next >>= f') V := by
  intro x c c' hc hcur hcur'
  subst hcur hcur'
  obtain ⟨y, hy, hcoupled⟩ := hc.advance hkind
  exact (h.run hcoupled).of_passes
    (Cursor.passes_advance hkind (.of_kind (C.kind ht) hkind)) (by omega)

/-- A fault that names no token weighs nothing. -/
theorem CouplesAt.reportHere {fault : Fault}
    (hplain : fault.isPlain) (h : CouplesAt C counted k t t' (g ()) (g' ()) V) :
    CouplesAt C counted k t t' (reportHere fault >>= g)
      (reportHere fault >>= g') V := by
  intro x c c' hc hcur hcur'
  have hspan := C.span_token ht
  have hpass : Cursor.Passes C 0 c c' (c.report fault c.current.span)
      (c'.report fault c'.current.span) := by
    rw [hcur, hcur']
    exact Cursor.passes_report (C.plain hplain hspan)
  have hcoupled : Cursor.Coupled C counted x (c.report fault c.current.span)
      (c'.report fault c'.current.span) := ⟨hc.ahead, hc.lastEnd, hc.operations⟩
  exact (h x _ _ hcoupled hcur hcur').of_passes hpass (Nat.le_refl _)

/-- Counting an operation goes the same way on both sides. -/
theorem CouplesAt.countOperation
    (hgo : CouplesAt C true k t t' (f true) (f' true) V)
    (hstop : Couples C true k (f false) (f' false) V) :
    CouplesAt C true k t t' (countOperation >>= f) (countOperation >>= f') V := by
  intro x c c' hc hcur hcur'
  have hcount := hc.operations rfl
  have hstops : StopsAtLine Token.Kind.isBoundary := fun _ => isBoundary_of_isStructural
  show Outcome C true (k + x) V c c' (f (Parser.countOperation c).1 (Parser.countOperation c).2)
    (f' (Parser.countOperation c').1 (Parser.countOperation c').2)
  unfold Parser.countOperation
  rw [hcount]
  split
  · have hcoupled : Cursor.Coupled C true x { c with operations := c.operations + 1 }
        { c' with operations := c.operations + 1 } := ⟨hc.ahead, hc.lastEnd, fun _ => rfl⟩
    have hpass : Cursor.Passes C 0 c c' { c with operations := c.operations + 1 }
        { c' with operations := c.operations + 1 } := ⟨⟨0, rfl, rfl⟩, [], [], rfl, rfl, .nil⟩
    exact (hgo x _ _ hcoupled hcur hcur').of_passes hpass (Nat.le_refl _)
  split
  · have hpass : Cursor.Passes C 0 c c'
        { c.report .nestedTooDeeply c.current.span with operations := c.operations + 1 }
        { c'.report .nestedTooDeeply c'.current.span with operations := c.operations + 1 } := by
      rw [hcur, hcur']
      exact ⟨⟨0, rfl, rfl⟩, _, _, rfl, rfl, .singleton (C.plain rfl (C.span_token ht))⟩
    have hcoupled : Cursor.Coupled C true x
        { c.report .nestedTooDeeply c.current.span with operations := c.operations + 1 }
        { c'.report .nestedTooDeeply c'.current.span with operations := c.operations + 1 } :=
      ⟨hc.ahead, hc.lastEnd, fun _ => rfl⟩
    obtain ⟨y, hle, hskip, hpasses⟩ := hcoupled.skipTo hstops
    exact ((hstop.run hskip).of_passes hpasses (Nat.le_refl _)).of_passes hpass (by omega)
  · obtain ⟨y, hle, hskip, hpasses⟩ := hc.skipTo hstops
    exact (hstop.run hskip).of_passes hpasses (by omega)

end Tests

theorem CouplesAt.report {fault fault' : Fault} {s s' : Span}
    (hfault : C.diagnostic n ⟨fault, s⟩ ⟨fault', s'⟩)
    (h : CouplesAt C counted k t t' (g ()) (g' ()) V) :
    CouplesAt C counted (k + n) t t' (report fault s >>= g)
      (report fault' s' >>= g') V := by
  intro x c c' hc hcur hcur'
  have hcoupled : Cursor.Coupled C counted x (c.report fault s) (c'.report fault' s') :=
    ⟨hc.ahead, hc.lastEnd, hc.operations⟩
  exact (h x _ _ hcoupled hcur hcur').of_passes (Cursor.passes_report hfault) (by omega)

theorem CouplesAt.spanFrom {p p' : Position} {f : Span → Parser β} {f' : Span → Parser β'}
    (hp : C.place p p')
    (h : ∀ s s', C.span s s' → s.start = p → CouplesAt C counted k t t' (f s) (f' s') V) :
    CouplesAt C counted k t t' (spanFrom p >>= f) (spanFrom p' >>= f') V := by
  intro x c c' hc hcur hcur'
  exact h _ _ (C.span_between hp hc.lastEnd) (Span.start_between _ _) x c c' hc hcur hcur'

theorem CouplesAt.lastEnd {f : Position → Parser β} {f' : Position → Parser β'}
    (h : ∀ p p', C.place p p' → CouplesAt C counted k t t' (f p) (f' p') V) :
    CouplesAt C counted k t t' (lastEnd >>= f) (lastEnd >>= f') V :=
  fun x c c' hc hcur hcur' => h _ _ hc.lastEnd x c c' hc hcur hcur'

theorem CouplesAt.skipTo (hstops : StopsAtLine stops) (h : Couples C counted k (g ()) (g' ()) V) :
    CouplesAt C counted k t t' (skipTo stops >>= g) (skipTo stops >>= g') V := by
  intro x c c' hc _ _
  obtain ⟨y, hle, hcoupled, hpass⟩ := hc.skipTo hstops
  exact (h.run hcoupled).of_passes hpass (by omega)

/-- From a new count on, operations are counted on both sides. -/
theorem CouplesAt.resetOperations
    (h : CouplesAt C true k t t' (g ()) (g' ()) V) :
    CouplesAt C counted k t t' (resetOperations >>= g)
      (resetOperations >>= g') V := by
  intro x c c' hc hcur hcur'
  have hcoupled : Cursor.Coupled C true x { c with operations := 0 }
      { c' with operations := 0 } := ⟨hc.ahead, hc.lastEnd, fun _ => rfl⟩
  obtain ⟨n, m, y, hvalue, hafter, hpass, hpaid⟩ := h x _ _ hcoupled hcur hcur'
  exact ⟨n, m, y, hvalue, hafter.uncounted, ⟨hpass.left, hpass.diagnostics⟩, hpaid⟩

/-- Repetitions go on in step: both sides read the same number of tokens in each step. -/
theorem Couples.loop {step : σ → Parser (σ × Bool)} {step' : σ' → Parser (σ' × Bool)}
    {V : Nat → σ → σ' → Prop} {first : σ} {first' : σ'} (hfirst : V k first first')
    (hstep : ∀ n s s', V n s s' → Couples C counted n (step s) (step' s') fun n r r' =>
      V n r.1 r'.1 ∧ r.2 = r'.2) :
    Couples C counted k (loop first step) (loop first' step') V := by
  intro t t' _ x c c' hc hcur hcur'
  clear hcur hcur'
  show Outcome C counted (k + x) V c c' (iterate step first c)
    (iterate step' first' c')
  generalize hn : c.left = bound
  induction bound using Nat.strong_induction_on generalizing k x first first' c c' with
  | _ bound ih =>
  obtain ⟨n, m, y, ⟨hvalue, hflag⟩, hcoupled, hpass, hpaid⟩ :=
    (hstep k first first' hfirst).run hc
  obtain ⟨i, hleft, hleft'⟩ := hpass.left
  rw [iterate, iterate.eq_def step']
  dsimp only
  rw [← hflag]
  by_cases hless : (step first c).2.left < c.left
  · have hless' : (step' first' c').2.left < c'.left := by omega
    rw [decide_eq_true hless, decide_eq_true hless']
    cases hgo : (step first c).1.2 with
    | true => exact (ih _ (by omega) hvalue y _ _ hcoupled rfl).of_passes hpass (by omega)
    | false => exact ⟨n, m, y, hvalue, hcoupled, hpass, hpaid⟩
  · have hless' : ¬ (step' first' c').2.left < c'.left := by omega
    rw [decide_eq_false hless, decide_eq_false hless', Bool.and_false]
    exact ⟨n, m, y, hvalue, hcoupled, hpass, hpaid⟩

end Rules

end Parser

end ScriptLint

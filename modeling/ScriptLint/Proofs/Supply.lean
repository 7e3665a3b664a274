import ScriptLint.Parse.Program
import Mathlib.Data.List.Chain

/-!
# What a parser reads and what it gives

A supply says what is known of the tokens that are read and of the places that may be named.  A
cursor is supplied when its tokens are, and a parser reads from a supply when, from any supplied
cursor, it gives a value with the wanted property, leaves a supplied cursor, and stays within the
line: of the tokens that it passed none is layout.

**Rules.**  `Runs S Q c r` is about one run, from the cursor `c` to the result `r`; what is wanted
of the value may depend on where the run stops.  There is one rule for each step a parser is made
of.  A test of the next token is decided by the cursor, so that the branches of a parser are
followed by splitting on what comes next.

**Results.**
* `Runs.bind`, `runs_loop`: sequences and repetitions of steps.
* `Stretch.trans`: one run after another, between supplied cursors.
* `iterate_ends`: why a repetition ends.
* `Cursor.WithinLine.trans`: what is read in two steps is read in one.
-/

namespace ScriptLint

open List

variable {t : Token} {scope : Scope} {stops : Token.Kind → Bool} {S : Supply}
  {c d e : Cursor} {α : Type}

/-- The cursor stands before a token of its line. -/
abbrev Cursor.AtContent (c : Cursor) : Prop :=
  c.current.kind.isStructural = false

theorem Cursor.AtContent.of_kind {kind : Token.Kind} (h : c.current.kind = kind)
    (hkind : kind.isStructural = false) : c.AtContent :=
  (congrArg _ h).trans hkind

theorem Cursor.AtContent.of_current (h : c.current = t) (hkind : t.kind.isStructural = false) :
    c.AtContent :=
  .of_kind (congrArg _ h) hkind

/-- The kinds to stop at are among others those that end a line. -/
abbrev StopsAtLine (stops : Token.Kind → Bool) : Prop :=
  ∀ kind : Token.Kind, kind.isStructural → stops kind

/-- What is known of the tokens that are read and of the places that may be named. -/
structure Supply where
  /-- A token that may be read. -/
  token : Token → Prop
  /-- Two tokens that may follow each other. -/
  next : Token → Token → Prop
  /-- A place where a span may start. -/
  start : Position → Prop
  /-- A place where a span may stop. -/
  stop : Position → Prop
  /-- A span that may be named. -/
  span : Span → Prop
  span_token : ∀ {t}, token t → span t.span
  start_span : ∀ {s}, span s → start s.start
  stop_span : ∀ {s}, span s → stop s.stop
  stop_start : ∀ {p}, start p → stop p
  span_between : ∀ {p q}, start p → stop q → span (Span.between p q)
  start_stop_token : ∀ {t}, token t → t.kind.isStructural = false → start t.span.stop
  token_endAt : ∀ {p}, start p → token (Token.endAt p)
  /-- The braces in a string hold expressions of the supply. -/
  region : ∀ {t anchor run}, token t → t.kind = .string →
    (anchor, run) ∈ Parser.braceRegions t.span.start t.text.toList →
      start (anchor.advance run) ∧
      (∀ u ∈ tokenizeExpression (String.ofList run) anchor, token u) ∧
      (tokenizeExpression (String.ofList run) anchor).IsChain next

/-- The content of a line can be read again as an expression of the supply. -/
class Supply.Rereads (S : Supply) : Prop where
  argument : ∀ {t ts}, (∀ u ∈ t :: ts, S.token u ∧ u.kind.isStructural = false) →
    (t :: ts).IsChain S.next →
      (∀ u ∈ tokenizeExpression
        (String.ofList (Parser.sourceOf t.span.start.offset (t :: ts))) t.span.start, S.token u) ∧
      (tokenizeExpression
        (String.ofList (Parser.sourceOf t.span.start.offset (t :: ts))) t.span.start).IsChain S.next

namespace Supply

theorem start_token (h : S.token t) : S.start t.span.start :=
  S.start_span (S.span_token h)

theorem span_point {p : Position} (h : S.start p) : S.span (Span.point p) := by
  have hspan := S.span_between h (S.stop_start h)
  simpa [Span.between, Span.point] using hspan

/-- The supply of which nothing is known. -/
def anything : Supply where
  token _ := True
  next _ _ := True
  start _ := True
  stop _ := True
  span _ := True
  span_token _ := trivial
  start_span _ := trivial
  stop_span _ := trivial
  stop_start _ := trivial
  span_between _ _ := trivial
  start_stop_token _ _ := trivial
  token_endAt _ := trivial
  region _ _ _ := ⟨trivial, fun _ _ => trivial, (pairwise_of_forall fun _ _ => trivial).isChain⟩

instance : Rereads anything where
  argument _ _ := ⟨fun _ _ => trivial, (pairwise_of_forall fun _ _ => trivial).isChain⟩

end Supply

namespace Cursor

/-- How far is looked ahead: to the end of the line, or of the input. -/
inductive Scope where
  | line
  | input

/-- The tokens in scope, what stands behind them, and the end of what was read are of the supply. -/
structure SuppliedIn (scope : Scope) (S : Supply) (c : Cursor) : Prop where
  token : ∀ read t after, c.rest = read ++ t :: after →
    (scope = .line → ∀ u ∈ read, u.kind.isStructural = false) → S.token t
  chain : (match scope with
    | .line => c.before Token.Kind.isStructural
    | .input => c.rest).IsChain S.next
  stop : (scope = .line → ∀ t ∈ c.rest, t.kind.isStructural = false) → S.start c.stop
  lastEnd : S.start c.lastEnd

/-- All tokens before the cursor are of the supply. -/
abbrev Supplied (S : Supply) (c : Cursor) : Prop :=
  c.SuppliedIn .input S

/-- The tokens up to the end of the line are of the supply, with the one that ends it. -/
abbrev SuppliedLine (S : Supply) (c : Cursor) : Prop :=
  c.SuppliedIn .line S

/-- The offsets that a cursor knows, from where it stands: the end of what was read, where each
token starts and stops, and the end of the input. -/
def marks (c : Cursor) : List Nat :=
  c.lastEnd.offset ::
    (c.rest.flatMap (fun t => [t.span.start.offset, t.span.stop.offset]) ++ [c.stop.offset])

/-- From the first cursor to the second, only content was read, and faults were reported at spans of
the supply. -/
structure WithinLine (S : Supply) (c d : Cursor) : Prop where
  rest : ∃ read, c.rest = read ++ d.rest ∧ ∀ t ∈ read, t.kind.isStructural = false
  reports : ∃ new, d.diagnostics = new ++ c.diagnostics ∧ ∀ x ∈ new, S.span x.span
  marks : d.marks <:+ c.marks
  stop : d.stop = c.stop

theorem WithinLine.silent
    (hrest : ∃ read, c.rest = read ++ d.rest ∧ ∀ t ∈ read, t.kind.isStructural = false)
    (hnone : d.diagnostics = c.diagnostics) (hmarks : d.marks <:+ c.marks)
    (hstop : d.stop = c.stop) :
    c.WithinLine S d :=
  ⟨hrest, ⟨[], hnone, by simp⟩, hmarks, hstop⟩

theorem WithinLine.refl (c : Cursor) : c.WithinLine S c :=
  .silent ⟨[], rfl, by simp⟩ rfl suffix_rfl rfl

theorem WithinLine.trans (h : c.WithinLine S d) (h' : d.WithinLine S e) : c.WithinLine S e := by
  obtain ⟨⟨read, hrest, hread⟩, ⟨new, hnew, hspans⟩, hmarks, hstop⟩ := h
  obtain ⟨⟨read', hrest', hread'⟩, ⟨new', hnew', hspans'⟩, hmarks', hstop'⟩ := h'
  exact ⟨⟨read ++ read', by rw [hrest, hrest', append_assoc], forall_mem_append.2 ⟨hread, hread'⟩⟩,
    ⟨new' ++ new, by rw [hnew', hnew, append_assoc], forall_mem_append.2 ⟨hspans', hspans⟩⟩,
    hmarks'.trans hmarks,
    hstop'.trans hstop⟩

theorem WithinLine.diagnostics (h : c.WithinLine S d) :
    c.diagnostics.length ≤ d.diagnostics.length := by
  obtain ⟨new, hnew, -⟩ := h.reports
  exact hnew ▸ (suffix_append new _).length_le

theorem WithinLine.left_le (h : c.WithinLine S d) : d.left ≤ c.left := by
  obtain ⟨read, hrest, -⟩ := h.rest
  rw [d.left_eq, c.left_eq, hrest, length_append]
  exact Nat.le_add_left _ _

/-- Reading tokens takes the marks before the end of the last one. -/
theorem suffix_marks {c d : Cursor} {read : List Token} (hrest : c.rest = read ++ d.rest)
    (hstop : d.stop = c.stop)
    (hlast : d.lastEnd = (read.getLast?.map (·.span.stop)).getD c.lastEnd)  :
    d.marks <:+ c.marks := by
  rcases eq_nil_or_concat read with rfl | ⟨init, t, rfl⟩
  · rw [marks, marks, hlast, hrest, hstop]
    exact suffix_rfl
  · refine ⟨c.lastEnd.offset ::
      (init.flatMap (fun t => [t.span.start.offset, t.span.stop.offset]) ++ [t.span.start.offset]),
      ?_⟩
    rw [marks, marks, hlast, hrest, hstop]
    simp

theorem supplied_anything (c : Cursor) : c.SuppliedIn scope .anything :=
  ⟨fun _ _ _ _ _ => trivial, (pairwise_of_forall fun _ _ => trivial).isChain,
    fun _ => trivial, trivial⟩

theorem SuppliedLine.current (h : c.SuppliedLine S) : S.token c.current := by
  unfold Cursor.current
  cases hrest : c.rest with
  | nil => exact S.token_endAt (h.stop (by simp [hrest]))
  | cons t rest => exact h.token [] t rest hrest nofun

theorem Supplied.of_mem (h : c.Supplied S) (ht : t ∈ c.rest) : S.token t := by
  obtain ⟨read, after, hrest⟩ := append_of_mem ht
  exact h.token read t after hrest nofun

theorem Supplied.line (h : c.Supplied S) : c.SuppliedLine S := by
  refine ⟨fun _ t _ hrest _ => h.of_mem (by simp [hrest]), ?_, fun _ => h.stop nofun, h.lastEnd⟩
  have hchain : c.rest.IsChain S.next := h.chain
  rw [← takeWhile_append_dropWhile (p := fun u => !u.kind.isStructural) (l := c.rest)] at hchain
  exact hchain.left_of_append

/-- Behind what is read, the cursor is supplied again. -/
theorem SuppliedIn.behind {d : Cursor} (h : c.SuppliedIn scope S) (read : List Token)
    (hrest : c.rest = read ++ d.rest)
    (hread : scope = .line → ∀ t ∈ read, t.kind.isStructural = false)
    (hstop : d.stop = c.stop) (hlast : S.start d.lastEnd) : d.SuppliedIn scope S := by
  refine ⟨fun more t after hd hcontent => h.token (read ++ more) t after
    (by rw [hrest, hd, append_assoc])
    fun hline => forall_mem_append.2 ⟨hread hline, hcontent hline⟩, ?_, fun hcontent => ?_, hlast⟩
  · have hchain := h.chain
    cases scope with
    | line =>
      rw [before, hrest, takeWhile_append_of_pos fun t ht => by simp [hread rfl t ht]] at hchain
      exact hchain.right_of_append
    | input => exact (hrest ▸ hchain).right_of_append
  · exact hstop ▸ h.stop fun hline => hrest ▸ forall_mem_append.2 ⟨hread hline, hcontent hline⟩

theorem SuppliedIn.report (h : c.SuppliedIn scope S) (fault : Fault) (span : Span) :
    (c.report fault span).SuppliedIn scope S :=
  h.behind [] rfl (fun _ => nofun) rfl h.lastEnd

theorem Supplied.drop (h : c.Supplied S) (n : Nat) : (c.drop n).Supplied S :=
  h.behind (c.rest.take n) (take_append_drop n c.rest).symm nofun rfl h.lastEnd

theorem Supplied.advance (h : c.Supplied S) : c.advance.Supplied S := by
  unfold Cursor.advance
  split
  · exact h.drop 1
  · next hkind =>
    have hstop := S.start_stop_token h.line.current (by simpa using hkind)
    exact { h.drop 1 with lastEnd := hstop }

theorem mem_before (h : t ∈ c.before stops) : t ∈ c.rest ∧ stops t.kind = false := by
  refine ⟨(List.takeWhile_prefix _).subset h, ?_⟩
  simpa using all_eq_true.1 all_takeWhile t h

/-- What is read up to a stopping kind is content, as the structural kinds are among them. -/
theorem isStructural_of_mem_before (hstops : StopsAtLine stops) (h : t ∈ c.before stops) :
    t.kind.isStructural = false := by
  have hkind := (mem_before h).2
  cases hlayout : t.kind.isStructural with
  | false => rfl
  | true =>
    rw [hstops _ hlayout] at hkind
    cases hkind

theorem rest_skipTo (stops : Token.Kind → Bool) (c : Cursor) :
    (c.skipTo stops).rest = c.rest.dropWhile fun t => !stops t.kind := by
  have hsplit : c.rest = c.before stops ++ c.rest.dropWhile fun t => !stops t.kind :=
    takeWhile_append_dropWhile.symm
  calc c.rest.drop (c.before stops).length
      = (c.before stops ++ c.rest.dropWhile fun t => !stops t.kind).drop
          (c.before stops).length := by rw [← hsplit]
    _ = c.rest.dropWhile fun t => !stops t.kind := drop_left

theorem current_skipTo (hend : stops .endOfInput) (c : Cursor) :
    stops (c.skipTo stops).current.kind := by
  unfold Cursor.current
  rw [rest_skipTo]
  cases hrest : c.rest.dropWhile fun t => !stops t.kind with
  | nil => exact hend
  | cons t rest =>
    have hhead := head?_dropWhile_not (fun t : Token => !stops t.kind) c.rest
    rw [hrest] at hhead
    simpa using hhead

theorem rest_eq_before (stops : Token.Kind → Bool) (c : Cursor) :
    c.rest = c.before stops ++ (c.skipTo stops).rest := by
  rw [rest_skipTo]
  exact takeWhile_append_dropWhile.symm

/-- The tokens up to a stopping kind are of the supply. -/
theorem SuppliedLine.token_before (hstops : StopsAtLine stops) (h : c.SuppliedLine S)
    (ht : t ∈ c.before stops) :
    S.token t := by
  obtain ⟨read, more, hsplit⟩ := append_of_mem ht
  refine h.token read t (more ++ (c.skipTo stops).rest) ?_ fun _ u hu => ?_
  · rw [rest_eq_before stops, hsplit, append_assoc, cons_append]
  · exact isStructural_of_mem_before hstops (hsplit ▸ mem_append_left _ hu)

theorem SuppliedLine.skipTo (hstops : StopsAtLine stops) (h : c.SuppliedLine S) :
    (c.skipTo stops).SuppliedLine S := by
  refine h.behind _ (rest_eq_before stops c)
    (fun _ t ht => isStructural_of_mem_before hstops ht) rfl ?_
  show S.start (((c.before stops).getLast?.map (·.span.stop)).getD c.lastEnd)
  cases hlast : (c.before stops).getLast? with
  | none => exact h.lastEnd
  | some t =>
    have hread := mem_of_getLast? hlast
    exact S.start_stop_token (h.token_before hstops hread) (isStructural_of_mem_before hstops hread)

theorem rest_advance (c : Cursor) : c.advance.rest = c.rest.drop 1 := by
  unfold Cursor.advance
  split <;> rfl

theorem diagnostics_advance (c : Cursor) : c.advance.diagnostics = c.diagnostics := by
  unfold Cursor.advance
  split <;> rfl

theorem operations_advance (c : Cursor) : c.advance.operations = c.operations := by
  unfold Cursor.advance
  split <;> rfl

theorem rest_eq_cons_of_ne (h : c.current.kind ≠ .endOfInput) :
    c.rest = c.current :: c.advance.rest := by
  rw [rest_advance]
  revert h
  unfold Cursor.current
  cases c.rest with
  | nil =>
    intro h
    exact absurd rfl h
  | cons t rest =>
    intro _
    rfl

theorem current_ne_endOfInput (h : c.AtContent) : c.current.kind ≠ .endOfInput := by
  intro hkind
  rw [AtContent, hkind] at h
  cases h

theorem rest_eq_cons (h : c.AtContent) : c.rest = c.current :: c.advance.rest :=
  rest_eq_cons_of_ne (current_ne_endOfInput h)

theorem advance_of_structural (h : c.current.kind.isStructural) : c.advance = c.drop 1 := by
  rw [advance, if_pos h]

theorem left_advance_lt_of_ne (h : c.current.kind ≠ .endOfInput) : c.advance.left < c.left := by
  rw [c.advance.left_eq, c.left_eq, rest_eq_cons_of_ne h]
  exact Nat.lt_succ_self _

theorem left_advance_lt (h : c.AtContent) : c.advance.left < c.left :=
  left_advance_lt_of_ne (current_ne_endOfInput h)

theorem SuppliedLine.advance (h : c.SuppliedLine S) (hkind : c.AtContent) :
    c.advance.SuppliedLine S := by
  refine h.behind [c.current] (rest_eq_cons hkind) (fun _ => by simpa using hkind) ?_ ?_ <;>
    rw [Cursor.advance, if_neg (by simp [hkind])]
  · rfl
  · exact S.start_stop_token h.current hkind

theorem withinLine_advance (h : c.AtContent) : c.WithinLine S c.advance := by
  have hread : c.rest = [c.current] ++ c.advance.rest := rest_eq_cons h
  refine .silent ⟨[c.current], hread, by simpa using h⟩ (diagnostics_advance c)
    (suffix_marks hread ?_ ?_) ?_ <;>
    rw [advance, if_neg (by simp [h])] <;> rfl

theorem withinLine_report (fault : Fault) {span : Span} (h : S.span span) :
    c.WithinLine S (c.report fault span) :=
  ⟨⟨[], rfl, by simp⟩, ⟨[_], rfl, by simpa using h⟩, suffix_rfl, rfl⟩

theorem withinLine_skipTo (hstops : StopsAtLine stops) :
    c.WithinLine S (c.skipTo stops) := by
  have hrest := rest_eq_before stops c
  exact .silent ⟨_, hrest, fun t ht => isStructural_of_mem_before hstops ht⟩ rfl
    (suffix_marks hrest rfl rfl) rfl

theorem SuppliedLine.operations (h : c.SuppliedLine S) (n : Nat) :
    Cursor.SuppliedLine S { c with operations := n } :=
  h.behind [] rfl (fun _ => nofun) rfl h.lastEnd

theorem withinLine_operations (n : Nat) : c.WithinLine S { c with operations := n } :=
  .silent ⟨[], rfl, by simp⟩ rfl suffix_rfl rfl

theorem supplied_start {ts : List Token} {stop : Position} (htokens : ∀ t ∈ ts, S.token t)
    (hchain : ts.IsChain S.next) (hstop : S.start stop) : (Cursor.start ts stop).Supplied S := by
  refine ⟨fun read t after hrest _ => htokens t ?_, hchain, fun _ => hstop, ?_⟩
  · have hts : ts = read ++ t :: after := hrest
    simp [hts]
  cases ts with
  | nil => exact hstop
  | cons t ts => exact S.start_token (htokens t mem_cons_self)

end Cursor

namespace Parser

theorem run_bind {α β : Type} (p : Parser α) (f : α → Parser β) (c : Cursor) :
    (p >>= f) c = f (p c).1 (p c).2 := rfl

section Items

variable (inner : Option (Parser Expression))

/-- One more item between commas, and whether another follows. -/
def itemStep (item : Parser α) (close : String) (items : List α) : Parser (List α × Bool) := do
  if ← atMark close then
    let _ ← next
    return (items, false)
  else if ← atBoundary then
    reportHere (.missingMark close)
    return (items, false)
  else
    let a ← item
    if ← atMark "," then
      let _ ← next
      return (items ++ [a], true)
    else if ← atMark close then
      let _ ← next
      return (items ++ [a], false)
    else
      reportHere (.missingCommaOrMark close)
      return (items ++ [a], false)

/-- A property of an object. -/
def propertyItem : Parser Property := do
  let t ← peek
  let key ← nested inner
  let value ← propertyValue inner
  return .mk key value (← spanFrom t.span.start)

theorem propertyStep_eq : propertyStep inner = itemStep (propertyItem inner) "\x7d" := rfl

end Items

/-- What a parser gave from a cursor: a value with the property, and a supplied cursor further on
in the line. -/
structure Reached {α : Type} (S : Supply) (c : Cursor) (Q : α → Prop) (r : α × Cursor) :
    Prop where
  value : Q r.1
  supplied : r.2.SuppliedLine S
  line : c.WithinLine S r.2

theorem Reached.keeps {α : Type} {S : Supply} {c : Cursor} {Q : α → Prop}
    {r : α × Cursor} (h : Reached S c Q r) (hc : c.Supplied S) : r.2.Supplied S := by
  obtain ⟨read, hrest, -⟩ := h.line.rest
  exact hc.behind read hrest nofun h.line.stop h.supplied.lastEnd

/-- A run from a supplied cursor stays within the line, and its value has the property at the cursor
where it ends. -/
def Runs {α : Type} (S : Supply) (Q : Cursor → α → Prop) (c : Cursor) (r : α × Cursor) : Prop :=
  c.SuppliedLine S → Reached S c (Q r.2) r

/-- From any supplied cursor, the parser stays within the line and gives a value with the
property. -/
def Reads {α : Type} (S : Supply) (p : Parser α) (Q : α → Prop) : Prop :=
  ∀ c, Runs S (fun _ => Q) c (p c)

/-- Both cursors are supplied, and the second is further on in the line. -/
structure Stretch (S : Supply) (c d : Cursor) : Prop where
  source : c.SuppliedLine S
  supplied : d.SuppliedLine S
  line : c.WithinLine S d

namespace Stretch

theorem refl (h : c.SuppliedLine S) : Stretch S c c :=
  ⟨h, h, .refl c⟩

theorem trans (h : Stretch S c d) (h' : Stretch S d e) : Stretch S c e :=
  ⟨h.source, h'.supplied, h.line.trans h'.line⟩

theorem advance (h : c.SuppliedLine S) (hkind : c.AtContent) : Stretch S c c.advance :=
  ⟨h, h.advance hkind, Cursor.withinLine_advance hkind⟩

theorem report (h : c.SuppliedLine S) (fault : Fault) {span : Span} (hspan : S.span span) :
    Stretch S c (c.report fault span) :=
  ⟨h, h.report fault span, Cursor.withinLine_report fault hspan⟩

theorem skipTo (h : c.SuppliedLine S) (hstops : StopsAtLine stops) : Stretch S c (c.skipTo stops) :=
  ⟨h, h.skipTo hstops, Cursor.withinLine_skipTo hstops⟩

theorem operations (h : c.SuppliedLine S) (n : Nat) : Stretch S c { c with operations := n } :=
  ⟨h, h.operations n, Cursor.withinLine_operations n⟩

/-- What is read between the cursors may be named. -/
theorem span (h : Stretch S c d) : S.span (Span.between c.current.span.start d.lastEnd) :=
  S.span_between (S.start_token h.source.current) (S.stop_start h.supplied.lastEnd)

end Stretch

section Rules

variable {β σ : Type} {Q : Cursor → β → Prop} {f : α → Parser β} {r : β × Cursor}

theorem Runs.intro (h : c.SuppliedLine S → Runs S Q c r) : Runs S Q c r :=
  fun hc => h hc hc

/-- A run may begin with a step to another cursor. -/
theorem Runs.step (hstep : c.SuppliedLine S → Stretch S c d) (h : Stretch S c d → Runs S Q d r) :
    Runs S Q c r := by
  intro hc
  obtain ⟨hvalue, hsupplied, hline⟩ := h (hstep hc) (hstep hc).supplied
  exact ⟨hvalue, hsupplied, (hstep hc).line.trans hline⟩

theorem Runs.mono {Q' : Cursor → β → Prop} (h : Runs S Q c r)
    (hQ : Stretch S c r.2 → Q r.2 r.1 → Q' r.2 r.1) :
    Runs S Q' c r := by
  intro hc
  obtain ⟨hvalue, hsupplied, hline⟩ := h hc
  exact ⟨hQ ⟨hc, hsupplied, hline⟩ hvalue, hsupplied, hline⟩

theorem Runs.pure {b : β} (h : Q c b) : Runs S Q c ((Pure.pure b : Parser β) c) :=
  fun hc => ⟨h, hc, .refl c⟩

/-- One parser after another: the second begins where the first has led to. -/
theorem Runs.bind {p : Parser α} {R : Cursor → α → Prop} (hp : Runs S R c (p c))
    (hf : ∀ a d, Stretch S c d → R d a → Runs S Q d (f a d)) : Runs S Q c ((p >>= f) c) := by
  intro hc
  obtain ⟨hvalue, hsupplied, hline⟩ := hp hc
  exact Runs.step (fun _ => ⟨hc, hsupplied, hline⟩) (fun hlead => hf _ _ hlead hvalue) hc

/-- A test reads nothing. -/
theorem Runs.test {p : Parser α} {a : α} (hp : p c = (a, c)) (h : Runs S Q c (f a c)) :
    Runs S Q c ((p >>= f) c) := by
  rw [run_bind, hp]
  exact h

/-- A token of content may be read. -/
theorem Runs.next {f : Token → Parser β} (hkind : c.AtContent)
    (h : Stretch S c c.advance → Runs S Q c.advance (f c.current c.advance)) :
    Runs S Q c ((Parser.next >>= f) c) :=
  .step (fun hc => .advance hc hkind) h

variable {f : Unit → Parser β}

theorem Runs.report {fault : Fault} {span : Span} (hspan : S.span span)
    (h : Stretch S c (c.report fault span) →
      Runs S Q (c.report fault span) (f () (c.report fault span))) :
    Runs S Q c ((Parser.report fault span >>= f) c) :=
  .step (fun hc => .report hc fault hspan) h

theorem Runs.reportHere {fault : Fault} (h : Stretch S c (c.report fault c.current.span) →
      Runs S Q (c.report fault c.current.span) (f () (c.report fault c.current.span))) :
    Runs S Q c ((Parser.reportHere fault >>= f) c) :=
  .step (fun hc => .report hc fault (S.span_token hc.current)) h

theorem Runs.skipTo (hstops : StopsAtLine stops)
    (h : Stretch S c (c.skipTo stops) → Runs S Q (c.skipTo stops) (f () (c.skipTo stops))) :
    Runs S Q c ((Parser.skipTo stops >>= f) c) :=
  .step (fun hc => .skipTo hc hstops) h

theorem Runs.resetOperations
    (h : Stretch S c { c with operations := 0 } →
      Runs S Q { c with operations := 0 } (f () { c with operations := 0 })) :
    Runs S Q c ((Parser.resetOperations >>= f) c) :=
  .step (fun hc => .operations hc 0) h

/-- The tokens up to the end of the line are content of the supply, in its order. -/
theorem takeLine_supplied (hc : c.SuppliedLine S) :
    (∀ u ∈ c.before Token.Kind.isStructural, S.token u ∧ u.kind.isStructural = false) ∧
      (c.before Token.Kind.isStructural).IsChain S.next := by
  exact ⟨fun u hu => ⟨hc.token_before (fun _ h => h) hu, (Cursor.mem_before hu).2⟩, hc.chain⟩

theorem isBoundary_of_isStructural {kind : Token.Kind} (h : kind.isStructural) :
    kind.isBoundary := by
  revert h
  cases kind <;> decide

/-- A repetition keeps what each of its steps keeps. -/
theorem runs_loop {step : σ → Parser (σ × Bool)} {I : Cursor → σ → Prop}
    {first : σ} (hfirst : I c first)
    (hstep : ∀ s d, Stretch S c d → I d s → Runs S (fun g r => I g r.1) d (step s d)) :
    Runs S I c (Parser.loop first step c) := by
  have hiterate : ∀ s d, Stretch S c d → I d s → Runs S I d (Parser.iterate step s d) := by
    intro s d
    fun_induction Parser.iterate step s d with
    | case1 s d result hgo ih =>
      intro hlead hs hd
      obtain ⟨hvalue, hsupplied, hline⟩ := hstep s d hlead hs hd
      exact Runs.step (fun _ => ⟨hd, hsupplied, hline⟩) (fun h => ih (hlead.trans h) hvalue) hd
    | case2 s d result hstop =>
      intro hlead hs hd
      obtain ⟨hvalue, hsupplied, hline⟩ := hstep s d hlead hs hd
      exact ⟨hvalue, hsupplied, hline⟩
  exact fun hc => hiterate first c (.refl hc) hfirst hc

/-- The step reads a token whenever it goes on. -/
def Proceeds (step : σ → Parser (σ × Bool)) : Prop :=
  ∀ s c, (step s c).1.2 = true → (step s c).2.left < c.left

/-- A repetition whose steps read on whenever they say so ends with a step that does not. -/
theorem iterate_ends {step : σ → Parser (σ × Bool)} {I E : σ → Cursor → Prop}
    (hproceeds : Proceeds step)
    (hgo : ∀ s c, I s c → (step s c).1.2 = true → I (step s c).1.1 (step s c).2)
    (hstop : ∀ s c, I s c → (step s c).1.2 = false → E (step s c).1.1 (step s c).2)
    {s : σ} {c : Cursor} (hfirst : I s c) :
    E (Parser.iterate step s c).1 (Parser.iterate step s c).2 := by
  fun_induction Parser.iterate step s c with
  | case1 s c result hcond ih =>
    have hvalue : (step s c).1.2 = true := (Bool.and_eq_true_iff.1 hcond).1
    exact ih (hgo s c hfirst hvalue)
  | case2 s c result hcond =>
    refine hstop s c hfirst ?_
    cases hvalue : (step s c).1.2 with
    | false => rfl
    | true =>
      refine absurd ?_ hcond
      have hleft := hproceeds s c hvalue
      simpa [result, hvalue] using hleft

end Rules

end Parser

end ScriptLint

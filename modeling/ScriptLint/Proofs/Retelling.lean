import ScriptLint.Proofs.LineCoupling
import ScriptLint.Proofs.LineCuts
import ScriptLint.Proofs.Reshaping

/-!
# A source told again

Two sources tell the same: the tokens of the one correspond to those of the other, in kind and in
order, and what the parsers make of them is the same up to a reshape on either side.  A retelling
says which tokens, texts and places correspond, and gives the two reshapes.

**Accounts.**  A token may be told in another word.  Then it has a load, and what is read from it
must carry the load on, in an identifier; where no identifier carries it, nothing is promised of the
trees.  `Weighs` says both: the identifiers among some nodes carry at most so much, and if they
carry all of it, the trees are the same.

**Results.**
* `Retelling.coupling`, `Retelling.couples_expression`: a retelling is a coupling of lines.
* `Retelling.readArgument_told`: arguments that are read from their text.
-/

namespace ScriptLint

open List Text

open Piece

/-- The kinds of token that hold words of the source. -/
def Token.Kind.isWordy : Token.Kind → Bool
  | .identifier | .string | .invalid | .comment | .text => true
  | _ => false

/-- Spans on the same line end on the same line. -/
theorem Span.line_stop_between {p p' q q' : Position} (hline : p.line = q.line)
    (hp : p'.line = p.line) (hq : q'.line = q.line) :
    (Span.between p' q').stop.line = (Span.between p q).stop.line := by
  unfold Span.between
  split <;> split <;> simp only [Span.point] <;> omega

/-- What corresponds in a source and in its retelling. -/
structure Retelling where
  /-- What is forgotten of the first tree. -/
  before : Reshape
  /-- What is forgotten of the second tree. -/
  after : Reshape
  /-- Two places correspond. -/
  near : Position → Position → Prop
  /-- Two tokens of content correspond. -/
  token : Token → Token → Prop
  /-- How much of the first token is told in another word. -/
  load : Token → Nat
  /-- Two texts correspond, each at its place on a line. -/
  told : Position → List Char → Position → List Char → Prop
  /-- How much of the first text is told in another word. -/
  textLoad : Position → List Char → Nat
  /-- What an identifier of the first tree carries. -/
  heft : Span → String → Nat
  near_stop : ∀ {p p' q q'}, p.line = q.line → near p p' → near q q' →
    near (Span.between p q).stop (Span.between p' q').stop
  span_eq : ∀ {s s' : Span}, near s.start s'.start → near s.stop s'.stop →
    before.span s = after.span s'
  between_eq : ∀ {p p' q q'}, near p p' → near q q' →
    before.span (Span.between p q) = after.span (Span.between p' q')
  kind : ∀ {t t'}, token t t' → t'.kind = t.kind
  near_start : ∀ {t t'}, token t t' → near t.span.start t'.span.start
  near_end : ∀ {t t'}, token t t' → near t.span.stop t'.span.stop
  same : ∀ {t t'}, token t t' → load t = 0 → t'.text = t.text
  fixed : ∀ {t t'}, token t t' → t.kind.isWordy = false → t'.text = t.text
  identifier : ∀ {t t'}, token t t' → t.kind = .identifier →
    heft t.span t.text ≤ 2 * load t ∧ (2 * load t ≤ heft t.span t.text →
      before.identifier t.span t.text = after.identifier t'.span t'.text)
  string : ∀ {t t'}, token t t' → t.kind = .string →
    before.raw t.span t.text = after.raw t'.span t'.text ∧
    before.value t.span (Parser.stringValue t.text) =
      after.value t'.span (Parser.stringValue t'.text)
  regions : ∀ {t t'}, token t t' → t.kind = .string →
    Forall₂ (fun r r' => told r.1 r.2 r'.1 r'.2)
      (Parser.braceRegions t.span.start t.text.toList)
      (Parser.braceRegions t'.span.start t'.text.toList) ∧
    ((Parser.braceRegions t.span.start t.text.toList).map fun r => textLoad r.1 r.2).sum ≤ load t
  told_inline : ∀ {p u p' u'}, told p u p' u' →
    OneLine u ∧ OneLine u'
  told_blank : ∀ {p u p' u'}, told p u p' u' → allBlank u' = allBlank u
  told_stop : ∀ {p u p' u'}, told p u p' u' → near (p.advance u) (p'.advance u')
  told_tokens : ∀ {p u p' u'}, told p u p' u' →
    Forall₂ token (place p (ofExpression true u)) (place p' (ofExpression true u')) ∧
    ((place p (ofExpression true u)).map load).sum ≤ textLoad p u
  told_filled : ∀ {p u p' u'}, told p u p' u' →
    told p (filledText u) p' (filledText u') ∧ textLoad p (filledText u) ≤ textLoad p u

namespace Retelling

variable (T : Retelling)

/-- What a node carries: only identifiers carry something. -/
def nodeHeft : Node → Nat
  | .expression (.identifier name span) => T.heft span name
  | _ => 0

/-- What nodes carry together. -/
def hefts (nodes : List Node) : Nat :=
  (nodes.map T.nodeHeft).sum

/-- The nodes carry at most so much, and if they carry all of it, the statement holds. -/
structure Weighs (n : Nat) (nodes : List Node) (holds : Prop) : Prop where
  bound : T.hefts nodes ≤ n
  full : n ≤ T.hefts nodes → holds

/-- Two spans on a line correspond. -/
structure Spans (line : Nat) (s s' : Span) : Prop where
  start : T.near s.start s'.start
  stop : T.near s.stop s'.stop
  line_start : s.start.line = line
  line_stop : s.stop.line = line

/-- Two expressions on a line correspond. -/
structure Expressions (line n : Nat) (e e' : Expression) : Prop where
  weighs : T.Weighs n e.nodes (e.reshape T.before = e'.reshape T.after)
  span : T.Spans line e.span e'.span

/-- Two properties on a line correspond. -/
def Properties (n : Nat) (p p' : Property) : Prop :=
  T.Weighs n p.nodes (p.reshape T.before = p'.reshape T.after)

/-- Two faults correspond: they are the same, or name two keywords that correspond. -/
def Faults (f f' : Fault) : Prop :=
  f' = f ∨ ∃ k k', f = .missingColon k ∧ f' = .missingColon k' ∧
    T.before.keyword k = T.after.keyword k'

/-- Two diagnostics correspond: they are on the same line, and the same if nothing of them is told
in another word. -/
structure Diagnostics (n : Nat) (d d' : Diagnostic) : Prop where
  start : T.near d.span.start d'.span.start
  full : n = 0 → T.Faults d.fault d'.fault ∧ T.before.span d.span = T.after.span d'.span

variable {T}

/-- Faults that correspond are the same, where the names of keywords are. -/
theorem Faults.eq {f f' : Fault} (h : T.Faults f f')
    (hkeyword : ∀ {k k'}, T.before.keyword k = T.after.keyword k' → k' = k) : f' = f := by
  rcases h with hsame | ⟨k, k', rfl, rfl, hk⟩
  · exact hsame
  · rw [hkeyword hk]

section Weighing

variable {m n : Nat} {node : Node} {nodes xs ys : List Node} {P Q : Prop}

theorem hefts_append (xs ys : List Node) : T.hefts (xs ++ ys) = T.hefts xs + T.hefts ys := by
  rw [hefts, map_append, sum_append]
  rfl

theorem hefts_cons (node : Node) (nodes : List Node) :
    T.hefts (node :: nodes) = T.nodeHeft node + T.hefts nodes := by
  rfl

theorem Weighs.nil (h : P) : T.Weighs 0 [] P :=
  ⟨Nat.le_refl 0, fun _ => h⟩

theorem Weighs.imp (h : T.Weighs n nodes P) (hpq : P → Q) : T.Weighs n nodes Q :=
  ⟨h.bound, fun hfull => hpq (h.full hfull)⟩

theorem Weighs.mono (h : T.Weighs m nodes P) (hle : m ≤ n) : T.Weighs n nodes P :=
  ⟨Nat.le_trans h.bound hle, fun hfull => h.full (Nat.le_trans hle hfull)⟩

theorem Weighs.append (hx : T.Weighs m xs P) (hy : T.Weighs n ys Q) :
    T.Weighs (m + n) (xs ++ ys) (P ∧ Q) := by
  have hbound := hx.bound
  have hbound' := hy.bound
  refine ⟨by rw [hefts_append]; omega, fun hfull => ?_⟩
  rw [hefts_append] at hfull
  exact ⟨hx.full (by omega), hy.full (by omega)⟩

/-- A node that carries nothing may be left out. -/
theorem weighs_cons (hnode : T.nodeHeft node = 0) :
    T.Weighs n (node :: nodes) P ↔ T.Weighs n nodes P := by
  have hsame : T.hefts (node :: nodes) = T.hefts nodes := by
    rw [hefts_cons, hnode, Nat.zero_add]
  constructor
  · exact fun h => ⟨by rw [← hsame]; exact h.bound, by rw [← hsame]; exact h.full⟩
  · exact fun h => ⟨by rw [hsame]; exact h.bound, by rw [hsame]; exact h.full⟩

theorem Weighs.cons (h : T.Weighs n nodes P) (hnode : T.nodeHeft node = 0) :
    T.Weighs n (node :: nodes) P :=
  (weighs_cons hnode).2 h

theorem Weighs.of_cons (h : T.Weighs n (node :: nodes) P) (hnode : T.nodeHeft node = 0) :
    T.Weighs n nodes P :=
  (weighs_cons hnode).1 h

/-- Nodes cannot carry more than all of it. -/
theorem Weighs.more (h : T.Weighs n nodes P) (m : Nat) : T.Weighs (n + m) nodes (P ∧ m = 0) := by
  have hbound := h.bound
  exact ⟨by omega, fun hfull => ⟨h.full (by omega), by omega⟩⟩

variable {line : Nat}

theorem weighs_nodesOfList {es es' : List Expression} (h : Tally (T.Expressions line) n es es') :
    T.Weighs n (Expression.nodesOfList es)
      (Expression.reshapeList T.before es = Expression.reshapeList T.after es') := by
  induction h with
  | nil => exact .nil rfl
  | cons head _ ih =>
    refine (head.weighs.append ih).imp ?_
    rintro ⟨hfirst, hrest⟩
    rw [Expression.reshapeList, Expression.reshapeList, hfirst, hrest]

theorem weighs_properties {ps ps' : List Property} (h : Tally T.Properties n ps ps') :
    T.Weighs n (Property.nodesOfList ps)
      (Property.reshapeList T.before ps = Property.reshapeList T.after ps') := by
  induction h with
  | nil => exact .nil rfl
  | cons head _ ih =>
    refine (head.append ih).imp ?_
    rintro ⟨hfirst, hrest⟩
    rw [Property.reshapeList, Property.reshapeList, hfirst, hrest]

end Weighing

section Places

variable {line : Nat} {s s' : Span} {p p' q q' : Position}

theorem Spans.span_eq (h : T.Spans line s s') : T.before.span s = T.after.span s' :=
  T.span_eq h.start h.stop

theorem Spans.between (hp : T.near p p' ∧ p.line = line) (hq : T.near q q' ∧ q.line = line) :
    T.Spans line (Span.between p q) (Span.between p' q') := by
  refine ⟨by simpa using hp.1, T.near_stop (hp.2.trans hq.2.symm) hp.1 hq.1,
    by simpa using hp.2, ?_⟩
  unfold Span.between
  split
  · exact hp.2
  · exact hq.2

end Places

/-- A retelling is a coupling of the lines with a number. -/
def coupling (T : Retelling) (line : Nat) : Coupling where
  token t t' := t'.kind = t.kind ∧ T.Spans line t.span t'.span ∧
    (t.kind.isStructural = false → T.token t t')
  weight t := if t.kind.isStructural then 2 else 2 * T.load t
  charge t := if t.kind.isStructural then 1 else T.load t
  place p p' := T.near p p' ∧ p.line = line
  span := T.Spans line
  expression := T.Expressions line
  property := T.Properties
  diagnostic := T.Diagnostics
  charge_le t := by split <;> omega
  kind h := h.1
  same := by
    rintro t t' ⟨-, -, htoken⟩ hcharge
    cases hkind : t.kind.isStructural with
    | true =>
        rw [if_pos hkind] at hcharge
        cases hcharge
    | false =>
        rw [if_neg (by simp [hkind])] at hcharge
        exact T.same (htoken hkind) hcharge
  text := by
    rintro t t' ⟨-, -, htoken⟩ hkind
    simp only [mem_cons, not_mem_nil, or_false] at hkind
    refine T.fixed (htoken ?_) ?_
    · rcases hkind with h | h | h | h <;> rw [h] <;> rfl
    · rcases hkind with h | h | h | h <;> rw [h] <;> rfl
  span_token h := h.2.1
  start_span h := ⟨h.start, h.line_start⟩
  stop_span h := ⟨h.stop, h.line_stop⟩
  span_between := .between
  plain _ hs := ⟨hs.start, fun _ => ⟨.inl rfl, hs.span_eq⟩⟩
  naming := by
    rintro fault t t' hfault ⟨hkind, hspan, htoken⟩
    refine ⟨hspan.start, fun hcharge => ⟨.inl ?_, hspan.span_eq⟩⟩
    cases hstructural : t.kind.isStructural with
    | true =>
        rw [if_pos hstructural] at hcharge
        cases hcharge
    | false =>
        rw [if_neg (by simp [hstructural])] at hcharge
        have htext := T.same (htoken hstructural) hcharge
        simp only [Fault.naming, mem_cons, not_mem_nil, or_false] at hfault
        rcases hfault with rfl | rfl | rfl <;> simp only [hkind, htext]
  span_expression h := h.span
  null := by
    intro s s' hs
    refine ⟨.cons (.nil ?_) rfl, hs⟩
    simp only [Expression.null, Expression.reshape, Expression.reshapeList, LiteralValue.reshape,
      LiteralValue.reshapeRaw, hs.span_eq]
  identifier := by
    rintro t t' ⟨-, hspan, htoken⟩ hkind
    obtain ⟨hbound, hsame⟩ := T.identifier (htoken (by rw [hkind]; rfl)) hkind
    have hweight : (if t.kind.isStructural then 2 else 2 * T.load t) = 2 * T.load t :=
      if_neg (by rw [hkind]; exact Bool.false_ne_true)
    have hheft : T.hefts [.expression (.identifier t.text t.span)] = T.heft t.span t.text := by
      rw [hefts_cons]
      rfl
    rw [hweight]
    refine ⟨⟨by rw [Expression.nodes, hheft]; exact hbound, fun hfull => ?_⟩, hspan⟩
    rw [Expression.nodes, hheft] at hfull
    rw [Expression.reshape, Expression.reshape, hsame hfull, hspan.span_eq]
  number := by
    rintro t t' ⟨-, hspan, htoken⟩ hkind
    have htext := T.fixed (htoken (by rw [hkind]; rfl)) (by rw [hkind]; rfl)
    refine ⟨Weighs.mono (.cons (.nil ?_) rfl) (Nat.zero_le _), hspan⟩
    rw [htext, Expression.reshape, Expression.reshape, hspan.span_eq]
    unfold Parser.numberValue
    split <;> rfl
  string := by
    rintro t t' n es es' ⟨-, hspan, htoken⟩ hkind hn hes
    obtain ⟨hraw, hvalue⟩ := T.string (htoken (by rw [hkind]; rfl)) hkind
    refine ⟨Weighs.cons (((weighs_nodesOfList hes).mono hn).imp fun hlist => ?_) rfl, hspan⟩
    simp only [Expression.reshape, LiteralValue.reshape, LiteralValue.reshapeRaw,
      hraw, hvalue, hlist, hspan.span_eq]
  join := by
    intro m n e e' f f' op he hf
    have hspan : T.Spans line (Span.between e.span.start f.span.stop)
        (Span.between e'.span.start f'.span.stop) :=
      .between ⟨he.span.start, he.span.line_start⟩ ⟨hf.span.stop, hf.span.line_stop⟩
    refine ⟨Weighs.cons ((he.weighs.append hf.weighs).imp ?_) rfl, hspan⟩
    rintro ⟨hleft, hright⟩
    simp only [Expression.join, Span.through, Expression.reshape, hleft, hright, hspan.span_eq]
  unary := by
    intro n e e' p p' op hp he
    have hspan : T.Spans line (Span.between p e.span.stop) (Span.between p' e'.span.stop) :=
      .between hp ⟨he.span.stop, he.span.line_stop⟩
    refine ⟨Weighs.cons (he.weighs.imp fun hsame => ?_) rfl, hspan⟩
    simp only [Parser.applyPrefix, Expression.reshape, hsame, hspan.span_eq]
  member := by
    rintro n e e' t t' namespaced he ⟨-, ht, htoken⟩ hkind
    have hspan : T.Spans line (Span.between e.span.start t.span.stop)
        (Span.between e'.span.start t'.span.stop) :=
      .between ⟨he.span.start, he.span.line_start⟩ ⟨ht.stop, ht.line_stop⟩
    refine ⟨Weighs.cons ((he.weighs.more _).imp ?_) rfl, hspan⟩
    rintro ⟨hsame, hweight⟩
    rw [if_neg (by rw [hkind]; exact Bool.false_ne_true)] at hweight
    have hload : T.load t = 0 := (Nat.mul_eq_zero.1 hweight).resolve_left (Nat.succ_ne_zero 1)
    have htext := T.same (htoken (by rw [hkind]; rfl)) hload
    simp only [Expression.reshape, hsame, htext, ht.span_eq, hspan.span_eq]
  call := by
    intro m n e e' es es' s s' he hes hs _
    refine ⟨Weighs.cons ((he.weighs.append (weighs_nodesOfList hes)).imp ?_) rfl, hs⟩
    rintro ⟨hsame, hlist⟩
    simp only [Expression.reshape, hsame, hlist, hs.span_eq]
  index := by
    intro m n e e' f f' s s' he hf hs _
    refine ⟨Weighs.cons ((he.weighs.append hf.weighs).imp ?_) rfl, hs⟩
    rintro ⟨hobject, hindex⟩
    simp only [Expression.reshape, hobject, hindex, hs.span_eq]
  array := by
    intro n es es' s s' hes hs
    refine ⟨Weighs.cons ((weighs_nodesOfList hes).imp fun hlist => ?_) rfl, hs⟩
    simp only [Expression.reshape, hlist, hs.span_eq]
  object := by
    intro n ps ps' s s' hps hs
    refine ⟨Weighs.cons ((weighs_properties hps).imp fun hlist => ?_) rfl, hs⟩
    simp only [Expression.reshape, hlist, hs.span_eq]
  pair := by
    intro m n e e' f f' s s' he hf hs
    refine Weighs.cons ((he.weighs.append hf.weighs).imp ?_) rfl
    rintro ⟨hkey, hvalue⟩
    simp only [Property.reshape, hkey, hvalue, hs.span_eq]

open ScriptLint.Parser

section Texts

variable {line : Nat} {p p' : Position} {u u' : List Char}

/-- Tokens that correspond stand ahead, up to what ends the line. -/
theorem ahead_tokens {stop stop' : Position} {ts ts' us us' : List Token}
    (hts : Forall₂ T.token ts ts') (hcontent : ∀ t ∈ ts, t.kind.isStructural = false)
    (hline : ∀ t ∈ ts, t.span.start.line = line ∧ t.span.stop.line = line)
    (hkind : (us.headD (Token.endAt stop)).kind.isStructural)
    (hend : (T.coupling line).token (us.headD (Token.endAt stop)) (us'.headD (Token.endAt stop'))) :
    (T.coupling line).Ahead stop stop' (2 * (ts.map T.load).sum) (ts ++ us) (ts' ++ us') := by
  induction hts with
  | nil => exact .ends hkind hend
  | @cons t t' ts ts' ht _ ih =>
    obtain ⟨hfirst, hrest⟩ := forall_mem_cons.1 hcontent
    obtain ⟨hplace, hplaces⟩ := forall_mem_cons.1 hline
    have hweight : (T.coupling line).weight t = 2 * T.load t := if_neg (by simp [hfirst])
    have hahead := Coupling.Ahead.cons (C := T.coupling line) hfirst
      ⟨T.kind ht, ⟨T.near_start ht, T.near_end ht, hplace.1, hplace.2⟩, fun _ => ht⟩
      (ih hrest hplaces)
    rw [hweight, ← Nat.mul_add] at hahead
    exact hahead

/-- Texts that correspond are cut into tokens that correspond. -/
theorem ahead_told (h : T.told p u p' u') :
    ∃ n, n ≤ 2 * T.textLoad p u ∧ (T.coupling p.line).Ahead (p.advance u) (p'.advance u') n
      (tokenizeExpression (String.ofList u) p) (tokenizeExpression (String.ofList u') p') := by
  obtain ⟨hinline, hinline'⟩ := T.told_inline h
  obtain ⟨htokens, hload⟩ := T.told_tokens h
  have hstop := T.told_stop h
  refine ⟨_, Nat.mul_le_mul_left 2 hload, ?_⟩
  rw [tokenizeExpression_of_inline hinline, tokenizeExpression_of_inline hinline']
  have hahead : (T.coupling p.line).Ahead (p.advance u) (p'.advance u') _
      (place p (ofExpression true u) ++ []) (place p' (ofExpression true u') ++ []) :=
    ahead_tokens htokens ?_ ?_ rfl ⟨rfl, ⟨hstop, hstop, rfl, rfl⟩, nofun⟩
  · rwa [append_nil, append_nil] at hahead
  · intro t ht
    exact isStructural_of_mem_place (fun _ => isInline_of_mem_ofExpression) ht
  · intro t ht
    obtain ⟨xs, ys, -, hspan⟩ :=
      isCut_of_mem_place (fun _ => isInline_of_mem_ofExpression) ht
    rw [hspan]
    exact ⟨rfl, rfl⟩

/-- What stands between braces is read to expressions that correspond, or to none on both sides. -/
theorem regionExpression?_told {parser : Parser Expression}
    (hparser : Couples (T.coupling line) true 0 parser parser (T.coupling line).expression)
    (h : T.told p u p' u') (hline : p.line = line) :
    (regionExpression? parser (p, u) = none ∧ regionExpression? parser (p', u') = none) ∨
    ∃ e e' n, regionExpression? parser (p, u) = some e ∧
      regionExpression? parser (p', u') = some e' ∧ T.Expressions line n e e' ∧
      n ≤ 2 * T.textLoad p u := by
  obtain ⟨x, hx, hahead⟩ := ahead_told h
  rw [hline] at hahead
  have hstandalone : Couples (T.coupling line) true 0 (standalone parser) (standalone parser)
      (T.coupling line).expression := couples_standalone hparser
  obtain ⟨n, m, y, hvalue, -, hpass, hpaid⟩ := hstandalone.run (Cursor.coupled_start hahead)
  obtain ⟨new, new', hnew, hnew', htally⟩ := hpass.diagnostics
  have hempty : (standalone parser (Cursor.start (tokenizeExpression (String.ofList u') p')
      (p'.advance u'))).2.diagnostics.isEmpty =
      (standalone parser (Cursor.start (tokenizeExpression (String.ofList u) p)
        (p.advance u))).2.diagnostics.isEmpty := by
    rw [hnew, hnew']
    cases htally <;> rfl
  unfold regionExpression?
  dsimp only
  rw [T.told_blank h, hempty]
  split
  · exact .inl ⟨rfl, rfl⟩
  · split
    · exact .inr ⟨_, _, n, rfl, rfl, hvalue, by omega⟩
    · exact .inl ⟨rfl, rfl⟩

/-- The braces of corresponding strings are read to expressions that correspond. -/
theorem couplesStrings (T : Retelling) (line : Nat) : CouplesStrings (T.coupling line) := by
  rintro parser t t' hparser ⟨-, hspan, htoken⟩ hkind
  have hstructural : t.kind.isStructural = false := by rw [hkind]; rfl
  obtain ⟨hregions, hload⟩ := T.regions (htoken hstructural) hkind
  have hweight : (T.coupling line).weight t = 2 * T.load t := if_neg (by simp [hstructural])
  have hlines : ∀ r ∈ braceRegions t.span.start t.text.toList, r.1.line = line := by
    rintro ⟨q, run⟩ hr
    obtain ⟨xs, ys, -, rfl⟩ := split_of_mem_braceRegions hr
    exact hspan.line_start
  have htally : ∀ {rs rs' : List (Position × List Char)},
      Forall₂ (fun r r' => T.told r.1 r.2 r'.1 r'.2) rs rs' → (∀ r ∈ rs, r.1.line = line) →
      ∃ n, n ≤ 2 * (rs.map fun r => T.textLoad r.1 r.2).sum ∧ Tally (T.Expressions line) n
        (rs.filterMap (regionExpression? parser)) (rs'.filterMap (regionExpression? parser)) := by
    intro rs rs' h hrs
    induction h with
    | nil => exact ⟨0, Nat.zero_le _, .nil⟩
    | cons hr _ ih =>
      obtain ⟨hfirst, hrest⟩ := forall_mem_cons.1 hrs
      obtain ⟨n, hn, htally⟩ := ih hrest
      rw [map_cons, sum_cons]
      rcases regionExpression?_told hparser hr hfirst with ⟨hnone, hnone'⟩ |
        ⟨e, e', m, hsome, hsome', he, hm⟩
      · rw [filterMap_cons_none hnone, filterMap_cons_none hnone']
        exact ⟨n, by omega, htally⟩
      · rw [filterMap_cons_some hsome, filterMap_cons_some hsome']
        exact ⟨m + n, by omega, .cons he htally⟩
  obtain ⟨n, hn, hall⟩ := htally hregions hlines
  exact ⟨n, by omega, hall⟩

theorem couples_expression (T : Retelling) (line levels : Nat) (mode : Mode) :
    Couples (T.coupling line) true 0 (expression levels mode) (expression levels mode)
      (T.coupling line).expression :=
  Parser.couples_expression (T.couplesStrings line) levels mode

/-- Two arguments that are read from their texts. -/
theorem couples_rereading (T : Retelling) (line levels : Nat) (isLoop : Bool) :
    Couples (T.coupling line) true 0 (rereading levels isLoop) (rereading levels isLoop)
      fun n a a' => (T.coupling line).Argument n (some a) (some a') := by
  cases isLoop with
  | true =>
    refine .bind (j := 0) (couples_loopHeader (T.couples_expression line levels .condition)) ?_
    rintro n ⟨names, e, s⟩ ⟨names', e', s'⟩ hheader
    exact .pure hheader (by omega)
  | false =>
    refine .bind (j := 0) (couples_standalone (T.couples_expression line levels .condition)) ?_
    intro n e e' he
    exact .pure he (by omega)

/-- Arguments that are read from corresponding texts correspond, and so do the faults in them. -/
theorem readArgument_told (h : T.told p u p' u') (levels : Nat) (isLoop : Bool) :
    ∃ n m, n + m ≤ 2 * T.textLoad p u ∧
      (T.coupling p.line).Argument n (some (readArgument levels isLoop u p).1)
        (some (readArgument levels isLoop u' p').1) ∧
      Tally T.Diagnostics m (readArgument levels isLoop u p).2.reverse
        (readArgument levels isLoop u' p').2.reverse := by
  obtain ⟨x, hx, hahead⟩ := ahead_told h
  obtain ⟨n, m, y, hvalue, -, hpass, hpaid⟩ :=
    (T.couples_rereading p.line levels isLoop).run (Cursor.coupled_start hahead)
  obtain ⟨new, new', hnew, hnew', htally⟩ := hpass.diagnostics
  refine ⟨n, m, by omega, hvalue, ?_⟩
  have hnil : ∀ ts stop, (Cursor.start ts stop).diagnostics = [] := fun _ _ => rfl
  rw [hnil, append_nil] at hnew hnew'
  rw [← hnew, ← hnew'] at htally
  unfold readArgument
  rwa [reverse_reverse, reverse_reverse]

end Texts

end Retelling
end ScriptLint

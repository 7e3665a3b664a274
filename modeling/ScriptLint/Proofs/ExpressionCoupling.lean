import ScriptLint.Proofs.Coupling

/-!
# Expressions read in step

From corresponding tokens the parsers of expressions read in step, whatever the tokens are: the
expressions, and the faults that are found, correspond.  What stands between the braces of a string
is read from tokens of its own; that these correspond is asked of the coupling (`CouplesStrings`).

**Results.**
* `couples_standalone`, `couples_expression`: expressions of any depth.
* `couples_loopHeader`: the header of a loop.
-/

namespace ScriptLint

/-- Skipping a line from its next token on, or from behind that token, comes to the same. -/
theorem Cursor.skipTo_advance {c : Cursor} (h : c.AtContent) :
    c.advance.skipTo Token.Kind.isStructural = c.skipTo Token.Kind.isStructural := by
  have hadvance : c.advance = { c.drop 1 with lastEnd := c.current.span.stop } := by
    rw [advance, if_neg (by simp [h])]
  have hbefore : c.before Token.Kind.isStructural = c.current ::
      c.advance.before Token.Kind.isStructural := by
    unfold before
    rw [rest_eq_cons h, List.takeWhile_cons_of_pos (by simp [h])]
  have hlast : ((c.advance.before Token.Kind.isStructural).getLast?.map (·.span.stop)).getD
      c.advance.lastEnd =
      ((c.before Token.Kind.isStructural).getLast?.map (·.span.stop)).getD c.lastEnd := by
    rw [hbefore, List.getLast?_cons]
    cases (c.advance.before Token.Kind.isStructural).getLast? with
    | none =>
      rw [hadvance]
      rfl
    | some t => rfl
  unfold skipTo
  dsimp only
  rw [hlast, hbefore, hadvance]
  simp only [drop, List.length_cons, List.drop_drop, Cursor.mk.injEq, and_true]
  exact ⟨by rw [Nat.add_comm], by omega⟩

namespace Parser

open Token Parser.Coupling

variable {C : Coupling} {counted : Bool} {k : Nat} {t t' : Token}

theorem CouplesAt.ite {β β' : Type} {V : Nat → β → β' → Prop} {b : Prop} [Decidable b]
    {p q : Parser β} {p' q' : Parser β'} (hpos : b → CouplesAt C counted k t t' p p' V)
    (hneg : ¬ b → CouplesAt C counted k t t' q q' V) :
    CouplesAt C counted k t t' (if b then p else q) (if b then p' else q') V := by
  by_cases h : b
  · rw [if_pos h, if_pos h]
    exact hpos h
  · rw [if_neg h, if_neg h]
    exact hneg h

section Tokens

variable (ht : C.token t t')

include ht

theorem Coupling.unaryOp : UnaryOp.ofToken? t' = UnaryOp.ofToken? t := by
  unfold UnaryOp.ofToken?
  rw [isOperator ht, isOperator ht]

theorem Coupling.binaryOp : BinaryOp.ofToken? t' = BinaryOp.ofToken? t := by
  unfold BinaryOp.ofToken?
  rw [C.kind ht]
  by_cases hkind : t.kind = .operator
  · rw [if_pos hkind, if_pos hkind, C.text ht (by simp [hkind])]
  · rw [if_neg hkind, if_neg hkind]

theorem Coupling.isSuffixStart : Parser.isSuffixStart t' = Parser.isSuffixStart t := by
  unfold Parser.isSuffixStart
  simp only [isPunctuation ht, isOperator ht]

theorem Coupling.point : C.span (Span.point t.span.start) (Span.point t'.span.start) := by
  have hstart := C.start_span (C.span_token ht)
  have hspan := C.span_between hstart hstart
  simpa [Span.between, Span.point] using hspan

/-- A token that a fault names and that is skipped pays for the fault. -/
theorem CouplesAt.reportSkip {β β' : Type} {V : Nat → β → β' → Prop} {fault : Token → Fault}
    {f : Unit → Parser β} {f' : Unit → Parser β'} (hfault : fault ∈ Fault.naming)
    (hkind : t.kind.isStructural = false) (h : Couples C counted k (f ()) (f' ()) V) :
    CouplesAt C counted k t t'
      (Parser.report (fault t) t.span >>= fun _ => Parser.skipTo Kind.isStructural >>= f)
      (Parser.report (fault t') t'.span >>= fun _ => Parser.skipTo Kind.isStructural >>= f') V := by
  intro x c c' hc hcur hcur'
  have hkind' : c'.AtContent := .of_current hcur' (by rwa [C.kind ht])
  rw [← hcur] at hkind
  obtain ⟨y, hy, hafter⟩ := hc.advance hkind
  obtain ⟨z, hz, hskip, hpass⟩ := hafter.skipTo fun _ h => h
  rw [Cursor.skipTo_advance hkind, Cursor.skipTo_advance hkind'] at hskip hpass
  have hpassed : Cursor.Passes C (C.charge t) c c'
      ((c.report (fault t) t.span).skipTo Kind.isStructural)
      ((c'.report (fault t') t'.span).skipTo Kind.isStructural) := by
    obtain ⟨i, hi, hi'⟩ := ((Cursor.passes_advance hkind hkind').trans hpass).left
    exact ⟨⟨i, hi, hi'⟩, _, _, rfl, rfl, .singleton (C.naming hfault ht)⟩
  have hcoupled : Cursor.Coupled C counted z
      ((c.report (fault t) t.span).skipTo Kind.isStructural)
      ((c'.report (fault t') t'.span).skipTo Kind.isStructural) :=
    ⟨hskip.ahead, hskip.lastEnd, hskip.operations⟩
  have hcharge := C.charge_le t
  rw [hcur] at hy
  exact (h.run hcoupled).of_passes hpassed (by omega)

end Tokens

/-- Nothing is known of the values, and they weigh nothing. -/
def Weightless (n : Nat) (_ _ : Unit) : Prop :=
  n = 0

theorem couples_expectMark (mark : String) :
    Couples C counted 0 (expectMark mark) (expectMark mark) Weightless := by
  intro t t' ht
  refine .atMark ht (.ite (fun hmark => ?_) fun _ => ?_)
  · exact .next ht (isStructural_of_isPunctuation hmark) (.pure rfl (Nat.zero_le _))
  · exact .of_bind_pure (.reportHere ht rfl (.pure rfl (Nat.zero_le _)))

theorem couples_expectEnd : Couples C counted 0 expectEnd expectEnd Weightless := by
  intro t t' ht
  refine .peek ?_
  rw [C.kind ht]
  have hdone : Couples C counted 0 (Pure.pure () : Parser Unit) (Pure.pure ()) Weightless :=
    .pure rfl (Nat.le_refl 0)
  refine .ite (fun hbound => ?_) fun _ => ?_
  · have hcontent := isStructural_of_not_isBoundary (t := t) (by simpa using hbound)
    have hskip := @CouplesAt.reportSkip C counted 0 t t' ht Unit Unit Weightless
      (fun t => .afterExpression t.kind t.text) _ _ (by simp [Fault.naming]) hcontent hdone
    rw [C.kind ht] at hskip
    exact hskip
  · exact .of_bind_pure (.skipTo (fun _ h => h) hdone)

variable {p p' : Parser Expression}

/-- Two expressions that fill the rest of their lines. -/
theorem couples_standalone (hp : Couples C true 0 p p' C.expression) :
    Couples C counted 0 (standalone p) (standalone p') C.expression := by
  intro t t' ht
  refine .peek ?_
  rw [C.kind ht]
  refine .ite (fun _ => ?_) fun _ => ?_
  · have hpoint := point ht
    exact .report (C.plain rfl hpoint)
      (.skipTo (fun _ h => h) (.pure (C.null hpoint) (Nat.le_refl 0)))
  · refine .resetOperations (.bind (j := 0) (hp t t' ht) fun n e e' he => ?_)
    refine .bind (j := 0 + n) couples_expectEnd fun m _ _ _ => ?_
    exact .pure he (by omega)

section Operands

/-- The braces of corresponding strings are read to expressions that correspond. -/
def CouplesStrings (C : Coupling) : Prop :=
  ∀ {p : Parser Expression} {t t' : Token}, Couples C true 0 p p C.expression → C.token t t' →
    t.kind = .string → ∃ n, n ≤ C.weight t ∧
      Tally C.expression n (interpolations (some p) t) (interpolations (some p) t')

variable {inner : Option (Parser Expression)}
  (hinner : ∀ p, inner = some p → Couples C true 0 p p C.expression)

/-- The values correspond, and both say the same of going on. -/
def GoesOn {α β : Type} (R : Nat → α → β → Prop) (n : Nat) (r : α × Bool) (r' : β × Bool) : Prop :=
  R n r.1 r'.1 ∧ r.2 = r'.2

theorem Couples.goesOn {α β : Type} {R : Nat → α → β → Prop} {n : Nat} {a : α} {b : β} {go : Bool}
    (h : R n a b) (hn : n ≤ k) :
    Couples C counted k (Pure.pure (a, go)) (Pure.pure (b, go)) (GoesOn R) :=
  .pure (show GoesOn R n (a, go) (b, go) from ⟨h, rfl⟩) hn

theorem couples_items {α : Type} {R : Nat → α → α → Prop} {item : Parser α}
    (hitem : Couples C true 0 item item R)
    (close : String) :
    Couples C true 0 (loop [] (itemStep item close)) (loop [] (itemStep item close)) (Tally R) := by
  refine .loop .nil fun n items items' hitems t t' ht => ?_
  refine .atMark ht (.ite (fun hclose => ?_) fun _ => ?_)
  · exact .next ht (isStructural_of_isPunctuation hclose) (.goesOn hitems (Nat.le_add_right _ _))
  refine .atBoundary ht (.ite (fun _ => ?_) fun _ => ?_)
  · exact .reportHere ht rfl (Couples.goesOn hitems (Nat.le_refl _) t t' ht)
  refine .bind (j := n) (hitem t t' ht) fun m a a' ha u u' hu => ?_
  have hall := hitems.snoc ha
  refine .atMark hu (.ite (fun hcomma => ?_) fun _ => ?_)
  · exact .next hu (isStructural_of_isPunctuation hcomma) (.goesOn hall (Nat.le_add_right _ _))
  refine .atMark hu (.ite (fun hclose => ?_) fun _ => ?_)
  · exact .next hu (isStructural_of_isPunctuation hclose) (.goesOn hall (Nat.le_add_right _ _))
  · exact .reportHere hu rfl (Couples.goesOn hall (Nat.le_refl _) u u' hu)

include hinner

theorem couples_nested : Couples C true 0 (nested inner) (nested inner) C.expression := by
  unfold nested
  split
  · next p => exact hinner p rfl
  · intro t t' ht
    have hspan := C.span_token ht
    refine .peek (.report (C.plain rfl hspan) ?_)
    exact .skipTo (fun _ => isBoundary_of_isStructural) (.pure (C.null hspan) (Nat.le_refl 0))

theorem couples_propertyValue :
    Couples C true 0 (propertyValue inner) (propertyValue inner) C.expression := by
  intro t t' ht
  refine .atOperator ht (.ite (fun harrow => ?_) fun _ => ?_)
  · refine .next ht (isStructural_of_isOperator harrow) fun u u' hu => ?_
    exact (couples_nested hinner u u' hu).mono (Nat.zero_le _)
  · exact .reportHere ht rfl (.peek (.pure (C.null (point ht)) (Nat.le_refl 0)))

theorem couples_propertyItem :
    Couples C true 0 (propertyItem inner) (propertyItem inner) C.property := by
  intro t t' ht
  refine .peek (.bind (j := 0) (couples_nested hinner t t' ht) fun m key key' hkey => ?_)
  refine .bind (j := 0 + m) (couples_propertyValue hinner) fun n value value' hvalue u u' hu => ?_
  refine .spanFrom (C.start_span (C.span_token ht)) fun s s' hspan _ => ?_
  exact .pure (C.pair hkey hvalue hspan) (by omega)

omit hinner in
/-- A token that cannot be an operand pays for its fault. -/
theorem couplesAt_unexpected (ht : C.token t t') (hkind : t.kind.isStructural = false) :
    CouplesAt C true 0 t t' (unexpected t) (unexpected t') C.expression := by
  have hfault := @Coupling.naming C (fun t => .unexpectedToken t.kind t.text) t t'
    (by simp [Fault.naming]) ht
  have hcharge := C.charge_le t
  refine .next ht hkind fun u u' _ => CouplesAt.mono (.report (k := 0) hfault ?_) (by omega)
  exact .pure (C.null (C.span_token ht)) (Nat.le_refl 0)

theorem couplesAt_bracketed (ht : C.token t t') (hkind : t.kind = .punctuation) :
    CouplesAt C true 0 t t' (bracketed inner t) (bracketed inner t') C.expression := by
  have hcontent : t.kind.isStructural = false := by
    rw [hkind]
    rfl
  have hstart := C.start_span (C.span_token ht)
  unfold bracketed
  rw [C.text ht (by simp [hkind])]
  refine .ite (fun _ => ?_) fun _ => .ite (fun _ => ?_) fun _ => .ite (fun _ => ?_) fun _ => ?_
  · refine .next ht hcontent
      (.bind (j := 0 + C.weight t) (couples_nested hinner) fun n e e' he => ?_)
    refine .bind (j := 0 + C.weight t + n) (couples_expectMark ")") fun m _ _ _ => ?_
    exact .pure he (by omega)
  · refine .next ht hcontent
      (.bind (j := 0 + C.weight t) (couples_items (couples_nested hinner) "]")
        fun n es es' hes _ _ _ => ?_)
    exact .spanFrom hstart fun _ _ hspan _ => .pure (C.array hes hspan) (by omega)
  · refine .next ht hcontent
      (.bind (j := 0 + C.weight t) (couples_items (couples_propertyItem hinner) "\x7d")
        fun n ps ps' hps _ _ _ => ?_)
    exact .spanFrom hstart fun _ _ hspan _ => .pure (C.object hps hspan) (by omega)
  · exact couplesAt_unexpected ht hcontent

variable (hstrings : CouplesStrings C)

include hstrings

theorem couples_primary : Couples C true 0 (primary inner) (primary inner) C.expression := by
  intro t t' ht
  have hspan := C.span_token ht
  refine .peek ?_
  rw [C.kind ht]
  have hbound : ∀ {kind : Kind}, t.kind = kind → CouplesAt C true 0 t t'
      (if kind.isBoundary then do
          report .missingExpression (Span.point t.span.start)
          return .null (Span.point t.span.start)
        else unexpected t)
      (if kind.isBoundary then do
          report .missingExpression (Span.point t'.span.start)
          return .null (Span.point t'.span.start)
        else unexpected t') C.expression := by
    rintro _ rfl
    refine .ite (fun _ => ?_) fun hbound => ?_
    · have hpoint := point ht
      exact .report (C.plain rfl hpoint) (.pure (C.null hpoint) (Nat.le_refl 0))
    · exact couplesAt_unexpected ht (isStructural_of_not_isBoundary hbound)
  cases hkind : t.kind with
  | number =>
    exact .next ht (by rw [hkind]; rfl) (.pure (C.number ht hkind) (by omega))
  | string =>
    refine .next ht (by rw [hkind]; rfl) ?_
    cases hsome : inner with
    | none =>
      have hvalue := C.string ht hkind (Nat.zero_le _) .nil
      exact .pure hvalue (by omega)
    | some p =>
      obtain ⟨n, hn, htally⟩ := hstrings (hinner p hsome) ht hkind
      exact .pure (C.string ht hkind hn htally) (by omega)
  | identifier =>
    exact .next ht (by rw [hkind]; rfl) (.pure (C.identifier ht hkind) (by omega))
  | punctuation => exact couplesAt_bracketed hinner ht hkind
  | invalid =>
    have hfault := @Coupling.naming C (fun t => .invalidText t.text) t t'
      (by simp [Fault.naming]) ht
    have hcharge := C.charge_le t
    refine .next ht (by rw [hkind]; rfl) fun u u' _ =>
      CouplesAt.mono (.report (k := 0) hfault ?_) (by omega)
    exact .pure (C.null hspan) (Nat.le_refl 0)
  | _ => exact hbound hkind

omit hstrings in
theorem couples_suffixStep (n : Nat) (e e' : Expression) (he : C.expression n e e') :
    Couples C true n (suffixStep inner e) (suffixStep inner e') (GoesOn C.expression) := by
  intro t t' ht
  have hstart := C.start_span (C.span_expression he)
  refine .peek ?_
  dsimp only
  rw [Coupling.isSuffixStart ht]
  refine .ite (fun _ => ?_) fun hsuffix => ?_
  · exact Couples.goesOn he (Nat.le_refl _) t t' ht
  have hahead := isBoundary_of_isSuffixStart (by simpa using hsuffix)
  refine .countOperation ht ?_ (.goesOn he (Nat.le_refl _))
  refine .next ht (isStructural_of_not_isBoundary (by simp [hahead])) fun u u' hu => ?_
  simp only [Coupling.isPunctuation ht, Coupling.isOperator ht]
  refine .ite (fun _ => ?_) fun _ => .ite (fun _ => ?_) fun _ => ?_
  · refine .bind (j := n + C.weight t) (couples_items (couples_nested hinner) ")" u u' hu)
      fun m es es' hes v v' hv => ?_
    refine .spanFrom hstart fun s s' hspan hs => ?_
    exact Couples.goesOn (C.call he hes hspan hs) (by omega) v v' hv
  · refine .bind (j := n + C.weight t) (couples_nested hinner u u' hu) fun m i i' hi => ?_
    refine .bind (j := n + C.weight t + m) (couples_expectMark "]") fun _ _ _ _ v v' hv => ?_
    refine .spanFrom hstart fun s s' hspan hs => ?_
    exact Couples.goesOn (C.index he hi hspan hs) (by omega) v v' hv
  refine .atKind hu (.ite (fun hident => ?_) fun _ => ?_)
  · have hkind : u.kind = .identifier := by simpa using hident
    exact .next hu (by rw [hkind]; rfl) (.goesOn (C.member _ he hu hkind) (by omega))
  · exact .reportHere hu rfl (Couples.goesOn he (by omega) u u' hu)

theorem couples_postfixed : Couples C true 0 (postfixed inner) (postfixed inner) C.expression :=
  .bind (j := 0) (couples_primary hinner hstrings) fun n e e' he => by
    rw [Nat.zero_add]
    exact .loop he (couples_suffixStep hinner)

omit hinner hstrings in
/-- Two operators that wait for their operand are the same, at corresponding places. -/
def Prefixes (C : Coupling) (n : Nat) (op op' : UnaryOp × Position) : Prop :=
  n = 0 ∧ op'.1 = op.1 ∧ C.place op.2 op'.2

omit hinner hstrings in
theorem couples_prefixStep (n : Nat) (ops ops' : List (UnaryOp × Position))
    (hops : Tally (Prefixes C) n ops ops') :
    Couples C true n (prefixStep ops) (prefixStep ops') (GoesOn (Tally (Prefixes C))) := by
  intro t t' ht
  refine .peek ?_
  rw [unaryOp ht]
  cases hop : UnaryOp.ofToken? t with
  | none => exact Couples.goesOn hops (Nat.le_refl _) t t' ht
  | some op =>
    have hall := hops.snoc (show Prefixes C 0 (op, t.span.start) (op, t'.span.start) from
      ⟨rfl, rfl, C.start_span (C.span_token ht)⟩)
    refine .countOperation ht (.ite (fun _ => ?_) nofun) ?_
    · exact .next ht (by rw [kind_of_ofToken? hop]; rfl) (.goesOn hall (Nat.le_add_right _ _))
    · exact .goesOn hops (Nat.le_refl _)

omit hinner hstrings in
theorem couples_applyPrefix {m n : Nat} {ops ops' : List (UnaryOp × Position)} {e e' : Expression}
    (hops : Tally (Prefixes C) m ops ops') (he : C.expression n e e') :
    C.expression n (ops.foldr applyPrefix e) (ops'.foldr applyPrefix e') := by
  induction hops with
  | nil => exact he
  | @cons _ _ op op' _ _ hop _ ih =>
    obtain ⟨-, hsame, hplace⟩ := hop
    have hop' : op' = (op.1, op'.2) := by rw [← hsame]
    rw [List.foldr_cons, List.foldr_cons, hop']
    exact C.unary op.1 hplace ih

theorem couples_prefixed : Couples C true 0 (prefixed inner) (prefixed inner) C.expression := by
  have hloop : Couples C true 0 (loop [] prefixStep) (loop [] prefixStep) (Tally (Prefixes C)) :=
    .loop .nil couples_prefixStep
  refine .bind (j := 0) hloop fun m ops ops' hops => ?_
  refine .bind (j := 0 + m) (couples_postfixed hinner hstrings) fun n e e' he => ?_
  exact .pure (couples_applyPrefix hops he) (by omega)

omit hinner hstrings in
theorem couples_layerStep {ops : List BinaryOp} {tighter : Parser Expression}
    (htighter : Couples C true 0 tighter tighter C.expression) (n : Nat) (left left' : Expression)
    (hleft : C.expression n left left') :
    Couples C true n (layerStep ops tighter left) (layerStep ops tighter left')
      (GoesOn C.expression) := by
  intro t t' ht
  refine .peek ?_
  rw [binaryOp ht]
  cases hop : (BinaryOp.ofToken? t).filter ops.contains with
  | none => exact Couples.goesOn hleft (Nat.le_refl _) t t' ht
  | some op =>
    have hkind := kind_of_binaryOp (Option.filter_eq_some_iff.1 hop).1
    refine .countOperation ht (.ite (fun _ => ?_) nofun) (.goesOn hleft (Nat.le_refl _))
    refine .next ht (by rw [hkind]; rfl)
      (.bind (j := n + C.weight t) htighter fun m right right' hright => ?_)
    exact .goesOn (C.join op hleft hright) (by omega)

theorem couples_layered (layers : List (List BinaryOp)) :
    Couples C true 0 (layered inner layers) (layered inner layers) C.expression := by
  induction layers with
  | nil => exact couples_prefixed hinner hstrings
  | cons ops tighter ih =>
    refine .bind (j := 0) ih fun n first first' hfirst => ?_
    rw [Nat.zero_add]
    exact .loop hfirst (couples_layerStep ih)

theorem couples_assignmentStep (n : Nat) (operands operands' : List Expression)
    (hoperands : Tally C.expression n operands operands') :
    Couples C true n (assignmentStep inner operands) (assignmentStep inner operands')
      (GoesOn (Tally C.expression)) := by
  intro t t' ht
  have hstop := @Couples.goesOn C true n _ _ _ _ _ _ false hoperands (Nat.le_refl n)
  refine .atOperator ht (.ite (fun hequals => ?_) fun _ => hstop t t' ht)
  refine .countOperation ht (.ite (fun _ => ?_) nofun) hstop
  refine .next ht (isStructural_of_isOperator hequals) ?_
  refine .bind (j := n + C.weight t) (couples_layered hinner hstrings _) fun m e e' he => ?_
  exact .goesOn (hoperands.snoc he) (by omega)

omit hinner hstrings in
theorem couples_assignAll {m n : Nat} {e e' : Expression} {es es' : List Expression}
    (he : C.expression m e e') (hes : Tally C.expression n es es') :
    C.expression (m + n) (assignAll e es) (assignAll e' es') := by
  induction hes generalizing m e e' with
  | nil => exact he
  | cons hnext _ ih => exact C.join .assign he (ih hnext)

theorem couples_inMode (mode : Mode) :
    Couples C true 0 (inMode inner mode) (inMode inner mode) C.expression := by
  cases mode with
  | condition => exact couples_layered hinner hstrings _
  | statement =>
    have hloop : Couples C true 0 (loop [] (assignmentStep inner)) (loop [] (assignmentStep inner))
        (Tally C.expression) := .loop .nil (couples_assignmentStep hinner hstrings)
    refine .bind (j := 0) (couples_layered hinner hstrings _) fun m first first' hfirst => ?_
    refine .bind (j := 0 + m) hloop fun n es es' hes => ?_
    exact .pure (couples_assignAll hfirst hes) (by omega)

end Operands

section Expressions

variable (hstrings : CouplesStrings C)

include hstrings

/-- Expressions of any depth are read in step. -/
theorem couples_expression (levels : Nat) (mode : Mode) :
    Couples C true 0 (expression levels mode) (expression levels mode) C.expression := by
  induction levels generalizing mode with
  | zero => exact couples_inMode (fun _ hp => by cases hp) hstrings mode
  | succ levels ih =>
    refine couples_inMode ?_ hstrings mode
    rintro p hp
    cases hp
    exact ih .condition

omit hstrings

theorem couples_variableStep (n : Nat) (names names' : List Expression)
    (hnames : Tally C.expression n names names') :
    Couples C counted n (variableStep names) (variableStep names')
      (GoesOn (Tally C.expression)) := by
  intro t t' ht
  refine .peek ?_
  rw [C.kind ht]
  refine .ite (fun hkind => ?_) fun _ => ?_
  · have hall := hnames.snoc (C.identifier ht hkind)
    refine .next ht (by rw [hkind]; rfl) fun u u' hu => ?_
    refine .atMark hu (.ite (fun hcomma => ?_) fun _ => ?_)
    · exact .next hu (isStructural_of_isPunctuation hcomma) (.goesOn hall (by omega))
    · exact Couples.goesOn hall (Nat.le_refl _) u u' hu
  · exact .reportHere ht rfl (Couples.goesOn hnames (Nat.le_refl _) t t' ht)

theorem couples_collection (hp : Couples C true 0 p p' C.expression) :
    Couples C counted 0 (collection p) (collection p') C.expression := by
  intro t t' ht
  refine .atOperator ht (.ite (fun hin => ?_) fun _ => ?_)
  · refine .next ht (isStructural_of_isOperator hin) fun u u' hu => ?_
    refine .atBoundary hu (.ite (fun _ => ?_) fun _ => ?_)
    · refine .reportHere hu rfl (.lastEnd fun q q' hq => .pure (C.null ?_) (Nat.zero_le _))
      have hspan := C.span_between hq hq
      simpa [Span.between, Span.point] using hspan
    · exact .resetOperations ((hp u u' hu).mono (Nat.zero_le _))
  · exact .reportHere ht rfl (.peek (.pure (C.null (point ht)) (Nat.le_refl 0)))

/-- The headers of two loops correspond. -/
def LoopHeaders (C : Coupling) (n : Nat) (r r' : List Expression × Expression × Span) : Prop :=
  ∃ x y, x + y = n ∧ Tally C.expression x r.1 r'.1 ∧ C.expression y r.2.1 r'.2.1 ∧
    C.span r.2.2 r'.2.2

theorem couples_loopHeader (hp : Couples C true 0 p p' C.expression) :
    Couples C counted 0 (loopHeader p) (loopHeader p') (LoopHeaders C) := by
  have hloop : Couples C counted 0 (loop [] variableStep) (loop [] variableStep)
      (Tally C.expression) := .loop .nil couples_variableStep
  intro t t' ht
  refine .peek (.bind (j := 0) (hloop t t' ht) fun m names names' hnames => ?_)
  refine .bind (j := 0 + m) (couples_collection hp) fun n e e' he u u' hu => ?_
  refine .spanFrom (C.start_span (C.span_token ht)) fun s s' hspan _ => ?_
  refine .bind (j := 0 + m + n) (couples_expectEnd u u' hu) fun l _ _ _ => ?_
  have hheader : LoopHeaders C (m + n) (names, e, s) (names', e', s') :=
    ⟨m, n, rfl, hnames, he, hspan⟩
  exact .pure hheader (by omega)

end Expressions

end Parser
end ScriptLint

import ScriptLint.Proofs.ExpressionCoupling

/-!
# Lines read in step

The parsers of whole lines read corresponding lines in step: comments, lines with an expression, and
texts.

**Results.**
* `couples_comment`, `couplesAt_expressionLine`, `couples_textContent`: the three kinds of line.
-/

namespace ScriptLint

namespace Coupling

variable (C : Coupling)

/-- Two parts of a text correspond, and weigh so much: runs are the texts of tokens that
correspond. -/
def Part (n : Nat) : TextPart → TextPart → Prop
  | .run a s, .run a' s' =>
    ∃ t t', C.token t t' ∧ t.kind.isStructural = false ∧ n = C.charge t ∧
      (a = t.text ∧ s = t.span) ∧ a' = t'.text ∧ s' = t'.span
  | .interpolation e, .interpolation e' => C.expression n e e'
  | _, _ => False

/-- Two texts correspond, and weigh so much. -/
structure Content (n : Nat) (content content' : TextContent) : Prop where
  parts : Tally C.Part n content.parts content'.parts
  span : C.span content.span content'.span

/-- Two comments, or two lines with an expression, correspond and weigh so much. -/
def Single (n : Nat) : Statement → Statement → Prop
  | .comment a s, .comment a' s' => (n = 0 → a' = a) ∧ C.span s s'
  | .expression e s, .expression e' s' => C.expression n e e' ∧ C.span s s'
  | _, _ => False

/-- Two arguments correspond, and weigh so much. -/
def Argument (n : Nat) : Option Argument → Option Argument → Prop
  | none, none => True
  | some (.text content), some (.text content') => C.Content n content content'
  | some (.expression e), some (.expression e') => C.expression n e e'
  | some (.loop names e s), some (.loop names' e' s') =>
    Parser.LoopHeaders C n (names, e, s) (names', e', s')
  | _, _ => False

end Coupling

namespace Parser

open Token

variable {C : Coupling} {counted : Bool} {k : Nat} {t t' : Token}

theorem couples_skipKind {kind : Kind} (hkind : kind.isStructural = false) :
    Couples C counted 0 (skipKind kind) (skipKind kind) Weightless := by
  intro t t' ht
  refine .atKind ht (.ite (fun heq => ?_) fun _ => .pure rfl (Nat.le_refl 0))
  have hcontent : t.kind.isStructural = false := by
    rw [eq_of_beq heq]
    exact hkind
  exact .next ht hcontent (.pure rfl (Nat.zero_le _))

theorem couples_commentText :
    Couples C counted 0 commentText commentText fun n a a' => n = 0 → a' = a := by
  intro t t' ht
  refine .atKind ht (.ite (fun heq => ?_) fun _ => ?_)
  · have hcharge := C.charge_le t
    refine .next ht (by rw [eq_of_beq heq]; rfl) (.pure (n := C.weight t) ?_ (by omega))
    intro hweight
    exact C.same ht (by omega)
  · exact .pure (n := 0) (fun _ => rfl) (Nat.le_refl 0)

theorem couples_comment : Couples C counted 0 comment comment C.Single := by
  intro t t' ht
  refine .peek (.bind (j := 0) (couples_skipKind rfl t t' ht) fun m _ _ _ => ?_)
  refine .bind (j := 0 + m) couples_commentText fun n a a' ha u u' _ => ?_
  refine .spanFrom (C.start_span (C.span_token ht)) fun s s' hspan _ => ?_
  exact .pure (show C.Single n (.comment a s) (.comment a' s') from ⟨ha, hspan⟩) (by omega)

section Line

variable {expression : Mode → Parser Expression}
  (hexpression : ∀ mode, Couples C true 0 (expression mode) (expression mode) C.expression)

theorem couples_closeInterpolation :
    Couples C counted 0 closeInterpolation closeInterpolation Weightless := by
  intro t t' ht
  refine .atKind ht ?_
  refine .ite (fun _ => ?_) fun _ => couples_skipKind rfl t t' ht
  refine .reportHere ht rfl (.skipTo (fun kind hkind => ?_) (couples_skipKind rfl))
  simp [hkind]

include hexpression

theorem couplesAt_expressionLine (ht : C.token t t') (hkind : t.kind.isStructural = false) :
    CouplesAt C counted 0 t t' (expressionLine expression) (expressionLine expression)
      C.Single := by
  refine .next ht hkind (.bind (j := 0 + C.weight t) (couples_standalone (hexpression .statement))
    fun n e e' he => ?_)
  have hspan := C.span_between (C.start_span (C.span_token ht)) (C.stop_span (C.span_expression he))
  have hvalue : C.Single n (.expression e (Span.between t.span.start e.span.stop))
      (.expression e' (Span.between t'.span.start e'.span.stop)) := ⟨he, hspan⟩
  exact .pure hvalue (by omega)

theorem couples_interpolation {opening opening' : Span} (hopening : C.span opening opening') :
    Couples C counted 0 (interpolation expression opening) (interpolation expression opening')
      C.expression := by
  intro t t' ht
  refine .peek ?_
  rw [C.kind ht]
  refine .ite (fun hkind => ?_) fun _ => .ite (fun _ => ?_) fun _ => ?_
  · have hspan := C.span_between (C.start_span hopening) (C.stop_span (C.span_token ht))
    refine .next ht (by rw [hkind]; rfl) fun u u' _ => ?_
    exact CouplesAt.report (k := 0 + C.weight t) (C.plain rfl hspan)
      (.pure (C.null hspan) (Nat.zero_le _))
  · have hstop := C.stop_span hopening
    have hspan : C.span (Span.point opening.stop) (Span.point opening'.stop) := by
      have hbetween := C.span_between hstop hstop
      simpa [Span.between, Span.point] using hbetween
    refine .reportHere ht rfl
      (.bind (j := 0) (couples_closeInterpolation t t' ht) fun n _ _ _ => ?_)
    exact .pure (C.null hspan) (Nat.zero_le _)
  · refine .resetOperations (.bind (j := 0) (hexpression .condition t t' ht) fun n e e' he => ?_)
    exact .bind (j := 0 + n) couples_closeInterpolation fun m _ _ _ => .pure he (by omega)

theorem couples_textStep (n : Nat) (parts parts' : List TextPart)
    (hparts : Tally C.Part n parts parts') :
    Couples C counted n (textStep expression parts) (textStep expression parts')
      (GoesOn (Tally C.Part)) := by
  intro t t' ht
  have hspan := C.span_token ht
  refine .atLineEnd ht (.ite (fun _ => ?_) fun hline => ?_)
  · exact Couples.goesOn hparts (Nat.le_refl _) t t' ht
  have hkind : t.kind.isStructural = false := by simpa using hline
  have hcharge := C.charge_le t
  have hrun := hparts.snoc
      (show C.Part (C.charge t) (.run t.text t.span) (.run t'.text t'.span) from
    ⟨t, t', ht, hkind, rfl, ⟨rfl, rfl⟩, rfl, rfl⟩)
  refine .next ht hkind ?_
  rw [C.kind ht]
  by_cases hopen : t.kind = .interpolationStart
  · rw [if_pos hopen, if_pos hopen]
    refine .bind (j := n + C.weight t) (couples_interpolation hexpression hspan) fun m e e' he => ?_
    exact .goesOn (hparts.snoc (show C.Part m (.interpolation e) (.interpolation e') from he))
      (by omega)
  · rw [if_neg hopen, if_neg hopen]
    intro u u' hu
    refine .ite (fun _ => ?_) fun _ => Couples.goesOn hrun (by omega) u u' hu
    have hfault := @Coupling.naming C (fun t => .invalidText t.text) t t'
      (by simp [Fault.naming]) ht
    refine CouplesAt.mono (.report (k := n + C.charge t) hfault ?_) (by omega)
    exact Couples.goesOn hrun (Nat.le_refl _) u u' hu

theorem couples_textContent :
    Couples C counted 0 (textContent expression) (textContent expression) C.Content := by
  have hloop : Couples C counted 0 (loop [] (textStep expression)) (loop [] (textStep expression))
      (Tally C.Part) := .loop .nil (couples_textStep hexpression)
  intro t t' ht
  refine .peek (.bind (j := 0) (hloop t t' ht) fun n parts parts' hparts u u' _ => ?_)
  refine .spanFrom (C.start_span (C.span_token ht)) fun s s' hspan _ => ?_
  exact .pure (show C.Content n ⟨parts, s⟩ ⟨parts', s'⟩ from ⟨hparts, hspan⟩) (by omega)

end Line

end Parser
end ScriptLint

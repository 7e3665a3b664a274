import ScriptLint.Proofs.Derivation
import ScriptLint.Proofs.MovedText

/-!
# What is derived is read

Where tokens derive a value, the parser of the form consumes their lexemes and gives the value up
to places, wherever they stand and whatever ends them.  With what a clean run derives, this says
that two runs over the same lexemes agree.

**Layers.**  An operation is told from those of the tighter layers by its operator, so the layers
must hold each operator once; `DistinctLayers` says so.

**Strings.**  The expressions inside a string are read with one level less.  That they do not depend
on where the string stands is shown together with the rest, by induction on the levels.

**Results.**
* `Derives.reads`: every derivation, by induction over its rules.
* `Parser.stringsAgree`: the expressions inside the same string at two places.
* `Derives.consumes`, `Derives.standalone`: whole expressions.
-/

namespace ScriptLint

open List Expression

open Lexeme

open ScriptLint.Parser

variable {form : Form} {l : Lexeme} {after : Lexeme → Prop} {ts : List Token}
  {a : form.Value} {levels n : Nat} {mode : Mode}

/-- The layers hold each operator once, and none of them assigns. -/
structure DistinctLayers (layers : List (List BinaryOp)) : Prop where
  nodup : layers.flatten.Nodup
  assign : .assign ∉ layers.flatten

theorem Mode.distinct_layers (mode : Mode) : DistinctLayers mode.layers := by
  cases mode <;> exact ⟨by decide, by decide⟩

section Layers

variable {ops : List BinaryOp} {layers : List (List BinaryOp)}

theorem DistinctLayers.tail (h : DistinctLayers (ops :: layers)) : DistinctLayers layers := by
  obtain ⟨hnodup, hassign⟩ := h
  exact ⟨(nodup_append.1 hnodup).2.1, fun hmem => hassign (mem_append_right _ hmem)⟩

theorem BinaryOp.lexeme_injective {op op' : BinaryOp} (hop : op ≠ .assign) (hop' : op' ≠ .assign)
    (h : op.lexeme = op'.lexeme) : op = op' := by
  have hfirst := ofToken?_eq_some_iff.2 ⟨hop, show (⟨.operator, op.text, default⟩ : Token).lexeme =
    op.lexeme from rfl⟩
  have hsecond := ofToken?_eq_some_iff.2
    ⟨hop', show (⟨.operator, op.text, default⟩ : Token).lexeme = op'.lexeme from h⟩
  exact Option.some.inj (hfirst.symm.trans hsecond)

/-- At an operator of the first layer no operation of the tighter layers goes on. -/
theorem DistinctLayers.ends (h : DistinctLayers (ops :: layers)) {op : BinaryOp} (hop : op ∈ ops) :
    op ≠ .assign ∧ Ends layers op.lexeme := by
  obtain ⟨hnodup, hassign⟩ := h
  have hne : op ≠ .assign := by
    rintro rfl
    exact hassign (mem_append_left _ hop)
  refine ⟨hne, ?_, fun op' hop' heq => ?_⟩
  · cases op <;> decide
  · have hne' : op' ≠ .assign := by
      rintro rfl
      exact hassign (mem_append_right _ hop')
    obtain rfl := BinaryOp.lexeme_injective hne hne' heq
    exact (nodup_append.1 hnodup).2.2 _ hop _ hop' rfl

theorem ends_of_isBoundary (layers : List (List BinaryOp)) (h : l.kind.isBoundary) :
    Ends layers l := by
  constructor
  · intro hmem
    simp only [suffixStarts, mem_cons, not_mem_nil, or_false] at hmem
    rcases hmem with rfl | rfl | rfl | rfl <;> cases h
  · rintro op _ rfl
    cases h

/-- Where nothing goes on if an equals sign compares, nothing goes on in a statement. -/
theorem ends_statement (h : Ends Mode.condition.layers l) :
    Ends Mode.statement.layers l ∧ l ≠ BinaryOp.assign.lexeme := by
  have hsub : ∀ op ∈ Mode.statement.layers.flatten, op ∈ Mode.condition.layers.flatten := by decide
  exact ⟨⟨h.suffix, fun op hop => h.operator op (hsub op hop)⟩, h.operator .equal (by decide)⟩

end Layers

namespace Parser

variable {run : List Lexeme}

/-- The expressions inside the same string at two places are the same. -/
def StringsAgree (levels : Nat) : Prop :=
  ∀ raw span span', (interpolations (innerAt levels) ⟨.string, raw, span'⟩).map
      withoutSpans =
    (interpolations (innerAt levels) ⟨.string, raw, span⟩).map withoutSpans

/-- The parser of the form reads the run as the value. -/
@[reducible]
def FormReads (levels : Nat) (run : List Lexeme) (n : Nat) : (form : Form) → form.Value → Prop
  | .operand, e =>
    Reaches (postfixed (innerAt levels)) (suffixStep (innerAt levels)) run n (fun _ => True)
      e.SameAs
  | .layered [], e => ∀ ops, Consumes (prefixedAfter (innerAt levels) ops) run n
      (· ∉ suffixStarts) (ops.foldr applyPrefix e).SameAs
  | .layered (ops :: layers), e => DistinctLayers (ops :: layers) →
    Reaches (layered (innerAt levels) (ops :: layers))
      (layerStep ops (layered (innerAt levels) layers)) run n (Ends layers) e.SameAs
  | .assigned, es => ∀ s, Consumes (loop s (assignmentStep (innerAt levels))) run n
      (Ends Mode.condition.layers) fun es' =>
        es'.map withoutSpans = (s ++ es).map withoutSpans
  | .inMode mode, e => Consumes (expression levels mode) run n (Ends Mode.condition.layers) e.SameAs
  | .item .expression, e => ReadsNested (innerAt levels) run n e
  | .item .property, p =>
    ReadsItem (propertyStep (innerAt levels)) "\x7d" p run n Property.withoutSpans
  | .list .expression, es => ∀ close, (mark close).closes → ∀ s,
    Consumes (loop s (listStep (innerAt levels) close)) (run ++ [mark close]) n (fun _ => True)
      fun es' => es'.map withoutSpans = (s ++ es).map withoutSpans
  | .list .property, ps => ∀ s,
    Consumes (loop s (propertyStep (innerAt levels))) (run ++ [mark "\x7d"]) n (fun _ => True)
      fun ps' => ps'.map Property.withoutSpans = (s ++ ps).map Property.withoutSpans

theorem FormReads.layered {layers : List (List BinaryOp)} {e : Expression}
    (h : FormReads levels run n (.layered layers) e) (hproper : DistinctLayers layers) :
    Consumes (layered (innerAt levels) layers) run n (Ends layers) e.SameAs := by
  cases layers with
  | nil => exact (h []).mono (fun _ hl => hl.suffix) fun _ he => he
  | cons ops layers =>
    refine (h hproper).stop (fun l hl => ?_) fun s _ => consumes_layerStep_stop s
    exact Ends.of_append (show Ends ([ops] ++ layers) l from hl)

section Lists

variable {α : Type} {step : List α → Parser (List α × Bool)} {close : String} {bare : α → α}

theorem consumes_loop_once {s items : List α}
    (hstep : Consumes (step s) run n (fun _ => True) fun r =>
      r.2 = false ∧ r.1.map bare = items.map bare) :
    Consumes (loop s step) run n (fun _ => True)
      fun items' => items'.map bare = items.map bare := by
  have hreach : Reaches (loop s step) step [] 0 (fun _ => True) fun s' => s' = s := .loop rfl
  have hlast : Consumes (loop s step) ([] ++ run) (0 + n) (fun _ => True) fun items' =>
      items'.map bare = items.map bare := by
    refine hreach.last (fun _ _ => trivial) ?_
    rintro _ rfl
    exact hstep
  rwa [Nat.zero_add] at hlast

theorem consumes_loop_close {s : List α}
    (hstop : Consumes (step s) [mark close] 0 (fun _ => True) fun r => r = (s, false)) :
    Consumes (loop s step) [mark close] 0 (fun _ => True) fun items =>
      items.map bare = (s ++ []).map bare := by
  refine consumes_loop_once (hstop.mono (fun _ hl => hl) ?_)
  rintro _ rfl
  rw [append_nil]
  exact ⟨rfl, rfl⟩

theorem consumes_loop_last {x : α} (s : List α) (hx : ReadsItem step close x run n bare)
    (hclose : (mark close).closes) :
    Consumes (loop s step) (run ++ [mark close]) n (fun _ => True) fun items =>
      items.map bare = (s ++ [x]).map bare := by
  refine consumes_loop_once ((hx s (mark close) (.inr rfl)).mono (fun _ hl => hl) ?_)
  rintro r ⟨hgo, hr⟩
  refine ⟨by simpa [ne_comma_of_closes hclose] using hgo, ?_⟩
  rw [hr, map_append, map_singleton]

/-- A step of a repetition that reads one more item, and the rest of it. -/
theorem consumes_loop_step {s rest : List α} {x : α} {run' : List Lexeme} {n' : Nat}
    {before : Lexeme → Prop} (hrun : run ≠ []) (hstep : Consumes (step s) run n before fun r =>
      r.2 = true ∧ r.1.map bare = s.map bare ++ [bare x])
        (hafter : ∀ l, after l → before (run'.headD l))
    (h : ∀ s, Consumes (loop s step) run' n' after fun items =>
      items.map bare = (s ++ rest).map bare) :
    Consumes (loop s step) (run ++ run') (n + n') after fun items =>
      items.map bare = (s ++ x :: rest).map bare := by
  show Consumes (loop s step >>= Pure.pure) _ _ _ _
  refine Consumes.loop_bind (R := fun s' => s'.map bare = s.map bare ++ [bare x]) hrun hstep
    hafter fun s' hs' => ?_
  refine (h s').mono (fun _ hl => hl) fun items hitems => ?_
  rw [hitems, map_append, hs']
  simp

theorem consumes_loop_more {rest : List α} {x : α} {run' : List Lexeme} {n' : Nat} (s : List α)
    (hx : ReadsItem step close x run n bare)
    (h : ∀ s, Consumes (loop s step) run' n' (fun _ => True) fun items =>
      items.map bare = (s ++ rest).map bare) :
    Consumes (loop s step) (run ++ mark "," :: run') (n + n') (fun _ => True) fun items =>
      items.map bare = (s ++ x :: rest).map bare := by
  have hstep : Consumes (step s) (run ++ [mark ","]) n (fun _ => True) fun r =>
      r.2 = true ∧ r.1.map bare = s.map bare ++ [bare x] := by
    refine (hx s (mark ",") (.inl rfl)).mono (fun _ hl => hl) ?_
    rintro r ⟨hgo, hr⟩
    exact ⟨by simpa using hgo, hr⟩
  have hall := consumes_loop_step (by simp) hstep (fun _ _ => trivial) h
  rwa [append_assoc] at hall

end Lists

theorem consumes_assigned_stop {inner : Option (Parser Expression)} (s : List Expression) :
    Consumes (loop s (assignmentStep inner)) [] 0 (Ends Mode.condition.layers) fun es =>
      es.map withoutSpans = (s ++ []).map withoutSpans := by
  have hreach : Reaches (loop s (assignmentStep inner)) (assignmentStep inner) []
      0 (Ends Mode.condition.layers) fun s' => s' = s := .loop rfl
  refine (hreach.stop (fun _ hl => hl) fun s' _ => ?_).mono (fun _ hl => hl) ?_
  · exact (consumes_assignmentStep_stop s').mono (fun _ hl => (ends_statement hl).2) fun _ hr => hr
  · rintro _ rfl
    rw [append_nil]

theorem sameAs_assignAll_of_map {first first' : Expression} {others others' : List Expression}
    (hfirst : first.SameAs first')
    (h : others'.map withoutSpans = others.map withoutSpans) :
    (assignAll first others).SameAs (assignAll first' others') := by
  induction others generalizing first first' others' with
  | nil =>
    obtain rfl : others' = [] := by simpa using h
    exact hfirst
  | cons e others ih =>
    obtain ⟨e', rest, rfl, he', hrest⟩ := map_eq_cons_iff.1 h
    exact congrArg₂ (binary .assign · · default) hfirst (ih he' hrest)

theorem consumes_number {inner : Option (Parser Expression)} (raw : String) (span : Span) :
    Consumes (primary inner) [⟨.number, raw⟩] 0 after
      (literal (numberValue raw) raw [] span).SameAs :=
  .of_token fun _ => .peek (.next (.pure rfl))

theorem consumes_string (hstrings : StringsAgree levels) (raw : String) (span : Span) :
    Consumes (primary (innerAt levels)) [⟨.string, raw⟩] 0 after
      (literal (.string (stringValue raw)) raw
        (interpolations (innerAt levels) ⟨.string, raw, span⟩) span).SameAs := by
  refine .of_token fun place => .peek (.next (.pure ?_))
  show (literal _ raw (interpolations (innerAt levels) ⟨.string, raw, place⟩)
      _).withoutSpans = _
  rw [withoutSpans, withoutSpans, withoutSpansEach_eq_map,
    withoutSpansEach_eq_map, hstrings raw span place]

end Parser

/-- How what is derived begins: an operator stands before an operand only where it may. -/
theorem Derives.begins {levels n : Nat} (h : Derives levels form ts n a) :
    match form with
    | .operand => ∃ l, (ts.map Token.lexeme).head? = some l ∧ Begins suffixPrecedence l
    | .assigned | .list _ => True
    | _ => ∃ l, (ts.map Token.lexeme).head? = some l ∧ Begins 0 l := by
  have hadd : ∀ {precedence : Nat} {us : List Token} (vs : List Token),
      (∃ l, (us.map Token.lexeme).head? = some l ∧ Begins precedence l) →
      ∃ l, ((us ++ vs).map Token.lexeme).head? = some l ∧ Begins precedence l := by
    rintro precedence us vs ⟨l, hhead, hl⟩
    exact ⟨l, by simp [hhead], hl⟩
  have hoperand : ∀ {t : Token}, t.kind ∈ [Token.Kind.identifier, .number, .string] →
      ∃ l, ([t].map Token.lexeme).head? = some l ∧ Begins suffixPrecedence l :=
    fun {t} ht => ⟨t.lexeme, rfl, .inl ht⟩
  have hopen : ∀ {t : Token} {l : Lexeme} (us : List Token), t.lexeme = l → l.opens →
      ∃ l, ((t :: us).map Token.lexeme).head? = some l ∧ Begins suffixPrecedence l := by
    rintro t _ us rfl hl
    exact ⟨t.lexeme, rfl, .inr (.inl hl)⟩
  induction h with
  | identifier ht | number ht | string ht => exact hoperand (by simp [ht])
  | group hfirst _ _ _ | array hfirst _ _ _ | object hfirst _ _ _ => exact hopen _ hfirst rfl
  | member _ _ _ ih => exact hadd _ ih
  | call _ _ _ _ ih _ | index _ _ _ _ ih _ => exact hadd _ ih
  | bare _ ih =>
    obtain ⟨l, hhead, hl⟩ := ih
    exact ⟨l, hhead, hl.mono (Nat.zero_le _)⟩
  | @unary _ _ t _ _ op ht _ _ => exact ⟨t.lexeme, rfl, .inr (.inr ⟨by decide, op, ht⟩)⟩
  | tighter _ ih | condition _ ih | nested _ ih => exact ih
  | binary _ _ _ _ ih _ => exact hadd _ ih
  | statement _ _ ih _ => exact hadd _ ih
  | property _ _ _ _ ih _ => exact hadd _ ih
  | unassigned | assign _ _ _ _ _ | empty | last _ _ | more _ _ _ _ _ => trivial

theorem Derives.starts {levels n : Nat} {e : Expression}
    (h : Derives levels (.item .expression) ts n e) : Starts (ts.map Token.lexeme) := by
  obtain ⟨l, hhead, hl⟩ := h.begins
  exact ⟨l, hhead, not_closes_of_begins hl⟩

section Levels

variable {k : Nat} {ts : List Token} {depth : Int}

theorem Derives.levels_pos {x : Item} {a : x.Value} (h : Derives levels (.item x) ts n a) :
    (1 : Int) ≤ levels := by
  cases h with
  | nested => omega
  | property hkey =>
    cases hkey
    omega

/-- Around the first lexeme of an item no more brackets are open than there are levels. -/
theorem Derives.le_of_fits {x : Item} {a : x.Value} (h : Derives levels (.item x) ts n a)
    (hfits : fits k depth (ts.map Token.lexeme)) : depth ≤ k := by
  obtain ⟨l, hhead, hl⟩ := h.begins
  obtain ⟨rest, hrest⟩ := head?_eq_some_iff.1 hhead
  rw [hrest, fits, (not_closes_of_begins hl).1, Bool.false_or, Bool.and_eq_true,
    decide_eq_true_eq] at hfits
  exact hfits.1

/-- With the levels that there are, no more brackets are open around any part of an expression. -/
theorem Derives.fits (h : Derives levels form ts n a) :
    fits levels form.around (ts.map Token.lexeme) := by
  have hoperand : ∀ {k : Nat} {t : Token}, Lexeme.fits k 0 [t.lexeme] := by
    simp [Lexeme.fits]
  induction h with
  | identifier | number | string => exact hoperand
  | group hfirst h hlast ih | array hfirst h hlast ih | object hfirst h hlast ih =>
    exact (h.fits_bracketed hfirst rfl hlast rfl).trans ih
  | member h ht hname ih =>
    rw [h.fits_append, ih, Form.around, fits_plain ht (bracketStep_separator _) (by omega)]
    exact hoperand
  | call h hfirst h' hlast ih ih' | index h hfirst h' hlast ih ih' =>
    rw [h.fits_append, ih]
    exact (h'.fits_bracketed hfirst rfl hlast rfl).trans ih'
  | bare _ ih | tighter _ ih | condition _ ih | last _ ih => exact ih
  | nested _ ih => exact (fits_succ _ 0).trans ih
  | unary ht _ ih =>
    rw [Form.around, fits_plain ht (bracketStep_unaryOp _) (by omega)]
    exact ih
  | binary h _ ht _ ih ih' =>
    rw [h.fits_append, ih, Form.around, fits_plain ht (bracketStep_binaryOp _) (by omega)]
    exact ih'
  | property h ht _ _ ih ih' =>
    rw [h.fits_append, Form.around, fits_plain ht (bracketStep_operator _) h.levels_pos]
    exact Bool.and_eq_true_iff.2 ⟨ih, ih'⟩
  | more h ht _ ih ih' =>
    rw [h.fits_append, Form.around, fits_plain ht rfl h.levels_pos]
    exact Bool.and_eq_true_iff.2 ⟨ih, ih'⟩
  | assign ht h _ ih ih' =>
    rw [cons_append, Form.around, fits_plain ht (bracketStep_binaryOp _) (by omega),
      h.fits_append]
    exact Bool.and_eq_true_iff.2 ⟨ih, ih'⟩
  | statement h _ ih ih' =>
    rw [h.fits_append]
    exact Bool.and_eq_true_iff.2 ⟨ih, ih'⟩
  | unassigned | empty => rfl

/-- An expression without strings needs no more levels than brackets are open around its parts. -/
theorem Derives.of_fits (h : Derives levels form ts n a) (hplain : ∀ t ∈ ts, t.kind ≠ .string)
    (hfits : Lexeme.fits k form.around (ts.map Token.lexeme)) : Derives k form ts n a := by
  induction h generalizing k with
  | identifier ht => exact .identifier ht
  | number ht => exact .number ht
  | string ht => exact absurd ht (hplain _ (mem_singleton_self _))
  | group hfirst h hlast ih =>
    rw [Form.around, h.fits_bracketed hfirst rfl hlast rfl] at hfits
    exact .group hfirst (ih (fun t ht => hplain t (by simp [ht])) hfits) hlast
  | array hfirst h hlast ih =>
    rw [Form.around, h.fits_bracketed hfirst rfl hlast rfl] at hfits
    exact .array hfirst (ih (fun t ht => hplain t (by simp [ht])) hfits) hlast
  | object hfirst h hlast ih =>
    rw [Form.around, h.fits_bracketed hfirst rfl hlast rfl] at hfits
    exact .object hfirst (ih (fun t ht => hplain t (by simp [ht])) hfits) hlast
  | member h ht hname ih =>
    rw [h.fits_append, Bool.and_eq_true] at hfits
    exact .member (ih (forall_mem_append.1 hplain).1 hfits.1) ht hname
  | call h hfirst h' hlast ih ih' =>
    rw [h.fits_append, Bool.and_eq_true, Form.around,
      h'.fits_bracketed hfirst rfl hlast rfl] at hfits
    exact .call (ih (forall_mem_append.1 hplain).1 hfits.1) hfirst
      (ih' (fun t ht => hplain t (by simp [ht])) hfits.2) hlast
  | index h hfirst h' hlast ih ih' =>
    rw [h.fits_append, Bool.and_eq_true, Form.around,
      h'.fits_bracketed hfirst rfl hlast rfl] at hfits
    exact .index (ih (forall_mem_append.1 hplain).1 hfits.1) hfirst
      (ih' (fun t ht => hplain t (by simp [ht])) hfits.2) hlast
  | bare _ ih => exact .bare (ih hplain hfits)
  | tighter _ ih => exact .tighter (ih hplain hfits)
  | condition _ ih => exact .condition (ih hplain hfits)
  | nested h ih =>
    have hpos : (1 : Int) ≤ k := (Derives.nested h).le_of_fits hfits
    obtain ⟨k, rfl⟩ : ∃ k', k = k' + 1 := ⟨k - 1, by omega⟩
    exact .nested (ih hplain ((fits_succ k 0).symm.trans hfits))
  | last _ ih => exact .last (ih hplain hfits)
  | unary ht _ ih =>
    rw [Form.around, fits_plain ht (bracketStep_unaryOp _) (by omega)] at hfits
    exact .unary ht (ih (forall_mem_cons.1 hplain).2 hfits)
  | binary h hop ht _ ih ih' =>
    obtain ⟨hleft, hright⟩ := forall_mem_append.1 hplain
    rw [h.fits_append, Bool.and_eq_true, Form.around,
      fits_plain ht (bracketStep_binaryOp _) (by omega)] at hfits
    exact .binary (ih hleft hfits.1) hop ht (ih' (forall_mem_cons.1 hright).2 hfits.2)
  | property h ht _ span ih ih' =>
    obtain ⟨hkey, hvalue⟩ := forall_mem_append.1 hplain
    rw [h.fits_append, Bool.and_eq_true] at hfits
    have hrest := hfits.2
    rw [fits_plain ht (bracketStep_operator _) (h.le_of_fits hfits.1)] at hrest
    exact .property (ih hkey hfits.1) ht (ih' (forall_mem_cons.1 hvalue).2 hrest) span
  | more h ht _ ih ih' =>
    obtain ⟨hitem, hitems⟩ := forall_mem_append.1 hplain
    rw [h.fits_append, Bool.and_eq_true] at hfits
    have hrest := hfits.2
    rw [fits_plain ht rfl (h.le_of_fits hfits.1)] at hrest
    exact .more (ih hitem hfits.1) ht (ih' (forall_mem_cons.1 hitems).2 hrest)
  | assign ht h _ ih ih' =>
    obtain ⟨hoperand, hrest⟩ := forall_mem_append.1 hplain
    rw [cons_append, Form.around, fits_plain ht (bracketStep_binaryOp _) (by omega),
      h.fits_append, Bool.and_eq_true] at hfits
    exact .assign ht (ih (forall_mem_cons.1 hoperand).2 hfits.1) (ih' hrest hfits.2)
  | statement h _ ih ih' =>
    obtain ⟨hfirst, hrest⟩ := forall_mem_append.1 hplain
    rw [h.fits_append, Bool.and_eq_true] at hfits
    exact .statement (ih hfirst hfits.1) (ih' hrest hfits.2)
  | unassigned => exact .unassigned
  | empty => exact .empty

end Levels

/-- Before operands of assignments an operand ends. -/
theorem Derives.ends_assigned {levels n : Nat} {es : List Expression}
    (h : Derives levels .assigned ts n es) (hl : Ends Mode.condition.layers l) :
    Ends Mode.statement.layers ((ts.map Token.lexeme).headD l) := by
  cases h with
  | unassigned => exact (ends_statement hl).1
  | assign ht _ _ =>
    rw [map_append, map_cons, ht]
    exact ends_assign

/-- Tokens are read as what is derived from them, if the expressions inside strings do not depend on
where the strings stand. -/
theorem Derives.reads {levels n : Nat} (h : Derives levels form ts n a)
    (hstrings : ∀ l ≤ levels, StringsAgree l) :
    FormReads levels (ts.map Token.lexeme) n form a := by
  induction h with
  | @identifier _ t ht =>
    rw [map_singleton, Token.lexeme_of_kind ht]
    exact .bind (consumes_identifier t.text t.span)
  | @number _ t ht =>
    rw [map_singleton, Token.lexeme_of_kind ht]
    exact .bind (consumes_number t.text t.span)
  | @string levels t ht =>
    obtain ⟨kind, raw, span⟩ := t
    cases ht
    exact .bind (consumes_string (hstrings levels (Nat.le_refl _)) raw span)
  | group hfirst _ hlast ih =>
    rw [map_cons, map_append, map_singleton, hfirst, hlast]
    exact .bind (consumes_enclosed (ih hstrings))
  | array hfirst _ hlast ih =>
    rw [map_cons, map_append, map_singleton, hfirst, hlast]
    exact .bind (consumes_array _ (ih hstrings "]" rfl []))
  | object hfirst _ hlast ih =>
    rw [map_cons, map_append, map_singleton, hfirst, hlast]
    exact .bind (consumes_object _ (ih hstrings []))
  | @member _ _ t name ts e namespaced _ ht hname ih =>
    rw [map_append, map_cons, map_singleton, ht, Token.lexeme_of_kind hname]
    refine (ih hstrings).more (cons_ne_nil _ _) (fun _ _ => trivial) fun s hs => ?_
    exact consumes_suffixStep_member hs ⟨name.text, name.span⟩ namespaced _
  | call _ hfirst _ hlast ih ih' =>
    rw [map_append, map_cons, map_append, map_singleton, hfirst, hlast]
    refine (ih hstrings).more (cons_ne_nil _ _) (fun _ _ => trivial) fun s hs => ?_
    exact consumes_suffixStep_call hs _ (ih' hstrings ")" rfl [])
  | index _ hfirst _ hlast ih ih' =>
    rw [map_append, map_cons, map_append, map_singleton, hfirst, hlast]
    refine (ih hstrings).more (cons_ne_nil _ _) (fun _ _ => trivial) fun s hs => ?_
    exact consumes_suffixStep_index hs _ (ih' hstrings)
  | bare h ih =>
    exact consumes_prefixedAfter_of_postfixed (consumes_postfixed_of_reaches (ih hstrings))
      h.begins
  | @unary _ n _ _ _ op ht _ ih =>
    rw [map_cons, ht, Nat.add_comm n 1]
    exact consumes_prefixedAfter_unary op _ (ih hstrings)
  | tighter _ ih => exact fun hproper => .bind ((ih hstrings).layered hproper.tail)
  | binary _ hop ht _ ih ih' =>
    intro hproper
    rw [map_append, map_cons, ht]
    obtain ⟨hassign, hends⟩ := hproper.ends hop
    refine (ih hstrings hproper).more (cons_ne_nil _ _) (fun _ _ => hends) fun s hs => ?_
    exact consumes_layerStep hs ((ih' hstrings).layered hproper.tail) hop hassign _
  | unassigned => exact consumes_assigned_stop
  | assign ht _ hrest ih ih' =>
    intro s
    rw [map_append, map_cons, ht]
    refine consumes_loop_step (cons_ne_nil _ _) ?_ (fun l hl => hrest.ends_assigned hl)
      (ih' hstrings)
    exact consumes_assignmentStep ((ih hstrings).layered (Mode.distinct_layers .statement)) s
  | @statement levels _ _ _ _ _ _ _ hoperands ih ih' =>
    show Consumes (expression levels .statement) _ _ _ _
    rw [expression_eq, map_append]
    refine ((ih hstrings).layered (Mode.distinct_layers .statement)).bind
      (fun l hl => hoperands.ends_assigned hl) fun first' hfirst' => ?_
    refine (ih' hstrings []).bind_nil (fun _ hl => hl) fun operands' hoperands' => .pure ?_
    exact sameAs_assignAll_of_map hfirst' hoperands'
  | @condition levels _ _ _ _ ih =>
    show Consumes (expression levels .condition) _ _ _ _
    rw [expression_eq]
    exact (ih hstrings).layered (Mode.distinct_layers .condition)
  | nested _ ih => exact ih fun l hl => hstrings l (Nat.le_succ_of_le hl)
  | property hkey ht _ span ih ih' =>
    rw [map_append, map_cons, ht]
    exact readsItem_property span (ih hstrings) hkey.starts (ih' hstrings)
  | @empty _ x =>
    cases x with
    | expression => exact fun close _ s => consumes_loop_close (consumes_itemStep_close _ close s)
    | property =>
      intro s
      rw [propertyStep_eq]
      exact consumes_loop_close (consumes_itemStep_close _ _ s)
  | @last _ _ x _ _ h ih =>
    cases x with
    | expression =>
      exact fun close hclose s =>
        consumes_loop_last s (readsItem_itemStep (ih hstrings) h.starts hclose) hclose
    | property => exact fun s => consumes_loop_last s (ih hstrings) rfl
  | @more _ _ _ x _ _ _ _ _ h ht _ ih ih' =>
    rw [map_append, map_cons, ht]
    cases x with
    | expression =>
      intro close hclose s
      rw [append_assoc]
      exact consumes_loop_more s (readsItem_itemStep (ih hstrings) h.starts hclose)
        (ih' hstrings close hclose)
    | property =>
      intro s
      rw [append_assoc]
      exact consumes_loop_more s (ih hstrings) (ih' hstrings)

/-- The same pieces give the same lexemes at any place. -/
theorem Piece.map_lexeme_place (p p' : Position) (pieces : List Piece) :
    (place p' pieces).map Token.lexeme = (place p pieces).map Token.lexeme := by
  induction pieces generalizing p p' with
  | nil => rfl
  | cons piece pieces ih =>
    cases piece with
    | mark => exact ih _ _
    | gap text => exact ih _ _
    | token kind text => exact congrArg (_ :: ·) (ih _ _)

theorem map_lexeme_tokenizeExpression (text : String) (p p' : Position) :
    (tokenizeExpression text p').map Token.lexeme =
      (tokenizeExpression text p).map Token.lexeme := by
  have hfilter : ∀ ts : List Token, (ts.filter Token.isContent).map Token.lexeme =
      (ts.map Token.lexeme).filter fun l => !l.kind.isStructural && l.kind != .expressionStart :=
    fun ts => by rw [filter_map]; rfl
  unfold tokenizeExpression
  rw [hfilter, hfilter, Piece.map_lexeme_place p p']

namespace Parser

variable {ts ts' : List Token} {stop stop' : Position}

theorem isBoundary_headD_dropWhile (ts : List Token) :
    (((ts.dropWhile fun t => !t.kind.isBoundary).map Token.lexeme).headD
      .ending).kind.isBoundary := by
  cases hdrop : ts.dropWhile fun t => !t.kind.isBoundary with
  | nil => rfl
  | cons t rest =>
    have hhead := head_dropWhile_not (fun t : Token => !t.kind.isBoundary) (l := ts)
      (by simp [hdrop])
    have hkind : t.kind.isBoundary := by simpa [hdrop] using hhead
    exact hkind

/-- Two runs over the same lexemes agree, if the expressions inside strings do. -/
theorem standalone_agrees (hstrings : ∀ l ≤ levels, StringsAgree l)
    (hlexemes : ts'.map Token.lexeme = ts.map Token.lexeme)
    (hclean : (standalone (expression levels mode) (Cursor.start ts stop)).2.diagnostics = []) :
    (standalone (expression levels mode) (Cursor.start ts' stop')).2.diagnostics = [] ∧
    (standalone (expression levels mode) (Cursor.start ts stop)).1.SameAs
      (standalone (expression levels mode) (Cursor.start ts' stop')).1 := by
  obtain ⟨n, hn, hderives⟩ := derives_standalone hclean
  obtain ⟨l, hhead, hl⟩ := hderives.begins
  have hbound := isBoundary_headD_dropWhile ts
  have hsplit : ts'.map Token.lexeme =
      (ts.takeWhile fun t => !t.kind.isBoundary).map Token.lexeme ++
        (ts.dropWhile fun t => !t.kind.isBoundary).map Token.lexeme := by
    rw [hlexemes, ← map_append, takeWhile_append_dropWhile]
  exact standalone_of_consumed (c := Cursor.start ts' stop') (hderives.reads hstrings)
    ⟨l, hhead, (not_closes_of_begins hl).2⟩ hn (ends_of_isBoundary _ hbound) hbound hsplit

theorem regionExpression?_agrees (hstrings : ∀ l ≤ levels, StringsAgree l)
    (p p' : Position) (region : List Char) :
    (regionExpression? (expression levels .condition) (p', region)).map withoutSpans =
      (regionExpression? (expression levels .condition) (p, region)).map
        withoutSpans := by
  unfold regionExpression?
  split
  · rfl
  have hagrees := fun q q' : Position => @standalone_agrees levels .condition _ _ (q.advance region)
    (q'.advance region) hstrings (map_lexeme_tokenizeExpression (String.ofList region) q q')
  dsimp only
  split
  · next hclean' =>
    obtain ⟨hclean, -⟩ := hagrees p' p (isEmpty_iff.1 hclean')
    rw [if_pos (isEmpty_iff.2 hclean)]
    exact congrArg some (hagrees p p' hclean).2
  · next hclean' =>
    have hclean : ¬ _ := fun hclean =>
      hclean' (isEmpty_iff.2 (hagrees p p' (isEmpty_iff.1 hclean)).1)
    rw [if_neg hclean]

/-- The expressions inside a string do not depend on where it stands. -/
theorem stringsAgree (levels : Nat) : StringsAgree levels := by
  induction levels using Nat.strong_induction_on with
  | _ levels ih =>
  intro raw span span'
  cases levels with
  | zero => rfl
  | succ levels =>
    have hfilter : ∀ {rs rs' : List (Position × List Char)},
        Forall₂ (fun r r' => r'.2 = r.2) rs rs' →
        (rs'.filterMap (regionExpression? (expression levels .condition))).map
        withoutSpans =
          (rs.filterMap (regionExpression? (expression levels .condition))).map
            withoutSpans := by
      intro rs rs' h
      rw [map_filterMap, map_filterMap]
      induction h with
      | nil => rfl
      | @cons r r' rs rs' hr _ hrest =>
        obtain ⟨q, region⟩ := r
        obtain ⟨q', region'⟩ := r'
        obtain rfl : region' = region := hr
        have hfirst :=
          regionExpression?_agrees (fun l hl => ih l (Nat.lt_succ_of_le hl)) q q' region'
        rw [filterMap_cons, filterMap_cons, hfirst, hrest]
    refine hfilter ((forall₂_braceRegions span.start span'.start raw.toList).imp ?_)
    rintro r r' ⟨xs, ys, -, -, rfl⟩
    rfl

end Parser

section Whole

variable {ts : List Token} {e : Expression}

/-- An expression is read from the lexemes of the tokens that derive it. -/
theorem Derives.consumes (h : Derives levels (.inMode mode) ts n e) :
    Consumes (expression levels mode) (ts.map Token.lexeme) n (Ends Mode.condition.layers)
      e.SameAs :=
  h.reads fun l _ => stringsAgree l

/-- An expression that fills the line up to a boundary is read from the lexemes of the tokens that
derive it. -/
theorem Derives.standalone (h : Derives levels (.inMode mode) ts n e) (hn : n ≤ maxOperations)
    {c : Cursor} {rest : List Lexeme} (hahead : c.ahead = ts.map Token.lexeme ++ rest)
    (hrest : (rest.headD .ending).kind.isBoundary) :
    (Parser.standalone (expression levels mode) c).2.diagnostics = c.diagnostics ∧
    e.SameAs (Parser.standalone (expression levels mode) c).1 := by
  obtain ⟨l, hhead, hl⟩ := h.begins
  exact standalone_of_consumed h.consumes ⟨l, hhead, (not_closes_of_begins hl).2⟩ hn
    (ends_of_isBoundary _ hrest) hrest hahead

end Whole

end ScriptLint

import ScriptLint.Proofs.DerivedReads

/-!
# Derivations of lines

What a line holds derives its value when the line is read without a report, and is read from what
derives it.  A text is a sequence of plain runs and of expressions between braces.

**Clean runs.**  `Clears` says of a run that it loses no diagnostic and, if it adds none, what it
has read.  It does not count operations: every expression of a text begins a count of its own.

**Results.**
* `DerivesText`: the derivations.
* `clears_interpolation`, `clears_textStep`: one part of a text.
* `clears_textContent`, `textContent_of_derives`: whole texts, by induction over the parts.
* `expressionLine_of_derives`: lines with an expression.
-/

namespace ScriptLint

open List Cursor

open ScriptLint.Parser

variable {parts : List TextPart} {us : List Token} {c : Cursor}

theorem Expression.reshape_erased (e : Expression) : e.reshape .erased = e.withoutSpans := by
  induction e using childInduction with
  | step e ih =>
  cases e with
  | literal value raw interpolations span =>
    cases value <;> simp_all [reshape, withoutSpans, children, reshapeList_eq_map,
      withoutSpansEach_eq_map, LiteralValue.reshape, LiteralValue.reshapeRaw, Reshape.erased]
  | object properties span =>
    have hproperties : ∀ p ∈ properties, p.reshape .erased = p.withoutSpans := by
      rintro ⟨key, value, place⟩ hp
      obtain ⟨hkey, hvalue⟩ := mem_children_object hp
      rw [Property.reshape, ih key hkey, ih value hvalue]
      rfl
    rw [reshape, withoutSpans, Property.reshapeList_eq_map, Property.withoutSpansEach_eq_map,
      map_congr_left hproperties]
    rfl
  | _ =>
    simp_all [reshape, withoutSpans, children, reshapeList_eq_map, withoutSpansEach_eq_map,
      Reshape.erased]

theorem Expression.SameAs.reshape {e e' : Expression} (h : e.SameAs e') :
    e'.reshape .erased = e.reshape .erased := by
  rw [e.reshape_erased, e'.reshape_erased]
  exact h

/-- With a number of levels left for brackets, the tokens are read as the parts of a text. -/
inductive DerivesText (levels : Nat) : List Token → List TextPart → Prop
  | nil : DerivesText levels [] []
  | run {t : Token} {ts : List Token} {parts : List TextPart}
      (hcontent : t.kind.isStructural = false) (hstart : t.kind ≠ .interpolationStart)
      (hvalid : t.kind ≠ .invalid)
      (h : DerivesText levels ts parts) : DerivesText levels (t :: ts) (.run t.text t.span :: parts)
  | interpolation {first last : Token} {us ts : List Token} {n : Nat} {e : Expression}
      {parts : List TextPart} (hfirst : first.kind = .interpolationStart)
      (he : Derives levels (.inMode .condition) us n e) (hn : n ≤ maxOperations)
      (hlast : last.kind = .interpolationEnd) (h : DerivesText levels ts parts) :
      DerivesText levels (first :: (us ++ last :: ts)) (.interpolation e :: parts)

theorem DerivesText.append {levels : Nat} {ts : List Token} {more : List TextPart}
    (h : DerivesText levels ts parts) (h' : DerivesText levels us more) :
    DerivesText levels (ts ++ us) (parts ++ more) := by
  induction h with
  | nil => exact h'
  | run hcontent hstart hvalid _ ih => exact .run hcontent hstart hvalid ih
  | interpolation hfirst he hn hlast _ ih =>
    rw [cons_append, append_assoc]
    exact .interpolation hfirst he hn hlast ih

/-- A text that is one expression between braces. -/
theorem DerivesText.single {levels : Nat} {first last : Token}
    (h : DerivesText levels (first :: (us ++ [last])) parts)
    (hfirst : first.kind = .interpolationStart)
    (hus : ∀ t ∈ us, t.kind ≠ .interpolationEnd) (hlast : last.kind = .interpolationEnd) :
    ∃ n e, n ≤ maxOperations ∧ Derives levels (.inMode .condition) us n e ∧
      parts = [.interpolation e] := by
  generalize hread : first :: (us ++ [last]) = read at h
  cases h with
  | nil => cases hread
  | run _ hstart =>
    obtain ⟨rfl, -⟩ := cons.inj hread
    exact absurd hfirst hstart
  | @interpolation _ last' us' ts n e parts _ he hn hlast' h =>
    obtain ⟨-, hrest⟩ := cons.inj hread
    have hinside : ∀ t ∈ us', t.kind ≠ .interpolationEnd := by
      intro t ht hkind
      have hpart := Lexeme.isBoundary_of_isPart (he.isPart t ht)
      rw [show t.lexeme.kind = .interpolationEnd from hkind] at hpart
      cases hpart
    have hbefore : ∀ {vs ws : List Token} {t : Token}, (∀ v ∈ vs, v.kind ≠ .interpolationEnd) →
        t.kind = .interpolationEnd →
        (vs ++ t :: ws).takeWhile (fun t => !(t.kind == .interpolationEnd)) = vs := by
      intro vs ws t hvs ht
      rw [takeWhile_append_of_pos (by simpa using hvs),
        takeWhile_cons_of_neg (by simp [ht]),
        append_nil]
    obtain rfl : us = us' := by
      rw [← hbefore hus hlast, hrest, hbefore hinside hlast']
    obtain ⟨-, rfl⟩ := cons.inj (append_cancel_left hrest)
    cases h
    exact ⟨n, e, hn, he, rfl⟩

namespace Parser

/-- What a run gave from a cursor: no diagnostic is lost, and if none is new, the property holds of
what was read and of the value. -/
structure Clears {α : Type} (c : Cursor) (Q : List Token → α → Prop) (r : α × Cursor) : Prop where
  diagnostics : c.diagnostics.length ≤ r.2.diagnostics.length
  clean : r.2.diagnostics.length = c.diagnostics.length →
    ∃ read, c.rest = read ++ r.2.rest ∧ Q read r.1

section Rules

variable {α β : Type} {d : Cursor} {Q : List Token → β → Prop}

theorem Clears.pure {b : β} (h : Q [] b) : Clears c Q (b, c) :=
  ⟨Nat.le_refl _, fun _ => ⟨[], rfl, h⟩⟩

/-- A run that reports something. -/
theorem Clears.of_lt {r : β × Cursor} (h : c.diagnostics.length < r.2.diagnostics.length) :
    Clears c Q r :=
  ⟨h.le, fun hclean => absurd hclean h.ne'⟩

theorem Clears.mono {Q' : List Token → β → Prop} {r : β × Cursor} (h : Clears c Q r)
    (himp : ∀ read b, Q read b → Q' read b) : Clears c Q' r := by
  refine ⟨h.diagnostics, fun hclean => ?_⟩
  obtain ⟨read, hrest, hq⟩ := h.clean hclean
  exact ⟨read, hrest, himp _ _ hq⟩

theorem Clears.trans {R : List Token → α → Prop} {r : α × Cursor} {r' : β × Cursor}
    (h : Clears c R r)
    (h' : Clears r.2 (fun read' b => ∀ read, R read r.1 → Q (read ++ read') b) r') :
    Clears c Q r' := by
  refine ⟨h.diagnostics.trans h'.diagnostics, fun hclean => ?_⟩
  have hgrows := h.diagnostics
  have hgrows' := h'.diagnostics
  obtain ⟨read, hrest, hread⟩ := h.clean (by omega)
  obtain ⟨read', hrest', hread'⟩ := h'.clean (by omega)
  exact ⟨read ++ read', by rw [hrest, hrest', append_assoc], hread' read hread⟩

/-- One token is read. -/
theorem clears_advance (h : c.AtContent) :
    Clears c (fun read _ => read = [c.current]) (c.current, c.advance) := by
  refine ⟨(congrArg length c.diagnostics_advance).ge, fun _ => ⟨[c.current], ?_, rfl⟩⟩
  exact rest_eq_cons h

end Rules

theorem closeInterpolation_of_end (h : c.current.kind = .interpolationEnd) :
    closeInterpolation c = ((), c.advance) := by
  change (if !(c.current.kind == .interpolationEnd) then _ else _ : Parser Unit) c = _
  rw [if_neg (by simp [h])]
  exact Prod.ext rfl ((skipKind_snd _ c).trans (if_pos h))

theorem clears_closeInterpolation (c : Cursor) :
    Clears c (fun read _ => ∃ t, read = [t] ∧ t.kind = .interpolationEnd)
      (closeInterpolation c) := by
  by_cases hkind : c.current.kind = .interpolationEnd
  · rw [closeInterpolation_of_end hkind]
    have hread := clears_advance (c := c) (.of_kind hkind rfl)
    refine ⟨hread.diagnostics, fun _ => ⟨[c.current], ?_, _, rfl, hkind⟩⟩
    exact rest_eq_cons (.of_kind hkind rfl)
  · refine .of_lt ?_
    change _ < ((if !(c.current.kind == .interpolationEnd) then _ else _ : Parser Unit)
        c).2.diagnostics.length
    rw [if_pos (by simp [hkind])]
    change _ < (skipKind .interpolationEnd (Cursor.skipTo _ (c.report _ _))).2.diagnostics.length
    rw [skipKind_snd]
    split
    · rw [diagnostics_advance]
      exact Nat.lt_succ_self _
    · exact Nat.lt_succ_self _

/-- An expression between braces, behind the opening one. -/
theorem clears_interpolation (levels : Nat) (opening : Span) (c : Cursor) :
    Clears c (fun read e => ∃ us last n, read = us ++ [last] ∧ last.kind = .interpolationEnd ∧
      n ≤ maxOperations ∧ Derives levels (.inMode .condition) us n e)
      (interpolation (expression levels) opening c) := by
  change Clears c _ ((if c.current.kind = .interpolationEnd then _ else _ : Parser Expression) c)
  split
  · refine .of_lt ?_
    change _ < c.advance.diagnostics.length + 1
    rw [diagnostics_advance]
    exact Nat.lt_succ_self _
  split
  · refine .of_lt ?_
    exact Nat.lt_of_lt_of_le (Nat.lt_succ_self _)
      (clears_closeInterpolation (c.report _ _)).diagnostics
  change Clears c _ ((expression levels .condition c.fresh).1,
    (closeInterpolation (expression levels .condition c.fresh).2).2)
  have hgrows : c.diagnostics.length ≤
      (expression levels .condition c.fresh).2.diagnostics.length :=
    (reads_expression levels .condition c.fresh c.fresh.supplied_anything).line.diagnostics
  have hclose := clears_closeInterpolation (expression levels .condition c.fresh).2
  refine ⟨hgrows.trans hclose.diagnostics, fun hclean => ?_⟩
  have hall : (closeInterpolation (expression levels .condition c.fresh).2).2.diagnostics.length =
      c.diagnostics.length := hclean
  have hgrows' := hclose.diagnostics
  have hinner : (expression levels .condition c.fresh).2.diagnostics.length =
      c.diagnostics.length :=
    by omega
  obtain ⟨_, hafter, last, rfl, hlast⟩ := hclose.clean (by omega)
  have hbound : (expression levels .condition c.fresh).2.current.kind.isBoundary := by
    rw [Cursor.current, hafter]
    show last.kind.isBoundary
    rw [hlast]
    rfl
  obtain ⟨n, hn, hrest, hderives⟩ := derives_of_clean (c := c.fresh) rfl hinner hbound
  refine ⟨_ ++ [last], ?_, _, last, n, rfl, hlast, hn, hderives⟩
  rw [append_assoc, ← hafter]
  exact hrest

/-- One part of a text. -/
theorem clears_textStep (levels : Nat) (parts : List TextPart) (h : c.AtContent) :
    Clears c (fun read r => ∃ part, r.1 = parts ++ [part] ∧ DerivesText levels read [part])
      (textStep (expression levels) parts c) := by
  change Clears c _
    ((if c.current.kind.isStructural = true then _ else _ : Parser (List TextPart × Bool)) c)
  rw [if_neg (by simp [h])]
  refine (clears_advance h).trans ?_
  change Clears c.advance _
    ((if c.current.kind = .interpolationStart then _ else _ : Parser (List TextPart × Bool))
      c.advance)
  split
  · next hstart =>
    have hinner := clears_interpolation levels c.current.span c.advance
    refine ⟨hinner.diagnostics, fun hclean => ?_⟩
    obtain ⟨_, hrest, us, last, n, rfl, hlast, hn, hderives⟩ := hinner.clean hclean
    refine ⟨us ++ [last], hrest, ?_⟩
    rintro _ rfl
    exact ⟨_, rfl, .interpolation hstart hderives hn hlast .nil⟩
  · next hstart =>
    split
    · exact .of_lt (Nat.lt_succ_self _)
    · next hvalid =>
      refine .pure ?_
      rintro _ rfl
      exact ⟨_, rfl, .run h hstart hvalid .nil⟩

/-- Parts of a text, one after the other. -/
theorem clears_texts (levels : Nat) (parts : List TextPart) (c : Cursor) :
    Clears c (fun read parts' => ∃ new, parts' = parts ++ new ∧ DerivesText levels read new)
      (iterate (textStep (expression levels)) parts c) := by
  fun_induction iterate (textStep (expression levels)) parts c with
  | case1 parts c result hgo ih =>
    have hcontent : c.AtContent := by
      refine Bool.eq_false_iff.2 fun hend => ?_
      rw [show result = _ from textStep_lineEnd parts hend] at hgo
      cases hgo
    have hstep : Clears c _ result := clears_textStep levels parts hcontent
    refine hstep.trans (ih.mono ?_)
    rintro read _ ⟨new, rfl, hnew⟩ first ⟨part, hpart, hfirst⟩
    exact ⟨part :: new, by rw [hpart, append_assoc]; rfl, hfirst.append hnew⟩
  | case2 parts c result hstop =>
    have hend : c.current.kind.isStructural := by
      refine Decidable.byContradiction fun hcontent => hstop ?_
      have hkind := Bool.eq_false_iff.2 hcontent
      obtain ⟨hgo, -, hline⟩ := reached_textStep levels parts hkind
      have hleft := hline.left_le.trans_lt (left_advance_lt hkind)
      exact Bool.and_eq_true_iff.2 ⟨hgo, decide_eq_true hleft⟩
    rw [show result = _ from textStep_lineEnd parts hend]
    exact .pure ⟨[], (append_nil _).symm, .nil⟩

/-- A text up to the end of its line. -/
theorem clears_textContent (levels : Nat) (c : Cursor) :
    Clears c (fun read content => DerivesText levels read content.parts)
      (textContent (expression levels) c) := by
  obtain ⟨hgrows, hclean⟩ := clears_texts levels [] c
  refine ⟨hgrows, fun h => ?_⟩
  obtain ⟨read, hrest, new, hnew, hderives⟩ := hclean h
  refine ⟨read, hrest, ?_⟩
  have hparts : (textContent (expression levels) c).1.parts = new := hnew
  rwa [hparts]

section Reading

variable {levels n : Nat} {rest : List Lexeme}

theorem textStep_run {expression : Mode → Parser Expression} (parts : List TextPart)
    (hcontent : c.AtContent) (hstart : c.current.kind ≠ .interpolationStart)
    (hvalid : c.current.kind ≠ .invalid) :
    textStep expression parts c =
      ((parts ++ [.run c.current.text c.current.span], true), c.advance) := by
  change (if c.current.kind.isStructural = true then _ else _ : Parser (List TextPart × Bool)) c = _
  rw [if_neg (by simp [hcontent])]
  change (if c.current.kind = .interpolationStart then _ else _ : Parser (List TextPart × Bool))
      c.advance = _
  rw [if_neg hstart]
  change (if c.current.kind = .invalid then _ else _ : Parser (List TextPart × Bool)) c.advance = _
  rw [if_neg hvalid]
  rfl

theorem textStep_interpolation {expression : Mode → Parser Expression} (parts : List TextPart)
    (hstart : c.current.kind = .interpolationStart) :
    textStep expression parts c =
      ((parts ++ [.interpolation (interpolation expression c.current.span c.advance).1], true),
        (interpolation expression c.current.span c.advance).2) := by
  change (if c.current.kind.isStructural = true then _ else _ : Parser (List TextPart × Bool)) c = _
  rw [if_neg (by rw [hstart]; exact nofun)]
  change (if c.current.kind = .interpolationStart then _ else _ : Parser (List TextPart × Bool))
      c.advance = _
  rw [if_pos hstart]
  rfl

/-- An expression between braces is read from what derives it, behind the opening brace. -/
theorem interpolation_of_derives {e : Expression} {last : Lexeme} (opening : Span)
    (he : Derives levels (.inMode .condition) us n e) (hn : n ≤ maxOperations)
    (hlast : last.kind = .interpolationEnd)
    (hahead : c.ahead = us.map Token.lexeme ++ last :: rest) :
    e.SameAs (interpolation (expression levels) opening c).1 ∧
      (interpolation (expression levels) opening c).2.ahead = rest ∧
      (interpolation (expression levels) opening c).2.diagnostics = c.diagnostics := by
  obtain ⟨l, hhead, hl⟩ := he.begins
  have hbound : c.current.kind.isBoundary = false := by
    have hlexeme : c.current.lexeme = l := by
      rw [lexeme_current, hahead, headD_append, headD_eq_head?_getD, hhead]
      rfl
    rw [show c.current.kind = l.kind from congrArg Lexeme.kind hlexeme]
    exact (not_closes_of_begins hl).2
  have hkind : c.current.kind ≠ .interpolationEnd := by
    intro hkind
    rw [hkind] at hbound
    cases hbound
  have hends : Ends Mode.condition.layers last :=
    ends_of_isBoundary _ (by rw [hlast]; rfl)
  have hread := he.consumes _ c.fresh (last :: rest) rfl hahead hends
    (by simpa [fresh] using hn)
  have hend : (expression levels .condition c.fresh).2.current.kind = .interpolationEnd := by
    have hlexeme := (expression levels .condition c.fresh).2.lexeme_current
    rw [hread.ahead] at hlexeme
    exact (congrArg Lexeme.kind hlexeme).trans hlast
  have hvalue : interpolation (expression levels) opening c =
      ((expression levels .condition c.fresh).1,
        (expression levels .condition c.fresh).2.advance) := by
    change (if c.current.kind = .interpolationEnd then _ else _ : Parser Expression) c = _
    rw [if_neg hkind]
    change (if c.current.kind.isBoundary = true then _ else _ : Parser Expression) c = _
    rw [if_neg (by simp [hbound])]
    change ((expression levels .condition c.fresh).1,
      (closeInterpolation (expression levels .condition c.fresh).2).2) = _
    rw [closeInterpolation_of_end hend]
  rw [hvalue]
  refine ⟨hread.value, ahead_advance_of_eq hread.ahead, ?_⟩
  exact (diagnostics_advance _).trans hread.diagnostics

/-- Parts of a text are read from what derives them, one after the other. -/
theorem texts_of_derives {read : List Token} (h : DerivesText levels read parts)
    (sofar : List TextPart)
    (hahead : c.ahead = read.map Token.lexeme ++ rest)
    (hrest : (rest.headD .ending).kind.isStructural) :
    (∃ new, (iterate (textStep (expression levels)) sofar c).1 = sofar ++ new ∧
        new.map (TextPart.reshape .erased) = parts.map (TextPart.reshape .erased)) ∧
      (iterate (textStep (expression levels)) sofar c).2.ahead = rest ∧
      (iterate (textStep (expression levels)) sofar c).2.diagnostics = c.diagnostics := by
  have hlexeme : ∀ {d : Cursor} {l : Lexeme} {ls : List Lexeme}, d.ahead = l :: ls ++ rest →
      d.current.lexeme = l := by
    intro d l ls hd
    rw [lexeme_current, hd]
    rfl
  induction h generalizing c sofar with
  | nil =>
    have hend : c.current.kind.isStructural := by
      have hlexeme := c.lexeme_current
      rw [hahead] at hlexeme
      rw [show c.current.kind = _ from congrArg Lexeme.kind hlexeme]
      exact hrest
    rw [iterate_stop (textStep_lineEnd sofar hend)]
    exact ⟨⟨[], (append_nil _).symm, rfl⟩, hahead, rfl⟩
  | @run t ts parts hcontent hstart hvalid _ ih =>
    obtain ⟨hkind, htext⟩ := Lexeme.mk.inj (hlexeme hahead)
    rw [← hkind] at hcontent hstart hvalid
    have hleft := left_advance_lt hcontent
    rw [iterate_go (textStep_run sofar hcontent hstart hvalid) hleft]
    obtain ⟨⟨new, hnew, hsame⟩, hafter, hclean⟩ :=
      ih (sofar ++ [.run c.current.text c.current.span]) (ahead_advance_of_eq hahead)
    refine ⟨⟨.run c.current.text c.current.span :: new, ?_, ?_⟩, hafter, ?_⟩
    · rw [hnew, append_assoc, singleton_append]
    · rw [map_cons, hsame, htext]
      rfl
    · rw [hclean, diagnostics_advance]
  | @interpolation first last us ts n e parts hfirst he hn hlast _ ih =>
    obtain ⟨hkind, -⟩ := Lexeme.mk.inj (hlexeme hahead)
    rw [← hkind] at hfirst
    have hinside : c.advance.ahead = us.map Token.lexeme ++ last.lexeme ::
        (ts.map Token.lexeme ++ rest) := by
      rw [map_cons, map_append, cons_append, append_assoc] at hahead
      exact ahead_advance_of_eq hahead
    obtain ⟨hvalue, hbehind, hnone⟩ :=
      interpolation_of_derives c.current.span he hn hlast hinside
    have hleft : (interpolation (expression levels) c.current.span c.advance).2.left < c.left := by
      have hlength := congrArg length hinside
      have hlength' := congrArg length hbehind
      rw [← left_eq_length_ahead] at hlength hlength'
      rw [length_append, length_cons] at hlength
      have hadvance := left_advance_lt (c := c) (.of_kind hfirst rfl)
      omega
    rw [iterate_go (textStep_interpolation sofar hfirst) hleft]
    generalize interpolation (expression levels) c.current.span c.advance = r
      at hvalue hbehind hnone
    obtain ⟨⟨new, hnew, hsame⟩, hafter, hclean⟩ := ih (sofar ++ [.interpolation r.1]) hbehind
    refine ⟨⟨.interpolation r.1 :: new, ?_, ?_⟩, hafter, ?_⟩
    · rw [hnew, append_assoc, singleton_append]
    · rw [map_cons, map_cons, hsame, TextPart.reshape, TextPart.reshape, hvalue.reshape]
    · rw [hclean, hnone, diagnostics_advance]

/-- A text is read from what derives its parts. -/
theorem textContent_of_derives {read : List Token}
    (h : DerivesText levels read parts) (hahead : c.ahead = read.map Token.lexeme ++ rest)
    (hrest : (rest.headD .ending).kind.isStructural) :
    (textContent (expression levels) c).1.parts.map (TextPart.reshape .erased) =
        parts.map (TextPart.reshape .erased) ∧
      (textContent (expression levels) c).2.diagnostics = c.diagnostics := by
  obtain ⟨⟨new, hnew, hsame⟩, -, hclean⟩ := texts_of_derives h [] hahead hrest
  have hparts : (textContent (expression levels) c).1.parts = new := hnew
  exact ⟨hparts ▸ hsame, hclean⟩

end Reading

/-- A line with an expression is read from what derives the expression. -/
theorem expressionLine_of_derives {levels n : Nat} {ts : List Token} {x : Expression} {c : Cursor}
    {rest : List Lexeme} (hx : Derives levels (.inMode .statement) ts n x) (hn : n ≤ maxOperations)
    (hahead : c.advance.ahead = ts.map Token.lexeme ++ rest)
    (hrest : (rest.headD .ending).kind.isBoundary) :
    ∃ x' s, (expressionLine (expression levels) c).1 = .expression x' s ∧ x.SameAs x' ∧
      (expressionLine (expression levels) c).2.diagnostics = c.diagnostics := by
  obtain ⟨hclean, hsame⟩ := hx.standalone hn hahead hrest
  exact ⟨_, _, rfl, hsame, hclean.trans c.diagnostics_advance⟩

end Parser
end ScriptLint

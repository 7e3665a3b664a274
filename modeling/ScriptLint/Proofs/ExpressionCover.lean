import ScriptLint.Proofs.InterpolationReads

/-!
# The tokens of an expression cover it in place

The text of an expression is cut where it stands in a larger text, from an anchor on.  As it is a
part of one line, its tokens lie on that line, as far behind the anchor as their characters are from
the start of the text.  How it is cut does not depend on the anchor: a line that begins with the
mark of an expression is cut in the same way behind the mark.

**Results.**
* `Token.IsCut.slice?_eq`: a token that is cut from a text holds the bytes that its span names.
* `tokenize_expressionLine`: how the line of an expression is cut.
* `tokenizeExpression_covers`: the tokens of an expression cover it.
-/

namespace ScriptLint

open List Text Piece

section Cuts

variable {text : List Char} {anchor : Position} {t : Token}

/-- Behind its anchor, a text has at the bytes of a token that is cut from it the text of the
token. -/
theorem Token.IsCut.slice?_eq (h : t.IsCut text anchor) : anchor.offset ≤ t.span.start.offset ∧
    slice? text (t.span.start.offset - anchor.offset) (t.span.stop.offset - anchor.offset) =
      some t.text.toList := by
  obtain ⟨xs, ys, rfl, hspan⟩ := h
  have hstart : t.span.start.offset = anchor.offset + byteLength xs := by
    rw [hspan]
    rfl
  have hstop : t.span.stop.offset = anchor.offset + (byteLength xs + byteLength t.text.toList) := by
    rw [hspan, ← byteLength_append]
    rfl
  rw [hstart, hstop, Nat.add_sub_cancel_left, Nat.add_sub_cancel_left]
  exact ⟨Nat.le_add_right _ _, slice?_append xs t.text.toList ys⟩

end Cuts

/-- A character of an expression stands in one of its tokens, or it is a space or a tab. -/
theorem isGap_of_not_covered {cs pre post : List Char} {c : Char} (hcs : cs = pre ++ c :: post)
    (p : Position) :
    (place p (ofExpression true cs)).countP (·.covers (p.offset + byteLength pre)) = 1 ∨
      (place p (ofExpression true cs)).countP (·.covers (p.offset + byteLength pre)) = 0 ∧
      isGap c := by
  obtain ⟨xs, piece, ys, a, b, hpieces, htext, rfl⟩ :=
    exists_piece_of_join_eq ((join_ofExpression true cs).trans hcs)
  have hinline : piece.isInline := by
    refine @isInline_of_mem_ofExpression cs piece true ?_
    rw [hpieces]
    exact mem_append_right _ mem_cons_self
  have hcount := countP_covers_place p xs ys piece htext
  rw [← hpieces] at hcount
  cases piece with
  | mark => cases hinline
  | token kind text => exact .inl hcount
  | gap text =>
    refine .inr ⟨hcount, all_eq_true.1 hinline c ?_⟩
    rw [show text = a ++ c :: b from htext]
    exact mem_append_right _ mem_cons_self

/-- A line with an expression is cut into the mark, the tokens of the expression and the end of the
input. -/
theorem tokenize_expressionLine {text : String} (hline : OneLine text.toList) :
    ∃ first last, tokenize (">>" ++ text) =
        first :: (place (Position.origin.advance ['>', '>'])
          (ofExpression true text.toList) ++ [last]) ∧
      first.kind = .expressionStart ∧ last.kind = .endOfInput := by
  have hall : OneLine ('>' :: '>' :: text.toList) :=
    forall_mem_cons.2 ⟨rfl, forall_mem_cons.2 ⟨rfl, hline⟩⟩
  have hsource : (">>" ++ text).toList = '>' :: '>' :: text.toList := String.toList_append
  unfold tokenize
  rw [hsource, ofSource_line hall (by decide) (by decide) (by decide)]
  simp only [place, place_append]
  exact ⟨_, _, rfl, rfl, rfl⟩

/-- **Expressions in place.**  From a text without line ends, every token of an expression lies on
the line of the anchor, holds the bytes that its span names behind the anchor, and starts one column
behind the anchor for each character before it.  The tokens come in order, and what they do not
cover is spaces and tabs.  Kinds and texts are those behind the mark of a line with the expression,
whatever the anchor. -/
theorem tokenizeExpression_covers (text : String) (anchor : Position)
    (hline : ∀ c ∈ text.toList, c ≠ '\n' ∧ c ≠ '\r') :
    (∀ t ∈ tokenizeExpression text anchor,
      t.span.start.line = anchor.line ∧ t.span.stop.line = anchor.line ∧
      (anchor.offset ≤ t.span.start.offset ∧
        Text.slice? text.toList (t.span.start.offset - anchor.offset)
          (t.span.stop.offset - anchor.offset) = some t.text.toList) ∧
      ∃ before after, text.toList = before ++ t.text.toList ++ after ∧
        t.span.start.offset = anchor.offset + Text.byteLength before ∧
        t.span.start.column = anchor.column + before.length) ∧
    (tokenizeExpression text anchor).Pairwise
      (fun a b => a.span.stop.offset ≤ b.span.start.offset) ∧
    (∀ before c after, text.toList = before ++ c :: after →
      let covering := (tokenizeExpression text anchor).countP
        (·.covers (anchor.offset + Text.byteLength before))
      covering = 1 ∨ covering = 0 ∧ (c = ' ' ∨ c = '\t')) ∧
    ∃ first rest, tokenize (">>" ++ text) = first :: rest ∧ first.kind = .expressionStart ∧
      (tokenizeExpression text anchor).map Token.lexeme =
        (rest.filter fun t => !t.kind.isStructural).map Token.lexeme := by
  have hends : ∀ c ∈ text.toList, isLineEnd c = false := by
    intro c hc
    simpa [isLineEnd] using hline c hc
  have hplace := @tokenizeExpression_of_inline text.toList anchor hends
  rw [String.ofList_toList] at hplace
  refine ⟨fun t ht => ?_, ?_, fun before c after hbefore => ?_, ?_⟩
  · rw [← @String.ofList_toList text] at ht
    have hcut := isCut_of_mem_tokenizeExpression hends ht
    have hslice := hcut.slice?_eq
    obtain ⟨xs, ys, htext, hspan⟩ := hcut
    exact ⟨by rw [hspan]; rfl, by rw [hspan]; rfl, hslice, xs, ys, htext,
      by rw [hspan]; rfl, by rw [hspan]; rfl⟩
  · rw [hplace]
    exact pairwise_place _ _
  · rw [hplace]
    simpa [isGap] using isGap_of_not_covered hbefore anchor
  · obtain ⟨first, last, htokens, hfirst, hlast⟩ := tokenize_expressionLine hends
    refine ⟨first, _, htokens, hfirst, ?_⟩
    have hcontent :
        (place (Position.origin.advance ['>', '>']) (ofExpression true text.toList)).filter
        (fun t => !t.kind.isStructural) = place (Position.origin.advance ['>', '>'])
        (ofExpression true text.toList) := by
      refine filter_eq_self.2 fun t ht => ?_
      have hkind := isContent_of_mem_place_ofExpression ht
      simp only [Token.isContent, Bool.and_eq_true] at hkind
      exact hkind.1
    rw [filter_append, hcontent, filter_cons_of_neg (by simp [hlast, Token.Kind.isStructural]),
      filter_nil, append_nil, hplace]
    exact map_lexeme_place _ _ _

/-- An operator behind a wide character, and a string that is not closed. -/
theorem tokenizeExpression_covers_wide :
    (∀ c ∈ "é <= \"a".toList, c ≠ '\n' ∧ c ≠ '\r') ∧
    ∃ t ∈ tokenizeExpression "é <= \"a" ⟨3, 5, 40⟩, t.span.start.line = 3 ∧
      ∃ before, t.span.start.offset = 40 + Text.byteLength before ∧
      t.span.start.column = 5 + before.length := by
  have hline : ∀ c ∈ "é <= \"a".toList, c ≠ '\n' ∧ c ≠ '\r' := by simp
  have hmem : (⟨.operator, "<=", ⟨⟨3, 7, 43⟩, ⟨3, 9, 45⟩⟩⟩ : Token) ∈
      tokenizeExpression "é <= \"a" ⟨3, 5, 40⟩ := by
    decide +kernel
  obtain ⟨hstart, -, -, before, -, -, hoffset, hcolumn⟩ :=
    (tokenizeExpression_covers "é <= \"a" ⟨3, 5, 40⟩ hline).1 _ hmem
  exact ⟨hline, _, hmem, hstart, before, hoffset, hcolumn⟩

end ScriptLint

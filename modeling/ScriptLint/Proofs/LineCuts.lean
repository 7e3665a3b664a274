import ScriptLint.Proofs.ArgumentText

/-!
# The tokens of one line

What is read from a line is cut from it.  Two supplies say so: one of the tokens that are cut from a
text, and one of the places on a line from some place on.  An argument that is read again from its
text is of the supply that its tokens are of.

**Results.**
* `Token.IsCut.region`: what is between the braces of a token is cut from the text of the token.
* `Supply.ofCuts`, `Supply.behind`: the two supplies.
* `readArgument_supplied`: an argument that is read from its text.
-/

namespace ScriptLint

open List Text

variable {p q : Position}

/-- The token is cut from a text that starts at a position. -/
def Token.IsCut (text : List Char) (anchor : Position) (t : Token) : Prop :=
  ∃ xs ys, text = xs ++ t.text.toList ++ ys ∧
    t.span = ⟨anchor.advance xs, anchor.advance (xs ++ t.text.toList)⟩

section Cuts

variable {text run : List Char} {anchor : Position} {t : Token}

theorem Token.IsCut.within {xs ys : List Char} (h : t.IsCut run (anchor.advance xs))
    (htext : text = xs ++ run ++ ys) : t.IsCut text anchor := by
  obtain ⟨us, vs, hrun, hspan⟩ := h
  refine ⟨xs ++ us, vs ++ ys, ?_, ?_⟩
  · rw [htext, hrun]
    simp
  · rw [hspan, Position.advance_advance, Position.advance_advance, append_assoc]

theorem isCut_of_mem_place {pieces : List Piece} (hinline : ∀ piece ∈ pieces, piece.isInline)
    (h : t ∈ Piece.place anchor pieces) : t.IsCut (Piece.join pieces) anchor := by
  obtain ⟨xs, kind, cs, ys, rfl, rfl⟩ := Piece.mem_place h
  have hlast := Piece.last_eq_advance (p := anchor) fun piece (hpiece : piece ∈ xs) =>
    hinline piece (mem_append_left _ hpiece)
  have hkind := Piece.ne_newline_of_isInline (hinline (.token kind cs) (by simp))
  refine ⟨Piece.join xs, Piece.join ys, ?_, ?_⟩
  · simp
  · rw [hlast, Piece.stop, if_neg hkind, Position.advance_advance, String.toList_ofList]

theorem isCut_of_mem_tokenizeExpression (hrun : OneLine run)
    (h : t ∈ tokenizeExpression (String.ofList run) anchor) : t.IsCut run anchor := by
  rw [Piece.tokenizeExpression_of_inline hrun] at h
  have hcut := isCut_of_mem_place
    (fun _ => Piece.isInline_of_mem_ofExpression) h
  rwa [Piece.join_ofExpression] at hcut

theorem braces_of_mem_braceRegions {chars : List Char}
    (h : (q, run) ∈ Parser.braceRegions p chars) :
    ∃ xs ys, chars = (xs ++ ['{']) ++ run ++ '}' :: ys ∧ q = p.advance (xs ++ ['{']) := by
  fun_induction Parser.braceRegions p chars with
  | case1 => cases h
  | case2 => cases h
  | case3 p chars brace rest hdrop region after hsplit first ih =>
    obtain ⟨rfl, hchars⟩ := Piece.eq_of_splitBraces hdrop hsplit
    rcases mem_cons.1 h with heq | hmem
    · obtain ⟨rfl, rfl⟩ := Prod.mk.inj heq
      refine ⟨chars.takeWhile (· ≠ '{'), after, ?_, ?_⟩
      · conv_lhs => rw [hchars]
        simp
      · exact Position.advance_advance _ _ _
    · obtain ⟨xs, ys, hafter, hq⟩ := ih hmem
      refine ⟨chars.takeWhile (· ≠ '{') ++ ['{'] ++ region ++ ['}'] ++ xs, ys, ?_, ?_⟩
      · conv_lhs => rw [hchars, hafter]
        simp
      · rw [hq]
        simp [first]

theorem split_of_mem_braceRegions {chars : List Char} (h : (q, run) ∈ Parser.braceRegions p chars) :
    ∃ xs ys, chars = xs ++ run ++ ys ∧ q = p.advance xs := by
  obtain ⟨xs, ys, hchars, hq⟩ := braces_of_mem_braceRegions h
  exact ⟨xs ++ ['{'], '}' :: ys, hchars, hq⟩

/-- What is between the braces of a token that is cut from a text stands in the text. -/
theorem Token.IsCut.region (h : t.IsCut text anchor)
    (hmem : (q, run) ∈ Parser.braceRegions t.span.start t.text.toList) :
    ∃ xs ys, text = xs ++ run ++ ys ∧ q = anchor.advance xs := by
  obtain ⟨xs, ys, htext, hspan⟩ := h
  obtain ⟨us, vs, hchars, hq⟩ := split_of_mem_braceRegions hmem
  refine ⟨xs ++ us, vs ++ ys, ?_, by rw [hq, hspan, Position.advance_advance]⟩
  rw [htext, hchars]
  simp

end Cuts

/-- The position stands on the line of another, and not before it. -/
structure Position.IsBehind (p q : Position) : Prop where
  line : q.line = p.line
  offset : p.offset ≤ q.offset

/-- The span stands on the line of a position, and not before it. -/
structure Span.IsBehind (p : Position) (s : Span) : Prop where
  start : p.IsBehind s.start
  stop : s.stop.line = p.line

theorem Position.IsBehind.advance (h : p.IsBehind q) (cs : List Char) : p.IsBehind (q.advance cs) :=
  ⟨h.line, h.offset.trans (Nat.le_add_right _ _)⟩

/-- The token stands behind the position on its line, and holds no line end. -/
structure Token.IsBehind (p : Position) (t : Token) : Prop where
  span : t.span.IsBehind p
  stop : t.kind.isStructural = false → p.IsBehind t.span.stop
  inline : t.kind.isStructural = false → OneLine t.text.toList

/-- Tokens that are cut from a text behind the position stand behind it. -/
theorem Token.IsCut.isBehind {anchor : Position} {text : List Char} {t : Token}
    (h : t.IsCut text anchor)
    (htext : OneLine text) (hanchor : p.IsBehind anchor) : t.IsBehind p := by
  obtain ⟨xs, ys, rfl, hspan⟩ := h
  have hstop : p.IsBehind t.span.stop := by
    rw [hspan]
    exact hanchor.advance _
  refine ⟨⟨?_, hstop.line⟩, fun _ => hstop, fun _ c hc => htext c (by simp [hc])⟩
  rw [hspan]
  exact hanchor.advance _

namespace Supply

/-- The tokens that are cut from a text without line ends, and have a property that all tokens of
expressions have. -/
def ofCuts (text : List Char) (anchor : Position) (h : OneLine text)
    (P : Token → Prop) (hP : ∀ {run : List Char} {q : Position}, OneLine run →
      ∀ u ∈ tokenizeExpression (String.ofList run) q, P u) : Supply :=
  { anything with
    token t := t.kind.isStructural = false → t.IsCut text anchor ∧ P t
    span_token _ := trivial
    start_stop_token _ _ := trivial
    token_endAt _ := nofun
    region := by
      intro t q run ht hkind hmem
      obtain ⟨xs, ys, htext, rfl⟩ := (ht (by rw [hkind]; rfl)).1.region hmem
      have hrun : OneLine run := fun c hc => h c (by simp [htext, hc])
      refine ⟨trivial, fun u hu _ => ?_, (pairwise_of_forall fun _ _ => trivial).isChain⟩
      exact ⟨(isCut_of_mem_tokenizeExpression hrun hu).within htext, hP hrun u hu⟩ }

/-- The places on the line of a position that are not before it. -/
def behind (p : Position) : Supply where
  token := Token.IsBehind p
  next _ _ := True
  start := p.IsBehind
  stop q := q.line = p.line
  span := Span.IsBehind p
  span_token h := h.span
  start_span h := h.start
  stop_span h := h.stop
  stop_start h := h.line
  span_between hp hq := by
    unfold Span.between
    split
    · exact ⟨hp, hp.line⟩
    · exact ⟨hp, hq⟩
  start_stop_token h hkind := h.stop hkind
  token_endAt h := ⟨⟨h, h.line⟩, nofun, nofun⟩
  region := by
    intro t q run ht hkind hmem
    obtain ⟨us, vs, hsplit, rfl⟩ := split_of_mem_braceRegions hmem
    have hrun : OneLine run := fun c hc => ht.inline (by rw [hkind]; rfl) c (by simp [hsplit, hc])
    have hanchor := ht.span.start.advance us
    exact ⟨hanchor.advance run,
      fun u hu => (isCut_of_mem_tokenizeExpression hrun hu).isBehind hrun hanchor,
      (pairwise_of_forall fun _ _ => trivial).isChain⟩

end Supply

/-- The source put together from tokens holds no other characters than theirs, and spaces. -/
theorem isLineEnd_sourceOf {offset : Nat} {ts : List Token} (h : ∀ t ∈ ts, OneLine t.text.toList) :
    OneLine (Parser.sourceOf offset ts) := by
  induction ts generalizing offset with
  | nil => simp [Parser.sourceOf]
  | cons t ts ih =>
    refine forall_mem_append.2 ⟨forall_mem_append.2 ⟨?_, ?_⟩,
      ih fun u hu => h u (mem_cons_of_mem t hu)⟩
    · intro c hc
      rw [eq_of_mem_replicate hc]
      rfl
    · exact h t mem_cons_self

instance (p : Position) : (Supply.behind p).Rereads where
  argument := by
    intro t ts htokens _
    have hraw : OneLine (Parser.sourceOf t.span.start.offset (t :: ts)) :=
      isLineEnd_sourceOf fun u hu => (htokens u hu).1.inline (htokens u hu).2
    exact ⟨fun u hu => (isCut_of_mem_tokenizeExpression hraw hu).isBehind hraw
      (htokens t mem_cons_self).1.span.start, (pairwise_of_forall fun _ _ => trivial).isChain⟩

section Readings

variable {S : Supply}

/-- A line is supplied by its tokens, where any two may follow each other. -/
theorem Cursor.suppliedLine_of_tokens {c : Cursor} {ts after : List Token}
    (hrest : c.rest = ts ++ after) (hts : ∀ t ∈ ts, t.kind.isStructural = false ∧ S.token t)
    (hafter : ∃ u us, after = u :: us ∧ u.kind.isStructural ∧ S.token u) (hnext : ∀ t u, S.next t u)
    (hlast : S.start c.lastEnd) : c.SuppliedLine S := by
  obtain ⟨u, us, rfl, hkind, hu⟩ := hafter
  refine ⟨?_, (pairwise_of_forall hnext).isChain, fun hall => ?_, hlast⟩
  · intro read t more hsplit hread
    rw [hrest] at hsplit
    rcases append_eq_append_iff.1 hsplit with ⟨zs, rfl, hmore⟩ | ⟨zs, rfl, hmore⟩
    · cases zs with
      | nil => exact (cons.inj hmore).1 ▸ hu
      | cons z zs =>
        have hz := hread rfl z (by simp)
        rw [← (cons.inj hmore).1, hkind] at hz
        cases hz
    · cases zs with
      | nil => exact (cons.inj hmore).1 ▸ hu
      | cons z zs => exact (cons.inj hmore).1 ▸ (hts z (by simp)).2
  · have hnot := hall rfl u (by simp [hrest])
    rw [hkind] at hnot
    cases hnot

/-- An argument that is read from its text is of the supply, with what is reported. -/
theorem readArgument_supplied {text : List Char}
    (htokens : ∀ u ∈ tokenizeExpression (String.ofList text) p, S.token u)
    (hnext : ∀ t u, S.next t u)
    (hend : S.start (p.advance text)) (levels : Nat) (isLoop : Bool) :
    (readArgument levels isLoop text p).1.IsSupplied S ∧
      ∀ d ∈ (readArgument levels isLoop text p).2, S.span d.span := by
  have hstart := Cursor.supplied_start htokens (pairwise_of_forall hnext).isChain hend
  have hread := (Parser.LineReading.supplied levels S).runs_rereading isLoop hstart.line
  refine ⟨hread.value.isSupplied levels, fun d hd => ?_⟩
  obtain ⟨new, hnew, hspans⟩ := hread.line.reports
  have hd := mem_reverse.1 hd
  rw [hnew] at hd
  exact hspans d (by simpa [Cursor.start] using hd)

end Readings

end ScriptLint

import ScriptLint.Proofs.LinePairing
import ScriptLint.Proofs.ProgramPlaces

/-!
# The text of an argument

The argument of a keyword is cut as text, with expressions between braces.  Where the argument is to
be an expression, the text of its tokens is put together again and cut as an expression.  What stood
between two tokens is lost on the way: spaces come in its place.

**Results.**
* `Parser.sourceOf_place`: the text that is put together.
* `Piece.filledText_eq_iff`: it is the text of the argument unless a tab stands between two tokens.
* `Parser.header_of_expression`: what the line of a keyword with such an argument is read to.
-/

namespace ScriptLint

open List Text Cursor Token.Kind

variable {p : Position}

namespace Piece

/-- The characters of the piece, with spaces for white space between tokens. -/
def filled : Piece → List Char
  | gap text => replicate text.length ' '
  | piece => piece.text

/-- The text with spaces for the white space between the tokens of its expressions. -/
def filledText (cs : List Char) : List Char :=
  (ofText cs).flatMap filled

variable {pieces : List Piece}

/-- The pieces end with a token, if there are any. -/
def EndsInToken (pieces : List Piece) : Prop :=
  ∀ piece ∈ pieces.getLast?, ∃ kind text, piece = token kind text

theorem endsInToken_ofText (cs : List Char) : EndsInToken (ofText cs) := by
  have hcons : ∀ {xs : List Piece} {kind : Token.Kind} {text : List Char}, EndsInToken xs →
      EndsInToken (token kind text :: xs) := by
    intro xs kind text hxs piece hpiece
    rw [getLast?_cons] at hpiece
    cases hlast : xs.getLast? with
    | none =>
      rw [hlast] at hpiece
      exact ⟨kind, text, (Option.some.inj hpiece).symm⟩
    | some last =>
      rw [hlast] at hpiece
      obtain rfl : last = piece := Option.some.inj hpiece
      exact hxs last hlast
  fun_induction ofText cs with
  | case1 => rintro _ ⟨⟩
  | case2 rest inner after hsplit ih =>
    refine hcons ?_
    intro piece hpiece
    rw [getLast?_append_of_ne_nil _ (cons_ne_nil _ _)] at hpiece
    exact hcons ih piece hpiece
  | case3 => exact hcons (by rintro _ ⟨⟩)
  | case4 _ _ _ ih => exact hcons ih

theorem byteLength_gap {text : List Char} (h : (gap text).isInline) :
    byteLength text = text.length := by
  induction text with
  | nil => rfl
  | cons c text ih =>
    obtain ⟨hc, htext⟩ : isGap c = true ∧ (gap text).isInline = true := by
      simpa [isInline] using h
    rw [byteLength_cons, utf8Size_of_isGap hc, ih htext, length_cons, Nat.add_comm]

theorem length_filled (piece : Piece) : piece.filled.length = piece.text.length := by
  cases piece with
  | gap text => exact length_replicate
  | _ => rfl

theorem length_flatMap_filled (pieces : List Piece) :
    (pieces.flatMap filled).length = (join pieces).length := by
  induction pieces with
  | nil => rfl
  | cons piece pieces ih =>
    rw [flatMap_cons, join_cons, length_append, length_append, ih, length_filled]

theorem byteLength_flatMap_filled (h : ∀ piece ∈ pieces, piece.isInline) :
    byteLength (pieces.flatMap filled) = byteLength (join pieces) := by
  induction pieces with
  | nil => rfl
  | cons piece pieces ih =>
    have hpiece : byteLength piece.filled = byteLength piece.text := by
      cases piece with
      | gap text =>
        have hspaces : (gap (replicate text.length ' ')).isInline := by
          simp [isInline, isGap]
        show byteLength (replicate text.length ' ') = byteLength text
        rw [byteLength_gap hspaces, byteLength_gap (h _ mem_cons_self), length_replicate]
      | _ => rfl
    rw [flatMap_cons, join_cons, byteLength_append, byteLength_append, hpiece,
      ih fun q hq => h q (mem_cons_of_mem piece hq)]

theorem advance_filledText (cs : List Char) : p.advance (filledText cs) = p.advance cs := by
  have hbytes := byteLength_flatMap_filled fun piece (hpiece : piece ∈ ofText cs) =>
    isInline_of_mem_ofText hpiece
  have hlength := length_flatMap_filled (ofText cs)
  rw [join_ofText] at hbytes hlength
  unfold Position.advance filledText
  rw [hbytes, hlength]

/-- Only tabs are lost when a text is put together again. -/
theorem filledText_eq_iff (cs : List Char) :
    filledText cs = cs ↔ ∀ text, gap text ∈ ofText cs → '\t' ∉ text := by
  have hinline : ∀ piece ∈ ofText cs, piece.isInline := fun _ => isInline_of_mem_ofText
  have hgap : ∀ text, gap text ∈ ofText cs → (filled (gap text) = text ↔ '\t' ∉ text) := by
    intro text htext
    have hgaps : ∀ c ∈ text, isGap c := all_eq_true.1 (hinline _ htext)
    constructor
    · intro heq hmem
      rw [← heq] at hmem
      cases eq_of_mem_replicate hmem
    · intro hnot
      refine (eq_replicate_iff.2 ⟨rfl, fun c hc => ?_⟩).symm
      rcases (by simpa [isGap] using hgaps c hc : c = ' ' ∨ c = '\t') with rfl | rfl
      · rfl
      · exact absurd hc hnot
  have hpieces : ∀ pieces : List Piece,
      pieces.flatMap filled = join pieces ↔ ∀ piece ∈ pieces, piece.filled = piece.text := by
    intro pieces
    induction pieces with
    | nil => simp
    | cons piece pieces ih =>
      rw [flatMap_cons, join_cons, forall_mem_cons, ← ih]
      constructor
      · exact fun heq => append_inj heq (length_filled piece)
      · rintro ⟨hpiece, hrest⟩
        rw [hpiece, hrest]
  have hjoin := hpieces (ofText cs)
  rw [join_ofText] at hjoin
  refine hjoin.trans ⟨?_, ?_⟩
  · intro h text htext
    exact (hgap text htext).1 (h _ htext)
  · intro h piece hpiece
    cases piece with
    | gap text => exact (hgap text hpiece).2 (h text hpiece)
    | _ => rfl

/-- The last token of the pieces stops where they end. -/
theorem stop_getLast_place (hinline : ∀ piece ∈ pieces, piece.isInline) (hend : EndsInToken pieces)
    {t : Token} (h : (place p pieces).getLast? = some t) :
    t.span.stop = p.advance (join pieces) := by
  obtain ⟨init, piece, rfl⟩ : ∃ init piece, pieces = init ++ [piece] := by
    rcases eq_nil_or_concat pieces with rfl | ⟨init, piece, rfl⟩
    · cases h
    · exact ⟨init, piece, concat_eq_append⟩
  obtain ⟨kind, text, rfl⟩ := hend piece (by simp)
  have hkind := ne_newline_of_isInline (hinline (token kind text) (by simp))
  have hinit := last_eq_advance (p := p) fun q (hq : q ∈ init) =>
    hinline q (mem_append_left _ hq)
  have hlast : t = ⟨kind, String.ofList text, ⟨last p init, stop (last p init) kind text⟩⟩ := by
    rw [place_append, place, getLast?_append_of_ne_nil _ (cons_ne_nil _ _)] at h
    exact (Option.some.inj h).symm
  rw [hlast]
  rw [stop, if_neg hkind, hinit, Position.advance_advance, join_append, join_cons, join_nil,
    append_nil, text_token]

end Piece

open Piece

/-- What a text is read to as an argument at a position, with the diagnostics in the order in which
they are found. -/
def readArgument (levels : Nat) (isLoop : Bool) (text : List Char) (p : Position) :
    Argument × List Diagnostic :=
  let r := Parser.rereading levels isLoop
    (start (tokenizeExpression (String.ofList text) p) (p.advance text))
  (r.1, r.2.diagnostics.reverse)

namespace Parser

/-- The text that is put together from tokens that were cut from pieces. -/
theorem sourceOf_place {p : Position} {offset : Nat} {pieces : List Piece}
    (hinline : ∀ piece ∈ pieces, piece.isInline) (hend : EndsInToken pieces) (hne : pieces ≠ [])
    (hle : offset ≤ p.offset) :
    sourceOf offset (place p pieces) =
      replicate (p.offset - offset) ' ' ++ pieces.flatMap filled := by
  induction pieces generalizing p offset with
  | nil => exact absurd rfl hne
  | cons piece pieces ih =>
    have hrest : ∀ q ∈ pieces, q.isInline := fun q hq => hinline q (mem_cons_of_mem piece hq)
    have hpiece := hinline piece mem_cons_self
    have hends : EndsInToken pieces := by
      intro last hlast
      refine hend last ?_
      rw [getLast?_cons, hlast]
      rfl
    cases piece with
    | mark => cases hpiece
    | gap text =>
      have hmore : pieces ≠ [] := by
        rintro rfl
        obtain ⟨kind, cs, hcs⟩ := hend (gap text) rfl
        cases hcs
      have hbytes : (p.advance text).offset = p.offset + text.length := by
        show p.offset + byteLength text = _
        rw [byteLength_gap hpiece]
      have hspaces : p.offset + text.length - offset = p.offset - offset + text.length := by
        omega
      show sourceOf offset (place (p.advance text) pieces) = _
      rw [ih hrest hends hmore (by omega), hbytes, hspaces, ← replicate_append_replicate,
        append_assoc]
      rfl
    | token kind text =>
      have hnext : (Piece.next p (token kind text)).offset =
          offset + (p.offset - offset) + byteLength text := by
        rw [offset_next, text_token]
        omega
      show replicate (p.offset - offset) ' ' ++ (String.ofList text).toList ++
          sourceOf (offset + (p.offset - offset) + byteLength (String.ofList text).toList)
            (place (Piece.next p (token kind text)) pieces) = _
      rw [String.toList_ofList, ← hnext, append_assoc]
      cases pieces with
      | nil => rfl
      | cons q pieces =>
        rw [ih hrest hends (cons_ne_nil _ _) (Nat.le_refl _), Nat.sub_self]
        rfl

section Header

variable {levels : Nat} {c : Cursor} {text : List Char}

/-- An argument that is an expression is read from its text, put together again. -/
theorem expressionArgument_eq (isLoop : Bool) (hne : text ≠ [])
    (hline : c.before isStructural = place p (ofText text)) :
    expressionArgument (expression levels) isLoop c =
      (some (readArgument levels isLoop (filledText text) p).1,
        { c.skipTo isStructural with
          diagnostics := (readArgument levels isLoop (filledText text) p).2.reverse ++
            c.diagnostics }) := by
  obtain ⟨kind, run, pieces, hcons, -⟩ := ofText_eq_cons hne
  have hinline : ∀ piece ∈ ofText text, piece.isInline := fun _ => isInline_of_mem_ofText
  have hplace : place p (ofText text) = ⟨kind, String.ofList run, ⟨p, stop p kind run⟩⟩ ::
      place (Piece.next p (token kind run)) pieces := by
    rw [hcons]
    rfl
  have hsource : sourceOf p.offset (place p (ofText text)) = filledText text := by
    rw [sourceOf_place hinline (endsInToken_ofText text) (by rw [hcons]; exact cons_ne_nil _ _)
      (Nat.le_refl _), Nat.sub_self]
    rfl
  have hstop : ((place p (ofText text)).getLastD
      ⟨kind, String.ofList run, ⟨p, stop p kind run⟩⟩).span.stop = p.advance (filledText text) := by
    obtain ⟨last, hlast⟩ : ∃ last, (place p (ofText text)).getLast? = some last := by
      rw [hplace]
      exact ⟨_, getLast?_eq_some_getLast (cons_ne_nil _ _)⟩
    have hend := stop_getLast_place hinline (endsInToken_ofText text) hlast
    rw [getLastD_eq_getLast?, hlast, Option.getD_some, hend, join_ofText, advance_filledText]
  have hcurrent : c.current = ⟨kind, String.ofList run, ⟨p, stop p kind run⟩⟩ ∧
      c.AtContent := by
    rw [hplace] at hline
    have hkind := (mem_before (hline ▸ mem_cons_self)).2
    unfold Cursor.before at hline
    unfold Cursor.AtContent Cursor.current
    cases hrest : c.rest with
    | nil => simp [hrest] at hline
    | cons t rest =>
      rw [hrest, takeWhile_cons] at hline
      split at hline
      · obtain rfl := (cons.inj hline).1
        exact ⟨rfl, hkind⟩
      · cases hline
  have hargument : c.argument = start
      (tokenizeExpression (String.ofList (filledText text)) p) (p.advance (filledText text)) := by
    unfold Cursor.argument
    rw [hcurrent.1, hline]
    dsimp only
    rw [hstop, hsource]
  rw [expressionArgument_eq_rereading isLoop hcurrent.2, hargument]
  unfold readArgument
  rw [reverse_reverse]

theorem skipKind_of_kind {kind : Token.Kind} (h : c.current.kind = kind) :
    skipKind kind c = ((), c.advance) := by
  show (if (c.current.kind == kind) = true then _ else _ : Parser Unit) c = _
  rw [if_pos (by simp [h])]
  rfl

theorem headerName_of_name (h : c.current.kind = .keyword ∨ c.current.kind = .subKeyword) :
    headerName c =
      ((c.current.text, c.current.span, c.current.kind == .subKeyword), c.advance) := by
  have hkind : (decide (c.current.kind = .keyword) || decide (c.current.kind = .subKeyword)) =
      true := by
    simpa using h
  show (if (decide (c.current.kind = .keyword) || decide (c.current.kind = .subKeyword)) = true
    then _ else _ : Parser (String × Span × Bool)) c = _
  rw [if_pos hkind]
  rfl

theorem headerArgument_of_colon {name : String} {isSub : Bool}
    {expression : Mode → Parser Expression}
    (hcolon : c.current.kind = .colon) (hcontent : c.advance.AtContent)
    (htakes : Vocabulary.takesExpression (lower name) isSub) :
    headerArgument expression name isSub c = expressionArgument expression
      (!isSub && lower name == Vocabulary.loopKeyword) c.advance := by
  show (if (c.current.kind == .colon) = true then _ else _ : Parser (Option Argument)) c = _
  rw [if_pos (by simp [hcolon])]
  show (if c.advance.current.kind.isStructural = true then _ else _ : Parser (Option Argument))
    c.advance = _
  rw [if_neg (by simp [hcontent]), if_pos htakes]

theorem before_append {content after : List Token} (hrest : c.rest = content ++ after)
    (hcontent : ∀ t ∈ content, t.kind.isStructural = false)
    (hafter : ∀ u ∈ after.head?, u.kind.isStructural) :
    c.before isStructural = content := by
  unfold before
  rw [hrest, takeWhile_append_of_pos fun t ht => by simp [hcontent t ht]]
  cases after with
  | nil => simp
  | cons u after =>
    rw [takeWhile_cons_of_neg (by simpa using hafter u rfl), append_nil]

/-- At the end of a line nothing is skipped. -/
theorem record_skipTo_of_structural (h : c.current.kind.isStructural) :
    (c.skipTo isStructural).record = c.record := by
  have hbefore : c.before isStructural = [] := by
    have hrest : c.rest = [] ++ c.rest := rfl
    refine before_append hrest (by simp) ?_
    intro u hu
    obtain ⟨us, hus⟩ := head?_eq_some_iff.1 hu
    rwa [current_of_rest hus] at h
  show (((c.before isStructural).getLast?.map (·.span.stop)).getD c.lastEnd,
      c.diagnostics) = _
  rw [hbefore]
  rfl

/-- **The line of a keyword whose argument is an expression.**  The argument is read from the text
behind the colon, put together again, and the line gives no other diagnostics. -/
theorem header_of_expression {start name colon : Token} {after : List Token}
    (hrest : c.rest = start :: name :: colon :: (place p (ofText text) ++ after))
    (hstart : start.kind = .keywordStart) (hname : name.kind = .keyword ∨ name.kind = .subKeyword)
    (hcolon : colon.kind = .colon) (hne : text ≠ [])
    (hafter : ∀ u ∈ after.head?, u.kind.isStructural)
    (htakes : Vocabulary.takesExpression (lower name.text) (name.kind == .subKeyword))
    {isLoop : Bool}
    (hloop : isLoop =
      (!(name.kind == .subKeyword) && lower name.text == Vocabulary.loopKeyword)) :
    (header (expression levels) c).1 = ⟨name.text, name.span,
      some (readArgument levels isLoop (filledText text) p).1⟩ ∧
    (header (expression levels) c).2.record = (p.advance text,
      (readArgument levels isLoop (filledText text) p).2.reverse ++ c.diagnostics) := by
  have hcontent : ∀ t ∈ place p (ofText text), t.kind.isStructural = false := fun t ht =>
    isStructural_of_mem_place (fun _ => isInline_of_mem_ofText) ht
  obtain ⟨kind, run, pieces, hcons, -⟩ := ofText_eq_cons hne
  have hrest₁ : c.advance.rest = name :: colon :: (place p (ofText text) ++ after) := by
    rw [rest_advance, hrest]
    rfl
  have hrest₂ : c.advance.advance.rest = colon :: (place p (ofText text) ++ after) := by
    rw [rest_advance, hrest₁]
    rfl
  have hrest₃ : c.advance.advance.advance.rest = place p (ofText text) ++ after := by
    rw [rest_advance, hrest₂]
    rfl
  have hdiagnostics : c.advance.advance.advance.diagnostics = c.diagnostics := by
    rw [diagnostics_advance, diagnostics_advance, diagnostics_advance]
  have hbefore := before_append hrest₃ hcontent hafter
  have hnext : c.advance.advance.advance.AtContent := by
    have hfirst : c.advance.advance.advance.rest =
        ⟨kind, String.ofList run, ⟨p, stop p kind run⟩⟩ ::
        (place (Piece.next p (token kind run)) pieces ++ after) := by
      rw [hrest₃, hcons]
      rfl
    rw [AtContent, current_of_rest hfirst]
    refine hcontent _ ?_
    rw [hcons]
    exact mem_cons_self
  have hvalue : header (expression levels) c =
      (⟨name.text, name.span,
        (expressionArgument (expression levels) isLoop c.advance.advance.advance).1⟩,
        (expressionArgument (expression levels) isLoop c.advance.advance.advance).2.skipTo
          isStructural) := by
    have hargument : headerArgument (expression levels) name.text (name.kind == .subKeyword)
        c.advance.advance = expressionArgument (expression levels)
          (!(name.kind == .subKeyword) && lower name.text == Vocabulary.loopKeyword)
          c.advance.advance.advance :=
      headerArgument_of_colon (by rw [current_of_rest hrest₂, hcolon]) hnext htakes
    have hnamed := headerName_of_name (c := c.advance) (by rwa [current_of_rest hrest₁])
    rw [current_of_rest hrest₁] at hnamed
    show (let r := skipKind .keywordStart c
      let s := headerName r.2
      let a := headerArgument (expression levels) s.1.1 s.1.2.2 s.2
      ((⟨s.1.1, s.1.2.1, a.1⟩ : Header), a.2.skipTo isStructural)) = _
    dsimp only
    rw [skipKind_of_kind (by rw [current_of_rest hrest, hstart]), hnamed]
    rw [hargument, hloop]
  have hlast : ((place p (ofText text)).getLast?.map (·.span.stop)).getD
      c.advance.advance.advance.lastEnd = p.advance text := by
    obtain ⟨last, hlast⟩ : ∃ last, (place p (ofText text)).getLast? = some last := by
      rw [hcons]
      exact ⟨_, getLast?_eq_some_getLast (cons_ne_nil _ _)⟩
    have hend := stop_getLast_place (fun _ => isInline_of_mem_ofText)
      (endsInToken_ofText text) hlast
    rw [hlast, Option.map_some, Option.getD_some, hend, join_ofText]
  rw [hvalue, expressionArgument_eq isLoop hne hbefore, hdiagnostics]
  refine ⟨rfl, ?_⟩
  have hend : ∀ ds : List Diagnostic,
      (({ c.advance.advance.advance.skipTo isStructural with
      diagnostics := ds } : Cursor).skipTo isStructural).record =
      ((c.advance.advance.advance.skipTo isStructural).lastEnd, ds) := fun _ =>
    record_skipTo_of_structural (isStructural_current_skipTo c.advance.advance.advance)
  refine (hend _).trans ?_
  show (((c.advance.advance.advance.before isStructural).getLast?.map
    (·.span.stop)).getD c.advance.advance.advance.lastEnd, _) = _
  rw [hbefore, hlast]

end Header

end Parser

end ScriptLint

import ScriptLint.Proofs.LineCuts
import ScriptLint.Proofs.LineSites

/-!
# What a line reports

Whatever stands on a line, the faults that are found in it are reported on that line.  What is read
from the line does not depend on where content ended before it.

**Results.**
* `reached_header`, `reached_textContent`, `reached_expressionLine`, `reached_comment`: what is read
  from the four kinds of line stands on the line.
* `Reached.reports`: so do the faults.
-/

namespace ScriptLint

open List Text

variable {c : Cursor} {q : Position}

namespace Cursor

/-- The cursor as if content had ended at the position. -/
def endingAt (c : Cursor) (q : Position) : Cursor :=
  { c with lastEnd := q }

theorem advance_endingAt (h : c.AtContent) : (c.endingAt q).advance = c.advance := by
  have hcurrent : (c.endingAt q).current = c.current := rfl
  rw [advance, advance, hcurrent, if_neg (by simp [h]), if_neg (by simp [h])]
  rfl

/-- The diagnostics that came in from one cursor to another start on the line. -/
def Reports (line : Nat) (c d : Cursor) : Prop :=
  ∃ new, d.diagnostics = new ++ c.diagnostics ∧ ∀ x ∈ new, x.span.start.line = line

end Cursor

namespace Parser

section EndingAt

variable {e : Mode → Parser Expression}

theorem next_bind_endingAt {α : Type} {f : Token → Parser α}
    (h : c.AtContent) : (next >>= f) (c.endingAt q) = (next >>= f) c := by
  show f c.current (c.endingAt q).advance = f c.current c.advance
  rw [Cursor.advance_endingAt h]

theorem skipKind_endingAt {kind : Token.Kind} (hkind : c.current.kind = kind)
    (h : kind.isStructural = false) : skipKind kind (c.endingAt q) = skipKind kind c := by
  rw [skipKind_of_kind hkind, skipKind_of_kind (c := c.endingAt q) hkind,
    Cursor.advance_endingAt (.of_kind hkind h)]

theorem header_endingAt (h : c.current.kind = .keywordStart) :
    header e (c.endingAt q) = header e c := by
  unfold header
  simp only [bind]
  rw [skipKind_endingAt h rfl]

theorem expressionLine_endingAt (h : c.AtContent) :
    expressionLine e (c.endingAt q) = expressionLine e c :=
  next_bind_endingAt h

theorem comment_endingAt (h : c.current.kind = .commentStart) :
    comment (c.endingAt q) = comment c := by
  unfold comment peek
  simp only [bind]
  rw [skipKind_endingAt h rfl]
  rfl

theorem textContent_endingAt (h : c.AtContent) :
    textContent e (c.endingAt q) = textContent e c := by
  have hstep : textStep e [] (c.endingAt q) = textStep e [] c := by
    have hnot : ¬ c.current.kind.isStructural = true := by simp [h]
    show (if c.current.kind.isStructural = true then _ else _ : Parser (List TextPart × Bool))
      (c.endingAt q) =
        (if c.current.kind.isStructural = true then _ else _ : Parser (List TextPart × Bool)) c
    rw [if_neg hnot]
    exact next_bind_endingAt h
  have hloop : loop [] (textStep e) (c.endingAt q) = loop [] (textStep e) c := by
    unfold loop
    rw [iterate, iterate.eq_def _ _ c, hstep]
    rfl
  unfold textContent peek
  simp only [bind]
  rw [hloop]
  rfl

end EndingAt

section Line

open Piece

variable {r : Row} {p : Position} {content : List Char} {levels : Nat}

/-- The tokens of a row are cut from its line. -/
theorem isCut_of_mem_row {t : Token} (h : r.Holds p content) (ht : t ∈ r.first :: r.more) :
    t.kind.isStructural = false ∧ t.IsCut content p := by
  have hinline : ∀ piece ∈ ofContent (0 < tabCount content) (content.dropWhile isGap),
      piece.isInline := fun _ => isInline_of_mem_ofContent
  rw [h.place_body] at ht
  have hcut := isCut_of_mem_place hinline ht
  rw [join_ofContent] at hcut
  have hsplit : content = content.takeWhile isGap ++ content.dropWhile isGap ++ [] := by
    rw [append_nil, takeWhile_append_dropWhile]
  exact ⟨isStructural_of_mem_place hinline ht, hcut.within hsplit⟩

/-- The tokens of a line stand on it. -/
theorem suppliedLine_row (h : r.Holds p content) (hcontent : OneLine content)
    (hrest : c.rest = r.tokens) : (c.endingAt p).SuppliedLine (.behind p) := by
  obtain ⟨u, us, hafter, hkind, hstart, hstop⟩ := h.ending
  have hp : p.IsBehind p := ⟨rfl, Nat.le_refl _⟩
  have hrest : c.rest = (r.first :: r.more) ++ r.after := hrest
  refine Cursor.suppliedLine_of_tokens hrest (fun t ht => ?_) ⟨u, us, hafter, hkind, ?_⟩
    (fun _ _ => trivial) hp
  · obtain ⟨hlayout, hcut⟩ := isCut_of_mem_row h ht
    exact ⟨hlayout, hcut.isBehind hcontent hp⟩
  · have hnot : u.kind.isStructural ≠ false := by simp [hkind]
    exact ⟨⟨by rw [hstart]; exact hp.advance _, hstop⟩,
      fun h => absurd h hnot, fun h => absurd h hnot⟩

/-- Faults on the line are reported there. -/
theorem Reached.reports {α : Type} {Q : α → Prop} {x : α × Cursor} {q : Position}
    (h : Reached (.behind p) (c.endingAt q) Q x) : c.Reports p.line x.2 := by
  obtain ⟨new, hnew, hspans⟩ := h.line.reports
  exact ⟨new, hnew, fun d hd => (hspans d hd).start.line⟩

variable (h : r.Holds p content) (hcontent : OneLine content) (hrest : c.rest = r.tokens)

include h hcontent hrest

theorem reached_header (hkind : r.first.kind = .keywordStart) :
    Reached (.behind p) (c.endingAt p) (Header.IsSupplied (.behind p))
      (header (expression levels) c) := by
  have hread := reads_header levels _ (suppliedLine_row h hcontent hrest)
  rwa [header_endingAt (by rw [Cursor.current_of_rest hrest, hkind])] at hread

theorem reached_textContent :
    Reached (.behind p) (c.endingAt p) (TextContent.IsSupplied (.behind p))
      (textContent (expression levels) c) := by
  have hread := runs_textContent levels (suppliedLine_row h hcontent hrest)
  rw [textContent_endingAt (.of_current (Cursor.current_of_rest hrest) h.fills.content)] at hread
  exact { hread with value := hread.value.1 }

theorem reached_expressionLine :
    Reached (.behind p) (c.endingAt p) (Statement.IsSupplied (.behind p))
      (expressionLine (expression levels) c) := by
  have hcurrent : c.AtContent := .of_current (Cursor.current_of_rest hrest) h.fills.content
  have hread := runs_expressionLine (c := c.endingAt p) levels hcurrent
      (suppliedLine_row h hcontent hrest)
  rwa [expressionLine_endingAt hcurrent] at hread

theorem reached_comment (hkind : r.first.kind = .commentStart) :
    Reached (.behind p) (c.endingAt p) (Statement.IsSupplied (.behind p)) (comment c) := by
  have hread := reads_comment _ (suppliedLine_row h hcontent hrest)
  rwa [comment_endingAt (by rw [Cursor.current_of_rest hrest, hkind])] at hread

end Line

end Parser
end ScriptLint

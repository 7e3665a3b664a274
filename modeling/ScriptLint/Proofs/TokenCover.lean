import ScriptLint.Proofs.PieceJoin

/-!
# Tokens cover their source

The tokens of a source are its token pieces, placed one after another.  A token therefore holds
the bytes that its span names, tokens come in order and do not overlap, and a character that no
token covers stands in a gap or is the byte-order mark at the start.

**Results.**
* `mem_place`: a placed token is a token piece with the pieces before it and after it.
* `countP_covers_place`: an offset inside a piece is covered once if the piece is a token, else
  not at all.
* `tokenize_lossless`: tokenizing loses and repeats no character but white space and the mark.
-/

namespace ScriptLint

open List Text

variable {pieces : List Piece} {p : Position}

/-- The length of a text in bytes is the size of its UTF-8 form. -/
theorem Text.byteLength_toList (s : String) : byteLength s.toList = s.utf8ByteSize := by
  have hlist : ∀ cs : List Char, byteLength cs = (String.ofList cs).utf8ByteSize := by
    intro cs
    induction cs with
    | nil => rfl
    | cons c cs ih =>
      rw [byteLength_cons, ih, String.ofList_cons, String.utf8ByteSize_append,
        String.utf8ByteSize_singleton]
  rw [hlist, String.ofList_toList]

/-- The token covers the byte at an offset. -/
def Token.covers (t : Token) (offset : Nat) : Bool :=
  t.span.start.offset ≤ offset && offset < t.span.stop.offset

namespace Piece

theorem offset_stop (p : Position) (kind : Token.Kind) (cs : List Char) :
    (stop p kind cs).offset = p.offset + byteLength cs := by
  unfold stop
  split <;> rfl

theorem offset_last (p : Position) (pieces : List Piece) :
    (last p pieces).offset = p.offset + byteLength (join pieces) := by
  induction pieces generalizing p with
  | nil => rfl
  | cons piece pieces ih =>
    rw [last, ih, offset_next, join_cons, byteLength_append, Nat.add_assoc]

theorem last_append (p : Position) (xs ys : List Piece) :
    last p (xs ++ ys) = last (last p xs) ys := by
  induction xs generalizing p with
  | nil => rfl
  | cons piece xs ih => exact ih _

variable {t : Token}

/-- Placed tokens, split at one of them, are the pieces split at its piece. -/
theorem exists_of_place_eq {before after : List Token} (h : place p pieces = before ++ t :: after) :
    ∃ xs kind cs ys, pieces = xs ++ token kind cs :: ys ∧
      t = ⟨kind, String.ofList cs, ⟨last p xs, stop (last p xs) kind cs⟩⟩ ∧
      after = place (next (last p xs) (token kind cs)) ys := by
  induction pieces generalizing p before with
  | nil => simp [place] at h
  | cons piece pieces ih =>
    have hrest : ∀ before, place (next p piece) pieces = before ++ t :: after →
        ∃ xs kind cs ys, piece :: pieces = xs ++ token kind cs :: ys ∧
          t = ⟨kind, String.ofList cs, ⟨last p xs, stop (last p xs) kind cs⟩⟩ ∧
          after = place (next (last p xs) (token kind cs)) ys := by
      intro before hplace
      obtain ⟨xs, kind, cs, ys, rfl, rfl, rfl⟩ := ih hplace
      exact ⟨piece :: xs, kind, cs, ys, rfl, rfl, rfl⟩
    cases piece with
    | mark => exact hrest before h
    | gap cs => exact hrest before h
    | token kind cs =>
      cases before with
      | nil =>
        obtain ⟨rfl, rfl⟩ := cons.inj h
        exact ⟨[], kind, cs, pieces, rfl, rfl, rfl⟩
      | cons first before => exact hrest before (cons.inj h).2

/-- A placed token is a token piece, and the pieces before it say where it stands. -/
theorem mem_place (h : t ∈ place p pieces) :
    ∃ xs kind cs ys,
      pieces = xs ++ token kind cs :: ys ∧
      t = ⟨kind, String.ofList cs, ⟨last p xs, stop (last p xs) kind cs⟩⟩ := by
  obtain ⟨before, after, hsplit⟩ := append_of_mem h
  obtain ⟨xs, kind, cs, ys, hpieces, ht, -⟩ := exists_of_place_eq hsplit
  exact ⟨xs, kind, cs, ys, hpieces, ht⟩

/-- The piece that a placed token was. -/
theorem exists_piece_of_mem_place (h : t ∈ place p pieces) :
    ∃ cs, token t.kind cs ∈ pieces ∧ t.text = String.ofList cs := by
  obtain ⟨xs, kind, cs, ys, rfl, rfl⟩ := mem_place h
  exact ⟨cs, by simp, rfl⟩

theorem offset_bounds_of_mem_place (h : t ∈ place p pieces) :
    p.offset ≤ t.span.start.offset ∧
    t.span.start.offset ≤ t.span.stop.offset ∧
    t.span.stop.offset ≤ p.offset + byteLength (join pieces) := by
  obtain ⟨xs, kind, cs, ys, rfl, rfl⟩ := mem_place h
  simp only [offset_last, offset_stop, join_append, join_cons, text_token, byteLength_append]
  omega

theorem slice?_of_mem_place (h : t ∈ place p pieces) (hp : p.offset = 0) :
    slice? (join pieces) t.span.start.offset t.span.stop.offset = some t.text.toList := by
  obtain ⟨xs, kind, cs, ys, rfl, rfl⟩ := mem_place h
  have hjoin : join (xs ++ token kind cs :: ys) = join xs ++ cs ++ join ys := by simp
  simp only [offset_last, offset_stop, hp, Nat.zero_add, String.toList_ofList]
  rw [hjoin]
  exact slice?_append (join xs) cs (join ys)

/-- Placed tokens come in order and do not overlap. -/
theorem pairwise_place (p : Position) (pieces : List Piece) :
    (place p pieces).Pairwise fun a b => a.span.stop.offset ≤ b.span.start.offset := by
  induction pieces generalizing p with
  | nil => exact .nil
  | cons piece pieces ih =>
    cases piece with
    | mark => exact ih _
    | gap cs => exact ih _
    | token kind cs =>
      refine pairwise_cons.2 ⟨?_, ih _⟩
      intro b hb
      have hbound := (offset_bounds_of_mem_place hb).1
      rw [offset_next] at hbound
      rw [offset_stop]
      exact hbound

/-- Every character of the joined pieces stands in one of them. -/
theorem exists_piece_of_join_eq {pre post : List Char} {c : Char}
    (h : join pieces = pre ++ c :: post) :
    ∃ xs piece ys a b,
      pieces = xs ++ piece :: ys ∧ piece.text = a ++ c :: b ∧ pre = join xs ++ a := by
  induction pieces generalizing pre with
  | nil => simp at h
  | cons piece pieces ih =>
    rw [join_cons] at h
    rcases append_eq_append_iff.1 h with ⟨a, hpre, hrest⟩ | ⟨b, htext, hrest⟩
    · obtain ⟨xs, piece', ys, a', b', rfl, htext, rfl⟩ := ih hrest
      exact ⟨piece :: xs, piece', ys, a', b', rfl, htext, by simp [hpre]⟩
    · cases b with
      | nil =>
        obtain ⟨xs, piece', ys, a', b', rfl, htext', hnil⟩ :=
          @ih [] (by simpa using hrest.symm)
        refine ⟨piece :: xs, piece', ys, a', b', rfl, htext', ?_⟩
        have hsplit : join xs ++ a' = [] := hnil.symm
        simp only [join_cons, append_assoc, hsplit]
        simpa using htext.symm
      | cons d b =>
        obtain ⟨rfl, _⟩ := hrest
        exact ⟨[], piece, pieces, pre, b, rfl, htext, rfl⟩

theorem countP_covers_eq_zero {offset : Nat}
    (h : offset < p.offset ∨ p.offset + byteLength (join pieces) ≤ offset) :
    (place p pieces).countP (·.covers offset) = 0 := by
  refine countP_eq_zero.2 ?_
  intro t ht hcover
  have hbound := offset_bounds_of_mem_place ht
  simp only [Token.covers, Bool.and_eq_true, decide_eq_true_eq] at hcover
  omega

/-- The piece is a token. -/
def isToken : Piece → Bool
  | token _ _ => true
  | _ => false

/-- An offset inside a piece is covered once if the piece is a token, else not at all. -/
theorem countP_covers_place (p : Position) (xs ys : List Piece) (piece : Piece)
    {a b : List Char} {c : Char} (htext : piece.text = a ++ c :: b) :
    (place p (xs ++ piece :: ys)).countP (·.covers (p.offset + byteLength (join xs ++ a))) =
      if piece.isToken then 1 else 0 := by
  have hc := c.utf8Size_pos
  have hlast := offset_last p xs
  have hnext := offset_next (last p xs) piece
  rw [htext] at hnext
  simp only [byteLength_append, byteLength_cons] at hnext ⊢
  have hbefore : (place p xs).countP
      (·.covers (p.offset + (byteLength (join xs) + byteLength a))) = 0 :=
    countP_covers_eq_zero (.inr (by omega))
  have hafter : (place (next (last p xs) piece) ys).countP
      (·.covers (p.offset + (byteLength (join xs) + byteLength a))) = 0 :=
    countP_covers_eq_zero (.inl (by omega))
  rw [place_append, countP_append, hbefore, Nat.zero_add]
  cases piece with
  | mark => exact hafter
  | gap cs => exact hafter
  | token kind cs =>
    have hcover : Token.covers
        ⟨kind, String.ofList cs, ⟨last p xs, stop (last p xs) kind cs⟩⟩
        (p.offset + (byteLength (join xs) + byteLength a)) = true := by
      have hcs : cs = a ++ c :: b := htext
      simp only [Token.covers, offset_stop, hcs, byteLength_append, byteLength_cons,
        Bool.and_eq_true, decide_eq_true_eq]
      omega
    simp only [place, countP_cons, hcover, hafter]
    rfl

theorem mark_not_mem_ofLines (levels : List Nat) (lines : List Line) :
    mark ∉ ofLines levels lines := by
  intro h
  rcases mem_ofLines h with ⟨_, _, ⟨⟩⟩ | ⟨_, _, _, ⟨⟩⟩ | ⟨_, _, h⟩
  cases isInline_of_mem_ofContent h

/-- The mark is the first piece of a source or none of its pieces. -/
theorem mark_first_of_ofSource_eq {cs : List Char} {xs ys : List Piece}
    (h : ofSource cs = xs ++ mark :: ys) : xs = [] := by
  have hnone : ∀ zs lines, ofLines [] lines ≠ zs ++ mark :: ys := by
    intro zs lines heq
    have hmem : mark ∈ ofLines [] lines := by rw [heq]; simp
    exact mark_not_mem_ofLines [] lines hmem
  unfold ofSource at h
  split at h
  · cases xs with
    | nil => rfl
    | cons piece xs => exact absurd (cons.inj h).2 (hnone xs _)
  · exact absurd h (hnone xs _)

end Piece

/-- **Tokenizing is lossless.**  A token holds the text that its span names, tokens come in order,
and a character that no token covers is white space or the byte-order mark at the start. -/
theorem tokenize_lossless (source : String) :
    (∀ t ∈ tokenize source,
      Text.slice? source.toList t.span.start.offset t.span.stop.offset = some t.text.toList ∧
      t.span.start.offset ≤ t.span.stop.offset ∧
      t.span.stop.offset ≤ source.utf8ByteSize) ∧
    (tokenize source).Pairwise (fun a b => a.span.stop.offset ≤ b.span.start.offset) ∧
    (∀ pre c post, source.toList = pre ++ c :: post →
      (tokenize source).countP (·.covers (Text.byteLength pre)) = 1 ∨
      ((tokenize source).countP (·.covers (Text.byteLength pre)) = 0 ∧
        (pre = [] ∧ c = Text.byteOrderMark ∨ Text.isBlank c))) := by
  have hjoin := Piece.join_ofSource source.toList
  refine ⟨?_, Piece.pairwise_place _ _, ?_⟩
  · intro t ht
    have hslice := Piece.slice?_of_mem_place ht rfl
    have hbound := Piece.offset_bounds_of_mem_place ht
    rw [hjoin] at hslice hbound
    rw [byteLength_toList] at hbound
    exact ⟨hslice, hbound.2.1, by simpa [Position.origin] using hbound.2.2⟩
  · intro pre c post hsource
    obtain ⟨xs, piece, ys, a, b, hpieces, htext, rfl⟩ :=
      Piece.exists_piece_of_join_eq (hjoin.trans hsource)
    have hcount := Piece.countP_covers_place Position.origin xs ys piece htext
    rw [← hpieces] at hcount
    simp only [Position.origin, Nat.zero_add] at hcount
    cases piece with
    | token kind cs => exact .inl hcount
    | mark =>
        obtain rfl := Piece.mark_first_of_ofSource_eq hpieces
        have hmark : [byteOrderMark] = a ++ c :: b := htext
        cases a with
        | nil => exact .inr ⟨hcount, .inl ⟨rfl, (cons.inj hmark).1.symm⟩⟩
        | cons d a => simp at hmark
    | gap cs =>
        have hgap : Piece.gap cs ∈ Piece.ofSource source.toList := by rw [hpieces]; simp
        have hblank := all_eq_true.1 (Piece.allBlank_of_gap_mem_ofSource hgap)
        have hcs : cs = a ++ c :: b := htext
        exact .inr ⟨hcount, .inr (hblank c (by simp [hcs]))⟩

end ScriptLint

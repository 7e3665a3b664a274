import ScriptLint.Proofs.LineTidying
import ScriptLint.Proofs.WordSwap

/-!
# The ends of words

Words of a source are cut as long as they go: no word reaches over the ends of an identifier.  What
stands on both sides of it, in the line or the part of a line that is cut, keeps it apart.

**Results.**
* `tokenShape_cases`: what the tokens of an expression are, seen from the words in them.
* `separates_ofExpression`, `separates_ofText`, `separates_ofArgument`, `separates_ofContent`:
  identifiers among the pieces of a text are words that stand apart in it.
-/

namespace ScriptLint

open List

variable {pieces : List Piece}

namespace Text

variable {a b xs ys : List Char} {c d : Char}

theorem Apart.append (h : Apart xs ys) (h' : Apart a b) : Apart (xs ++ a) (b ++ ys) where
  left := by
    intro us c vs hsplit hc
    rcases append_eq_append_iff.1 hsplit with ⟨more, rfl, hmore⟩ | ⟨more, rfl, hmore⟩
    · exact h'.left more c vs hmore hc
    · cases more with
      | nil => exact h'.left [] c vs hmore.symm hc
      | cons e more =>
        obtain ⟨rfl, rfl⟩ := cons.inj hmore
        obtain ⟨d, hd, hword⟩ := h.left us c more rfl hc
        exact ⟨d, mem_append_left a hd, hword⟩
  right := by
    cases b with
    | nil => exact h.right
    | cons c b => exact h'.right

/-- No word begins in the text before. -/
theorem Apart.of_free (h : ∀ c ∈ xs, isWordStart c = false)
    (hys : ∀ c ∈ ys.head?, isWordChar c = false) : Apart xs ys where
  left := by
    intro us c vs hsplit hc
    rw [h c (by simp [hsplit])] at hc
    cases hc
  right := hys

/-- The text before ends in no word. -/
theorem Apart.closing (xs : List Char) (hd : isWordChar d = false)
    (hys : ∀ c ∈ ys.head?, isWordChar c = false) : Apart (xs ++ [d]) ys where
  left := by
    intro us c vs hsplit hc
    rcases eq_nil_or_concat vs with rfl | ⟨vs, e, rfl⟩
    · obtain ⟨-, hlast⟩ := append_inj' hsplit rfl
      obtain rfl := (cons.inj hlast).1
      rw [isWordChar_of_isWordStart d hc] at hd
      cases hd
    · rw [concat_eq_append, ← cons_append, ← append_assoc] at hsplit
      obtain ⟨-, hlast⟩ := append_inj' hsplit rfl
      obtain rfl := (cons.inj hlast).1
      exact ⟨d, by simp, hd⟩
  right := hys

theorem apart_nil (h : ∀ c ∈ ys.head?, isWordChar c = false) : Apart [] ys :=
  .of_free nofun h

/-- A text in which no word begins may stand before. -/
theorem Apart.free_append (h : Apart a b) (hxs : ∀ c ∈ xs, isWordStart c = false) :
    Apart (xs ++ a) b := by
  have hbefore : Apart xs [] := .of_free hxs nofun
  have happend := hbefore.append h
  rwa [append_nil] at happend

/-- A text that ends in no word may stand before. -/
theorem Apart.closing_append (h : Apart a b) (xs : List Char) (hd : isWordChar d = false) :
    Apart (xs ++ d :: a) b := by
  have hbefore : Apart (xs ++ [d]) [] := .closing xs hd nofun
  have happend := hbefore.append h
  rwa [append_nil, append_assoc] at happend

theorem isWordStart_of_isWordChar (h : isWordChar c = false) : isWordStart c = false := by
  rw [Bool.eq_false_iff]
  intro hstart
  rw [isWordChar_of_isWordStart c hstart] at h
  cases h

theorem isWordStart_of_isDigit (h : c.isDigit) : isWordStart c = false := by
  rw [Bool.eq_false_iff]
  intro hstart
  rw [isDigit_of_isWordStart hstart] at h
  cases h

theorem isWordStart_of_isGap (h : isGap c) : isWordStart c = false := by
  refine isWordStart_of_isWordChar ?_
  rw [Bool.eq_false_iff]
  intro hword
  rw [isGap_of_isWordChar hword] at h
  cases h

theorem isWordStart_of_mem_gaps : ∀ c ∈ xs.takeWhile isGap, isWordStart c = false :=
  fun c hc => isWordStart_of_isGap (all_eq_true.1 all_takeWhile c hc)

end Text

namespace Piece

open Text

theorem take_length_takeWhile (p : Char → Bool) (cs : List Char) :
    cs.take (cs.takeWhile p).length = cs.takeWhile p :=
  (prefix_iff_eq_take.1 (List.takeWhile_prefix p)).symm

/-- A number is made of digits and points. -/
theorem isDigit_of_mem_number (rest : List Char) :
    ∀ d ∈ rest.take (numberLength rest), d.isDigit ∨ d = '.' := by
  have hdigits : ∀ cs : List Char, ∀ d ∈ cs.takeWhile Char.isDigit, d.isDigit ∨ d = '.' :=
    fun cs d hd => .inl (all_eq_true.1 all_takeWhile d hd)
  unfold numberLength
  dsimp only
  split
  · next fraction hdrop =>
    split
    · rw [take_length_takeWhile]
      exact hdigits rest
    · intro d hd
      rw [Nat.add_assoc, take_add, hdrop, take_length_takeWhile, Nat.add_comm,
        take_succ_cons, take_length_takeWhile] at hd
      rcases mem_append.1 hd with hd | hd
      · exact hdigits rest d hd
      · rcases mem_cons.1 hd with rfl | hd
        · exact .inr rfl
        · exact hdigits fraction d hd
  · rw [take_length_takeWhile]
    exact hdigits rest

/-- No word begins in a number. -/
theorem isWordStart_of_mem_number (rest : List Char) :
    ∀ d ∈ rest.take (numberLength rest), isWordStart d = false := by
  intro d hd
  rcases isDigit_of_mem_number rest d hd with hdigit | rfl
  · exact isWordStart_of_isDigit hdigit
  · decide

/-- What a token of an expression is: a word up to its end, a text that ends in no word or takes all
that is left, or a text in which no word begins. -/
theorem tokenShape_cases (c : Char) (rest : List Char) :
    (isWordStart c ∧ (tokenShape c rest).2 = (rest.takeWhile isWordChar).length ∧
      ((tokenShape c rest).1 = .identifier → Vocabulary.operatorWords.contains
        (String.ofList (c :: rest.takeWhile isWordChar)) = false)) ∨
    (tokenShape c rest).1 ≠ .identifier ∧
      ((∃ xs d, c :: rest.take (tokenShape c rest).2 = xs ++ [d] ∧ isWordChar d = false) ∨
        rest.drop (tokenShape c rest).2 = [] ∨
        ∀ d ∈ c :: rest.take (tokenShape c rest).2, isWordStart d = false) := by
  by_cases hdigit : c.isDigit
  · refine .inr ⟨?_, .inr (.inr ?_)⟩
    · rw [tokenShape, if_pos hdigit]
      rintro ⟨⟩
    · rw [tokenShape, if_pos hdigit]
      exact forall_mem_cons.2 ⟨isWordStart_of_isDigit hdigit, isWordStart_of_mem_number rest⟩
  by_cases hquote : isQuote c
  · have hchar : isWordChar c = false := by
      rw [Bool.eq_false_iff]
      intro hword
      rw [isQuote_of_isWordChar hword] at hquote
      cases hquote
    rw [tokenShape, if_neg hdigit, if_pos hquote]
    cases hclosing : rest.idxOf? c with
    | none =>
      refine .inr ⟨by rintro ⟨⟩, .inr (.inl ?_)⟩
      rw [drop_length]
    | some i =>
      refine .inr ⟨by rintro ⟨⟩, .inl ⟨c :: rest.take i, c, ?_, hchar⟩⟩
      obtain ⟨hlt, hget, -⟩ := idxOf?_eq_some_iff.1 hclosing
      rw [take_succ_eq_append_getElem hlt, hget, cons_append]
  by_cases hstart : isWordStart c
  · rw [tokenShape, if_neg hdigit, if_neg hquote, if_pos hstart]
    dsimp only
    refine .inl ⟨hstart, rfl, ?_⟩
    rw [take_length_takeWhile]
    split
    · rintro ⟨⟩
    · next hplain => exact fun _ => Bool.eq_false_iff.2 hplain
  · have hfirst : isWordStart c = false := Bool.eq_false_iff.2 hstart
    rw [tokenShape, if_neg hdigit, if_neg hquote, if_neg hstart]
    have hsingle : ∀ d ∈ c :: rest.take 0, isWordStart d = false := by
      rintro d (_ | ⟨_, ⟨⟩⟩)
      exact hfirst
    split
    · next hpair =>
      refine .inr ⟨by rintro ⟨⟩, .inr (.inr ?_)⟩
      cases rest with
      | nil => cases hpair
      | cons e more =>
        have hsecond : e = '=' ∨ e = '>' ∨ e = ':' := by
          simp only [head?_cons, Option.any_some, isOperatorPair, Bool.or_eq_true,
            Bool.and_eq_true, beq_iff_eq] at hpair
          tauto
        rintro d (_ | ⟨_, _ | ⟨_, ⟨⟩⟩⟩)
        · exact hfirst
        · rcases hsecond with rfl | rfl | rfl <;> decide
    · split
      · exact .inr ⟨by rintro ⟨⟩, .inr (.inr hsingle)⟩
      · split
        · exact .inr ⟨by rintro ⟨⟩, .inr (.inr hsingle)⟩
        · exact .inr ⟨by rintro ⟨⟩, .inr (.inr hsingle)⟩

/-- The identifiers among the pieces are words that stand apart from the texts before and behind
them. -/
def Separates (pieces : List Piece) : Prop :=
  ∀ xs word ys, pieces = xs ++ token .identifier word :: ys →
    IsWord word ∧ Apart (join xs) (join ys)

theorem separates_of_forall
    (h : ∀ piece ∈ pieces, ∀ word, piece ≠ token .identifier word) : Separates pieces := by
  rintro xs word ys rfl
  exact absurd rfl (h (token .identifier word) (by simp) word)

/-- One more piece that is no identifier, in front of pieces that are known to separate their
words. -/
theorem Separates.cons {piece : Piece} (h : Separates pieces)
    (hpiece : ∀ word, piece ≠ token .identifier word)
    (hbefore : ∀ xs word ys, pieces = xs ++ token .identifier word :: ys → IsWord word →
      Apart (join xs) (join ys) → Apart (piece.text ++ join xs) (join ys)) :
        Separates (piece :: pieces) := by
  intro xs word ys hsplit
  cases xs with
  | nil => exact absurd (cons.inj hsplit).1 (hpiece word)
  | cons first xs =>
    obtain ⟨rfl, hrest⟩ := cons.inj hsplit
    obtain ⟨hword, hapart⟩ := h xs word ys hrest
    exact ⟨hword, hbefore xs word ys hrest hword hapart⟩

theorem head_append_of_isWord {word : List Char} (h : IsWord word) {u : List Char}
    {rest : List Char} (hrest : ∀ c ∈ (u ++ word ++ rest).head?, isWordChar c = false) :
    ∃ d more, u = d :: more ∧ isWordChar d = false := by
  cases u with
  | nil =>
    obtain ⟨c, more, rfl, hc⟩ := h.start
    have hfalse := hrest c rfl
    rw [isWordChar_of_isWordStart c hc] at hfalse
    cases hfalse
  | cons d more => exact ⟨d, more, rfl, hrest d rfl⟩

theorem separates_ofComment (text : List Char) : Separates (ofComment text) := by
  refine separates_of_forall fun piece hpiece word => ?_
  rcases hpiece with _ | ⟨_, _ | ⟨_, ⟨⟩⟩⟩
  · exact nofun
  · exact nofun

/-- The identifiers of an expression are words that stand apart in it. -/
theorem separates_ofExpression (comments : Bool) (u : List Char) :
    Separates (ofExpression comments u) := by
  fun_induction ofExpression comments u with
  | case1 => exact separates_of_forall (forall_mem_nil _)
  | case2 c rest hgap ih =>
    refine ih.cons (by rintro _ ⟨⟩) fun xs word ys _ _ hapart => hapart.free_append ?_
    intro d hd
    obtain rfl := mem_singleton.1 hd
    exact isWordStart_of_isGap hgap
  | case3 c rest _ hcomment =>
    exact separates_ofComment (rest.drop 1)
  | case4 c rest hgap hcomment shape ih =>
    have hhead : ∀ d ∈ (rest.dropWhile isWordChar).head?, isWordChar d = false := by
      intro d hd
      have hnot := head?_dropWhile_not isWordChar rest
      rw [hd] at hnot
      simpa using hnot
    have hbefore : ∀ xs word ys, ofExpression comments (rest.drop shape.2) =
        xs ++ token .identifier word :: ys → IsWord word → Apart (join xs) (join ys) →
        Apart ((c :: rest.take shape.2) ++ join xs) (join ys) := by
      intro xs word ys hrest hword hapart
      have hjoin : rest.drop shape.2 = join xs ++ word ++ join ys := by
        rw [← join_ofExpression comments (rest.drop shape.2), hrest]
        simp
      rcases tokenShape_cases c rest with ⟨hstart, hlength, -⟩ |
        ⟨-, ⟨us, d, hus, hd⟩ | hempty | hfree⟩
      · rw [show shape.2 = (rest.takeWhile isWordChar).length from hlength,
          drop_length_takeWhile] at hjoin
        obtain ⟨d, more, hxs, hd⟩ := head_append_of_isWord hword (hjoin ▸ hhead)
        rw [hxs] at hapart ⊢
        exact hapart.of_cons.closing_append _ hd
      · rw [hus, append_assoc]
        exact hapart.closing_append us hd
      · rw [hempty] at hrest
        simp [ofExpression] at hrest
      · exact hapart.free_append hfree
    by_cases hkind : shape.1 = .identifier
    · rcases tokenShape_cases c rest with ⟨hstart, hlength, hplain⟩ | ⟨hother, -⟩
      · intro xs word ys hsplit
        cases xs with
        | nil =>
          obtain ⟨hpiece, rfl⟩ := cons.inj hsplit
          obtain ⟨-, rfl⟩ := Piece.token.inj hpiece
          rw [show shape.2 = (rest.takeWhile isWordChar).length from hlength,
            take_length_takeWhile, join_ofExpression, drop_length_takeWhile]
          refine ⟨⟨⟨c, _, rfl, hstart⟩, ?_, hplain hkind⟩, apart_nil hhead⟩
          exact forall_mem_cons.2 ⟨isWordChar_of_isWordStart c hstart, all_eq_true.1 all_takeWhile⟩
        | cons first xs =>
          obtain ⟨rfl, hrest⟩ := cons.inj hsplit
          obtain ⟨hword, hapart⟩ := ih xs word ys hrest
          exact ⟨hword, hbefore xs word ys hrest hword hapart⟩
      · exact absurd hkind hother
    · refine ih.cons ?_ hbefore
      rintro word heq
      exact hkind (Piece.token.inj heq).1

/-- Pieces in which no word begins may stand before. -/
theorem Separates.free_append {more : List Piece} (h : Separates more)
    (hkinds : ∀ piece ∈ pieces, ∀ word, piece ≠ token .identifier word)
    (hfree : ∀ c ∈ join pieces, isWordStart c = false) : Separates (pieces ++ more) := by
  induction pieces with
  | nil => exact h
  | cons piece pieces ih =>
    obtain ⟨hkind, hkinds⟩ := forall_mem_cons.1 hkinds
    refine (ih hkinds fun c hc => hfree c (mem_append_right _ hc)).cons hkind ?_
    intro xs word ys _ _ hapart
    exact hapart.free_append fun c hc => hfree c (mem_append_left _ hc)

/-- Pieces that go on with no word may follow. -/
theorem Separates.append {more : List Piece} (h : Separates pieces) (h' : Separates more)
    (hhead : ∀ c ∈ (join more).head?, isWordChar c = false) : Separates (pieces ++ more) := by
  intro xs word ys hsplit
  rcases append_eq_append_iff.1 hsplit with ⟨zs, rfl, hzs⟩ | ⟨zs, hzs, hmore⟩
  · obtain ⟨hword, hapart⟩ := h' zs word ys hzs
    have hjoin : join more = join zs ++ word ++ join ys := by
      rw [hzs]
      simp
    obtain ⟨d, us, hus, hd⟩ := head_append_of_isWord hword (hjoin ▸ hhead)
    rw [join_append, hus]
    rw [hus] at hapart
    exact ⟨hword, hapart.of_cons.closing_append _ hd⟩
  · cases zs with
    | nil =>
      obtain ⟨hword, hapart⟩ := h' [] word ys hmore.symm
      obtain ⟨c, cs, rfl, hc⟩ := hword.start
      rw [nil_append] at hmore
      rw [← hmore] at hhead
      have hfalse := hhead c rfl
      rw [isWordChar_of_isWordStart c hc] at hfalse
      cases hfalse
    | cons first zs =>
      rw [cons_append] at hmore
      obtain ⟨rfl, rfl⟩ := cons.inj hmore
      obtain ⟨hword, hapart⟩ := h xs word zs hzs
      rw [join_append]
      exact ⟨hword, (apart_nil hhead).append hapart⟩

/-- The identifiers of a text are words between its braces, and stand apart in it. -/
theorem separates_ofText (u : List Char) : Separates (ofText u) := by
  fun_induction ofText u with
  | case1 => exact separates_of_forall (forall_mem_nil _)
  | case2 rest inner after hsplit ih =>
    have hafter : Separates (token .interpolationEnd ['}'] :: ofText after) := by
      refine ih.cons (by rintro _ ⟨⟩) fun xs word ys _ _ hapart => ?_
      exact hapart.closing_append [] (by decide)
    refine ((separates_ofExpression false inner).append hafter ?_).cons (by rintro _ ⟨⟩) ?_
    · rintro c ⟨⟩
      decide
    · intro xs word ys _ _ hapart
      exact hapart.closing_append [] (by decide)
  | case3 rest hsplit =>
    refine separates_of_forall fun piece hpiece word => ?_
    obtain rfl := mem_singleton.1 hpiece
    rintro ⟨⟩
  | case4 c rest hbrace ih =>
    have hrun : Separates [token .text (c :: rest.takeWhile (· ≠ '{'))] := by
      refine separates_of_forall fun piece hpiece word => ?_
      obtain rfl := mem_singleton.1 hpiece
      rintro ⟨⟩
    refine hrun.append ih ?_
    rw [join_ofText]
    intro d hd
    have hnot := head?_dropWhile_not (· ≠ '{') rest
    rw [hd] at hnot
    obtain rfl : d = '{' := by simpa using hnot
    decide

theorem separates_ofArgument (u : List Char) : Separates (ofArgument u) := by
  unfold ofArgument
  split
  · next rest _ =>
    have hbefore : Separates ([gap (u.takeWhile isGap), token .colon [':'],
        gap (rest.takeWhile isGap)] ++ ofText (rest.dropWhile isGap)) := by
      refine (separates_ofText _).free_append (by simp) fun c hc => ?_
      simp only [join_cons, join_nil, text_token, append_nil, mem_append,
        mem_singleton] at hc
      rcases hc with hc | rfl | hc
      · exact isWordStart_of_mem_gaps c hc
      · decide
      · exact isWordStart_of_mem_gaps c hc
    exact hbefore
  · refine (separates_ofText _).cons nofun fun xs word ys _ _ hapart => ?_
    exact hapart.free_append isWordStart_of_mem_gaps

/-- What a line that is not that of a keyword may be. -/
theorem ofContent_of_plain (indented : Bool) {content : List Char}
    (hplain : keywordName? content = none) :
    (∃ rest, content.dropWhile isGap = '-' :: '-' :: rest ∧
      ofContent indented (content.dropWhile isGap) = ofComment rest) ∨
    (∃ rest, content.dropWhile isGap = '>' :: '>' :: rest ∧
      ofContent indented (content.dropWhile isGap) =
        token .expressionStart ['>', '>'] :: ofExpression true rest) ∨
    (∀ rest, content.dropWhile isGap ≠ '-' :: '-' :: rest ∧
      content.dropWhile isGap ≠ '>' :: '>' :: rest) ∧
      ofContent indented (content.dropWhile isGap) = ofText (content.dropWhile isGap) := by
  unfold ofContent
  split
  · next rest hbody => exact .inl ⟨rest, hbody, rfl⟩
  · next rest hbody => exact .inr (.inl ⟨rest, hbody, rfl⟩)
  · next after hbody =>
    unfold keywordName? at hplain
    dsimp only at hplain
    rw [hbody] at hplain ⊢
    unfold ofKeywordLine
    split at hplain
    · cases hplain
    · next hnot =>
      by_contra hother
      refine hnot ⟨rfl, ?_, ?_⟩ <;> simp_all
  · next hcomment hexpression _ =>
    exact .inr (.inr ⟨fun rest => ⟨hcomment rest, hexpression rest⟩, rfl⟩)

/-- The identifiers of a line that is not that of a keyword. -/
theorem separates_ofContent (indented : Bool) {content : List Char}
    (hplain : keywordName? content = none) :
    Separates (ofContent indented (content.dropWhile isGap)) := by
  rcases ofContent_of_plain indented hplain with ⟨rest, -, hpieces⟩ | ⟨rest, -, hpieces⟩ |
    ⟨-, hpieces⟩
  · rw [hpieces]
    exact separates_ofComment rest
  · rw [hpieces]
    refine (separates_ofExpression true rest).cons nofun fun xs word ys _ _ hapart => ?_
    exact hapart.closing_append ['>'] (by decide)
  · rw [hpieces]
    exact separates_ofText _

end Piece

end ScriptLint

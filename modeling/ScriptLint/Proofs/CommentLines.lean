import ScriptLint.Proofs.FixedLines
import ScriptLint.Proofs.WordBounds

/-!
# Comments, found twice

Comments are found by the tokenizer, and once more by the reader of directives, which goes over the
characters of a line with an open quote and a mark for a hyphen just read.  Both find the same
comments on a line that begins with white space between tokens.  They differ in what they pass over
at the start of a line: the tokenizer spaces and tabs, the reader of directives all white space.

**Where they meet.**  The reader need not know where tokens begin.  Before a token its mark is set
only behind a single hyphen, and then no hyphen follows, or the two would begin a comment.

**Results.**
* `comments_ofExpression`: the comment behind an expression.
* `exists_comment_tokenize`: the comment tokens on a line.
* `commentOf_iff_comment_token`, `directives_of_uncommented_line`: directives are comments of the
  tokenizer.
-/

namespace ScriptLint

open List Text

open Piece

variable {cs : List Char} {p : Position}

namespace Directive

/-- The comment in what a line holds behind its white space. -/
def commentIn : List Char → Option (List Char)
  | '-' :: '-' :: rest => some rest
  | '>' :: '>' :: rest => commentAfter none false rest
  | _ => none

/-- What a line holds behind its white space is a comment or an expression. -/
def isMarked : List Char → Bool
  | '-' :: '-' :: _ => true
  | '>' :: '>' :: _ => true
  | _ => false

theorem commentOf_eq_commentIn (line : List Char) :
    commentOf line = commentIn (trimStart line) := rfl

theorem commentIn_of_not_isMarked (h : isMarked cs = false) : commentIn cs = none := by
  unfold isMarked at h
  split at h
  · cases h
  · cases h
  · next hcomment hexpression => rw [commentIn.eq_3 cs hcomment hexpression]

/-- The first character of a marked text is no white space. -/
theorem exists_cons_of_isMarked (h : isMarked cs) :
    ∃ c rest, cs = c :: rest ∧ isBlank c = false := by
  unfold isMarked at h
  split at h
  · exact ⟨_, _, rfl, by decide⟩
  · exact ⟨_, _, rfl, by decide⟩
  · cases h

section Scanning

variable {hyphen : Bool} {c : Char} {rest xs ys : List Char}

/-- Neither a quote nor a hyphen: the reader passes over it. -/
def isPlain (c : Char) : Bool :=
  !isQuote c && c != '-'

theorem commentAfter_of_isPlain (hc : isPlain c) (hyphen : Bool) (rest : List Char) :
    commentAfter none hyphen (c :: rest) = commentAfter none false rest := by
  simp only [isPlain, Bool.and_eq_true, Bool.not_eq_true', bne_iff_ne] at hc
  rw [commentAfter, if_neg (by simp [hc.1]), if_neg (by simp [hc.2]), beq_false_of_ne hc.2]

theorem commentAfter_plain_append (hxs : ∀ x ∈ xs, isPlain x) (ys : List Char) :
    commentAfter none false (xs ++ ys) = commentAfter none false ys := by
  induction xs with
  | nil => rfl
  | cons x xs ih =>
    rw [cons_append, commentAfter_of_isPlain (hxs x mem_cons_self),
      ih fun y hy => hxs y (mem_cons_of_mem x hy)]

theorem commentAfter_quoted (h : c ∉ xs) (ys : List Char) :
    commentAfter (some c) false (xs ++ c :: ys) = commentAfter none false ys := by
  induction xs with
  | nil => simp [commentAfter]
  | cons x xs ih =>
    obtain ⟨hx, hxs⟩ := ne_and_not_mem_of_not_mem_cons h
    rw [cons_append, commentAfter, if_neg hx.symm]
    exact ih hxs

theorem commentAfter_unclosed (h : c ∉ xs) : commentAfter (some c) false xs = none := by
  induction xs with
  | nil => rfl
  | cons x xs ih =>
    obtain ⟨hx, hxs⟩ := ne_and_not_mem_of_not_mem_cons h
    rw [commentAfter, if_neg hx.symm]
    exact ih hxs

/-- A class of characters without quotes and hyphens is plain. -/
theorem isPlain_of_class {p : Char → Bool} (hp : p '"' = false ∧ p '\'' = false ∧ p '-' = false)
    (h : p c) : isPlain c := by
  have hne : c ≠ '"' ∧ c ≠ '\'' ∧ c ≠ '-' := by
    refine ⟨?_, ?_, ?_⟩ <;> rintro rfl <;> simp_all
  simp [isPlain, isQuote, hne]

theorem isPlain_of_mem_number (rest : List Char) :
    ∀ d ∈ rest.take (numberLength rest), isPlain d := by
  intro d hd
  rcases isDigit_of_mem_number rest d hd with hdigit | rfl
  · exact isPlain_of_class (by decide) hdigit
  · rfl

theorem exists_of_idxOf? {i : Nat} (h : rest.idxOf? c = some i) :
    ∃ xs ys, rest = xs ++ c :: ys ∧ c ∉ xs ∧ i = xs.length := by
  have hmem : c ∈ rest := isSome_idxOf?.1 (Option.isSome_iff_exists.2 ⟨i, h⟩)
  obtain ⟨xs, ys, rfl, hxs⟩ := eq_append_cons_of_mem hmem
  refine ⟨xs, ys, rfl, hxs, ?_⟩
  have hnone := idxOf?_eq_none_iff.2 hxs
  unfold idxOf? at h hnone
  simpa [findIdx?_append, hnone, findIdx?_cons, eq_comm] using h

/-- **One token.**  The reader goes over a token to the next, with its mark set at most where no
hyphen follows. -/
theorem commentAfter_token (hhyphen : hyphen = true → c ≠ '-')
    (hcomment : ¬(c = '-' ∧ rest.head? = some '-')) :
    ∃ hyphen', (hyphen' = true → (rest.drop (tokenShape c rest).2).head? ≠ some '-') ∧
      commentAfter none hyphen (c :: rest) =
        commentAfter none hyphen' (rest.drop (tokenShape c rest).2) := by
  have hplain : ∀ n, isPlain c → (∀ d ∈ rest.take n, isPlain d) →
      commentAfter none hyphen (c :: rest) = commentAfter none false (rest.drop n) := by
    intro n hc hrest
    rw [commentAfter_of_isPlain hc, ← commentAfter_plain_append hrest (rest.drop n),
      take_append_drop]
  unfold tokenShape
  split
  · next hdigit =>
    exact ⟨false, Bool.false_ne_true.elim, hplain _ (isPlain_of_class (by decide) hdigit)
      (isPlain_of_mem_number rest)⟩
  split
  · next hquote =>
    have hopen : commentAfter none hyphen (c :: rest) = commentAfter (some c) false rest := by
      simp [commentAfter, hquote]
    refine ⟨false, Bool.false_ne_true.elim, hopen.trans ?_⟩
    split
    · next i hi =>
      obtain ⟨xs, ys, rfl, hxs, rfl⟩ := exists_of_idxOf? hi
      rw [commentAfter_quoted hxs, drop_length_add_append, drop_succ_cons, drop_zero]
    · next hnone =>
      rw [commentAfter_unclosed (idxOf?_eq_none_iff.1 hnone), drop_length]
      rfl
  split
  · next hstart =>
    refine ⟨false, Bool.false_ne_true.elim, hplain _ ?_ ?_⟩
    · exact isPlain_of_class (by decide) (isWordChar_of_isWordStart c hstart)
    · rw [take_length_takeWhile]
      exact fun d hd => isPlain_of_class (by decide) (all_eq_true.1 all_takeWhile d hd)
  split
  · next hquote _ hpair =>
    obtain ⟨d, hd, hpair⟩ := (Option.any_eq_true _ _).1 hpair
    obtain ⟨ys, rfl⟩ := head?_eq_some_iff.1 hd
    have hd : isPlain d := by
      rcases (by simpa [isOperatorPair] using hpair :
        ((c = '<' ∨ c = '>') ∧ d = '=' ∨ c = '-' ∧ d = '>') ∨ c = ':' ∧ d = ':') with
          (⟨-, rfl⟩ | ⟨-, rfl⟩) | ⟨-, rfl⟩ <;> rfl
    have hmark : (decide (c = '-') && hyphen) = false := by
      cases hyphen <;> simp_all
    refine ⟨false, Bool.false_ne_true.elim, ?_⟩
    rw [commentAfter, if_neg hquote, if_neg (by simp [hmark]), commentAfter_of_isPlain hd]
    rfl
  split
  · next hquote _ _ _ =>
    have hmark : (decide (c = '-') && hyphen) = false := by
      cases hyphen <;> simp_all
    refine ⟨c == '-', fun hc => ?_, ?_⟩
    · exact fun hhead => hcomment ⟨by simpa using hc, hhead⟩
    · rw [commentAfter, if_neg hquote, if_neg (by simp [hmark])]
      rfl
  · next hquote _ _ hoperator =>
    have hc : isPlain c := by
      have hne : c ≠ '-' := by
        rintro rfl
        exact hoperator rfl
      simp [isPlain, hquote, hne]
    split <;> exact ⟨false, Bool.false_ne_true.elim, hplain 0 hc (by simp)⟩

end Scanning
end Directive

open Directive

namespace Piece

/-- The text of a comment. -/
def comment? : Piece → Option (List Char)
  | token .comment text => some text
  | _ => none

/-- The comments among the pieces. -/
def comments (pieces : List Piece) : List (List Char) :=
  pieces.filterMap comment?

@[simp]
theorem comments_append (xs ys : List Piece) : comments (xs ++ ys) = comments xs ++ comments ys :=
  filterMap_append

theorem comments_cons_of_ne {kind : Token.Kind} (hkind : kind ≠ .comment) (text : List Char)
    (pieces : List Piece) : comments (token kind text :: pieces) = comments pieces := by
  cases kind <;> first | rfl | exact absurd rfl hkind

theorem tokenShape_ne_comment (c : Char) (rest : List Char) : (tokenShape c rest).1 ≠ .comment :=
  fun hkind => absurd (hkind ▸ kind_tokenShape c rest) (by decide)

/-- **The comment behind an expression.** -/
theorem comments_ofExpression (cs : List Char) :
    ∀ hyphen : Bool, (hyphen = true → cs.head? ≠ some '-') →
      comments (ofExpression true cs) = (commentAfter none hyphen cs).toList := by
  fun_induction ofExpression true cs with
  | case1 => exact fun _ _ => rfl
  | case2 c rest hgap ih =>
    intro hyphen _
    rw [commentAfter_of_isPlain (isPlain_of_class (by decide) hgap)]
    exact ih false Bool.false_ne_true.elim
  | case3 c rest _ hcomment =>
    simp only [Bool.true_and, Bool.and_eq_true, beq_iff_eq] at hcomment
    obtain ⟨rfl, hhead⟩ := hcomment
    obtain ⟨rest, rfl⟩ := head?_eq_some_iff.1 hhead
    intro hyphen h
    obtain rfl : hyphen = false := by simpa using h
    rfl
  | case4 c rest _ hcomment _ ih =>
    intro hyphen h
    obtain ⟨hyphen', hnext, hread⟩ := @commentAfter_token hyphen c rest (by simpa using h)
      (by simpa using hcomment)
    rw [comments_cons_of_ne (tokenShape_ne_comment c rest), ih hyphen' hnext, hread]

theorem comments_ofExpression_false (cs : List Char) : comments (ofExpression false cs) = [] := by
  fun_induction ofExpression false cs with
  | case1 => rfl
  | case2 c rest _ ih => exact ih
  | case3 c rest _ hcomment => simp at hcomment
  | case4 c rest _ _ _ ih => rw [comments_cons_of_ne (tokenShape_ne_comment c rest), ih]

theorem comments_ofText (cs : List Char) : comments (ofText cs) = [] := by
  fun_induction ofText cs with
  | case1 => rfl
  | case2 rest inner after _ ih =>
    simp [comments_cons_of_ne, comments_ofExpression_false, ih]
  | case3 rest _ => rfl
  | case4 c rest _ ih => rw [comments_cons_of_ne (by rintro ⟨⟩), ih]

theorem comments_ofKeywordLine (indented : Bool) (line : List Char) :
    comments (ofKeywordLine indented line) = [] := by
  have hargument : ∀ cs, comments (ofArgument cs) = [] := by
    intro cs
    unfold ofArgument
    split <;> exact comments_ofText _
  fun_cases ofKeywordLine indented line with
  | case1 => exact comments_ofText line
  | case2 name _ sub =>
    have hsub : (if sub then Token.Kind.subKeyword else .keyword) ≠ .comment := by split <;> nofun
    rw [comments_cons_of_ne (by nofun), comments_cons_of_ne hsub, hargument]

theorem comments_ofContent (indented : Bool) (cs : List Char) :
    comments (ofContent indented cs) = (commentIn cs).toList := by
  fun_cases ofContent indented cs with
  | case1 rest => rfl
  | case2 rest => exact comments_ofExpression rest false nofun
  | case3 rest => exact comments_ofKeywordLine indented _
  | case4 cs hcomment hexpression _ =>
    rw [commentIn.eq_3 cs hcomment hexpression]
    exact comments_ofText cs

/-- The comments that the tokenizer cuts out of a line. -/
theorem comments_ofLineContent (levels : List Nat) (content : List Char) :
    comments (ofLineContent levels content) = (commentIn (content.dropWhile isGap)).toList := by
  have hindentation : ∀ tabs, comments (ofIndentation levels tabs) = [] := by
    intro tabs
    have hdedents : ∀ ls : List Nat, comments (dedents ls) = [] := by
      intro ls
      induction ls with
      | nil => rfl
      | cons _ ls ih => exact ih
    rw [ofIndentation, comments_append, hdedents]
    split <;> rfl
  unfold ofLineContent
  split
  · next hblank =>
    have hplain : isMarked (content.dropWhile isGap) = false := by
      rw [Bool.eq_false_iff]
      intro hmarked
      obtain ⟨c, rest, hrest, hc⟩ := exists_cons_of_isMarked hmarked
      have hmem : c ∈ content := (dropWhile_sublist _).subset (hrest ▸ mem_cons_self)
      rw [all_eq_true.1 hblank c hmem] at hc
      cases hc
    rw [commentIn_of_not_isMarked hplain]
    rfl
  · rw [comments_append, hindentation, dropWhile_isGap content]
    exact comments_ofContent _ _

/-- The comments among placed tokens are those among the pieces. -/
theorem exists_comment_place {pieces : List Piece} {text : List Char} :
    (∃ t ∈ place p pieces, t.kind = .comment ∧ t.text = String.ofList text) ↔
    text ∈ comments pieces := by
  induction pieces generalizing p with
  | nil => simp [place, comments]
  | cons piece pieces ih =>
    cases piece with
    | mark => exact ih
    | gap cs => exact ih
    | token kind cs =>
      have hcons : ∀ P : Token → Prop, (∃ t ∈ place p (token kind cs :: pieces), P t) ↔
          P ⟨kind, String.ofList cs, ⟨p, stop p kind cs⟩⟩ ∨
            ∃ t ∈ place (next p (token kind cs)) pieces, P t :=
        fun P => exists_mem_cons_iff P _ _
      rw [hcons, ih, String.ofList_inj]
      by_cases hkind : kind = .comment
      · subst hkind
        have hcomments : comments (token .comment cs :: pieces) = cs :: comments pieces := rfl
        simp [hcomments, eq_comm]
      · rw [comments_cons_of_ne hkind]
        simp [hkind]

theorem line_le_last (p : Position) (pieces : List Piece) : p.line ≤ (last p pieces).line := by
  induction pieces generalizing p with
  | nil => exact Nat.le_refl _
  | cons piece pieces ih =>
    have hnext : p.line ≤ (next p piece).line := by
      cases piece with
      | mark => exact Nat.le_refl _
      | gap text => exact Nat.le_refl _
      | token kind text =>
        rw [next]
        split
        · exact Nat.le_succ _
        · exact Nat.le_refl _
    exact hnext.trans (ih _)

theorem line_bounds_of_mem_place {pieces : List Piece} {t : Token} (h : t ∈ place p pieces) :
    p.line ≤ t.span.start.line ∧ t.span.start.line ≤ (last p pieces).line := by
  obtain ⟨xs, kind, cs, ys, rfl, rfl⟩ := mem_place h
  rw [last_append]
  exact ⟨line_le_last p xs, line_le_last _ _⟩

theorem kind_ne_comment_of_mem_ofLines_nil {levels : List Nat} {t : Token}
    (h : t ∈ place p (ofLines levels [])) : t.kind ≠ .comment := by
  intro hkind
  have hlayout := isStructural_of_mem_ofLines_nil h
  rw [hkind] at hlayout
  cases hlayout

theorem line_of_mem_ofLineContent {levels : List Nat} {content : List Char} {t : Token}
    (h : t ∈ place p (ofLineContent levels content)) : t.span.start.line = p.line := by
  have hbounds := line_bounds_of_mem_place h
  rw [last_ofLineContent] at hbounds
  exact Nat.le_antisymm hbounds.2 hbounds.1

section Lines

variable {line : Line} {ls : List Line} {levels : List Nat} {t : Token}

/-- The content of lines is that of the first line and that of the others. -/
theorem mem_ofLines_cons (hkind : t.kind.isStructural = false) :
    t ∈ place p (ofLines levels (line :: ls)) ↔ t ∈ place p (ofLineContent levels line.content) ∨
      t ∈ place (afterLine p line) (ofLines (levelsAfter levels line.content) ls) := by
  have hends : t ∉ place (p.advance line.content) (ofEnding line.ending) := by
    intro ht
    unfold ofEnding at ht
    split at ht
    · cases ht
    · obtain rfl := mem_singleton.1 ht
      cases hkind
  rw [place_ofLines_cons, last_ofLineContent, place_append, mem_append,
    mem_append, or_iff_right hends]
  rfl

/-- Where there is a comment behind a line, the line has an ending. -/
theorem line_afterLine_of_comment (hending : line.ending = [] → ls = []) (hkind : t.kind = .comment)
    (h : t ∈ place (afterLine p line) (ofLines levels ls)) :
    (afterLine p line).line = p.line + 1 := by
  rw [line_afterLine, if_neg]
  intro hnil
  rw [hending hnil] at h
  exact kind_ne_comment_of_mem_ofLines_nil h hkind

/-- **The comments on a line.**  By induction over the lines: the comment tokens with the number of
a line are those that are cut out of its content. -/
theorem exists_comment_ofLines (hending : Ended ls)
    (levels : List Nat) (p : Position) (i : Nat) (text : List Char) :
    (∃ t ∈ place p (ofLines levels ls),
        t.kind = .comment ∧ t.text = String.ofList text ∧ t.span.start.line = p.line + i) ↔
      ∃ line, ls[i]? = some line ∧ commentIn (line.content.dropWhile isGap) = some text := by
  induction ls generalizing levels p i with
  | nil =>
    refine iff_of_false ?_ (by simp)
    rintro ⟨t, ht, hkind, -⟩
    exact kind_ne_comment_of_mem_ofLines_nil ht hkind
  | cons line ls ih =>
    have hlast := eq_nil_of_ending_eq_nil hending
    cases i with
    | zero =>
      have hline := @exists_comment_place p (ofLineContent levels line.content) text
      rw [comments_ofLineContent, Option.mem_toList] at hline
      simp only [getElem?_cons_zero, Option.some.injEq, exists_eq_left']
      refine Iff.trans ⟨?_, ?_⟩ hline
      · rintro ⟨t, ht, hkind, htext, hstart⟩
        rcases (mem_ofLines_cons (by rw [hkind]; rfl)).1 ht with ht | ht
        · exact ⟨t, ht, hkind, htext⟩
        · have hnext := line_afterLine_of_comment hlast hkind ht
          have hbound := (line_bounds_of_mem_place ht).1
          omega
      · rintro ⟨t, ht, hkind, htext⟩
        exact ⟨t, (mem_ofLines_cons (by rw [hkind]; rfl)).2 (.inl ht),
          hkind, htext, line_of_mem_ofLineContent ht⟩
    | succ i =>
      rw [getElem?_cons_succ, ← ih hending.of_cons (levelsAfter levels line.content)
        (afterLine p line)]
      constructor
      · rintro ⟨t, ht, hkind, htext, hstart⟩
        rcases (mem_ofLines_cons (by rw [hkind]; rfl)).1 ht with ht | ht
        · have hhere := line_of_mem_ofLineContent ht
          omega
        · have hnext := line_afterLine_of_comment hlast hkind ht
          exact ⟨t, ht, hkind, htext, by omega⟩
      · rintro ⟨t, ht, hkind, htext, hstart⟩
        have hnext := line_afterLine_of_comment hlast hkind ht
        exact ⟨t, (mem_ofLines_cons (by rw [hkind]; rfl)).2 (.inr ht), hkind, htext, by omega⟩

end Lines
end Piece

section Sources

variable {source : String} {before after : List Line} {line : Line}

/-- The comment tokens on a line of a source. -/
theorem exists_comment_tokenize
    (hlines : lines (withoutMark source.toList) = before ++ line :: after) (text : List Char) :
    (∃ t ∈ tokenize source, t.kind = .comment ∧ t.text = String.ofList text ∧
      t.span.start.line = before.length + 1) ↔
      commentIn (line.content.dropWhile isGap) = some text := by
  obtain ⟨p, hp, htokens⟩ := tokenize_eq_place source
  have hcomments := Piece.exists_comment_ofLines
    (pairwise_ending_lines (withoutMark source.toList)) [] p before.length text
  rw [htokens, Nat.add_comm before.length 1, ← hp, hcomments, hlines]
  simp

theorem uncommented_iff (hlines : lines (withoutMark source.toList) = before ++ line :: after) :
    (∀ t ∈ tokenize source, t.kind = .comment → t.span.start.line ≠ before.length + 1) ↔
      commentIn (line.content.dropWhile isGap) = none := by
  rw [Option.eq_none_iff_forall_ne_some]
  constructor
  · intro h text htext
    obtain ⟨t, ht, hkind, -, hstart⟩ := (exists_comment_tokenize hlines text).2 htext
    exact h t ht hkind hstart
  · intro h t ht hkind hstart
    exact h t.text.toList
      ((exists_comment_tokenize hlines _).1 ⟨t, ht, hkind, String.ofList_toList.symm, hstart⟩)

/-- Behind spaces and tabs a marked text begins: no other white space is passed over. -/
theorem trimStart_of_isMarked (h : isMarked (cs.dropWhile isGap)) :
    trimStart cs = cs.dropWhile isGap := by
  obtain ⟨c, rest, hrest, hc⟩ := exists_cons_of_isMarked h
  have hgap : ∀ d ∈ cs.takeWhile isGap, isBlank d = true :=
    fun d hd => isBlank_of_isGap d (all_eq_true.1 all_takeWhile d hd)
  have hsplit : cs.takeWhile isGap ++ cs.dropWhile isGap = cs :=
    takeWhile_append_dropWhile
  calc trimStart cs
      = (cs.takeWhile isGap ++ cs.dropWhile isGap).dropWhile isBlank := by
        rw [hsplit, trimStart]
    _ = (cs.dropWhile isGap).dropWhile isBlank := dropWhile_append_of_pos hgap
    _ = cs.dropWhile isGap := by rw [hrest, dropWhile_cons_of_neg (by simp [hc])]

/-- A line with white space of another kind in front of what makes it a comment or an expression. -/
def Directive.hidesMark (content : List Char) : Bool :=
  isMarked (trimStart content) && !isMarked (content.dropWhile isGap)

/-- **Directives are read from the comments of the tokenizer.**  On a line that begins, behind
spaces and tabs, with two hyphens or two angle brackets, the reader of directives finds a comment if
and only if there is a comment token on the line, and finds the text of that token. -/
theorem commentOf_iff_comment_token
    (hlines : Text.lines (Text.withoutMark source.toList) = before ++ line :: after)
    (hmarked : isMarked (line.content.dropWhile Text.isGap)) (text : List Char) :
    commentOf line.content = some text ↔
      ∃ t ∈ tokenize source,
        t.kind = .comment ∧ t.text = String.ofList text ∧
        t.span.start.line = before.length + 1 := by
  rw [exists_comment_tokenize hlines, commentOf_eq_commentIn, trimStart_of_isMarked hmarked]

/-- A comment behind a string that holds two hyphens. -/
theorem commentOf_iff_comment_token_quoted :
    ∃ t ∈ tokenize "\t>> a - \"--\" -- gtlint-disable\n",
      t.kind = .comment ∧ t.text = " gtlint-disable" ∧ t.span.start.line = 1 :=
  (@commentOf_iff_comment_token "\t>> a - \"--\" -- gtlint-disable\n" [] []
    ⟨"\t>> a - \"--\" -- gtlint-disable".toList, ['\n']⟩ (by decide) (by decide)
    " gtlint-disable".toList).1 (by decide)

theorem applyLines_of_ofLine?_eq {line' : Line}
    (h : ofLine? line'.content = ofLine? line.content) (n : Nat)
    (state : DirectiveTable × OpenRegions) :
    DirectiveTable.applyLines n state (before ++ line' :: after) =
      DirectiveTable.applyLines n state (before ++ line :: after) := by
  induction before generalizing n state with
  | nil => simp only [nil_append, DirectiveTable.applyLines, h]
  | cons first before ih => simp only [cons_append, DirectiveTable.applyLines, ih]

/-- The lines of a source on which the content of one line is written anew. -/
theorem lines_rewritten (hlines : lines (withoutMark source.toList) = before ++ line :: after)
    {content : List Char} (hne : content ≠ []) (hcontent : OneLine content)
    (hmark : content.head? ≠ some byteOrderMark) :
    lines (withoutMark (String.ofList (markOf source ++
        (before ++ ⟨content, line.ending⟩ :: after).flatMap Line.full)).toList) =
      before ++ ⟨content, line.ending⟩ :: after := by
  have hmem : ∀ l ∈ before ++ line :: after, l ∈ lines (withoutMark source.toList) :=
    fun l hl => hlines ▸ hl
  have hfull : ∀ l ∈ before, l.full ≠ [] :=
    fun l hl => (ending_of_mem_lines (hmem l (mem_append_left _ hl))).2
  have hhead : source.toList.head? ≠ some byteOrderMark →
      ((before ++ ⟨content, line.ending⟩ :: after).flatMap Line.full).head? ≠
        some byteOrderMark := by
    intro hsource
    cases before with
    | nil =>
      obtain ⟨c, cs, rfl⟩ := exists_cons_of_ne_nil hne
      exact hmark
    | cons first before =>
      obtain ⟨c, cs, hc⟩ := exists_cons_of_ne_nil (hfull first mem_cons_self)
      have htext := flatMap_full_lines (withoutMark source.toList)
      rw [withoutMark_eq_self hsource] at htext hlines
      rw [hlines, cons_append, flatMap_cons, hc] at htext
      rw [← htext] at hsource
      rw [cons_append, flatMap_cons, hc]
      exact hsource
  rw [(markOf_ofList hhead).2]
  refine lines_flatMap_full_eq ?_ ?_ ?_ ?_
  · intro l hl
    rcases mem_append.1 hl with hl | hl
    · exact isProper_of_mem_lines (hmem l (mem_append_left _ hl))
    · rcases mem_cons.1 hl with rfl | hl
      · exact ⟨hcontent, (isProper_of_mem_lines (hmem line (by simp))).ending⟩
      · exact isProper_of_mem_lines (hmem l (by simp [hl]))
  · have hends := pairwise_ending_lines (withoutMark source.toList)
    rw [hlines, Ended, pairwise_append, pairwise_cons] at hends
    rw [Ended, pairwise_append, pairwise_cons]
    exact ⟨hends.1, hends.2.1, fun l hl l' _ => hends.2.2 l hl line mem_cons_self⟩
  · have hchain := isChain_lines (withoutMark source.toList)
    rw [hlines, isChain_append, isChain_cons] at hchain
    rw [isChain_append, isChain_cons]
    refine ⟨hchain.1, hchain.2.1, fun l _ l' hl' => ?_⟩
    obtain rfl : ⟨content, line.ending⟩ = l' := by simpa using hl'
    exact fun hstops => hne (congrArg Line.content hstops.2)
  · intro l hl
    rcases mem_append.1 hl with hl | hl
    · exact hfull l hl
    · rcases mem_cons.1 hl with rfl | hl
      · simp [Line.full, hne]
      · exact (ending_of_mem_lines (hmem l (by simp [hl]))).2

/-- **Only comments are directives.**  A line without a comment token may be written over without a
change in what the directives say, as long as the white space at its start hides no comment or
expression from the tokenizer. -/
theorem directives_of_uncommented_line
    (hlines : Text.lines (Text.withoutMark source.toList) = before ++ line :: after)
    (hcomment : ∀ t ∈ tokenize source, t.kind = .comment → t.span.start.line ≠ before.length + 1)
    (hhidden : hidesMark line.content = false) :
    DirectiveTable.ofSource (String.ofList (markOf source ++
        (before ++ ⟨['x'], line.ending⟩ :: after).flatMap Text.Line.full)) =
      DirectiveTable.ofSource source := by
  have htokens := (uncommented_iff hlines).1 hcomment
  have hnone : commentOf line.content = none := by
    rw [commentOf_eq_commentIn]
    by_cases hmarked : isMarked (line.content.dropWhile isGap)
    · rw [trimStart_of_isMarked hmarked, htokens]
    · exact commentIn_of_not_isMarked (by simpa [hidesMark, hmarked] using hhidden)
  have hline : ofLine? ['x'] = ofLine? line.content := by
    rw [ofLine?, ofLine?, hnone]
    rfl
  unfold DirectiveTable.ofSource
  rw [lines_rewritten hlines (by simp) (forall_mem_singleton.2 rfl) (by decide), hlines]
  exact congrArg Prod.fst (applyLines_of_ofLine?_eq hline 1 _)

/-- Two hyphens in text begin no comment. -/
theorem directives_of_uncommented_line_text :
    DirectiveTable.ofSource "x\n-- gtlint-disable" =
      DirectiveTable.ofSource "say -- gtlint-disable\n-- gtlint-disable" := by
  have hlines : lines (withoutMark "say -- gtlint-disable\n-- gtlint-disable".toList) =
      [] ++ ⟨"say -- gtlint-disable".toList, ['\n']⟩ ::
        [⟨"-- gtlint-disable".toList, []⟩] := by decide
  have hkeeps := directives_of_uncommented_line hlines ((uncommented_iff hlines).2 (by decide))
      (by decide)
  rwa [show String.ofList _ = "x\n-- gtlint-disable" by decide] at hkeeps

/-- Behind a no-break space a line is text to the tokenizer, and its directive is in force. -/
theorem directive_behind_noBreakSpace :
    (∀ t ∈ tokenize "\u00a0-- gtlint-disable", t.kind = .comment → t.span.start.line ≠ 1) ∧
      DirectiveTable.ofSource "x" ≠ DirectiveTable.ofSource "\u00a0-- gtlint-disable" := by
  have hlines : lines (withoutMark "\u00a0-- gtlint-disable".toList) =
      [] ++ ⟨"\u00a0-- gtlint-disable".toList, []⟩ :: [] := by decide
  exact ⟨(uncommented_iff hlines).2 (by decide), by decide⟩

end Sources
end ScriptLint

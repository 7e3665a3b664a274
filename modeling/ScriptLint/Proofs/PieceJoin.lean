import ScriptLint.Token.Source

/-!
# The pieces of a source join to the source

Every cutting function of the tokenizer gives pieces whose characters, put one after another, are
the characters it was given.  So no character is skipped and none is read twice.

The pieces of what a line holds after its indentation are of a simpler kind: they hold no byte-order
mark, their tokens are no layout, and their gaps are spaces and tabs.

**Results.**
* `join_ofSource`: the pieces of a source join to the source.
* `expressionBefore_eq`: an expression is cut out of its text before it is read, and has the same
  pieces as in the text that goes on behind it.
* `isInline_of_mem_ofContent`: what a line holds is cut into pieces that may stand inside a line.
* `allBlank_of_gap_mem_ofSource`: between the tokens of a source there is only white space.
-/

namespace ScriptLint

open List Text

variable {cs : List Char} {piece : Piece} {levels : List Nat}

namespace Piece

/-- The characters of several pieces. -/
def join (pieces : List Piece) : List Char :=
  pieces.flatMap text

/-- The piece may stand inside a line: a token of content, or a gap of spaces and tabs. -/
def isInline : Piece → Bool
  | mark => false
  | gap text => text.all isGap
  | token kind _ => !kind.isStructural

@[simp]
theorem join_nil : join [] = [] := rfl

@[simp]
theorem join_cons (piece : Piece) (pieces : List Piece) :
    join (piece :: pieces) = piece.text ++ join pieces := rfl

@[simp]
theorem join_append (xs ys : List Piece) : join (xs ++ ys) = join xs ++ join ys := by
  simp [join]

theorem drop_length_takeWhile (p : Char → Bool) (cs : List Char) :
    cs.drop (cs.takeWhile p).length = cs.dropWhile p := by
  induction cs with
  | nil => rfl
  | cons c cs ih =>
    rw [takeWhile_cons, dropWhile_cons]
    split
    · exact ih
    · rfl

/-- A text up to the end of its first braces. -/
theorem eq_of_splitBraces {rest inner after : List Char} {brace : Char}
    (hdrop : cs.dropWhile (· ≠ '{') = brace :: rest)
    (hsplit : splitBraces rest = some (inner, after)) :
    brace = '{' ∧ cs = cs.takeWhile (· ≠ '{') ++ [brace] ++ inner ++ ['}'] ++ after := by
  have hbrace := head?_dropWhile_not (· ≠ '{') cs
  have hwhole : cs.takeWhile (· ≠ '{') ++ cs.dropWhile (· ≠ '{') = cs :=
    takeWhile_append_dropWhile
  rw [hdrop] at hbrace
  rw [hdrop, splitBraces_eq_some hsplit] at hwhole
  exact ⟨by simpa using hbrace, by simpa using hwhole.symm⟩

@[simp]
theorem text_gap (cs : List Char) : (gap cs).text = cs := rfl

@[simp]
theorem text_token (kind : Token.Kind) (cs : List Char) : (token kind cs).text = cs := rfl

theorem ne_newline_of_isInline {kind : Token.Kind} (h : (token kind cs).isInline) :
    kind ≠ .newline := by
  rintro rfl
  cases h

@[simp]
theorem isInline_gap_takeWhile (cs : List Char) : (gap (cs.takeWhile isGap)).isInline := by
  simp only [isInline, all_takeWhile]

@[simp]
theorem join_ofComment (cs : List Char) : join (ofComment cs) = '-' :: '-' :: cs := by
  simp [ofComment]

theorem isInline_of_mem_ofComment (h : piece ∈ ofComment cs) : piece.isInline := by
  simp only [ofComment, mem_cons, not_mem_nil, or_false] at h
  rcases h with rfl | rfl <;> rfl

/-- The kinds of token in an expression without a comment. -/
def tokenKinds : List Token.Kind :=
  [.number, .string, .identifier, .operator, .punctuation, .invalid]

/-- The kinds of token that an expression is cut into. -/
def expressionKinds : List Token.Kind :=
  tokenKinds ++ [.commentStart, .comment]

theorem kind_tokenShape (c : Char) (rest : List Char) : (tokenShape c rest).1 ∈ tokenKinds := by
  unfold tokenShape
  split
  · simp [tokenKinds]
  · split
    · split <;> simp [tokenKinds]
    · split
      · dsimp only
        split <;> decide
      · split
        · decide
        · split
          · decide
          · split <;> decide

theorem isStructural_of_mem_expressionKinds {kind : Token.Kind} (h : kind ∈ expressionKinds) :
    kind.isStructural = false := by
  revert h
  cases kind <;> decide

@[simp]
theorem join_ofExpression (comments : Bool) (cs : List Char) :
    join (ofExpression comments cs) = cs := by
  fun_induction ofExpression comments cs with
  | case1 => rfl
  | case2 c rest _ ih => simp [ih]
  | case3 c rest _ hcomment =>
    simp only [Bool.and_eq_true, beq_iff_eq] at hcomment
    obtain ⟨⟨_, rfl⟩, hhead⟩ := hcomment
    obtain ⟨rest, rfl⟩ := head?_eq_some_iff.1 hhead
    simp
  | case4 c rest _ _ shape ih => simp [ih]

variable {comments : Bool}

/-- An expression is cut into gaps, a comment and tokens, each of which begins where the one before
it ends. -/
theorem mem_ofExpression (h : piece ∈ ofExpression comments cs) :
    (∃ c, isGap c ∧ piece = gap [c]) ∨ (comments ∧ ∃ text, piece ∈ ofComment text) ∨
      ∃ c rest, c :: rest <:+ cs ∧
      piece = token (tokenShape c rest).1 (c :: rest.take (tokenShape c rest).2) := by
  fun_induction ofExpression comments cs with
  | case1 => cases h
  | case2 c rest hgap ih =>
    rcases mem_cons.1 h with rfl | h
    · exact .inl ⟨c, hgap, rfl⟩
    · exact (ih h).imp_right
        (.imp_right fun ⟨d, more, hmore, heq⟩ => ⟨d, more, hmore.trans (suffix_cons ..), heq⟩)
  | case3 c rest _ hcomment => exact .inr (.inl ⟨by simp_all, _, h⟩)
  | case4 c rest _ _ shape ih =>
    rcases mem_cons.1 h with rfl | h
    · exact .inr (.inr ⟨c, rest, suffix_rfl, rfl⟩)
    · exact (ih h).imp_right (.imp_right fun ⟨d, more, hmore, heq⟩ =>
        ⟨d, more, (hmore.trans (drop_suffix ..)).trans (suffix_cons ..), heq⟩)

theorem kind_mem_of_mem_ofExpression {text : List Char}
    {kind : Token.Kind} (h : token kind text ∈ ofExpression comments cs) :
    kind ∈ expressionKinds := by
  rcases mem_ofExpression h with ⟨_, _, ⟨⟩⟩ | ⟨-, _, h⟩ | ⟨c, rest, -, h⟩
  · simp only [ofComment, mem_cons, not_mem_nil, or_false] at h
    rcases h with ⟨rfl, _⟩ | ⟨rfl, _⟩ <;> decide
  · obtain ⟨rfl, _⟩ := token.inj h
    exact mem_append_left _ (kind_tokenShape c rest)

theorem isInline_of_mem_ofExpression (h : piece ∈ ofExpression comments cs) : piece.isInline := by
  rcases mem_ofExpression h with ⟨c, hgap, rfl⟩ | ⟨-, _, h⟩ | ⟨c, rest, -, rfl⟩
  · simp [isInline, hgap]
  · exact isInline_of_mem_ofComment h
  · simp [isInline, isStructural_of_mem_expressionKinds
      (mem_append_left _ (kind_tokenShape c rest))]

section Ends

variable {c d : Char}

theorem takeWhile_append_stop {p : Char → Bool} (hc : p c = false) (a rest : List Char) :
    (a ++ c :: rest).takeWhile p = a.takeWhile p := by
  rw [takeWhile_append, takeWhile_cons_of_neg (by simp [hc]), append_nil]
  split
  · next hall => exact ((List.takeWhile_prefix p).eq_of_length hall).symm
  · rfl

theorem numberLength_append (a rest : List Char) (hdigit : c.isDigit = false) (hdot : c ≠ '.') :
    numberLength (a ++ c :: rest) = numberLength a ∧ numberLength a ≤ a.length := by
  have hwhole := takeWhile_append_stop hdigit a rest
  have hle : (a.takeWhile Char.isDigit).length ≤ a.length := (List.takeWhile_prefix _).length_le
  have hdrop : (a ++ c :: rest).drop (a.takeWhile Char.isDigit).length =
      a.drop (a.takeWhile Char.isDigit).length ++ c :: rest := drop_append_of_le_length hle
  unfold numberLength
  dsimp only
  rw [hwhole, hdrop]
  cases hafter : a.drop (a.takeWhile Char.isDigit).length with
  | nil =>
    split
    · next heq => exact absurd (cons.inj heq).1 hdot
    · exact ⟨rfl, hle⟩
  | cons d more =>
    have hlength : a.length = (a.takeWhile Char.isDigit).length + (more.length + 1) := by
      have htotal := congrArg length hafter
      rw [length_drop, length_cons] at htotal
      omega
    rw [cons_append]
    by_cases hd : d = '.'
    · subst hd
      have hfraction := takeWhile_append_stop hdigit more rest
      simp only [hfraction]
      have hplaces : (more.takeWhile Char.isDigit).length ≤ more.length :=
        (List.takeWhile_prefix _).length_le
      refine ⟨trivial, ?_⟩
      split <;> omega
    · split
      · next heq => exact absurd (cons.inj heq).1 hd
      · split
        · next heq => exact absurd (cons.inj heq).1 hd
        · exact ⟨rfl, hle⟩

theorem tokenShape_le (c : Char) (rest : List Char) : (tokenShape c rest).2 ≤ rest.length := by
  by_cases hdigit : c.isDigit
  · rw [tokenShape, if_pos hdigit]
    exact (numberLength_append (c := '}') rest [] rfl (by decide)).2
  by_cases hquote : isQuote c
  · rw [tokenShape, if_neg hdigit, if_pos hquote]
    cases hindex : rest.idxOf? c with
    | none => exact Nat.le_refl _
    | some i =>
      obtain ⟨hlt, -⟩ := idxOf?_eq_some_iff.1 hindex
      exact hlt
  by_cases hstart : isWordStart c
  · rw [tokenShape, if_neg hdigit, if_neg hquote, if_pos hstart]
    exact (List.takeWhile_prefix _).length_le
  · rw [tokenShape, if_neg hdigit, if_neg hquote, if_neg hstart]
    cases rest <;> grind

/-- The brace or the line ending behind an expression. -/
def IsEnd (d : Char) : Prop :=
  d = '}' ∨ d = '\n' ∨ d = '\r'

/-- A token that is no string ends before the end of the expression at the latest. -/
theorem tokenShape_append (hd : IsEnd d) (hquote : ¬isQuote c) (rest after : List Char) :
    tokenShape c (rest ++ d :: after) = tokenShape c rest := by
  by_cases hdigit : c.isDigit
  · have hnumber : numberLength (rest ++ d :: after) = numberLength rest :=
      (numberLength_append rest after (by rcases hd with rfl | rfl | rfl <;> decide)
        (by rcases hd with rfl | rfl | rfl <;> decide)).1
    rw [tokenShape, tokenShape, if_pos hdigit, if_pos hdigit, hnumber]
  by_cases hstart : isWordStart c
  · have hword : isWordChar d = false := by rcases hd with rfl | rfl | rfl <;> decide
    have htake : (rest ++ d :: after).take (rest.takeWhile isWordChar).length =
        rest.take (rest.takeWhile isWordChar).length :=
      take_append_of_le_length (rest.takeWhile_prefix isWordChar).length_le
    rw [tokenShape, tokenShape]
    simp only [if_neg hdigit, if_neg hquote, if_pos hstart, takeWhile_append_stop hword, htake]
  · have hhead : (rest ++ d :: after).head?.any (isOperatorPair c) =
        rest.head?.any (isOperatorPair c) := by
      cases rest with
      | nil => rcases hd with rfl | rfl | rfl <;> simp [isOperatorPair]
      | cons e rest => rfl
    rw [tokenShape, tokenShape]
    simp only [if_neg hdigit, if_neg hquote, if_neg hstart, hhead]

/-- The pieces of an expression that is read in a text which goes on behind it: where the expression
ends is looked at between tokens, in a string and in a comment only. -/
def expressionBefore (comments : Bool) (after : List Char) : List Char → List Piece
  | [] => []
  | c :: rest =>
    if isGap c then
      gap [c] :: expressionBefore comments after rest
    else if comments && c == '-' && (rest ++ after).head? == some '-' then
      ofComment (rest.drop 1)
    else
      let shape := tokenShape c (if isQuote c then rest else rest ++ after)
      token shape.1 (c :: (rest ++ after).take shape.2) ::
        expressionBefore comments after (rest.drop shape.2)
termination_by cs => cs.length
decreasing_by all_goals grind

/-- **Expressions are cut where they end.**  Cut at its closing brace or at the end of its line
before it is read, an expression has the same pieces as in the text that goes on behind it. -/
theorem expressionBefore_eq (comments : Bool) (hd : IsEnd d) (after cs : List Char) :
    expressionBefore comments (d :: after) cs = ofExpression comments cs := by
  have hhead : ∀ rest : List Char, ((rest ++ d :: after).head? == some '-') =
      (rest.head? == some '-') := by
    intro rest
    cases rest with
    | nil => rcases hd with rfl | rfl | rfl <;> rfl
    | cons e rest => rfl
  fun_induction ofExpression comments cs with
  | case1 => rw [expressionBefore]
  | case2 c rest hgap ih => rw [expressionBefore, if_pos hgap, ih]
  | case3 c rest hgap hcomment => rw [expressionBefore, if_neg hgap, hhead, if_pos hcomment]
  | case4 c rest hgap hcomment shape ih =>
    have hshape : tokenShape c (if isQuote c then rest else rest ++ d :: after) = shape := by
      split
      · rfl
      · next hquote => exact tokenShape_append hd hquote rest after
    rw [expressionBefore, if_neg hgap, hhead, if_neg hcomment]
    simp only [hshape]
    rw [ih, take_append_of_le_length (tokenShape_le c rest)]

end Ends

@[simp]
theorem join_ofText (cs : List Char) : join (ofText cs) = cs := by
  fun_induction ofText cs with
  | case1 => rfl
  | case2 rest inner after hsplit ih =>
    rw [splitBraces_eq_some hsplit]
    simp [ih]
  | case3 rest _ => simp
  | case4 c rest _ ih =>
    rw [join_cons, text_token, ih, cons_append, takeWhile_append_dropWhile]

theorem isInline_of_mem_ofText (h : piece ∈ ofText cs) : piece.isInline := by
  fun_induction ofText cs with
  | case1 => simp at h
  | case2 rest inner after _ ih =>
    simp only [mem_cons, mem_append] at h
    rcases h with rfl | h | rfl | h
    · rfl
    · exact isInline_of_mem_ofExpression h
    · rfl
    · exact ih h
  | case3 rest _ =>
    obtain rfl := mem_singleton.1 h
    rfl
  | case4 c rest _ ih =>
    rcases mem_cons.1 h with rfl | h
    · rfl
    · exact ih h

@[simp]
theorem join_ofArgument (cs : List Char) : join (ofArgument cs) = cs := by
  unfold ofArgument
  have hcs : cs.takeWhile isGap ++ cs.dropWhile isGap = cs :=
    takeWhile_append_dropWhile
  split
  · next rest hrest =>
    rw [hrest] at hcs
    simp only [join_cons, text_gap, join_ofText, takeWhile_append_dropWhile]
    exact hcs
  · simp

theorem isInline_of_mem_ofArgument (h : piece ∈ ofArgument cs) : piece.isInline := by
  unfold ofArgument at h
  split at h
  · simp only [mem_cons] at h
    rcases h with rfl | rfl | rfl | h
    · simp
    · rfl
    · simp
    · exact isInline_of_mem_ofText h
  · rcases mem_cons.1 h with rfl | h
    · simp
    · exact isInline_of_mem_ofText h

theorem join_ofKeywordLine (indented : Bool) (rest : List Char) :
    join (ofKeywordLine indented ('*' :: rest)) = '*' :: rest := by
  unfold ofKeywordLine
  dsimp only
  split
  · exact join_ofText _
  · have hdrop :
        ('*' :: rest).drop (1 + (rest.takeWhile isNameChar).length) =
          rest.dropWhile isNameChar := by
      rw [Nat.add_comm, drop_succ_cons, drop_length_takeWhile]
    simp [hdrop]

theorem isInline_of_mem_ofKeywordLine {indented : Bool} {line : List Char}
    (h : piece ∈ ofKeywordLine indented line) : piece.isInline := by
  unfold ofKeywordLine at h
  dsimp only at h
  split at h
  · exact isInline_of_mem_ofText h
  · simp only [mem_cons] at h
    rcases h with rfl | rfl | h
    · rfl
    · split <;> rfl
    · exact isInline_of_mem_ofArgument h

@[simp]
theorem join_ofContent (indented : Bool) (cs : List Char) : join (ofContent indented cs) = cs := by
  unfold ofContent
  split
  · simp
  · simp
  · exact join_ofKeywordLine indented _
  · simp

theorem isInline_of_mem_ofContent {indented : Bool} (h : piece ∈ ofContent indented cs) :
    piece.isInline := by
  unfold ofContent at h
  split at h
  · exact isInline_of_mem_ofComment h
  · rcases mem_cons.1 h with rfl | h
    · rfl
    · exact isInline_of_mem_ofExpression h
  · exact isInline_of_mem_ofKeywordLine h
  · exact isInline_of_mem_ofText h

theorem takeWhile_tab (content : List Char) :
    content.takeWhile (· == '\t') = replicate (tabCount content) '\t' := by
  refine eq_replicate_iff.2 ⟨rfl, ?_⟩
  intro c hc
  simpa using all_eq_true.1 all_takeWhile c hc

@[simp]
theorem join_dedents (levels : List Nat) : join (dedents levels) = [] := by
  induction levels with
  | nil => rfl
  | cons level levels ih => exact ih

@[simp]
theorem join_ofIndentation (levels : List Nat) (tabs : Nat) :
    join (ofIndentation levels tabs) = replicate tabs '\t' := by
  unfold ofIndentation
  split <;> simp

theorem replicate_tab_append_drop (content : List Char) :
    replicate (tabCount content) '\t' ++ content.drop (tabCount content) = content := by
  rw [← takeWhile_tab, tabCount, drop_length_takeWhile, takeWhile_append_dropWhile]

@[simp]
theorem join_ofLineContent (levels : List Nat) (content : List Char) :
    join (ofLineContent levels content) = content := by
  unfold ofLineContent
  split
  · simp
  · simp [replicate_tab_append_drop]

@[simp]
theorem join_ofEnding (ending : List Char) : join (ofEnding ending) = ending := by
  cases ending <;> simp [ofEnding]

theorem join_ofLines (levels : List Nat) (lines : List Line) :
    join (ofLines levels lines) = lines.flatMap Line.full := by
  induction lines generalizing levels with
  | nil => simp [ofLines]
  | cons line lines ih => simp [ofLines, ih, Line.full]

/-- The pieces of a source join to the source. -/
theorem join_ofSource (cs : List Char) : join (ofSource cs) = cs := by
  unfold ofSource
  split
  · next hmark =>
    obtain ⟨rest, rfl⟩ := head?_eq_some_iff.1 hmark
    rw [join_cons, join_ofLines, flatMap_full_lines]
    rfl
  · rw [join_ofLines, flatMap_full_lines]

theorem allBlank_of_isInline_gap (h : (gap cs).isInline) : allBlank cs := by
  simp only [isInline, all_eq_true, allBlank] at h ⊢
  exact fun c hc => isBlank_of_isGap c (h c hc)

/-- A line is cut into white space, its indentation and its content. -/
theorem mem_ofLineContent {content : List Char} (h : piece ∈ ofLineContent levels content) :
    (∃ text, allBlank text ∧ piece = gap text) ∨
    (∃ kind ∈ [.indent, .dedent], ∃ text, piece = token kind text) ∨
      ∃ indented cs, piece ∈ ofContent indented cs := by
  unfold ofLineContent at h
  split at h
  · next hblank => exact .inl ⟨_, hblank, mem_singleton.1 h⟩
  · simp only [ofIndentation, dedents, mem_append, mem_map, mem_cons, not_mem_nil, or_false] at h
    rcases h with (⟨_, _, rfl⟩ | rfl) | rfl | h
    · exact .inr (.inl ⟨.dedent, by simp, _, rfl⟩)
    · split
      · exact .inr (.inl ⟨.indent, by simp, _, rfl⟩)
      · exact .inl ⟨_, by simp [allBlank, isBlank], rfl⟩
    · exact .inl ⟨_, allBlank_of_isInline_gap (isInline_gap_takeWhile _), rfl⟩
    · exact .inr (.inr ⟨_, _, h⟩)

/-- Lines are cut into white space, layout and the content of lines. -/
theorem mem_ofLines {lines : List Line} (h : piece ∈ ofLines levels lines) :
    (∃ text, allBlank text ∧ piece = gap text) ∨
    (∃ kind text, kind.isStructural ∧ piece = token kind text) ∨
      ∃ indented cs, piece ∈ ofContent indented cs := by
  induction lines generalizing levels with
  | nil =>
    simp only [ofLines, dedents, mem_append, mem_map, mem_singleton] at h
    rcases h with ⟨_, _, rfl⟩ | rfl <;> exact .inr (.inl ⟨_, _, rfl, rfl⟩)
  | cons line lines ih =>
    simp only [ofLines, ofEnding, mem_append, mem_ite_nil_left, mem_singleton] at h
    rcases h with (h | ⟨-, rfl⟩) | h
    · refine (mem_ofLineContent h).imp_right (.imp_left ?_)
      rintro ⟨kind, hkind, text, rfl⟩
      exact ⟨kind, text, by revert hkind; cases kind <;> decide, rfl⟩
    · exact .inr (.inl ⟨_, _, rfl, rfl⟩)
    · exact ih h

/-- Between the tokens of a source there is only white space. -/
theorem allBlank_of_gap_mem_ofSource {source : List Char} (h : gap cs ∈ ofSource source) :
    allBlank cs := by
  have hlines : ∀ lines, gap cs ∈ ofLines [] lines → allBlank cs := by
    intro lines h
    rcases mem_ofLines h with ⟨_, hblank, ⟨⟩⟩ | ⟨_, _, _, ⟨⟩⟩ | ⟨_, _, h⟩
    · exact hblank
    · exact allBlank_of_isInline_gap (isInline_of_mem_ofContent h)
  unfold ofSource at h
  split at h
  · rcases mem_cons.1 h with h | h
    · cases h
    · exact hlines _ h
  · exact hlines _ h

end Piece
end ScriptLint

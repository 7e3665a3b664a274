import ScriptLint.Proofs.Outline

/-!
# Blocks are read as their layout says

The parsers of blocks are followed once: the links of what they give are the lines that the outline
of the tokens loses on the way.

**Steps.**  `Advances c d blocks blocks' taken` relates the cursors before and after, with the
blocks open at each.  Strays are counted against diagnostics, so that an outline with a stray is
never read without a diagnostic.

**Recursion.**  `Inside.Lays` is the contract of the parsers under an indent.  It is shown for one
depth from the next depth (`laid_statement`, `laid_bodyStep`), and for all depths by induction on
the levels left.

**Results.**
* `laid_programBody`: the statements of a whole program.
* `parseTokens_links`: the links of a program are those of the outline of its tokens.
-/

namespace ScriptLint

open List Cursor

variable {isNested inKeyword : Bool} {c d e : Cursor} {blocks blocks' : List (Option Nat)}

namespace Cursor

/-- From the first cursor to the second the outline loses the given lines, every stray that it loses
is reported, and every line takes a token at least. -/
structure Advances (c d : Cursor) (blocks blocks' : List (Option Nat))
    (taken : List (Option Nat × Nat)) : Prop where
  lines : (outline blocks none c.rest).lines ~ taken ++ (outline blocks' none d.rest).lines
  strays : c.diagnostics.length + (outline blocks none c.rest).strays ≤
    d.diagnostics.length + (outline blocks' none d.rest).strays
  left : d.left + taken.length ≤ c.left

section Advances

variable {blocks'' : List (Option Nat)} {xs ys : List (Option Nat × Nat)}

theorem Advances.of_eq (h : outline blocks none c.rest = outline blocks' none d.rest)
    (hdiagnostics : c.diagnostics.length ≤ d.diagnostics.length) (hleft : d.left ≤ c.left) :
    c.Advances d blocks blocks' [] := by
  refine ⟨?_, ?_, hleft⟩
  · rw [h]
    exact .refl _
  · rw [h]
    exact Nat.add_le_add_right hdiagnostics _

/-- A stray indent is reported. -/
theorem Advances.of_stray (h : outline blocks none c.rest = (outline blocks' none d.rest).addStray)
    (hdiagnostics : c.diagnostics.length < d.diagnostics.length) (hleft : d.left ≤ c.left) :
    c.Advances d blocks blocks' [] := by
  refine ⟨?_, ?_, hleft⟩
  · rw [h]
    exact .refl _
  · rw [h]
    show _ + (_ + 1) ≤ _
    omega

theorem Advances.trans (h : c.Advances d blocks blocks' xs)
    (h' : d.Advances e blocks' blocks'' ys) : c.Advances e blocks blocks'' (xs ++ ys) := by
  refine ⟨?_, h.strays.trans h'.strays, ?_⟩
  · rw [append_assoc]
    exact h.lines.trans (h'.lines.append_left xs)
  · have hleft := h.left
    have hleft' := h'.left
    rw [length_append]
    omega

theorem Advances.perm (h : c.Advances d blocks blocks' xs) (hperm : ys ~ xs) :
    c.Advances d blocks blocks' ys :=
  ⟨h.lines.trans (hperm.symm.append_right _), h.strays, by rw [hperm.length_eq]; exact h.left⟩

theorem Advances.left_le (h : c.Advances d blocks blocks' xs) : d.left ≤ c.left :=
  Nat.le_of_add_right_le h.left

theorem Advances.left_lt (h : c.Advances d blocks blocks' xs) (hxs : xs ≠ []) :
    d.left < c.left := by
  have hleft := h.left
  have hpos := length_pos_of_ne_nil hxs
  omega

/-- The second cursor stands after the statement's line that begins at the first. -/
structure TakesLine (c d : Cursor) : Prop where
  content : c.AtContent
  rest : d.rest = c.current.afterLine c.advance.rest
  diagnostics : c.diagnostics.length ≤ d.diagnostics.length

theorem TakesLine.left_lt (h : c.TakesLine d) : d.left < c.left := by
  have hafter := c.current.length_afterLine_le c.advance.rest
  rw [d.left_eq, c.left_eq, h.rest, rest_eq_cons h.content, length_cons]
  omega

theorem TakesLine.outline_eq (h : c.TakesLine d) :
    outline blocks none c.rest = (outline blocks c.current.opener? d.rest).addLine
      (blocks.headD none, c.current.span.start.line) := by
  rw [rest_eq_cons h.content, outline_content h.content, h.rest]

/-- A statement without a block takes one line. -/
theorem TakesLine.advances (h : c.TakesLine d)
    (hsame : outline blocks c.current.opener? d.rest = outline blocks none d.rest) :
    c.Advances d blocks blocks [(blocks.headD none, c.current.span.start.line)] := by
  refine ⟨?_, ?_, h.left_lt⟩
  · rw [h.outline_eq, hsame]
    exact .refl _
  · rw [h.outline_eq, hsame]
    exact Nat.add_le_add_right h.diagnostics _

/-- A statement with a block takes its own line and the lines of the block. -/
theorem TakesLine.advances_block {owner : Option Nat} {n : Nat} (h : c.TakesLine d)
    (hopen : outline blocks c.current.opener? d.rest = outline (owner :: blocks) none
      (d.drop n).rest)
    (hbody : (d.drop n).Advances e (owner :: blocks) blocks xs) :
    c.Advances e blocks blocks ((blocks.headD none, c.current.span.start.line) :: xs) := by
  refine ⟨?_, ?_, ?_⟩
  · rw [h.outline_eq, hopen]
    exact hbody.lines.cons _
  · rw [h.outline_eq, hopen]
    exact (Nat.add_le_add_right h.diagnostics _).trans hbody.strays
  · have hdrop : (d.drop n).left ≤ d.left := Nat.sub_le _ _
    have hleft := h.left_lt
    have hleft' := hbody.left
    rw [length_cons]
    omega

theorem WithinLine.rest_eq_dropWhile {S : Supply} (h : c.WithinLine S d)
    (hend : d.current.kind.isStructural) :
    d.rest = c.rest.dropWhile fun t => !t.kind.isStructural := by
  obtain ⟨read, hrest, hread⟩ := h.rest
  rw [hrest, dropWhile_append_of_pos fun t ht => by simp [hread t ht]]
  revert hend
  unfold current
  cases d.rest with
  | nil => exact fun _ => rfl
  | cons t rest =>
    intro hend
    rw [dropWhile_cons_of_neg]
    simpa using hend

/-- What fills its line, and is no comment, takes the line. -/
theorem WithinLine.takesLine {S : Supply} (h : c.WithinLine S d)
    (hend : d.current.kind.isStructural)
    (hcontent : c.AtContent) (hstart : c.current.kind ≠ .commentStart)
    (hcomment : c.current.kind ≠ .comment) : c.TakesLine d := by
  refine ⟨hcontent, ?_, h.diagnostics⟩
  have hafter : c.current.afterLine c.advance.rest = c.advance.rest.dropWhile
      fun t => !t.kind.isStructural := by
    unfold Token.afterLine
    split
    · next hkind => exact absurd hkind hstart
    · next hkind => exact absurd hkind hcomment
    · rfl
  rw [hafter, h.rest_eq_dropWhile hend, rest_eq_cons hcontent]
  simp [hcontent]

end Advances

/-- The line endings that come next. -/
def blank (c : Cursor) : List Token :=
  c.rest.takeWhile (·.kind == .newline)

theorem kind_of_mem_blank {c : Cursor} : ∀ b ∈ c.blank, b.kind = .newline :=
  fun b hb => by simpa using all_eq_true.1 all_takeWhile b hb

theorem rest_drop_blank (c : Cursor) :
    (c.drop c.blank.length).rest = c.rest.dropWhile (·.kind == .newline) :=
  have hsplit : c.rest = c.blank ++ c.rest.dropWhile (·.kind == .newline) :=
    takeWhile_append_dropWhile.symm
  (congrArg (List.drop c.blank.length) hsplit).trans drop_left

theorem rest_eq_blank_append (c : Cursor) : c.rest = c.blank ++ (c.drop c.blank.length).rest := by
  rw [rest_drop_blank]
  exact takeWhile_append_dropWhile.symm

theorem advance_drop {c : Cursor} {n : Nat} (h : (c.drop n).current.kind.isStructural) :
    (c.drop n).advance = c.drop (n + 1) := by
  rw [advance_of_structural h]
  simp only [drop, drop_drop, mk.injEq, and_true, true_and]
  omega

theorem indent_after_blank_iff (c : Cursor) :
    (c.drop c.blank.length).current.kind = .indent ↔ AtIndent c.rest := by
  constructor
  · intro hindent
    have hrest := c.rest_eq_blank_append
    rw [rest_eq_cons_of_ne (c := c.drop c.blank.length) (by rw [hindent]; decide)] at hrest
    exact ⟨_, _, _, hrest, kind_of_mem_blank, hindent⟩
  · rintro ⟨blank, u, rest, hrest, hnewline, hindent⟩
    rw [current, rest_drop_blank, hrest, dropWhile_append_of_pos
      fun b hb => by simp [hnewline b hb], dropWhile_cons_of_neg (by simp [hindent])]
    exact hindent

end Cursor

namespace Parser

/-- What a parser of blocks gave from a cursor has the links of the lines that the outline loses. -/
def Laid {α : Type} (c : Cursor) (blocks blocks' : List (Option Nat))
    (links : α → List (Option Nat × Nat)) (r : α × Cursor) : Prop :=
  c.Advances r.2 blocks blocks' (links r.1)

section Laid

variable {α : Type} {links : α → List (Option Nat × Nat)}

theorem Laid.extend {a b : α} {lines : List (Option Nat × Nat)}
    (h : Laid c blocks blocks links (a, d))
    (hadvances : d.Advances e blocks blocks' lines) (hlinks : links b ~ links a ++ lines) :
    Laid c blocks blocks' links (b, e) :=
  (h.trans hadvances).perm hlinks

end Laid

/-- The links of the statements of a body. -/
def bodyLinks (owner : Option Nat) (body : List Statement) : List (Option Nat × Nat) :=
  body.flatMap (Statement.links owner)

/-- The sub-keywords and the statements of a body. -/
abbrev BodyItems :=
  List SubKeyword × List Statement

/-- The links of the sub-keywords and statements in the body of a keyword. -/
def itemLinks (owner : Option Nat) (items : BodyItems) :
    List (Option Nat × Nat) :=
  items.1.flatMap (SubKeyword.links owner) ++ bodyLinks owner items.2

/-- The parsers under an indent read a block as its layout says, inside so many other blocks. -/
structure Inside.Lays (depth : Nat) (inside : Inside) : Prop where
  block : ∀ (c : Cursor) (owner : Option Nat) {outer}, outer.length = depth →
    Laid c (owner :: outer) outer (bodyLinks owner) (inside.block c)
  keywordBody : ∀ (c : Cursor) (owner : Option Nat) {outer}, outer.length = depth →
    Laid c (owner :: outer) outer (itemLinks owner) (inside.keywordBody c)

/-- There are parsers under an indent while there is room for a block, and they read it as its
layout says. -/
structure Deeper (depth : Nat) (deeper : Option Inside) : Prop where
  isSome : deeper.isSome ↔ depth < maxDepth
  lays : ∀ inside, deeper = some inside → inside.Lays depth

section Enter

variable {deeper : Option Inside}

theorem enterBlock_closed (h : (c.drop c.blank.length).current.kind ≠ .indent) :
    enterBlock deeper c = (none, c) := by
  unfold blank at h
  simp [enterBlock, h]

theorem enterBlock_opened {inside : Inside} (h : (c.drop c.blank.length).current.kind = .indent) :
    enterBlock (some inside) c = (some inside, c.drop (c.blank.length + 1)) := by
  unfold blank at h ⊢
  simp [enterBlock, h]

/-- A block is entered if its layout is there and there is room for it. -/
theorem enterBlock_spec (hroom : deeper.isSome ↔ blocks.length < maxDepth)
    (line : Nat) (c : Cursor) :
    (enterBlock deeper c = (none, c) ∧
      outline blocks (some line) c.rest = outline blocks none c.rest) ∨
    ∃ inside n, deeper = some inside ∧ enterBlock deeper c = (some inside, c.drop n) ∧
      outline blocks (some line) c.rest = outline (some line :: blocks) none (c.drop n).rest := by
  cases deeper with
  | none =>
    refine .inl ⟨by simp [enterBlock], outline_opener_irrelevant (.inr ?_)⟩
    rw [← hroom]
    simp
  | some inside =>
    by_cases hat : (c.drop c.blank.length).current.kind = .indent
    · refine .inr ⟨inside, _, rfl, enterBlock_opened hat, ?_⟩
      rw [c.rest_eq_blank_append, rest_eq_cons_of_ne (by rw [hat]; decide),
        advance_drop (by rw [hat]; rfl)]
      exact outline_opened kind_of_mem_blank hat (hroom.1 rfl)
    · refine .inl ⟨enterBlock_closed hat, outline_opener_irrelevant (.inl ?_)⟩
      rwa [← c.indent_after_blank_iff]

/-- After the line of a statement, either there is no block, or the block of that line is
entered. -/
theorem enterBlock_after_line {c d : Cursor} (hroom : deeper.isSome ↔ blocks.length < maxDepth)
    (htakes : c.TakesLine d) (hopener : c.current.opener? = some c.current.span.start.line) :
    (enterBlock deeper d = (none, d) ∧
      c.Advances d blocks blocks [(blocks.headD none, c.current.span.start.line)]) ∨
    ∃ inside n, deeper = some inside ∧ enterBlock deeper d = (some inside, d.drop n) ∧
      ∀ e xs, (d.drop n).Advances e (some c.current.span.start.line :: blocks) blocks xs →
        c.Advances e blocks blocks ((blocks.headD none, c.current.span.start.line) :: xs) := by
  rcases enterBlock_spec hroom c.current.span.start.line d with
    ⟨hblock, hsame⟩ | ⟨inside, n, hinside, hblock, hopen⟩
  · exact .inl ⟨hblock, htakes.advances (by rw [hopener, hsame])⟩
  · refine .inr ⟨inside, n, hinside, hblock, ?_⟩
    intro e xs hbody
    exact htakes.advances_block (by rw [hopener, hopen]) hbody

end Enter

section Statements

variable {expression : Mode → Parser Expression} {deeper : Option Inside}

theorem keywordStatement_closed (h : enterBlock deeper (header expression c).2 = (none, d)) :
    keywordStatement expression deeper c =
      (.keyword (header expression c).1 [] []
        (Span.between c.current.span.start d.lastEnd), d) := by
  simp only [keywordStatement, bind, peek, h]
  rfl

theorem keywordStatement_opened {inside : Inside}
    (h : enterBlock deeper (header expression c).2 = (some inside, d)) :
    keywordStatement expression deeper c =
      (.keyword (header expression c).1 (inside.keywordBody d).1.1 (inside.keywordBody d).1.2
        (Span.between c.current.span.start (inside.keywordBody d).2.lastEnd),
        (inside.keywordBody d).2) := by
  simp only [keywordStatement, bind, peek, h]
  rfl

theorem subKeyword_closed (h : enterBlock deeper (header expression c).2 = (none, d)) :
    subKeyword expression deeper c =
      (.mk (header expression c).1 [] (Span.between c.current.span.start d.lastEnd), d) := by
  simp only [subKeyword, bind, peek, h]
  rfl

theorem subKeyword_opened {inside : Inside}
    (h : enterBlock deeper (header expression c).2 = (some inside, d)) :
    subKeyword expression deeper c =
      (.mk (header expression c).1 (inside.block d).1
        (Span.between c.current.span.start (inside.block d).2.lastEnd), (inside.block d).2) := by
  simp only [subKeyword, bind, peek, h]
  rfl

theorem textLine_closed (h : enterBlock deeper (textContent expression c).2 = (none, d)) :
    textLine expression deeper c = (.text (textContent expression c).1, d) := by
  simp only [textLine, bind, h]
  rfl

theorem textLine_opened {inside : Inside}
    (h : enterBlock deeper (textContent expression c).2 = (some inside, d)) :
    textLine expression deeper c =
      (.answer (textContent expression c).1 (inside.block d).1
        (Span.between (textContent expression c).1.span.start (inside.block d).2.lastEnd),
        (inside.block d).2) := by
  simp only [textLine, bind, h]
  rfl

theorem skipKind_snd (kind : Token.Kind) (c : Cursor) :
    (skipKind kind c).2 = if c.current.kind = kind then c.advance else c := by
  show ((if (c.current.kind == kind) = true then _ else _ : Parser Unit) c).2 = _
  by_cases hkind : c.current.kind = kind
  · rw [if_pos (by simp [hkind]), if_pos hkind]
    rfl
  · rw [if_neg (by simp [hkind]), if_neg hkind]
    rfl

theorem commentText_snd (c : Cursor) :
    (commentText c).2 = if c.current.kind = .comment then c.advance else c := by
  show ((if (c.current.kind == .comment) = true then _ else _ : Parser String) c).2 = _
  by_cases hkind : c.current.kind = .comment
  · rw [if_pos (by simp [hkind]), if_pos hkind]
    rfl
  · rw [if_neg (by simp [hkind]), if_neg hkind]
    rfl

theorem rest_comment (h : c.current.kind = .commentStart ∨ c.current.kind = .comment) :
    (comment c).2.rest = c.current.afterLine c.advance.rest := by
  show (commentText (skipKind .commentStart c).2).2.rest = _
  rw [commentText_snd, skipKind_snd, Token.afterLine]
  rcases h with h | h
  · rw [if_pos h, h]
    unfold Cursor.current
    cases hrest : c.advance.rest with
    | nil =>
      exact hrest
    | cons u rest =>
      by_cases hkind : u.kind = .comment
      · rw [if_pos (by simpa using hkind), rest_advance, hrest]
        simp [hkind]
      · rw [if_neg (by simpa using hkind), hrest]
        simp [hkind]
  · have hstart : c.current.kind ≠ .commentStart := by
      rw [h]
      decide
    rw [if_neg hstart, if_pos h, h]

/-- The line of a keyword or sub-keyword begins with its mark or with its name. -/
def IsHeaderStart (kind : Token.Kind) : Prop :=
  kind = .keywordStart ∨ kind = .keyword ∨ kind = .subKeyword

/-- A line of this kind is text: it may own a block, and it is no header. -/
structure IsTextStart (kind : Token.Kind) : Prop where
  content : kind.isStructural = false
  not_header : ¬ IsHeaderStart kind
  not_expression : kind ≠ .expressionStart
  not_comment : kind ≠ .commentStart ∧ kind ≠ .comment

theorem IsHeaderStart.opener {t : Token} (h : IsHeaderStart t.kind) :
    t.opener? = some t.span.start.line := by
  unfold Token.opener?
  rcases h with h | h | h <;> rw [h]

theorem IsTextStart.opener {t : Token} (h : IsTextStart t.kind) :
    t.opener? = some t.span.start.line := by
  unfold Token.opener?
  split
  · next hkind => exact absurd hkind h.not_expression
  · next hkind => exact absurd hkind h.not_comment.1
  · next hkind => exact absurd hkind h.not_comment.2
  · rfl

/-- The parser of a statement that begins with a token of the kind. -/
def statementAt (expression : Mode → Parser Expression) (deeper : Option Inside) :
    Token.Kind → Parser Statement
  | .keywordStart | .keyword | .subKeyword => keywordStatement expression deeper
  | .expressionStart => expressionLine expression
  | .commentStart | .comment => comment
  | _ => textLine expression deeper

/-- What one statement does, by the token it begins with. -/
theorem statement_cases (expression : Mode → Parser Expression) (deeper : Option Inside)
    {kind : Token.Kind} (hcontent : kind.isStructural = false) :
    ∃ p : Parser Statement,
      (∀ c : Cursor, c.current.kind = kind → statement expression deeper c = p c) ∧
      (IsHeaderStart kind ∧ p = keywordStatement expression deeper ∨
        kind = .expressionStart ∧ p = expressionLine expression ∨
        (kind = .commentStart ∨ kind = .comment) ∧ p = comment ∨
        IsTextStart kind ∧ p = textLine expression deeper) := by
  refine ⟨statementAt expression deeper kind, by rintro c rfl; rfl, ?_⟩
  unfold statementAt
  split
  · exact .inl ⟨.inl rfl, rfl⟩
  · exact .inl ⟨.inr (.inl rfl), rfl⟩
  · exact .inl ⟨.inr (.inr rfl), rfl⟩
  · exact .inr (.inl ⟨rfl, rfl⟩)
  · exact .inr (.inr (.inl ⟨.inl rfl, rfl⟩))
  · exact .inr (.inr (.inl ⟨.inr rfl, rfl⟩))
  · next h₁ h₂ h₃ h₄ h₅ h₆ =>
    refine .inr (.inr (.inr ⟨⟨hcontent, ?_, h₄, h₅, h₆⟩, rfl⟩))
    rintro (hkind | hkind | hkind)
    · exact h₁ hkind
    · exact h₂ hkind
    · exact h₃ hkind

end Statements

section Bodies

variable (expression : Mode → Parser Expression) (deeper : Option Inside)

/-- One more item of a body, added to the others: a statement, or a sub-keyword where one may
stand. -/
def item (inKeyword : Bool) (items : BodyItems) :
    Parser BodyItems :=
  if inKeyword then
    keywordItem expression deeper items
  else do
    let s ← statement expression deeper
    return (items.1, items.2 ++ [s])

/-- One more step of a body, with or without sub-keywords, and whether the body goes on. -/
def bodyStep (inKeyword isNested : Bool) (items : BodyItems) :
    Parser (BodyItems × Bool) := do
  let t ← peek
  match t.kind with
  | .endOfInput => return (items, false)
  | .newline =>
    let _ ← next
    return (items, true)
  | .dedent =>
    let _ ← next
    return (items, !isNested)
  | .indent =>
    let stray ← strayBlock deeper
    return ((items.1, items.2 ++ stray), true)
  | _ =>
    let items ← item expression deeper inKeyword items
    return (items, true)

/-- A repetition can be followed on more than it keeps. -/
theorem iterate_view {σ τ : Type} {step : σ → Parser (σ × Bool)} {step' : τ → Parser (τ × Bool)}
    {view : σ → τ}
    (h : ∀ s c, step' (view s) c = ((view (step s c).1.1, (step s c).1.2), (step s c).2))
    (s : σ) (c : Cursor) :
    iterate step' (view s) c = (view (iterate step s c).1, (iterate step s c).2) := by
  fun_induction iterate step s c with
  | case1 s c result hgo ih =>
    rw [iterate, h, if_pos hgo]
    exact ih
  | case2 s c result hstop =>
    rw [iterate, h, if_neg hstop]

variable {expression deeper}

theorem bodyStep_eq_blockStep (isNested : Bool) (body : List Statement) (c : Cursor) :
    bodyStep expression deeper false isNested ([], body) c =
      ((([], (blockStep expression deeper isNested body c).1.1),
        (blockStep expression deeper isNested body c).1.2),
        (blockStep expression deeper isNested body c).2) := by
  cases hkind : c.current.kind with
  | _ =>
    simp only [blockStep, bodyStep, bind, peek, hkind]
    rfl

/-- A block is a body without sub-keywords. -/
theorem body_eq_block (isNested : Bool) (c : Cursor) :
    loop ([], []) (bodyStep expression deeper false isNested) c =
      (([], (block expression deeper isNested c).1), (block expression deeper isNested c).2) :=
  iterate_view (τ := BodyItems) (bodyStep_eq_blockStep isNested) [] c

section Step

variable (items : BodyItems)

theorem bodyStep_end (h : c.current.kind = .endOfInput) :
    bodyStep expression deeper inKeyword isNested items c = ((items, false), c) := by
  simp only [bodyStep, bind, peek, h]
  rfl

theorem bodyStep_newline (h : c.current.kind = .newline) :
    bodyStep expression deeper inKeyword isNested items c = ((items, true), c.advance) := by
  simp only [bodyStep, bind, peek, h]
  rfl

theorem bodyStep_dedent (h : c.current.kind = .dedent) :
    bodyStep expression deeper inKeyword isNested items c = ((items, !isNested), c.advance) := by
  simp only [bodyStep, bind, peek, h]
  rfl

theorem bodyStep_indent (h : c.current.kind = .indent) :
    bodyStep expression deeper inKeyword isNested items c =
    (((items.1, items.2 ++ (strayBlock deeper c).1), true), (strayBlock deeper c).2) := by
  simp only [bodyStep, bind, peek, h]
  rfl

theorem bodyStep_content (h : c.AtContent) :
    bodyStep expression deeper inKeyword isNested items c =
      (((item expression deeper inKeyword items c).1, true),
        (item expression deeper inKeyword items c).2) := by
  unfold AtContent at h
  revert h
  cases hkind : c.current.kind with
  | endOfInput | newline | dedent | indent => exact nofun
  | _ =>
    intro
    simp only [bodyStep, bind, peek, hkind]
    rfl

/-- A step of a body begins at layout of one of four kinds, or at content. -/
theorem layout_or_content (kind : Token.Kind) :
    kind = .endOfInput ∨ kind = .newline ∨ kind = .dedent ∨
    kind = .indent ∨ kind.isStructural = false := by
  cases kind <;> simp [Token.Kind.isStructural]

end Step

variable (items : BodyItems)

theorem item_subKeyword (h : (inKeyword && (atSubKeyword c).1) = true) :
    item expression deeper inKeyword items c =
      ((items.1 ++ [(subKeyword expression deeper c).1], items.2),
        (subKeyword expression deeper c).2) := by
  obtain ⟨rfl, hat⟩ := Bool.and_eq_true_iff.1 h
  show (if (atSubKeyword c).1 = true then _ else _ :
    Parser BodyItems) c = _
  rw [if_pos hat]
  rfl

theorem item_statement (h : (inKeyword && (atSubKeyword c).1) = false) :
    item expression deeper inKeyword items c =
      ((items.1, items.2 ++ [(statement expression deeper c).1]),
        (statement expression deeper c).2) := by
  cases inKeyword with
  | false => rfl
  | true =>
    show (if (atSubKeyword c).1 = true then _ else _ : Parser
        BodyItems) c = _
    rw [if_neg (by simpa using h)]
    rfl

theorem isHeaderStart_of_atSubKeyword (h : (atSubKeyword c).1 = true) :
    IsHeaderStart c.current.kind := by
  revert h
  unfold atSubKeyword Cursor.current
  cases c.rest with
  | nil => exact nofun
  | cons t rest =>
    intro h
    split at h
    · next heq =>
      cases heq
      exact .inr (.inr rfl)
    · next heq =>
      cases heq
      exact .inl rfl
    · cases h

end Bodies

section Laid

variable {levels : Nat} {deeper : Option Inside}

theorem takesLine_header (hkind : IsHeaderStart c.current.kind) :
    c.TakesLine (header (expression levels) c).2 := by
  have hline := (reads_header levels c c.supplied_anything).line
  have hend : (header (expression levels) c).2.current.kind.isStructural := endsLine_header c
  have hcontent : c.AtContent := by
    rcases hkind with h | h | h <;> exact .of_kind h rfl
  refine hline.takesLine hend hcontent ?_ ?_ <;> rcases hkind with h | h | h <;> rw [h] <;> decide

theorem takesLine_textContent (hkind : IsTextStart c.current.kind) :
    c.TakesLine (textContent (expression levels) c).2 := by
  have hend : (textContent (expression levels) c).2.current.kind.isStructural :=
    endsLine_textContent levels c
  have hline := (runs_textContent levels c.supplied_anything).line
  exact hline.takesLine hend hkind.content hkind.not_comment.1 hkind.not_comment.2

theorem takesLine_expressionLine (hkind : c.current.kind = .expressionStart) :
    c.TakesLine (expressionLine (expression levels) c).2 := by
  have hcontent : c.AtContent := .of_kind hkind rfl
  have hend : (expressionLine (expression levels) c).2.current.kind.isStructural :=
    endsLine_expressionLine c
  have hline := (runs_expressionLine levels hcontent c.supplied_anything).line
  exact hline.takesLine hend hcontent (by rw [hkind]; decide) (by rw [hkind]; decide)

theorem takesLine_comment (hkind : c.current.kind = .commentStart ∨ c.current.kind = .comment) :
    c.TakesLine (comment c).2 := by
  have hcontent : c.AtContent := by
    rcases hkind with h | h <;> exact .of_kind h rfl
  exact ⟨hcontent, rest_comment hkind, (reads_comment c c.supplied_anything).line.diagnostics⟩

variable (levels) (hdeeper : Deeper blocks.length deeper)

include hdeeper

theorem laid_keywordStatement (hkind : IsHeaderStart c.current.kind) :
    Laid c blocks blocks (Statement.links (blocks.headD none))
      (keywordStatement (expression levels) deeper c) := by
  rcases enterBlock_after_line hdeeper.isSome (takesLine_header hkind) hkind.opener with
    ⟨hblock, hclosed⟩ | ⟨inside, n, hinside, hblock, hopened⟩
  · rw [keywordStatement_closed hblock]
    exact hclosed.perm (links_keyword (by simp))
  · have hbody := (hdeeper.lays inside hinside).keywordBody
        ((header (expression levels) c).2.drop n)
      (some c.current.span.start.line) rfl
    rw [keywordStatement_opened hblock]
    exact (hopened _ _ hbody).perm (links_keyword (by simp))

theorem laid_subKeyword (hkind : IsHeaderStart c.current.kind) :
    Laid c blocks blocks (SubKeyword.links (blocks.headD none))
      (subKeyword (expression levels) deeper c) := by
  rcases enterBlock_after_line hdeeper.isSome (takesLine_header hkind) hkind.opener with
    ⟨hblock, hclosed⟩ | ⟨inside, n, hinside, hblock, hopened⟩
  · rw [subKeyword_closed hblock]
    exact hclosed.perm (links_subKeyword (by simp))
  · have hbody := (hdeeper.lays inside hinside).block ((header (expression levels) c).2.drop n)
      (some c.current.span.start.line) rfl
    rw [subKeyword_opened hblock]
    exact (hopened _ _ hbody).perm (links_subKeyword (by simp))

theorem laid_textLine (hkind : IsTextStart c.current.kind) :
    Laid c blocks blocks (Statement.links (blocks.headD none))
      (textLine (expression levels) deeper c) := by
  have hplace := (runs_textContent levels c.supplied_anything).value.2
  have hnumber : (textContent (expression levels) c).1.span.start.line =
      c.current.span.start.line := by
    rw [hplace]
  rcases enterBlock_after_line hdeeper.isSome (takesLine_textContent hkind) hkind.opener with
    ⟨hblock, hclosed⟩ | ⟨inside, n, hinside, hblock, hopened⟩
  · rw [textLine_closed hblock]
    refine hclosed.perm ?_
    rw [links_text, hnumber]
  · have hbody := (hdeeper.lays inside hinside).block ((textContent (expression levels) c).2.drop n)
      (some c.current.span.start.line) rfl
    rw [textLine_opened hblock]
    exact (hopened _ _ hbody).perm (links_answer (by rw [Span.start_between, hnumber]))

omit hdeeper in
theorem laid_expressionLine (hkind : c.current.kind = .expressionStart) :
    Laid c blocks blocks (Statement.links (blocks.headD none))
      (expressionLine (expression levels) c) := by
  have hopener : c.current.opener? = none := by
    rw [Token.opener?, hkind]
  refine ((takesLine_expressionLine hkind).advances (by rw [hopener])).perm ?_
  have hform : (expressionLine (expression levels) c).1 =
      .expression (standalone (expression levels .statement) c.advance).1 (Span.between
        c.current.span.start (standalone (expression levels .statement) c.advance).1.span.stop) :=
          rfl
  rw [hform, links_expression, Span.start_between]

omit hdeeper in
theorem laid_comment (hkind : c.current.kind = .commentStart ∨ c.current.kind = .comment) :
    Laid c blocks blocks (Statement.links (blocks.headD none)) (comment c) := by
  have hopener : c.current.opener? = none := by
    rcases hkind with h | h <;> rw [Token.opener?, h]
  refine ((takesLine_comment hkind).advances (by rw [hopener])).perm ?_
  have hform : (comment c).1 = .comment (commentText (skipKind .commentStart c).2).1
      (Span.between c.current.span.start (comment c).2.lastEnd) := rfl
  rw [hform, links_comment, Span.start_between]

theorem laid_statement (hcontent : c.AtContent) :
    Laid c blocks blocks (Statement.links (blocks.headD none))
      (statement (expression levels) deeper c) := by
  obtain ⟨p, hform, ⟨hkind, rfl⟩ | ⟨hkind, rfl⟩ | ⟨hkind, rfl⟩ | ⟨hkind, rfl⟩⟩ :=
    statement_cases (expression levels) deeper hcontent
  all_goals rw [hform c rfl]
  · exact laid_keywordStatement levels hdeeper hkind
  · exact laid_expressionLine levels hkind
  · exact laid_comment hkind
  · exact laid_textLine levels hdeeper hkind

/-- The statements under a stray indent stay with the owner of the block around it. -/
theorem laid_strayBlock (hkind : c.current.kind = .indent) :
    Laid c blocks blocks (bodyLinks (blocks.headD none)) (strayBlock deeper c) ∧
      (strayBlock deeper c).2.left < c.left := by
  have hne : c.current.kind ≠ .endOfInput := by
    rw [hkind]
    decide
  have hleft := left_advance_lt_of_ne hne
  have hdiagnostics : c.diagnostics.length <
      (c.advance.report .unexpectedIndentation c.current.span).diagnostics.length := by
    show _ < c.advance.diagnostics.length + 1
    rw [diagnostics_advance]
    exact Nat.lt_succ_self _
  cases deeper with
  | none =>
    have hdeep : ¬ blocks.length < maxDepth := by
      rw [← hdeeper.isSome]
      simp
    have hstray : outline blocks none c.rest = (outline blocks none c.advance.rest).addStray := by
      rw [rest_eq_cons_of_ne hne, outline_indent_deep hkind hdeep]
    exact ⟨.of_stray hstray hdiagnostics hleft.le, hleft⟩
  | some inside =>
    have hstray : outline blocks none c.rest =
        (outline (blocks.headD none :: blocks) none c.advance.rest).addStray := by
      rw [rest_eq_cons_of_ne hne, outline_indent hkind (hdeeper.isSome.1 rfl)]
    have hbody := (hdeeper.lays inside rfl).block
        (c.advance.report .unexpectedIndentation c.current.span)
      (blocks.headD none) rfl
    have hopen : c.Advances (c.advance.report .unexpectedIndentation c.current.span) blocks
        (blocks.headD none :: blocks) [] := .of_stray hstray hdiagnostics hleft.le
    exact ⟨hopen.trans hbody, (Advances.left_le hbody).trans_lt hleft⟩

end Laid

section Steps

variable (levels : Nat) {deeper : Option Inside}

theorem outline_at_end (h : c.current.kind = .endOfInput) (blocks : List (Option Nat)) :
    outline blocks none c.rest = .empty := by
  unfold Cursor.current at h
  cases hrest : c.rest with
  | nil => exact outline_nil
  | cons t rest =>
    rw [hrest] at h
    exact outline_endOfInput h

theorem advances_end (h : c.current.kind = .endOfInput) : c.Advances c blocks blocks.tail [] := by
  refine .of_eq ?_ (Nat.le_refl _) (Nat.le_refl _)
  rw [outline_at_end h, outline_at_end h]

theorem advances_layout {blocks' : List (Option Nat)} (hne : c.current.kind ≠ .endOfInput)
    (h : outline blocks none (c.current :: c.advance.rest) = outline blocks' none c.advance.rest) :
    c.Advances c.advance blocks blocks' [] := by
  refine .of_eq ?_ (by rw [diagnostics_advance]) (left_advance_lt_of_ne hne).le
  rw [rest_eq_cons_of_ne hne, h]

theorem itemLinks_body (owner : Option Nat) (items : BodyItems)
    (body : List Statement) :
    itemLinks owner (items.1, items.2 ++ body) = itemLinks owner items ++ bodyLinks owner body := by
  unfold itemLinks bodyLinks
  rw [flatMap_append, append_assoc]

theorem itemLinks_subKeyword (owner : Option Nat) (items : BodyItems)
    (s : SubKeyword) :
    itemLinks owner (items.1 ++ [s], items.2) ~ itemLinks owner items ++ s.links owner := by
  rw [itemLinks, itemLinks, flatMap_append, flatMap_singleton, append_assoc, append_assoc]
  exact perm_append_comm.append_left _

variable (hdeeper : Deeper blocks.length deeper)

include hdeeper

/-- One more item brings the links of the lines that the outline loses. -/
theorem advances_item {inKeyword : Bool} (items : BodyItems)
    (hkind : d.AtContent) :
    ∃ lines, d.Advances (item (expression levels) deeper inKeyword items d).2 blocks blocks lines ∧
    lines ≠ [] ∧
      itemLinks (blocks.headD none) (item (expression levels) deeper inKeyword items d).1 ~
        itemLinks (blocks.headD none) items ++ lines := by
  cases hat : inKeyword && (atSubKeyword d).1 with
  | true =>
    have hsub := laid_subKeyword levels hdeeper
        (isHeaderStart_of_atSubKeyword (Bool.and_eq_true_iff.1 hat).2)
    rw [item_subKeyword items hat]
    generalize subKeyword (expression levels) deeper d = r at hsub ⊢
    exact ⟨_, hsub, cons_ne_nil _ _, itemLinks_subKeyword _ _ _⟩
  | false =>
    have hstatement := laid_statement levels hdeeper hkind
    rw [item_statement items hat]
    refine ⟨_, hstatement, cons_ne_nil _ _, ?_⟩
    rw [itemLinks_body, bodyLinks, flatMap_singleton]

theorem proceeds_bodyStep (inKeyword isNested : Bool) :
    Proceeds (bodyStep (expression levels) deeper inKeyword isNested) := by
  intro items d
  rcases layout_or_content d.current.kind with hkind | hkind | hkind | hkind | hkind
  · rw [bodyStep_end items hkind]
    exact nofun
  · rw [bodyStep_newline items hkind]
    exact fun _ => left_advance_lt_of_ne (by rw [hkind]; decide)
  · rw [bodyStep_dedent items hkind]
    exact fun _ => left_advance_lt_of_ne (by rw [hkind]; decide)
  · rw [bodyStep_indent items hkind]
    exact fun _ => (laid_strayBlock hdeeper hkind).2
  · obtain ⟨lines, hadvances, hlines, -⟩ := advances_item levels hdeeper items hkind
    rw [bodyStep_content items hkind]
    exact fun _ => hadvances.left_lt hlines

theorem laid_bodyStep {inKeyword : Bool} (htop : isNested = false → blocks = [])
    {items : BodyItems} {r : BodyItems × Bool}
    {e : Cursor}
    (h : Laid c blocks blocks (itemLinks (blocks.headD none)) (items, d))
    (hr : bodyStep (expression levels) deeper inKeyword isNested items d = (r, e)) :
    (r.2 = true → Laid c blocks blocks (itemLinks (blocks.headD none)) (r.1, e)) ∧
    (r.2 = false → Laid c blocks blocks.tail (itemLinks (blocks.headD none)) (r.1, e) ∧
      (isNested = false → e.current.kind = .endOfInput)) := by
  have hnil : itemLinks (blocks.headD none) items ~ itemLinks (blocks.headD none) items ++ [] := by
    rw [append_nil]
  rcases layout_or_content d.current.kind with hkind | hkind | hkind | hkind | hkind
  · cases (bodyStep_end items hkind).symm.trans hr
    exact ⟨nofun, fun _ => ⟨h.extend (advances_end hkind) hnil, fun _ => hkind⟩⟩
  · cases (bodyStep_newline items hkind).symm.trans hr
    exact ⟨fun _ => h.extend (advances_layout (by rw [hkind]; decide) (outline_newline hkind))
      hnil, nofun⟩
  · have hclosed := h.extend (advances_layout (by rw [hkind]; decide) (outline_dedent hkind)) hnil
    cases (bodyStep_dedent items hkind).symm.trans hr
    cases isNested with
    | true => exact ⟨nofun, fun _ => ⟨hclosed, nofun⟩⟩
    | false =>
      obtain rfl := htop rfl
      exact ⟨fun _ => hclosed, nofun⟩
  · cases (bodyStep_indent items hkind).symm.trans hr
    exact ⟨fun _ => h.extend (laid_strayBlock hdeeper hkind).1 (by rw [itemLinks_body]), nofun⟩
  · obtain ⟨lines, hadvances, -, hlinks⟩ := advances_item levels hdeeper items hkind
    cases (bodyStep_content items hkind).symm.trans hr
    exact ⟨fun _ => h.extend hadvances hlinks, nofun⟩

/-- The items of a body are those of its layout; a body that is not nested goes on to the end of the
input. -/
theorem laid_body (inKeyword : Bool) (htop : isNested = false → blocks = []) (c : Cursor) :
    Laid c blocks blocks.tail (itemLinks (blocks.headD none))
      (loop ([], []) (bodyStep (expression levels) deeper inKeyword isNested) c) ∧
    (isNested = false →
      (loop ([], []) (bodyStep (expression levels) deeper inKeyword isNested) c).2.current.kind =
        .endOfInput) := by
  have hfirst : Laid c blocks blocks (itemLinks (blocks.headD none)) (([], []), c) :=
    .of_eq rfl (Nat.le_refl _) (Nat.le_refl _)
  exact iterate_ends
    (I := fun items d => Laid c blocks blocks (itemLinks (blocks.headD none)) (items, d))
    (E := fun items d => Laid c blocks blocks.tail (itemLinks (blocks.headD none)) (items, d) ∧
      (isNested = false → d.current.kind = .endOfInput))
    (proceeds_bodyStep levels hdeeper inKeyword isNested)
    (fun _ _ h => (laid_bodyStep levels hdeeper htop h rfl).1)
    (fun _ _ h => (laid_bodyStep levels hdeeper htop h rfl).2) hfirst

theorem laid_block (htop : isNested = false → blocks = []) (c : Cursor) :
    Laid c blocks blocks.tail (bodyLinks (blocks.headD none))
      (block (expression levels) deeper isNested c) ∧
    (isNested = false → (block (expression levels) deeper isNested c).2.current.kind =
      .endOfInput) := by
  have hbody := laid_body levels hdeeper false htop c
  rw [body_eq_block] at hbody
  exact hbody

end Steps

/-- The parsers under an indent, with the levels left, read blocks of every depth as their layout
says. -/
theorem deeper_inside {levels depth : Nat} (h : depth + levels = maxDepth) :
    Deeper depth (inside levels) := by
  induction levels generalizing depth with
  | zero =>
    refine ⟨?_, nofun⟩
    simp only [inside, Option.isSome_none, Bool.false_eq_true, false_iff]
    omega
  | succ levels ih =>
    refine ⟨?_, ?_⟩
    · simp only [inside, Option.isSome_some, true_iff]
      omega
    · rintro _ ⟨⟩
      have hroom : depth + 1 + levels = maxDepth := by omega
      constructor
      · rintro c owner outer rfl
        have hdeeper : Deeper (owner :: outer).length (inside levels) := ih hroom
        exact (laid_block levels hdeeper (nofun : true = false → _) c).1
      · rintro c owner outer rfl
        have hdeeper : Deeper (owner :: outer).length (inside levels) := ih hroom
        exact (laid_body levels hdeeper true (nofun : true = false → _) c).1

/-- The statements of a program are those of the layout of its tokens, up to the end of the
input. -/
theorem laid_programBody (c : Cursor) :
    Laid c [] [] (bodyLinks none) (programBody c) ∧
    (programBody c).2.current.kind = .endOfInput := by
  have hdeeper : Deeper ([] : List (Option Nat)).length (inside maxDepth) :=
    deeper_inside (Nat.zero_add _)
  obtain ⟨hlaid, hend⟩ := laid_block maxDepth hdeeper (fun _ : false = false => rfl) c
  exact ⟨hlaid, hend rfl⟩

end Parser

theorem parseTokens_eq {tokens : List Token} {stop : Position}
    (h : (tokens.getLast?.map (·.span.stop)).getD Position.origin = stop) :
    parseTokens tokens =
      ⟨⟨(Parser.programBody (start tokens stop)).1, Span.between Position.origin stop⟩,
        (Parser.programBody (start tokens stop)).2.diagnostics.reverse⟩ := by
  unfold parseTokens
  rw [h]

/-- The links of a program are the lines of the outline of its tokens, and every stray indent is
reported. -/
theorem parseTokens_links (tokens : List Token) :
    (parseTokens tokens).program.nodes.flatMap Node.links ~ (outline [] none tokens).lines ∧
    (outline [] none tokens).strays ≤ (parseTokens tokens).diagnostics.length := by
  generalize hstop : (tokens.getLast?.map (·.span.stop)).getD Position.origin = stop
  obtain ⟨hadvances, hend⟩ := Parser.laid_programBody (start tokens stop)
  have hlines := hadvances.lines
  have hstrays := hadvances.strays
  rw [Parser.outline_at_end hend] at hlines hstrays
  rw [parseTokens_eq hstop]
  generalize Parser.programBody (start tokens stop) = result at hlines hstrays ⊢
  constructor
  · refine .trans ?_ (hlines.trans (by rw [Outline.empty, append_nil])).symm
    exact links_statements none result.1
  · simpa [start, Outline.empty] using hstrays

end ScriptLint

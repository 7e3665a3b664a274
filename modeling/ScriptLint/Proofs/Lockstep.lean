import ScriptLint.Proofs.BlockReads
import Mathlib.Algebra.Group.Basic

/-!
# Two programs read in step

Two lists of tokens are read side by side.  As long as their layout agrees, up to blank lines, the
parsers of blocks take the same way through both, and what they give has the same shape.

**Tokens.**  `Paired` relates the tokens of the two sources: layout on both sides agrees, a line
ending may stand on one side only, and between layout stand lines that correspond.

**Contract.**  A `LinePairing` says what the parsers make of two such lines, and that parts which
correspond are put together to statements that do.  From this everything about blocks follows.

**Accounts.**  What is read may be counted in a commutative monoid: every part of the tree weighs
something, the cursors know the weight of what is still ahead of them, and reading moves weight from
one to the other without loss.

**Results.**
* `Proceeds`, `proceeds_bodyStep`: no step of a body goes on without reading a token.
* `LinePairing.gives_statement`, `LinePairing.gives_body`: one depth from the next.
* `LinePairing.gives_programBody`: the statements of whole programs correspond.
-/

namespace ScriptLint

open List Cursor

variable {c c' : Cursor} {G : Type} {g : G} {l levels : Nat}

/-- Two lists correspond item by item, and their weight is the sum of the weights of the items. -/
inductive Tally {α β G : Type} [AddCommMonoid G] (R : G → α → β → Prop) :
    G → List α → List β → Prop
  | nil : Tally R 0 [] []
  | cons {g h : G} {a : α} {b : β} {as : List α} {bs : List β} (head : R g a b)
      (tail : Tally R h as bs) : Tally R (g + h) (a :: as) (b :: bs)

namespace Tally

variable {α β : Type} [AddCommMonoid G] {R : G → α → β → Prop} {h : G}

theorem append {as as' : List α} {bs bs' : List β} (h₁ : Tally R g as bs)
    (h₂ : Tally R h as' bs') : Tally R (g + h) (as ++ as') (bs ++ bs') := by
  induction h₁ with
  | nil => rwa [zero_add]
  | cons head _ ih =>
    rw [add_assoc]
    exact .cons head ih

theorem singleton {a : α} {b : β} (h : R g a b) : Tally R g [a] [b] := by
  rw [← add_zero g]
  exact .cons h .nil

theorem snoc {as : List α} {bs : List β} {a : α} {b : β} (h₁ : Tally R g as bs)
    (h₂ : R h a b) : Tally R (g + h) (as ++ [a]) (bs ++ [b]) :=
  h₁.append (.singleton h₂)

theorem of_forall₂ {as : List α} {bs : List β} (h : Forall₂ (R 0) as bs) : Tally R 0 as bs := by
  induction h with
  | nil => exact .nil
  | cons head _ ih =>
    rw [← add_zero (0 : G)]
    exact .cons head ih

theorem forall₂ {R : α → β → Prop} {as : List α} {bs : List β} (h : Tally (fun _ => R) g as bs) :
    Forall₂ R as bs := by
  induction h with
  | nil => exact .nil
  | cons head _ ih => exact .cons head ih

end Tally

/-- The last items of lists that correspond. -/
theorem getLast?_of_forall₂ {α β : Type} {R : α → β → Prop} {as : List α}
    {bs : List β} (h : Forall₂ R as bs) :
    as.getLast? = none ∧ bs.getLast? = none ∨
      ∃ a b, as.getLast? = some a ∧ bs.getLast? = some b ∧ R a b := by
  rw [← head?_reverse, ← head?_reverse]
  have hreverse := forall₂_reverse_iff.2 h
  generalize as.reverse = as at hreverse ⊢
  generalize bs.reverse = bs at hreverse ⊢
  cases hreverse with
  | nil => exact .inl ⟨rfl, rfl⟩
  | cons hab _ => exact .inr ⟨_, _, rfl, rfl, hab⟩

/-- What one line ending keeps, all that come next keep. -/
theorem Cursor.drop_blank {P : Cursor → Prop}
    (hstep : ∀ d : Cursor, P d → d.current.kind = .newline → P d.advance)
    (hc : P c) : P (c.drop c.blank.length) := by
  generalize hblank : c.blank = blank
  induction blank generalizing c with
  | nil => exact hc
  | cons t blank ih =>
    obtain ⟨rest, hrest, hkind, htail⟩ : ∃ rest, c.rest = t :: rest ∧ t.kind = .newline ∧
        rest.takeWhile (·.kind == .newline) = blank := by
      unfold Cursor.blank at hblank
      cases hrest : c.rest with
      | nil => simp [hrest] at hblank
      | cons u rest =>
        rw [hrest, takeWhile_cons] at hblank
        split at hblank
        · next hu =>
          obtain ⟨rfl, htail⟩ := cons.inj hblank
          exact ⟨rest, rfl, by simpa using hu, htail⟩
        · cases hblank
    have hcurrent : c.current.kind = .newline := by
      rw [current, hrest]
      exact hkind
    have hdrop : c.drop (t :: blank).length = c.advance.drop blank.length := by
      rw [advance_of_structural (by rw [hcurrent]; rfl)]
      simp only [drop, drop_drop, length_cons, mk.injEq, and_true]
      exact ⟨by rw [Nat.add_comm], by omega⟩
    rw [hdrop]
    refine ih (hstep c hc hcurrent) ?_
    rw [Cursor.blank, Cursor.rest_advance, hrest]
    exact htail

theorem Cursor.current_drop_blank_ne (c : Cursor) :
    (c.drop c.blank.length).current.kind ≠ .newline := by
  unfold current
  rw [c.rest_drop_blank]
  cases hafter : c.rest.dropWhile (·.kind == .newline) with
  | nil => exact nofun
  | cons t rest =>
    have hhead := head?_dropWhile_not (fun t : Token => t.kind == .newline) c.rest
    rw [hafter] at hhead
    simpa using hhead

/-- The tokens of a line, with those that follow it. -/
structure Row where
  first : Token
  more : List Token
  after : List Token

namespace Row

/-- All tokens from the line on. -/
def tokens (r : Row) : List Token :=
  r.first :: (r.more ++ r.after)

/-- A statement that begins with the first token takes the line and stops behind it. -/
structure Fills (r : Row) : Prop where
  content : r.first.kind.isStructural = false
  afterLine : r.first.afterLine (r.more ++ r.after) = r.after

/-- Two lines begin with the same kinds of token. -/
structure Alike (r r' : Row) : Prop where
  left : r.Fills
  right : r'.Fills
  kind : r'.first.kind = r.first.kind
  second : r.first.kind = .keywordStart →
    ((r.more ++ r.after).head?.map Token.kind = some .subKeyword ↔
      (r'.more ++ r'.after).head?.map Token.kind = some .subKeyword)

end Row

/-- Tokens of two sources with the same layout, but for line endings, and with lines that
correspond; they are read with so many levels left and weigh so much. -/
inductive Paired {G : Type} [AddCommMonoid G] (line : Nat → G → Row → Row → Prop)
    (indent : Token → Token → Prop) : Nat → G → List Token → List Token → Prop
  | nil {l : Nat} : Paired line indent l 0 [] []
  | newline_left {l : Nat} {g : G} {t : Token} {ts ts' : List Token} (hkind : t.kind = .newline)
      (rest : Paired line indent l g ts ts') : Paired line indent l g (t :: ts) ts'
  | newline_right {l : Nat} {g : G} {t' : Token} {ts ts' : List Token}
      (hkind : t'.kind = .newline) (rest : Paired line indent l g ts ts') :
      Paired line indent l g ts (t' :: ts')
  | indent {l : Nat} {g : G} {t t' : Token} {ts ts' : List Token} (hkind : t.kind = .indent)
      (hkind' : t'.kind = .indent) (hindent : indent t t')
      (rest : Paired line indent (l - 1) g ts ts') :
      Paired line indent l g (t :: ts) (t' :: ts')
  | dedent {l : Nat} {g : G} {t t' : Token} {ts ts' : List Token} (hkind : t.kind = .dedent)
      (hkind' : t'.kind = .dedent) (rest : Paired line indent (min (l + 1) maxDepth) g ts ts') :
      Paired line indent l g (t :: ts) (t' :: ts')
  | finish {l : Nat} {t t' : Token} {ts ts' : List Token} (hkind : t.kind = .endOfInput)
      (hkind' : t'.kind = .endOfInput) : Paired line indent l 0 (t :: ts) (t' :: ts')
  | line {l : Nat} {g h : G} {r r' : Row} (hline : line l g r r')
      (rest : Paired line indent l h r.after r'.after) :
      Paired line indent l (g + h) r.tokens r'.tokens

namespace Paired

variable [AddCommMonoid G] {line : Nat → G → Row → Row → Prop} {indent : Token → Token → Prop}
  {ts ts' : List Token}

theorem swap (h : Paired line indent l g ts ts') :
    Paired (fun l g r r' => line l g r' r) (fun t t' => indent t' t) l g ts' ts := by
  induction h with
  | nil => exact .nil
  | newline_left hkind _ ih => exact .newline_right hkind ih
  | newline_right hkind _ ih => exact .newline_left hkind ih
  | indent hkind hkind' hindent _ ih => exact .indent hkind' hkind hindent ih
  | dedent hkind hkind' _ ih => exact .dedent hkind' hkind ih
  | finish hkind hkind' => exact .finish hkind' hkind
  | line hline _ ih => exact .line hline ih

theorem of_newline_left (hcontent : ∀ {l g r r'}, line l g r r' → r.first.kind.isStructural = false)
    {t : Token}
    (hkind : t.kind = .newline) (h : Paired line indent l g (t :: ts) ts') :
    Paired line indent l g ts ts' := by
  generalize hleft : t :: ts = us at h
  induction h with
  | nil => cases hleft
  | newline_left _ rest _ =>
    cases hleft
    exact rest
  | newline_right hkind' _ ih => exact .newline_right hkind' (ih hleft)
  | indent hother _ _ _ _ | dedent hother _ _ _ | finish hother _ =>
    cases hleft
    rw [hkind] at hother
    cases hother
  | line hline _ _ =>
    have hfirst := hcontent hline
    cases hleft
    rw [hkind] at hfirst
    cases hfirst

end Paired

namespace Cursor

/-- What a cursor keeps while it passes layout: where content ended, and the diagnostics. -/
def record (c : Cursor) : Position × List Diagnostic :=
  (c.lastEnd, c.diagnostics)

theorem record_advance (h : c.current.kind.isStructural) : c.advance.record = c.record := by
  rw [advance_of_structural h]
  rfl

theorem current_of_rest {t : Token} {ts : List Token} (h : c.rest = t :: ts) : c.current = t := by
  rw [current, h]
  rfl

theorem TakesLine.rest_eq {d : Cursor} {r : Row} (h : c.TakesLine d) (hrest : c.rest = r.tokens)
    (hfills : r.Fills) : d.rest = r.after := by
  have hcurrent : c.current = r.first := current_of_rest hrest
  have hadvance : c.advance.rest = r.more ++ r.after := by
    rw [rest_advance, hrest]
    rfl
  rw [h.rest, hcurrent, hadvance, hfills.afterLine]

end Cursor

namespace Parser

section Progress

variable {c d : Cursor} {σ : Type} {step : σ → Parser (σ × Bool)} {s t : σ}

theorem Proceeds.left_lt (h : Proceeds step) (hstep : step s c = ((t, true), d)) :
    d.left < c.left := by
  simpa [hstep] using h s c

theorem iterate_go (hstep : step s c = ((t, true), d)) (hleft : d.left < c.left) :
    iterate step s c = iterate step t d := by
  rw [iterate]
  simp [hstep, hleft]

theorem iterate_stop (hstep : step s c = ((t, false), d)) : iterate step s c = (t, d) := by
  rw [iterate]
  simp [hstep]

/-- The steps of the bodies at a depth read on, as they do inside blocks without owners. -/
theorem proceeds_body (inKeyword isNested : Bool) (hlevels : levels ≤ maxDepth) :
    Proceeds (bodyStep (expression levels) (inside levels) inKeyword isNested) :=
  have hdeeper : Deeper (replicate (maxDepth - levels) (none : Option Nat)).length
      (inside levels) :=
    deeper_inside (by rw [length_replicate]; omega)
  proceeds_bodyStep levels hdeeper inKeyword isNested

/-- Blank lines are passed over before the next step of a body. -/
theorem iterate_blank (inKeyword isNested : Bool) (items : BodyItems)
    (c : Cursor) :
    iterate (bodyStep (expression levels) (inside levels) inKeyword isNested) items c =
      iterate (bodyStep (expression levels) (inside levels) inKeyword isNested) items
        (c.drop c.blank.length) := by
  refine drop_blank (P := fun d => iterate _ items c = iterate _ items d)
    (fun d hd hkind => ?_) rfl
  rw [hd]
  exact iterate_go (bodyStep_newline items hkind)
    (left_advance_lt_of_ne (by rw [hkind]; decide))

end Progress

section Lines

variable {c : Cursor}

theorem supplied_header {S : Supply} [S.Rereads] (h : c.Supplied S) :
    (header (expression levels) c).2.Supplied S :=
  (reads_header levels c h.line).keeps h

theorem supplied_textContent {S : Supply} (h : c.Supplied S) :
    S.start (textContent (expression levels) c).1.span.start ∧
      (textContent (expression levels) c).2.Supplied S := by
  have hread := runs_textContent levels h.line
  exact ⟨S.start_span hread.value.1.span, hread.keeps h⟩

theorem supplied_expressionLine {S : Supply} (h : c.Supplied S)
    (hkind : c.current.kind = .expressionStart) :
    (expressionLine (expression levels) c).2.Supplied S :=
  (runs_expressionLine levels (.of_kind hkind rfl) h.line).keeps h

theorem supplied_comment {S : Supply} (h : c.Supplied S) : (comment c).2.Supplied S :=
  (reads_comment c h.line).keeps h

theorem atSubKeyword_eq {t : Token} {ts : List Token} (h : c.rest = t :: ts) :
    (atSubKeyword c).1 = true ↔
      t.kind = .subKeyword ∨ t.kind = .keywordStart ∧
      ts.head?.map Token.kind = some .subKeyword := by
  obtain ⟨kind, text, span⟩ := t
  unfold atSubKeyword
  rw [h]
  split
  · next heq =>
    cases heq
    simp
  · next heq =>
    cases heq
    simp
  · next hsub hstart =>
    simp only [Bool.false_eq_true, false_iff]
    rintro (rfl | ⟨rfl, hsecond⟩)
    · exact hsub _ _ _ rfl
    · cases ts with
      | nil => cases hsecond
      | cons u us =>
        obtain ⟨kind, text', span'⟩ := u
        obtain rfl : kind = .subKeyword := by simpa using hsecond
        exact hstart _ _ _ _ _ rfl

end Lines

/-- What is known of two sources line by line; the places in each of them are those of a supply. -/
structure LinePairing (G : Type) [AddCommMonoid G] where
  left : Supply
  right : Supply
  [rereads_left : left.Rereads]
  [rereads_right : right.Rereads]
  /-- Two lines correspond; they are read with so many levels left, and weigh so much. -/
  line : Nat → G → Row → Row → Prop
  /-- The records of two cursors between lines correspond; what they hold weighs so much. -/
  record : G → Position × List Diagnostic → Position × List Diagnostic → Prop
  /-- The indents of two lines correspond. -/
  indent : Token → Token → Prop
  /-- Two places correspond. -/
  place : Position → Position → Prop
  /-- Two headers correspond, and weigh so much. -/
  header : G → Header → Header → Prop
  /-- Two texts correspond, and weigh so much. -/
  content : G → TextContent → TextContent → Prop
  /-- Two statements correspond, and weigh so much. -/
  statement : G → Statement → Statement → Prop
  /-- Two sub-keywords correspond, and weigh so much. -/
  subKeyword : G → SubKeyword → SubKeyword → Prop
  alike : ∀ {l g r r'}, line l g r r' → r.Alike r'
  start : ∀ {l g r r'}, line l g r r' → place r.first.span.start r'.first.span.start
  lastEnd : ∀ {g s s'}, record g s s' → place s.1 s'.1
  stray : ∀ {g s s'} {t t' : Token}, record g s s' → indent t t' →
    record g (s.1, ⟨.unexpectedIndentation, t.span⟩ :: s.2)
      (s'.1, ⟨.unexpectedIndentation, t'.span⟩ :: s'.2)
  reads_header : ∀ {l g h r r'} {c c' : Cursor}, line l g r r' → record h c.record c'.record →
    c.rest = r.tokens → c'.rest = r'.tokens → IsHeaderStart r.first.kind →
      ∃ x y, x + y = g + h ∧
        header x (Parser.header (expression l) c).1 (Parser.header (expression l) c').1 ∧
        record y (Parser.header (expression l) c).2.record
          (Parser.header (expression l) c').2.record
  reads_content : ∀ {l g h r r'} {c c' : Cursor}, line l g r r' → record h c.record c'.record →
    c.rest = r.tokens → c'.rest = r'.tokens → IsTextStart r.first.kind →
      ∃ x y, x + y = g + h ∧
        content x (textContent (expression l) c).1 (textContent (expression l) c').1 ∧
        record y (textContent (expression l) c).2.record (textContent (expression l) c').2.record
  reads_expression : ∀ {l g h r r'} {c c' : Cursor}, line l g r r' → record h c.record c'.record →
    c.rest = r.tokens → c'.rest = r'.tokens → r.first.kind = .expressionStart →
      ∃ x y, x + y = g + h ∧
        statement x (expressionLine (expression l) c).1 (expressionLine (expression l) c').1 ∧
        record y (expressionLine (expression l) c).2.record
          (expressionLine (expression l) c').2.record
  reads_comment : ∀ {l g h r r'} {c c' : Cursor}, line l g r r' → record h c.record c'.record →
    c.rest = r.tokens → c'.rest = r'.tokens →
    r.first.kind = .commentStart ∨ r.first.kind = .comment →
      ∃ x y, x + y = g + h ∧ statement x (Parser.comment c).1 (Parser.comment c').1 ∧
        record y (Parser.comment c).2.record (Parser.comment c').2.record
  keyword : ∀ {x y z h h' subs subs' body body' p p' q q'}, header x h h' →
    Tally subKeyword y subs subs' → Tally statement z body body' →
    place p p' ∧ left.start p ∧ right.start p' → place q q' ∧ left.start q ∧ right.start q' →
      statement (x + (y + z)) (.keyword h subs body (Span.between p q))
        (.keyword h' subs' body' (Span.between p' q'))
  sub : ∀ {x z h h' body body' p p' q q'}, header x h h' → Tally statement z body body' →
    place p p' ∧ left.start p ∧ right.start p' → place q q' ∧ left.start q ∧ right.start q' →
      subKeyword (x + z) (.mk h body (Span.between p q)) (.mk h' body' (Span.between p' q'))
  text : ∀ {x t t'}, content x t t' → statement x (.text t) (.text t')
  answer : ∀ {x z t t' body body' q q'}, content x t t' →
    left.start t.span.start ∧ right.start t'.span.start → Tally statement z body body' →
    place q q' ∧ left.start q ∧ right.start q' →
      statement (x + z) (.answer t body (Span.between t.span.start q))
        (.answer t' body' (Span.between t'.span.start q'))

namespace LinePairing

attribute [instance] rereads_left rereads_right

variable [AddCommMonoid G] (P : LinePairing G) {c : Cursor}

/-- Both cursors are supplied. -/
def Supplies (c c' : Cursor) : Prop :=
  c.Supplied P.left ∧ c'.Supplied P.right

/-- The cursors stand before paired tokens, with records that correspond. -/
def Meets (l : Nat) (g : G) (c c' : Cursor) : Prop :=
  ∃ x y, x + y = g ∧ Paired P.line P.indent l x c.rest c'.rest ∧ P.record y c.record c'.record

/-- The cursors stand at lines that correspond, with paired tokens behind them. -/
def AtLines (l : Nat) (g : G) (c c' : Cursor) : Prop :=
  ∃ x y z r r', x + z + y = g ∧ c.rest = r.tokens ∧ c'.rest = r'.tokens ∧ P.line l x r r' ∧
    Paired P.line P.indent l z r.after r'.after ∧ P.record y c.record c'.record

/-- Two parsers gave values that correspond, and stopped at cursors that meet. -/
def Gives {α β : Type} (l : Nat) (g : G) (R : G → α → β → Prop) (r : α × Cursor)
    (r' : β × Cursor) : Prop :=
  ∃ x y, x + y = g ∧ R x r.1 r'.1 ∧ P.Meets l y r.2 r'.2 ∧ P.Supplies r.2 r'.2

variable {P}

theorem Meets.newline_left (h : P.Meets l g c c') (hkind : c.current.kind = .newline) :
    P.Meets l g c.advance c' := by
  obtain ⟨x, y, hxy, hpaired, hrecord⟩ := h
  rw [rest_eq_cons_of_ne (by rw [hkind]; decide)] at hpaired
  refine ⟨x, y, hxy, hpaired.of_newline_left (fun hline => (P.alike hline).left.content) hkind, ?_⟩
  rwa [record_advance (by rw [hkind]; rfl)]

theorem Meets.newline_right (h : P.Meets l g c c') (hkind : c'.current.kind = .newline) :
    P.Meets l g c c'.advance := by
  obtain ⟨x, y, hxy, hpaired, hrecord⟩ := h
  rw [rest_eq_cons_of_ne (c := c') (by rw [hkind]; decide)] at hpaired
  refine ⟨x, y, hxy,
    (hpaired.swap.of_newline_left (fun hline => (P.alike hline).right.content) hkind).swap, ?_⟩
  rwa [record_advance (by rw [hkind]; rfl)]

/-- Blank lines are passed over on both sides. -/
theorem Meets.blank (h : P.Meets l g c c') :
    P.Meets l g (c.drop c.blank.length) (c'.drop c'.blank.length) := by
  have hleft : P.Meets l g (c.drop c.blank.length) c' :=
    drop_blank (P := fun d => P.Meets l g d c') (fun _ hd hkind => hd.newline_left hkind) h
  exact drop_blank (P := fun d => P.Meets l g (c.drop c.blank.length) d)
    (fun _ hd hkind => hd.newline_right hkind) hleft

/-- Where cursors meet at no line ending, both are at the end, at an indent, at a dedent or at
corresponding lines. -/
theorem Meets.cases (h : P.Meets l g c c') (hne : c.current.kind ≠ .newline)
    (hne' : c'.current.kind ≠ .newline) :
    (c.current.kind = .endOfInput ∧ c'.current.kind = .endOfInput ∧ P.record g c.record c'.record ∧
      ∀ l, P.Meets l g c c') ∨
    (c.current.kind = .indent ∧ c'.current.kind = .indent ∧ P.indent c.current c'.current ∧
      P.Meets (l - 1) g c.advance c'.advance) ∨
    (c.current.kind = .dedent ∧ c'.current.kind = .dedent ∧
      P.Meets (min (l + 1) maxDepth) g c.advance c'.advance) ∨
    P.AtLines l g c c' := by
  obtain ⟨x, y, hxy, hpaired, hrecord⟩ := h
  have hlayout : ∀ {l t t' ts ts'}, c.rest = t :: ts → c'.rest = t' :: ts' →
      t.kind.isStructural → t'.kind.isStructural →
      Paired P.line P.indent l x ts ts' → P.Meets l g c.advance c'.advance := by
    intro l t t' ts ts' hrest hrest' hkind hkind' hpaired
    refine ⟨x, y, hxy, ?_, ?_⟩
    · rw [rest_advance, rest_advance, hrest, hrest']
      exact hpaired
    · rwa [record_advance (current_of_rest hrest ▸ hkind),
        record_advance (current_of_rest hrest' ▸ hkind')]
  generalize hrest : c.rest = ts at hpaired
  generalize hrest' : c'.rest = ts' at hpaired
  cases hpaired with
  | nil =>
    refine .inl ⟨?_, ?_, ?_, fun l => ⟨0, y, hxy, ?_, hrecord⟩⟩
    · rw [Cursor.current, hrest]
      rfl
    · rw [Cursor.current, hrest']
      rfl
    · rwa [← hxy, zero_add]
    · rw [hrest, hrest']
      exact .nil
  | newline_left hkind _ => exact absurd (current_of_rest hrest ▸ hkind) hne
  | newline_right hkind _ => exact absurd (current_of_rest hrest' ▸ hkind) hne'
  | finish hkind hkind' =>
    refine .inl ⟨current_of_rest hrest ▸ hkind, current_of_rest hrest' ▸ hkind', ?_,
      fun l => ⟨0, y, hxy, ?_, hrecord⟩⟩
    · rwa [← hxy, zero_add]
    · rw [hrest, hrest']
      exact .finish hkind hkind'
  | indent hkind hkind' hindent rest =>
    have hnext := hlayout hrest hrest' (by rw [hkind]; rfl) (by rw [hkind']; rfl) rest
    rw [← current_of_rest hrest] at hkind hindent
    rw [← current_of_rest hrest'] at hkind' hindent
    exact .inr (.inl ⟨hkind, hkind', hindent, hnext⟩)
  | dedent hkind hkind' rest =>
    have hnext := hlayout hrest hrest' (by rw [hkind]; rfl) (by rw [hkind']; rfl) rest
    rw [← current_of_rest hrest] at hkind
    rw [← current_of_rest hrest'] at hkind'
    exact .inr (.inr (.inl ⟨hkind, hkind', hnext⟩))
  | line hline rest =>
    exact .inr (.inr (.inr ⟨_, y, _, _, _, hxy, hrest, hrest', hline, rest, hrecord⟩))

theorem Meets.lastEnd (h : P.Meets l g c c') (hs : P.Supplies c c') :
    P.place c.lastEnd c'.lastEnd ∧ P.left.start c.lastEnd ∧ P.right.start c'.lastEnd := by
  obtain ⟨x, y, -, -, hrecord⟩ := h
  exact ⟨P.lastEnd hrecord, hs.1.lastEnd, hs.2.lastEnd⟩

theorem AtLines.content (h : P.AtLines l g c c') : c.AtContent := by
  obtain ⟨x, y, z, r, r', -, hrest, hrest', hline, -⟩ := h
  exact .of_current (current_of_rest hrest) (P.alike hline).left.content

theorem AtLines.kind (h : P.AtLines l g c c') :
    c'.current.kind = c.current.kind ∧ (atSubKeyword c).1 = (atSubKeyword c').1 := by
  obtain ⟨x, y, z, r, r', -, hrest, hrest', hline, -⟩ := h
  have halike := P.alike hline
  constructor
  · rw [current_of_rest hrest, current_of_rest hrest', halike.kind]
  · rw [Bool.eq_iff_iff, atSubKeyword_eq hrest, atSubKeyword_eq hrest', halike.kind]
    exact or_congr_right (and_congr_right halike.second)

theorem AtLines.start (h : P.AtLines l g c c') (hs : P.Supplies c c') :
    P.place c.current.span.start c'.current.span.start ∧ P.left.start c.current.span.start ∧
      P.right.start c'.current.span.start := by
  obtain ⟨x, y, z, r, r', -, hrest, hrest', hline, -⟩ := h
  refine ⟨?_, P.left.start_token hs.1.line.current, P.right.start_token hs.2.line.current⟩
  rw [current_of_rest hrest, current_of_rest hrest']
  exact P.start hline

/-- Behind lines that correspond the cursors meet again. -/
theorem AtLines.reads {α β : Type} {R : G → α → β → Prop} {s : α × Cursor}
    {s' : β × Cursor} (h : P.AtLines l g c c')
    (htakes : c.TakesLine s.2) (htakes' : c'.TakesLine s'.2) (hs : P.Supplies s.2 s'.2)
    (hreads : ∀ {x y r r'}, P.line l x r r' → P.record y c.record c'.record →
      c.rest = r.tokens → c'.rest = r'.tokens →
      c.current = r.first → ∃ u v, u + v = x + y ∧ R u s.1 s'.1 ∧
      P.record v s.2.record s'.2.record) :
    P.Gives l g R s s' := by
  obtain ⟨x, y, z, r, r', rfl, hrest, hrest', hline, hafter, hrecord⟩ := h
  obtain ⟨u, v, huv, hvalue, hrecord⟩ :=
    hreads hline hrecord hrest hrest' (current_of_rest hrest)
  refine ⟨u, z + v, ?_, hvalue, ⟨z, v, rfl, ?_, hrecord⟩, hs⟩
  · rw [add_left_comm, huv, add_left_comm, add_assoc]
  · rwa [htakes.rest_eq hrest (P.alike hline).left, htakes'.rest_eq hrest' (P.alike hline).right]

/-- After a line, either no block is entered on either side, or one is on both. -/
theorem Meets.enterBlock (h : P.Meets l g c c') (hs : P.Supplies c c') :
    (enterBlock (inside l) c = (none, c) ∧ enterBlock (inside l) c' = (none, c')) ∨
    ∃ i d d', l = i + 1 ∧ enterBlock (inside l) c = (inside l, d) ∧
    enterBlock (inside l) c' = (inside l, d') ∧
      P.Meets i g d d' ∧ P.Supplies d d' := by
  cases l with
  | zero => exact .inl ⟨by simp [Parser.enterBlock, inside], by simp [Parser.enterBlock, inside]⟩
  | succ i =>
    rcases h.blank.cases c.current_drop_blank_ne c'.current_drop_blank_ne with
      ⟨hkind, hkind', -⟩ | ⟨hkind, hkind', -, hmeets⟩ | ⟨hkind, hkind', -⟩ | hlines
    · exact .inl ⟨enterBlock_closed (by rw [hkind]; decide),
        enterBlock_closed (by rw [hkind']; decide)⟩
    · rw [advance_drop (by rw [hkind]; rfl),
        advance_drop (by rw [hkind']; rfl)] at hmeets
      exact .inr ⟨i, _, _, rfl, enterBlock_opened hkind, enterBlock_opened hkind',
        hmeets, hs.1.drop _, hs.2.drop _⟩
    · exact .inl ⟨enterBlock_closed (by rw [hkind]; decide),
        enterBlock_closed (by rw [hkind']; decide)⟩
    · have hne : (c.drop c.blank.length).current.kind ≠ .indent := fun hkind => by
        have hcontent := hlines.content
        rw [AtContent, hkind] at hcontent
        cases hcontent
      exact .inl ⟨enterBlock_closed hne, enterBlock_closed (by rwa [hlines.kind.1])⟩

/-- The sub-keywords and the statements in the bodies of two keywords correspond. -/
def Items (P : LinePairing G) (g : G) (items items' : BodyItems) : Prop :=
  ∃ x y, x + y = g ∧ Tally P.subKeyword x items.1 items'.1 ∧ Tally P.statement y items.2 items'.2

theorem Items.nil (P : LinePairing G) : P.Items 0 ([], []) ([], []) :=
  ⟨0, 0, add_zero 0, .nil, .nil⟩

/-- The parsers under an indent read blocks in step. -/
def Deepens (P : LinePairing G) (l : Nat) : Prop :=
  ∀ i, l = i + 1 → ∀ {g c c'}, P.Meets i g c c' → P.Supplies c c' →
    P.Gives l g (Tally P.statement) (block (expression i) (inside i) true c)
      (block (expression i) (inside i) true c') ∧
    P.Gives l g P.Items (keywordBody (expression i) (inside i) c)
      (keywordBody (expression i) (inside i) c')

end LinePairing

variable [AddCommMonoid G] {P : LinePairing G} {c : Cursor}

section Blocks

variable (hs : P.Supplies c c')

include hs

theorem gives_header (h : P.AtLines l g c c') (hkind : IsHeaderStart c.current.kind) :
    P.Gives l g P.header (header (expression l) c) (header (expression l) c') :=
  h.reads (takesLine_header hkind) (takesLine_header (h.kind.1 ▸ hkind))
    ⟨supplied_header hs.1, supplied_header hs.2⟩
    fun hline hrecord hrest hrest' hfirst => P.reads_header hline hrecord hrest hrest'
      (hfirst ▸ hkind)

theorem gives_textContent (h : P.AtLines l g c c') (hkind : IsTextStart c.current.kind) :
    P.Gives l g P.content (textContent (expression l) c) (textContent (expression l) c') :=
  h.reads (takesLine_textContent hkind) (takesLine_textContent (h.kind.1 ▸ hkind))
    ⟨(supplied_textContent hs.1).2, (supplied_textContent hs.2).2⟩
    fun hline hrecord hrest hrest' hfirst => P.reads_content hline hrecord hrest hrest'
      (hfirst ▸ hkind)

theorem gives_expressionLine (h : P.AtLines l g c c') (hkind : c.current.kind = .expressionStart) :
    P.Gives l g P.statement (expressionLine (expression l) c) (expressionLine (expression l) c') :=
  have hkind' := h.kind.1.trans hkind
  h.reads (takesLine_expressionLine hkind) (takesLine_expressionLine hkind')
    ⟨supplied_expressionLine hs.1 hkind, supplied_expressionLine hs.2 hkind'⟩
    fun hline hrecord hrest hrest' hfirst => P.reads_expression hline hrecord hrest hrest'
      (hfirst ▸ hkind)

theorem gives_comment (h : P.AtLines l g c c')
    (hkind : c.current.kind = .commentStart ∨ c.current.kind = .comment) :
    P.Gives l g P.statement (comment c) (comment c') :=
  h.reads (takesLine_comment hkind) (takesLine_comment (h.kind.1 ▸ hkind))
    ⟨supplied_comment hs.1, supplied_comment hs.2⟩
    fun hline hrecord hrest hrest' hfirst => P.reads_comment hline hrecord hrest hrest'
      (hfirst ▸ hkind)

variable (hdeeper : P.Deepens l)

include hdeeper

theorem gives_keywordStatement (h : P.AtLines l g c c') (hkind : IsHeaderStart c.current.kind) :
    P.Gives l g P.statement (keywordStatement (expression l) (inside l) c)
      (keywordStatement (expression l) (inside l) c') := by
  have hstart := h.start hs
  obtain ⟨x, y, rfl, hheader, hmeets, hs⟩ := gives_header hs h hkind
  rcases hmeets.enterBlock hs with ⟨hnone, hnone'⟩ | ⟨i, d, d', rfl, hsome, hsome', hin, hin'⟩
  · rw [keywordStatement_closed hnone, keywordStatement_closed hnone']
    have hvalue := P.keyword hheader .nil .nil hstart (hmeets.lastEnd hs)
    rw [add_zero, add_zero] at hvalue
    exact ⟨x, y, rfl, hvalue, hmeets, hs⟩
  · rw [keywordStatement_opened hsome, keywordStatement_opened hsome']
    obtain ⟨u, v, rfl, ⟨p, q, rfl, hsubs, hbody⟩, hout, hs⟩ := (hdeeper i rfl hin hin').2
    refine ⟨x + (p + q), v, add_assoc _ _ _, P.keyword hheader hsubs hbody hstart
      (hout.lastEnd hs), hout, hs⟩

theorem gives_subKeyword (h : P.AtLines l g c c') (hkind : IsHeaderStart c.current.kind) :
    P.Gives l g P.subKeyword (subKeyword (expression l) (inside l) c)
      (subKeyword (expression l) (inside l) c') := by
  have hstart := h.start hs
  obtain ⟨x, y, rfl, hheader, hmeets, hs⟩ := gives_header hs h hkind
  rcases hmeets.enterBlock hs with ⟨hnone, hnone'⟩ | ⟨i, d, d', rfl, hsome, hsome', hin, hin'⟩
  · rw [subKeyword_closed hnone, subKeyword_closed hnone']
    have hvalue := P.sub hheader .nil hstart (hmeets.lastEnd hs)
    rw [add_zero] at hvalue
    exact ⟨x, y, rfl, hvalue, hmeets, hs⟩
  · rw [subKeyword_opened hsome, subKeyword_opened hsome']
    obtain ⟨u, v, rfl, hbody, hout, hs⟩ := (hdeeper i rfl hin hin').1
    exact ⟨x + u, v, add_assoc _ _ _, P.sub hheader hbody hstart (hout.lastEnd hs), hout, hs⟩

theorem gives_textLine (h : P.AtLines l g c c') (hkind : IsTextStart c.current.kind) :
    P.Gives l g P.statement (textLine (expression l) (inside l) c)
      (textLine (expression l) (inside l) c') := by
  have hstart := (@supplied_textContent l c _ hs.1).1
  have hstart' := (@supplied_textContent l c' _ hs.2).1
  obtain ⟨x, y, rfl, hvalue, hmeets, hs⟩ := gives_textContent hs h hkind
  rcases hmeets.enterBlock hs with ⟨hnone, hnone'⟩ | ⟨i, d, d', rfl, hsome, hsome', hin, hin'⟩
  · rw [textLine_closed hnone, textLine_closed hnone']
    exact ⟨x, y, rfl, P.text hvalue, hmeets, hs⟩
  · rw [textLine_opened hsome, textLine_opened hsome']
    obtain ⟨u, v, rfl, hbody, hout, hs⟩ := (hdeeper i rfl hin hin').1
    exact ⟨x + u, v, add_assoc _ _ _, P.answer hvalue ⟨hstart, hstart'⟩ hbody
      (hout.lastEnd hs), hout, hs⟩

theorem gives_statement (h : P.AtLines l g c c') :
    P.Gives l g P.statement (statement (expression l) (inside l) c)
      (statement (expression l) (inside l) c') := by
  obtain ⟨p, hform, ⟨hkind, rfl⟩ | ⟨hkind, rfl⟩ | ⟨hkind, rfl⟩ | ⟨hkind, rfl⟩⟩ :=
    statement_cases (expression l) (inside l) h.content
  all_goals rw [hform c rfl, hform c' h.kind.1]
  · exact gives_keywordStatement hs hdeeper h hkind
  · exact gives_expressionLine hs h hkind
  · exact gives_comment hs h hkind
  · exact gives_textLine hs hdeeper h hkind

theorem gives_strayBlock (h : P.Meets (l - 1) g c.advance c'.advance)
    (hindent : P.indent c.current c'.current) :
    P.Gives l g (Tally P.statement) (strayBlock (inside l) c) (strayBlock (inside l) c') := by
  have hstray : P.Meets (l - 1) g (c.advance.report .unexpectedIndentation c.current.span)
      (c'.advance.report .unexpectedIndentation c'.current.span) := by
    obtain ⟨x, y, hxy, hpaired, hrecord⟩ := h
    exact ⟨x, y, hxy, hpaired, P.stray hrecord hindent⟩
  have hsupplies : P.Supplies (c.advance.report .unexpectedIndentation c.current.span)
      (c'.advance.report .unexpectedIndentation c'.current.span) :=
    ⟨hs.1.advance.report _ _, hs.2.advance.report _ _⟩
  cases l with
  | zero => exact ⟨0, g, zero_add g, .nil, hstray, hsupplies⟩
  | succ i => exact (hdeeper i rfl hstray hsupplies).1

theorem gives_item {inKeyword : Bool} {items items' : BodyItems} {x : G}
    (hitems : P.Items x items items') (h : P.AtLines l g c c') :
    P.Gives l (x + g) P.Items (item (expression l) (inside l) inKeyword items c)
      (item (expression l) (inside l) inKeyword items' c') := by
  have hat := h.kind.2
  obtain ⟨y, z, rfl, hsubs, hbody⟩ := hitems
  cases hsub : inKeyword && (atSubKeyword c).1 with
  | true =>
    have hstart := isHeaderStart_of_atSubKeyword (Bool.and_eq_true_iff.1 hsub).2
    obtain ⟨u, v, rfl, hvalue, hmeets⟩ := gives_subKeyword hs hdeeper h hstart
    rw [item_subKeyword items hsub, item_subKeyword items' (by rwa [← hat])]
    generalize subKeyword (expression l) (inside l) c = r at hvalue hmeets ⊢
    generalize subKeyword (expression l) (inside l) c' = r' at hvalue hmeets ⊢
    refine ⟨y + u + z, v, ?_, ⟨y + u, z, rfl, hsubs.snoc hvalue, hbody⟩, hmeets⟩
    rw [add_right_comm y u z, add_assoc]
  | false =>
    obtain ⟨u, v, rfl, hvalue, hmeets⟩ := gives_statement hs hdeeper h
    rw [item_statement items hsub, item_statement items' (by rwa [← hat])]
    refine ⟨y + (z + u), v, ?_, ⟨y, z + u, rfl, hsubs, hbody.snoc hvalue⟩, hmeets⟩
    rw [← add_assoc y z u, add_assoc]

end Blocks

section Loops

variable (hl : l ≤ maxDepth) (hdeeper : P.Deepens l)

include hl hdeeper

/-- The items of two bodies correspond.  The induction is on the tokens that are left on the one
side; blank lines are passed over on both. -/
theorem gives_body (inKeyword isNested : Bool) (htop : isNested = false → l = maxDepth)
    {items items' : BodyItems} {x y : G} (hitems : P.Items x items items')
    (h : P.Meets l y c c') (hs : P.Supplies c c') :
    P.Gives (min (l + 1) maxDepth) (x + y) P.Items
      (iterate (bodyStep (expression l) (inside l) inKeyword isNested) items c)
      (iterate (bodyStep (expression l) (inside l) inKeyword isNested) items' c') := by
  have hproceeds := proceeds_body inKeyword isNested hl
  generalize hn : c.left = n
  induction n using Nat.strong_induction_on generalizing c c' items items' x y with
  | _ n ih =>
  rw [iterate_blank inKeyword isNested items c, iterate_blank inKeyword isNested items' c']
  have hcases := h.blank.cases c.current_drop_blank_ne c'.current_drop_blank_ne
  have hmeets := h.blank
  have hs : P.Supplies (c.drop c.blank.length) (c'.drop c'.blank.length) :=
    ⟨hs.1.drop _, hs.2.drop _⟩
  have hle : (c.drop c.blank.length).left ≤ n := hn ▸ Nat.sub_le _ _
  generalize c.drop c.blank.length = c at hcases hmeets hs hle ⊢
  generalize c'.drop c'.blank.length = c' at hcases hmeets hs ⊢
  have hgo : ∀ {d d' : Cursor} {next next' : BodyItems} {u v : G},
      bodyStep (expression l) (inside l) inKeyword isNested items c = ((next, true), d) →
      bodyStep (expression l) (inside l) inKeyword isNested items' c' = ((next', true), d') →
      u + v = x + y → P.Items u next next' → P.Meets l v d d' → P.Supplies d d' →
      P.Gives (min (l + 1) maxDepth) (x + y) P.Items
        (iterate (bodyStep (expression l) (inside l) inKeyword isNested) items c)
        (iterate (bodyStep (expression l) (inside l) inKeyword isNested) items' c') := by
    intro d d' next next' u v hstep hstep' huv hitems hmeets hs
    have hleft := hproceeds.left_lt hstep
    rw [iterate_go hstep hleft, iterate_go hstep' (hproceeds.left_lt hstep'), ← huv]
    exact ih d.left (hleft.trans_le hle) hitems hmeets hs rfl
  rcases hcases with
    ⟨hkind, hkind', -, hall⟩ | ⟨hkind, hkind', hindent, hin⟩ | ⟨hkind, hkind', hout⟩ | hlines
  · rw [iterate_stop (bodyStep_end items hkind), iterate_stop (bodyStep_end items' hkind')]
    exact ⟨x, y, rfl, hitems, hall _, hs⟩
  · obtain ⟨u, v, rfl, hvalue, hmeets, hs⟩ := gives_strayBlock hs hdeeper hin hindent
    obtain ⟨p, q, rfl, hsubs, hbody⟩ := hitems
    exact hgo (bodyStep_indent items hkind) (bodyStep_indent items' hkind')
      (by rw [add_assoc, add_assoc, add_assoc])
      ⟨p, q + u, rfl, hsubs, hbody.append hvalue⟩ hmeets hs
  · have hs : P.Supplies c.advance c'.advance := ⟨hs.1.advance, hs.2.advance⟩
    cases isNested with
    | true =>
      rw [iterate_stop (bodyStep_dedent items hkind), iterate_stop (bodyStep_dedent items' hkind')]
      exact ⟨x, y, rfl, hitems, hout, hs⟩
    | false =>
      exact hgo (bodyStep_dedent items hkind) (bodyStep_dedent items' hkind') rfl hitems
        (htop rfl ▸ hout) hs
  · obtain ⟨u, v, huv, hvalue, hmeets, hs⟩ := gives_item hs hdeeper hitems hlines
    have hcontent := hlines.content
    exact hgo (bodyStep_content items hcontent)
      (bodyStep_content items' (.of_kind hlines.kind.1 hcontent)) huv hvalue hmeets hs

/-- The statements of two blocks correspond. -/
theorem gives_block (isNested : Bool) (htop : isNested = false → l = maxDepth)
    (h : P.Meets l g c c') (hs : P.Supplies c c') :
    P.Gives (min (l + 1) maxDepth) g (Tally P.statement)
      (block (expression l) (inside l) isNested c)
        (block (expression l) (inside l) isNested c') := by
  have hgives := gives_body hl hdeeper false isNested htop (.nil P) h hs
  rw [zero_add, show iterate _ _ c = _ from body_eq_block isNested c,
    show iterate _ _ c' = _ from body_eq_block isNested c'] at hgives
  obtain ⟨x, y, hxy, ⟨p, q, hpq, hsubs, hbody⟩, hmeets⟩ := hgives
  cases hsubs
  rw [zero_add] at hpq
  exact ⟨q, y, by rw [hpq, hxy], hbody, hmeets⟩

end Loops

/-- Blocks of every depth are read in step, by induction on the levels left. -/
theorem LinePairing.deepens (P : LinePairing G) (hl : l ≤ maxDepth) : P.Deepens l := by
  induction l with
  | zero => exact nofun
  | succ i ih =>
    have hle := Nat.le_of_succ_le hl
    rintro _ ⟨⟩ g c c' h hs
    have hblock := gives_block hle (ih hle) true nofun h hs
    have hbody := gives_body hle (ih hle) true true nofun (.nil P) h hs
    rw [zero_add] at hbody
    rw [Nat.min_eq_left hl] at hblock hbody
    exact ⟨hblock, hbody⟩

/-- **Sources in step.**  From paired tokens, the statements of two programs and the records at
their ends correspond; together they weigh what the lines weigh. -/
theorem LinePairing.gives_programBody (P : LinePairing G) (h : P.Meets maxDepth g c c')
    (hsupplies : P.Supplies c c') :
    ∃ x y, x + y = g ∧ Tally P.statement x (programBody c).1 (programBody c').1 ∧
      P.record y (programBody c).2.record (programBody c').2.record := by
  have hle := Nat.le_refl maxDepth
  have hblock : P.Gives _ g (Tally P.statement) (programBody c) (programBody c') :=
    gives_block hle (P.deepens hle) false (fun _ => rfl) h hsupplies
  have hend := (laid_programBody c).2
  have hend' := (laid_programBody c').2
  obtain ⟨x, y, hxy, hbody, hmeets, -⟩ := hblock
  refine ⟨x, y, hxy, hbody, ?_⟩
  rcases hmeets.cases (by rw [hend]; decide) (by rw [hend']; decide) with
    ⟨-, -, hrecord, -⟩ | ⟨hkind, -⟩ | ⟨hkind, -⟩ | hlines
  · exact hrecord
  · exact absurd (hend.symm.trans hkind) nofun
  · exact absurd (hend.symm.trans hkind) nofun
  · have hcontent := hlines.content
    rw [AtContent, hend] at hcontent
    cases hcontent

end Parser

end ScriptLint

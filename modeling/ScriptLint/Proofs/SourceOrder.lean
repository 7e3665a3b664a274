import ScriptLint.Proofs.TidiedSource

/-!
# Statements in the order of the source

The blocks of a program are walked with the last line read for a mark: a statement begins behind the
mark and stops on the next one, and all that is nested in it stands between.

**Results.**
* `isOrdered_of_mem_nodes`: the blocks of keywords are in order.
* `markup_covers_body_and_subKeywords_amid`: what the lines of a markup body hold.
-/

namespace ScriptLint

open List Text Piece

variable {ts : List Token} {n : Nat}

namespace Node

/-- The nodes of a statement or a sub-keyword, itself among them. -/
def nested : Node → List Node
  | statement s => s.nodes
  | subKeyword s => s.nodes
  | _ => []

/-- All that is nested in the node begins on its lines. -/
def Encloses (x : Node) : Prop :=
  x.span.start.line ≤ x.span.stop.line ∧
    ∀ y ∈ x.nested, ∀ k ∈ y.line?, x.span.start.line ≤ k ∧ k ≤ x.span.stop.line

/-- What a keyword holds stands on lines of its own, and its statements are in order. -/
def IsOrdered : Node → Prop
  | statement (.keyword _ subs body _) =>
    (∀ x ∈ subs.map subKeyword ++ body.map statement, x.Encloses) ∧
      body.Pairwise (fun a b => a.span.stop.line < b.span.start.line) ∧
      ∀ s ∈ subs, ∀ b ∈ body,
        s.span.stop.line < b.span.start.line ∨ b.span.stop.line < s.span.start.line
  | _ => True

/-- Behind one line, the node is read up to another. -/
structure ReadUpTo (n m : Nat) (x : Node) : Prop where
  start : n < x.span.start.line
  stop : x.span.stop.line = m
  encloses : x.Encloses
  ordered : ∀ y ∈ x.nested, y.IsOrdered

theorem line?_eq {x : Node} {k : Nat} (h : k ∈ x.line?) : k = x.span.start.line := by
  cases x <;> cases h <;> rfl

theorem isOrdered_of_isInner {x : Node} (h : x.isInner) : x.IsOrdered := by
  cases x <;> trivial

end Node

namespace Chain

variable {m : Nat} {xs : List Node}

theorem readUpTo_bounds (h : Chain Node.ReadUpTo n m xs) :
    n ≤ m ∧ ∀ x ∈ xs, n < x.span.start.line ∧ x.span.stop.line ≤ m ∧ x.Encloses ∧
      ∀ y ∈ x.nested, y.IsOrdered := by
  induction h with
  | nil n => exact ⟨Nat.le_refl n, nofun⟩
  | @cons n m k x xs head tail ih =>
    have hstart := head.start
    have hstop := head.stop
    have horder := head.encloses.1
    refine ⟨by omega, forall_mem_cons.2 ⟨⟨hstart, by omega, head.encloses, head.ordered⟩, ?_⟩⟩
    intro y hy
    obtain ⟨hy, hrest⟩ := ih.2 y hy
    exact ⟨by omega, hrest⟩

theorem pairwise (h : Chain Node.ReadUpTo n m xs) :
    xs.Pairwise fun x y => x.span.stop.line < y.span.start.line := by
  induction h with
  | nil => exact .nil
  | cons head tail ih =>
    refine pairwise_cons.2 ⟨fun y hy => ?_, ih⟩
    rw [head.stop]
    exact (tail.readUpTo_bounds.2 y hy).1

/-- What is read in a chain is in order. -/
theorem isOrdered_keyword (h : Chain Node.ReadUpTo n m xs) (header : Header) (span : Span) :
    (Node.statement (.keyword header (xs.filterMap Node.subKeyword?) (xs.filterMap Node.statement?)
      span)).IsOrdered := by
  have hbounds := h.readUpTo_bounds.2
  refine ⟨?_, ?_, ?_⟩
  · intro x hx
    rcases mem_append.1 hx with hx | hx
    · obtain ⟨s, hs, rfl⟩ := mem_map.1 hx
      exact (hbounds _ (mem_of_subKeyword hs)).2.2.1
    · obtain ⟨b, hb, rfl⟩ := mem_map.1 hx
      exact (hbounds _ (mem_of_statement hb)).2.2.1
  · refine pairwise_filterMap.2 (h.pairwise.imp fun {x y} hxy b hb b' hb' => ?_)
    cases x <;> cases hb
    cases y <;> cases hb'
    exact hxy
  · intro s hs b hb
    have hapart : xs.Pairwise fun x y =>
        x.span.stop.line < y.span.start.line ∨ y.span.stop.line < x.span.start.line :=
      h.pairwise.imp fun {_ _} hxy => .inl hxy
    have : Std.Symm fun x y : Node =>
        x.span.stop.line < y.span.start.line ∨ y.span.stop.line < x.span.start.line :=
          ⟨fun _ _ => .symm⟩
    exact hapart.forall (mem_of_subKeyword hs) (mem_of_statement hb) nofun

/-- A node that begins a line holds parts of the line and what is read in a chain behind it. -/
theorem readUpTo {k : Nat} {x : Node} {parts inside : List Node} (h : Chain Node.ReadUpTo m k xs)
    (hn : n < m) (hstart : x.span.start.line = m) (hstop : x.span.stop.line = k)
    (hordered : x.IsOrdered) (hnested : x.nested = x :: (parts ++ inside))
    (hparts : parts.all Node.isInner) (hinside : ∀ y ∈ inside, ∃ z ∈ xs, y ∈ z.nested) :
    x.ReadUpTo n k := by
  obtain ⟨hle, hbounds⟩ := h.readUpTo_bounds
  refine ⟨by omega, hstop, ⟨by omega, ?_⟩, ?_⟩ <;> rw [hnested]
  · refine forall_mem_cons.2 ⟨fun j hj => ?_, forall_mem_append.2 ⟨fun y hy j hj => ?_, ?_⟩⟩
    · have hj := Node.line?_eq hj
      omega
    · rw [Node.line?_of_isInner (all_eq_true.1 hparts y hy)] at hj
      cases hj
    · intro y hy j hj
      obtain ⟨z, hz, hy⟩ := hinside y hy
      obtain ⟨hz, hz', hencloses, -⟩ := hbounds z hz
      have hj := hencloses.2 y hy j hj
      omega
  · refine forall_mem_cons.2 ⟨hordered, forall_mem_append.2 ⟨fun y hy => ?_, fun y hy => ?_⟩⟩
    · exact Node.isOrdered_of_isInner (all_eq_true.1 hparts y hy)
    · obtain ⟨z, hz, hy⟩ := hinside y hy
      exact (hbounds z hz).2.2.2 y hy

theorem exists_nested :
    ∀ y ∈ Statement.nodesOfList (xs.filterMap Node.statement?), ∃ z ∈ xs, y ∈ z.nested := by
  intro y hy
  rw [Statement.nodesOfList_eq_flatMap] at hy
  obtain ⟨b, hb, hy⟩ := mem_flatMap.1 hy
  exact ⟨_, mem_of_statement hb, hy⟩

theorem exists_nested_subKeyword : ∀ y ∈ SubKeyword.nodesOfList (xs.filterMap Node.subKeyword?),
    ∃ z ∈ xs, y ∈ z.nested := by
  intro y hy
  rw [SubKeyword.nodesOfList_eq_flatMap] at hy
  obtain ⟨s, hs, hy⟩ := mem_flatMap.1 hy
  exact ⟨_, mem_of_subKeyword hs, hy⟩

end Chain

/-- Behind a line, the tokens are layout and the rows of later lines, in order. -/
inductive Stacked : Nat → List Token → Prop
  | nil (n : Nat) : Stacked n []
  | layout {n : Nat} {t : Token} {ts : List Token} (kind : t.kind.isStructural)
      (rest : Stacked n ts) :
      Stacked n (t :: ts)
  | row {n : Nat} {p : Position} {content : List Char} {r : Row} (holds : r.Holds p content)
      (inline : OneLine content) (later : n < p.line)
      (rest : Stacked p.line r.after) : Stacked n r.tokens

namespace Stacked

theorem append_layout {us : List Token} (h : ∀ t ∈ ts, t.kind.isStructural)
    (hus : Stacked n us) : Stacked n (ts ++ us) := by
  induction ts with
  | nil => exact hus
  | cons t ts ih =>
    obtain ⟨ht, hts⟩ := forall_mem_cons.1 h
    exact .layout ht (ih hts)

theorem of_layout (h : ∀ t ∈ ts, t.kind.isStructural) : Stacked n ts := by
  rw [← append_nil ts]
  exact append_layout h (.nil n)

/-- The tokens of lines, by induction over the lines. -/
theorem ofLines {p : Position} {levels : List Nat} {ls : List Line}
    (hending : Ended ls)
    (hinline : ∀ line ∈ ls, OneLine line.content) (hn : n < p.line) :
    Stacked n (place p (ofLines levels ls)) := by
  induction ls generalizing n p levels with
  | nil => exact of_layout fun t ht => isStructural_of_mem_ofLines_nil ht
  | cons line ls ih =>
    obtain ⟨hline, hls⟩ := forall_mem_cons.1 hinline
    have hlast : line.ending = [] → ls = [] := eq_nil_of_ending_eq_nil hending
    have hbehind : ∀ k, k ≤ p.line → Stacked k (place (p.advance line.content)
        (ofEnding line.ending ++ ofLines (levelsAfter levels line.content) ls)) := by
      intro k hk
      rw [place_append]
      by_cases hnil : line.ending = []
      · rw [hlast hnil, hnil]
        exact of_layout fun t ht => isStructural_of_mem_ofLines_nil ht
      · refine append_layout (fun t ht => ?_) (ih hending.of_cons hls ?_)
        · rw [ofEnding, if_neg (by simpa using hnil)] at ht
          rw [mem_singleton.1 ht]
          rfl
        · have hnext := line_afterLine p line
          rw [if_neg hnil] at hnext
          show k < (afterLine p line).line
          omega
    rw [place_ofLines_cons, last_ofLineContent]
    cases hblank : allBlank line.content with
    | true =>
      rw [ofLineContent, if_pos hblank]
      exact hbehind n hn.le
    | false =>
      obtain ⟨u, us, hplace, hkind, hstop, hspan, -⟩ := place_ending_eq_cons
        (levelsAfter levels line.content) (p.advance line.content) hlast
      obtain ⟨closing, r, htokens, hclosing, -, hholds, hafter⟩ :=
        @place_written levels p line.content u us hblank hkind (by rw [hspan]) hstop
      have hrow := hbehind p.line (Nat.le_refl _)
      rw [hplace, ← hafter] at hrow
      rw [hplace, htokens]
      refine append_layout (fun t ht => by rw [hclosing t ht]; rfl)
        (append_layout ?_ (.row hholds hline hn hrow))
      intro t ht
      split at ht
      · rw [mem_singleton.1 ht]
        rfl
      · cases ht

/-- What stands behind content is the rest of a row. -/
theorem exists_row {c : Cursor} (h : Stacked n c.rest) (hcontent : c.AtContent) :
    ∃ (p : Position) (content : List Char) (r : Row), r.Holds p content ∧
      OneLine content ∧ n < p.line ∧ Stacked p.line r.after ∧
      c.rest = r.tokens := by
  generalize hrest : c.rest = ts at h
  cases h with
  | nil =>
    rw [Cursor.AtContent, Cursor.current, hrest] at hcontent
    cases hcontent
  | layout kind _ =>
    rw [Cursor.AtContent, Cursor.current_of_rest hrest, kind] at hcontent
    cases hcontent
  | row holds inline later rest => exact ⟨_, _, _, holds, inline, later, rest, rfl⟩

theorem tail {t : Token} (h : Stacked n (t :: ts)) (hkind : t.kind.isStructural) :
    Stacked n ts := by
  generalize hts : t :: ts = us at h
  cases h with
  | nil => cases hts
  | layout _ rest =>
    obtain ⟨-, rfl⟩ := cons.inj hts
    exact rest
  | row holds =>
    obtain ⟨rfl, -⟩ := cons.inj hts
    rw [holds.fills.content] at hkind
    cases hkind

end Stacked

namespace Parser

section Lines

variable {cs : List Char} {c d : Cursor}

/-- The last line of content before the cursor has the number, and only later lines follow. -/
structure BehindLine (cs : List Char) (n : Nat) (c : Cursor) : Prop where
  supplied : c.Supplied (placedSupply cs)
  stacked : Stacked n c.rest
  lastEnd : n = 0 ∨ c.lastEnd.line = n

/-- A line that is taken is a row, and the last line from then on. -/
theorem BehindLine.exists_row (h : BehindLine cs n c) (htakes : c.TakesLine d)
    (hd : d.Supplied (placedSupply cs)) :
    ∃ (p : Position) (content : List Char) (r : Row), r.Holds p content ∧
      OneLine content ∧ n < p.line ∧ c.rest = r.tokens ∧
      c.current = r.first ∧ (d.lastEnd.line = p.line → BehindLine cs p.line d) := by
  obtain ⟨p, content, r, hr, hinline, hlater, hafter, hrest⟩ := h.stacked.exists_row htakes.content
  refine ⟨p, content, r, hr, hinline, hlater, hrest, Cursor.current_of_rest hrest, ?_⟩
  intro hline
  refine ⟨hd, ?_, .inr hline⟩
  rwa [htakes.rest_eq hrest hr.fills]

/-- The lines of a span from a token to the last line read. -/
theorem BehindLine.line_stop {p : Position} {k : Nat} (hp : p.IsCanonical cs) (hk : p.line ≤ k)
    (hpos : 0 < p.line) (h : BehindLine cs k d) : (Span.between p d.lastEnd).stop.line = k := by
  have hlast : d.lastEnd.line = k := h.lastEnd.resolve_left (by omega)
  rw [line_stop_between hp h.supplied.lastEnd]
  omega

theorem BehindLine.advance (h : BehindLine cs n c) (hkind : c.current.kind.isStructural) :
    BehindLine cs n c.advance where
  supplied := h.supplied.advance
  stacked := by
    rw [Cursor.rest_advance]
    have hstacked := h.stacked
    cases hrest : c.rest with
    | nil => exact .nil n
    | cons t ts =>
      rw [hrest] at hstacked
      rw [Cursor.current_of_rest hrest] at hkind
      exact hstacked.tail hkind
  lastEnd := by
    rw [Cursor.advance_of_structural hkind]
    exact h.lastEnd

end Lines

/-- The walk by the numbers of lines. -/
def lineWalk (cs : List Char) : Walk Nat where
  stands := BehindLine cs
  reads _ := Node.ReadUpTo
  mono _ h := h
  layout h hkind := h.advance (by rcases hkind with hkind | hkind | hkind <;> rw [hkind] <;> rfl)
  stray := by
    intro n c h hkind
    have hadvance := h.advance (by rw [hkind]; rfl)
    exact { hadvance with supplied := hadvance.supplied.report _ _ }
  header := by
    intro n c l h hkind
    obtain ⟨p, content, r, hr, hinline, hlater, hrest, hcurrent, hbehind⟩ :=
      h.exists_row (@takesLine_header c l hkind) (supplied_header h.supplied)
    have hline : c.current.span.start.line = p.line := by rw [hcurrent, hr.line_first]
    obtain ⟨-, -, hstart⟩ := hr.exists_keyword (by rwa [← hcurrent])
    refine ⟨p.line, hbehind (reached_header hr hinline hrest hstart).line_lastEnd, ?_⟩
    intro i k d xs _ hd hchain
    have hle := hchain.readUpTo_bounds.1
    have hstop := hd.line_stop ((placedSupply cs).start_token h.supplied.line.current)
        (by omega) (by omega)
    rw [← Span.start_between c.current.span.start d.lastEnd] at hline
    constructor
    · exact hchain.readUpTo hlater hline hstop (hchain.isOrdered_keyword _ _)
        (congrArg _ (append_assoc _ _ _)) (Header.isInner_nodes _)
        (forall_mem_append.2 ⟨Chain.exists_nested_subKeyword, Chain.exists_nested⟩)
    · exact fun _ => hchain.readUpTo hlater hline hstop trivial rfl
        (Header.isInner_nodes _) Chain.exists_nested
  content := by
    intro n c l h hkind
    obtain ⟨hcanonical, hsupplied⟩ := @supplied_textContent l c _ h.supplied
    obtain ⟨p, content, r, hr, hinline, hlater, hrest, -, hbehind⟩ :=
      h.exists_row (takesLine_textContent hkind) hsupplied
    have hread := @reached_textContent c r p content l hr hinline hrest
    have hline : (textContent (expression l) c).1.span.start.line = p.line :=
      hread.value.span.start.line
    refine ⟨p.line, hbehind hread.line_lastEnd, ?_, ?_⟩
    · exact (Chain.nil p.line).readUpTo hlater hline hread.value.span.stop trivial
        (congrArg _ (append_nil _).symm) (TextContent.isInner_parts _) nofun
    · intro i k d xs _ hd hchain _
      have hle := hchain.readUpTo_bounds.1
      have hstop := hd.line_stop hcanonical (by omega) (by omega)
      rw [← Span.start_between (textContent (expression l) c).1.span.start d.lastEnd] at hline
      exact hchain.readUpTo hlater hline hstop trivial rfl (TextContent.isInner_nodes _)
        Chain.exists_nested
  expressionLine := by
    intro n c l h hkind
    obtain ⟨p, content, r, hr, hinline, hlater, hrest, -, hbehind⟩ :=
      h.exists_row (takesLine_expressionLine hkind) (supplied_expressionLine h.supplied hkind)
    have hread := @reached_expressionLine c r p content l hr hinline hrest
    obtain ⟨hstart, hstop⟩ := hread.value.isBehind
    exact ⟨p.line, hbehind hread.line_lastEnd,
      (Chain.nil p.line).readUpTo hlater hstart.line hstop trivial
      (congrArg _ (append_nil _).symm) (Expression.isInner_nodes _) nofun⟩
  comment := by
    intro n c l h hkind
    obtain ⟨p, content, r, hr, hinline, hlater, hrest, hcurrent, hbehind⟩ :=
      h.exists_row (takesLine_comment hkind) (supplied_comment h.supplied)
    rw [hcurrent] at hkind
    have hread := reached_comment hr hinline hrest (hr.comment hkind).1
    obtain ⟨hstart, hstop⟩ := hread.value.isBehind
    exact ⟨p.line, hbehind hread.line_lastEnd, @Chain.readUpTo n p.line [] p.line
      (.statement (comment c).1) [] [] (.nil _) hlater hstart.line hstop trivial rfl rfl nofun⟩

theorem behindLine_ofSource (source : String) :
    BehindLine source.toList 0 (Cursor.ofSource source) where
  supplied := supplied_ofSource source
  stacked := by
    show Stacked 0 (tokenize source)
    rw [tokenize_eq_firstLine]
    refine .ofLines (pairwise_ending_lines _) (fun line hline => ?_) ?_
    · exact (isLineEnd_of_mem_lines hline).1
    · rw [line_firstLine]
      exact Nat.one_pos
  lastEnd := .inl rfl

end Parser

/-- **The blocks of keywords are in order**, in every program. -/
theorem isOrdered_of_mem_nodes (source : String) :
    ∀ x ∈ (parse source).program.nodes, x.IsOrdered := by
  obtain ⟨m, -, hchain⟩ :=
    (Parser.lineWalk source.toList).reaches_programBody (Parser.behindLine_ofSource source)
  intro x hx
  rcases mem_cons.1 hx with rfl | hx
  · trivial
  · have hbody := Parser.Walk.filterMap_statement? (parse source).program.body
    rw [← hbody] at hx
    obtain ⟨z, hz, hx⟩ := Chain.exists_nested x hx
    exact (hchain.readUpTo_bounds.2 z hz).2.2.2 x hx

namespace Markup

/-- A line is one of a range of lines. -/
def Covers (ranges : List (Nat × Nat)) (line : Nat) : Prop :=
  ∃ range ∈ ranges, range.1 ≤ line ∧ line ≤ range.2

/-- Among the statements, one begins before the sub-keyword and one behind it. -/
def IsAmid (s : SubKeyword) (body : List Statement) : Prop :=
  (∃ b ∈ body, b.span.start.line < s.span.start.line) ∧
    ∃ b ∈ body, s.span.start.line < b.span.start.line

instance (ranges : List (Nat × Nat)) (line : Nat) : Decidable (Covers ranges line) :=
  inferInstanceAs (Decidable (∃ range ∈ ranges, _))

instance (s : SubKeyword) (body : List Statement) : Decidable (IsAmid s body) :=
  inferInstanceAs (Decidable (_ ∧ _))

/-- The node is a markup keyword, and its sub-keywords and its body pass a test. -/
def isKeywordWith (test : List SubKeyword → List Statement → Bool) : Node → Bool
  | .statement (.keyword header subs body _) =>
    Vocabulary.isMarkup (lower header.name) && test subs body
  | _ => false

theorem exists_keyword_of_any {test : List SubKeyword → List Statement → Bool} {nodes : List Node}
    (h : nodes.any (isKeywordWith test)) :
    ∃ header subs body span, Node.statement (.keyword header subs body span) ∈ nodes ∧
      Vocabulary.isMarkup (lower header.name) ∧ test subs body := by
  obtain ⟨node, hnode, htest⟩ := any_eq_true.1 h
  unfold isKeywordWith at htest
  split at htest
  · exact ⟨_, _, _, _, hnode, Bool.and_eq_true_iff.1 htest⟩
  · cases htest

section Ordered

variable {header : Header} {subs : List SubKeyword} {body : List Statement} {span : Span}
  {s : SubKeyword} (hname : Vocabulary.isMarkup (lower header.name))
  (h : (Node.statement (.keyword header subs body span)).IsOrdered)

include hname h

/-- The lines of a body in order hold all of its statements. -/
theorem bodyLines?_bounds (hbody : body ≠ []) :
    ∃ first ∈ body, ∃ last ∈ body,
      bodyLines? (.statement (.keyword header subs body span)) =
        some (first.span.start.line, last.span.stop.line) ∧
        ∀ b ∈ body, first.span.start.line ≤ b.span.start.line ∧
        b.span.stop.line ≤ last.span.stop.line := by
  obtain ⟨hencloses, hpairwise, -⟩ := h
  have hline : ∀ b ∈ body, b.span.start.line ≤ b.span.stop.line := fun b hb =>
    (hencloses _ (mem_append_right _ (mem_map_of_mem hb))).1
  refine ⟨body.head hbody, head_mem hbody, body.getLast hbody, getLast_mem hbody, ?_, ?_⟩
  · rw [bodyLines?, if_pos hname, head?_eq_some_head hbody, getLast?_eq_some_getLast hbody]
  · intro b hb
    constructor
    · obtain ⟨first, rest, rfl⟩ := exists_cons_of_ne_nil hbody
      rcases mem_cons.1 hb with rfl | hrest
      · exact Nat.le_refl _
      · have hfirst := hline first mem_cons_self
        have hbefore := (pairwise_cons.1 hpairwise).1 b hrest
        exact Nat.le_of_lt (Nat.lt_of_le_of_lt hfirst hbefore)
    · obtain ⟨front, last, rfl⟩ := (eq_nil_or_concat' body).resolve_left hbody
      rw [getLast_append_singleton]
      rcases mem_append.1 hb with hfront | hlast
      · have hlast := hline last (mem_append_right _ mem_cons_self)
        have hbefore := (pairwise_append.1 hpairwise).2.2 b hfront last mem_cons_self
        exact Nat.le_of_lt (Nat.lt_of_lt_of_le hbefore hlast)
      · rw [mem_singleton.1 hlast]

/-- The lines of a body hold all that is nested in the body. -/
theorem covers_body :
    ∀ y ∈ Statement.nodesOfList body, ∀ k ∈ y.line?,
      Covers (bodyLines? (.statement (.keyword header subs body span))).toList k := by
  intro y hy k hk
  rw [Statement.nodesOfList_eq_flatMap] at hy
  obtain ⟨b, hb, hy⟩ := mem_flatMap.1 hy
  obtain ⟨first, -, last, -, hlines, hbounds⟩ := bodyLines?_bounds hname h (ne_nil_of_mem hb)
  have hk := (h.1 _ (mem_append_right _ (mem_map_of_mem hb))).2 y hy k hk
  have hb := hbounds b hb
  rw [hlines]
  exact ⟨_, mem_singleton_self _, Nat.le_trans hb.1 hk.1, Nat.le_trans hk.2 hb.2⟩

/-- The lines of a body hold a sub-keyword amid the body, with all that is nested in it. -/
theorem covers_subKeyword (hs : s ∈ subs) (hamid : IsAmid s body) :
    ∀ y ∈ s.nodes, ∀ k ∈ y.line?,
      Covers (bodyLines? (.statement (.keyword header subs body span))).toList k := by
  intro y hy k hk
  obtain ⟨⟨b, hb, hbefore⟩, b', hb', hbehind⟩ := hamid
  obtain ⟨first, -, last, -, hlines, hbounds⟩ := bodyLines?_bounds hname h (ne_nil_of_mem hb)
  have hk := (h.1 _ (mem_append_left _ (mem_map_of_mem hs))).2 y hy k hk
  have hline := (h.1 _ (mem_append_right _ (mem_map_of_mem hb'))).1
  have hapart := h.2.2 s hs b' hb'
  have hfirst := (hbounds b hb).1
  have hlast := (hbounds b' hb').2
  rw [hlines]
  refine ⟨_, mem_singleton_self _, ?_, ?_⟩ <;> simp only [Node.span] at * <;> omega

/-- A sub-keyword whose line is one of the lines of the body is amid the body. -/
theorem isAmid_of_covers (hs : s ∈ subs)
    (hcovers : Covers (bodyLines? (.statement (.keyword header subs body span))).toList
      s.span.start.line) : IsAmid s body := by
  obtain ⟨range, hrange, hle⟩ := hcovers
  have hbody : body ≠ [] := by
    rintro rfl
    rw [bodyLines?, if_pos hname] at hrange
    cases hrange
  obtain ⟨first, hfirst, last, hlast, hlines, -⟩ := bodyLines?_bounds hname h hbody
  rw [hlines] at hrange
  cases mem_singleton.1 hrange
  have hline := (h.1 _ (mem_append_left _ (mem_map_of_mem hs))).1
  have hfirstLine := (h.1 _ (mem_append_right _ (mem_map_of_mem hfirst))).1
  have hafter := h.2.2 s hs first hfirst
  have hbefore := h.2.2 s hs last hlast
  simp only [Node.span] at *
  exact ⟨⟨first, hfirst, by omega⟩, last, hlast, by omega⟩

end Ordered

end Markup

open Markup in
/-- **The lines of markup.**  All that is nested in the body of a markup keyword begins on a line of
markup, and so does a sub-keyword amid the statements of the body.  Before the first statement and
behind the last one, the lines of the body do not reach a sub-keyword. -/
theorem markup_covers_body_and_subKeywords_amid (source : String) {header : Header}
    {subs : List SubKeyword} {body : List Statement} {span : Span}
    (hmem : Node.statement (.keyword header subs body span) ∈ (parse source).program.nodes)
    (hname : Vocabulary.isMarkup (Text.lower header.name)) :
    (∀ y ∈ Statement.nodesOfList body, ∀ k ∈ y.line?,
      Covers (lineRanges (parse source).program.nodes) k) ∧
    (∀ s ∈ subs, IsAmid s body → ∀ y ∈ s.nodes, ∀ k ∈ y.line?,
      Covers (lineRanges (parse source).program.nodes) k) ∧
    ∀ s ∈ subs, ¬IsAmid s body →
      ¬Covers (bodyLines? (.statement (.keyword header subs body span))).toList
        s.span.start.line := by
  have hordered := isOrdered_of_mem_nodes source _ hmem
  have hown : ∀ k, Covers (bodyLines? (.statement (.keyword header subs body span))).toList k →
      Covers (lineRanges (parse source).program.nodes) k := by
    rintro k ⟨range, hrange, hk⟩
    exact ⟨range, mem_filterMap.2 ⟨_, hmem, Option.mem_toList.1 hrange⟩, hk⟩
  refine ⟨fun y hy k hk => hown k (covers_body hname hordered y hy k hk), ?_, ?_⟩
  · intro s hs hamid y hy k hk
    exact hown k (covers_subKeyword hname hordered hs hamid y hy k hk)
  · intro s hs hamid hcovers
    exact hamid (isAmid_of_covers hname hordered hs hcovers)

open Markup in
theorem markup_covers_subKeyword_between :
    ∃ header subs body span,
      Node.statement (.keyword header subs body span) ∈
          (parse "*html\n\t<b>\n\t*body\n\t</b>\n").program.nodes ∧
        subs ≠ [] ∧ ∀ s ∈ subs, ∀ y ∈ s.nodes, ∀ k ∈ y.line?,
          Covers (lineRanges (parse "*html\n\t<b>\n\t*body\n\t</b>\n").program.nodes) k := by
  have htest : (parse "*html\n\t<b>\n\t*body\n\t</b>\n").program.nodes.any
      (isKeywordWith fun subs body => !subs.isEmpty && subs.all
        (IsAmid · body)) := by decide +kernel
  obtain ⟨header, subs, body, span, hmem, hname, htest⟩ := exists_keyword_of_any htest
  obtain ⟨hne, hamid⟩ := Bool.and_eq_true_iff.1 htest
  refine ⟨header, subs, body, span, hmem, by simpa using hne, fun s hs => ?_⟩
  have hs' : IsAmid s body := of_decide_eq_true (all_eq_true.1 hamid s hs)
  exact (markup_covers_body_and_subKeywords_amid _ hmem hname).2.1 s hs hs'

open Markup in
/-- A sub-keyword that ends the block of a markup keyword is on no line of markup. -/
theorem markup_misses_last_subKeyword :
    ∃ header subs body span,
      Node.statement (.keyword header subs body span) ∈
          (parse "*html\n\t<b> \n\t*body \n").program.nodes ∧
        Vocabulary.isMarkup (Text.lower header.name) ∧
        ∃ s ∈ subs, ¬Covers (lineRanges (parse "*html\n\t<b> \n\t*body \n").program.nodes)
          s.span.start.line := by
  have htest : (parse "*html\n\t<b> \n\t*body \n").program.nodes.any (isKeywordWith fun subs _ =>
      subs.any fun s =>
        !decide (Covers (lineRanges (parse "*html\n\t<b> \n\t*body \n").program.nodes)
        s.span.start.line)) := by decide +kernel
  obtain ⟨header, subs, body, span, hmem, hname, htest⟩ := exists_keyword_of_any htest
  obtain ⟨s, hs, hmissed⟩ := any_eq_true.1 htest
  exact ⟨header, subs, body, span, hmem, hname, s, hs, by simpa using hmissed⟩

end ScriptLint

import ScriptLint.Proofs.LinePairing
import ScriptLint.Proofs.ProgramPlaces
import ScriptLint.Proofs.ProgramWalk
import ScriptLint.Proofs.TokenCover
import Mathlib.Data.List.Flatten

/-!
# Nodes nest, and follow each other in the source

What is read later stands further on in the source.  A node is put together from nodes that are read
one after another between two cursors, and it takes its span from what is read there: so it encloses
them, and they do not overlap.

**Reports.**  A fault may put a node anywhere: the span of an expression that is missing is a point
of some token that is read later on, or not at all.  So the order is that of runs without a report.

**Reading again.**  What is read again from the text of an argument or of a string stands inside the
tokens that it was taken from.

**Results.**
* `Kept.spreads`, `LineReading.spreads`, `nestWalk`: what is read between two cursors, from
  expressions to blocks.
* `spans_nested`: the nodes of a program.
-/

namespace ScriptLint

open List Text

variable {S : Supply} {x : Node}

theorem Span.between_eq {p q : Position} (h : p.offset ≤ q.offset) : Span.between p q = ⟨p, q⟩ :=
  if_neg (Nat.not_lt.2 h)

namespace Node

/-- The lists in which the nodes right under a node follow each other.  The sub-keywords of a
keyword and its statements are two lists, as each may stand between the others. -/
def rows : Node → List (List Node)
  | statement (.keyword header subs body _) =>
    [header.argument.toList.map argument ++ subs.map subKeyword,
      header.argument.toList.map argument ++ body.map statement]
  | x => [x.beside ++ x.within]

/-- The node stands between two offsets. -/
structure Between (n m : Nat) (x : Node) : Prop where
  start : n ≤ x.span.start.offset
  order : x.span.start.offset ≤ x.span.stop.offset
  stop : x.span.stop.offset ≤ m

/-- The first node stops before the second one starts. -/
def Before (x y : Node) : Prop :=
  x.span.stop.offset ≤ y.span.start.offset

/-- The node encloses the nodes right under it, and those in one list follow each other. -/
structure IsNested (x : Node) : Prop where
  inside : ∀ y ∈ x.beside ++ x.within, y.Between x.span.start.offset x.span.stop.offset
  order : ∀ row ∈ x.rows, row.Pairwise Before

variable {n n' m m' : Nat} {y : Node}

theorem exists_row (h : y ∈ x.beside ++ x.within) : ∃ row ∈ x.rows, y ∈ row := by
  unfold rows
  split
  · next header subs body span =>
    rcases mem_append.1 h with h | h
    · exact ⟨_, mem_cons_self, mem_append_left _ h⟩
    rcases mem_append.1 h with h | h
    · exact ⟨_, mem_cons_self, mem_append_right _ h⟩
    · exact ⟨_, mem_cons_of_mem _ mem_cons_self, mem_append_right _ h⟩
  · exact ⟨_, mem_cons_self, h⟩

theorem Between.mono (h : x.Between n m) (hn : n' ≤ n) (hm : m ≤ m') : x.Between n' m' :=
  ⟨hn.trans h.start, h.order, h.stop.trans hm⟩

end Node

/-- Nodes stand one after another between two offsets, with all that is under them nested. -/
structure Spread (n m : Nat) (xs : List Node) : Prop where
  places : ∀ x ∈ xs, x.Between n m
  order : xs.Pairwise Node.Before
  nested : ∀ x ∈ xs, ∀ y ∈ x.nodes, y.IsNested

namespace Spread

variable {n n' m m' : Nat} {xs ys : List Node}

theorem nil : Spread n m [] :=
  ⟨nofun, .nil, nofun⟩

theorem mono (h : Spread n m xs) (hn : n' ≤ n) (hm : m ≤ m') : Spread n' m' xs :=
  ⟨fun x hx => (h.places x hx).mono hn hm, h.order, h.nested⟩

theorem append (h : Spread n m xs) (h' : Spread n' m' ys) (hn : n ≤ n')
    (hle : m ≤ n') (hm : m ≤ m') :
    Spread n m' (xs ++ ys) := by
  refine ⟨forall_mem_append.2 ⟨(h.mono (Nat.le_refl n) hm).places,
    (h'.mono hn (Nat.le_refl m')).places⟩,
    pairwise_append.2 ⟨h.order, h'.order, fun x hx y hy => ?_⟩,
      forall_mem_append.2 ⟨h.nested, h'.nested⟩⟩
  exact (h.places x hx).stop.trans (hle.trans (h'.places y hy).start)

/-- A node that is put together from nodes which stand in order. -/
theorem node (h : Spread n m xs) (hrows : ∀ row ∈ x.rows, row.Sublist xs) (hplace : x.Between n m)
    (hinside : ∀ y ∈ xs, y.Between x.span.start.offset x.span.stop.offset) : Spread n m [x] := by
  have hunder : ∀ y ∈ x.beside ++ x.within, y ∈ xs := by
    intro y hy
    obtain ⟨row, hrow, hy⟩ := Node.exists_row hy
    exact (hrows row hrow).subset hy
  refine ⟨forall_mem_singleton.2 hplace, pairwise_singleton _ _, forall_mem_singleton.2 ?_⟩
  rw [x.nodes_eq]
  refine forall_mem_cons.2
    ⟨⟨fun y hy => hinside y (hunder y hy), fun row hrow => h.order.sublist (hrows row hrow)⟩, ?_⟩
  exact forall_mem_flatMap.2 fun y hy => h.nested y (hunder y hy)

/-- A node that takes its span from two places around the nodes it is put together from. -/
theorem around {p q : Position} (h : Spread n m xs) (hrows : ∀ row ∈ x.rows, row.Sublist xs)
    (hspan : x.span = Span.between p q) (hp : n ≤ p.offset) (hle : p.offset ≤ q.offset)
    (hq : q.offset ≤ m)
    (hstart : ∀ y ∈ xs, p.offset ≤ y.span.start.offset)
    (hstop : ∀ y ∈ xs, y.span.stop.offset ≤ q.offset) :
    Spread n m [x] := by
  rw [Span.between_eq hle] at hspan
  refine h.node hrows ⟨by rwa [hspan], by rwa [hspan], by rwa [hspan]⟩ fun y hy => ?_
  rw [hspan]
  exact ⟨hstart y hy, (h.places y hy).order, hstop y hy⟩

/-- The first of the nodes starts first. -/
theorem start_le (h : Spread n m (x :: xs)) :
    ∀ y ∈ x :: xs, x.span.start.offset ≤ y.span.start.offset :=
  forall_mem_cons.2
    ⟨Nat.le_refl _, fun y hy => (h.places x mem_cons_self).order.trans
      ((pairwise_cons.1 h.order).1 y hy)⟩

/-- A program of statements that stand in order. -/
theorem program {body : List Statement} {q : Position}
    (h : Spread 0 q.offset (body.map .statement)) :
    Spread 0 q.offset [.program ⟨body, ⟨.origin, q⟩⟩] :=
  h.node (by simp [Node.rows, Node.beside, Node.within])
    ⟨Nat.le_refl _, Nat.zero_le _, Nat.le_refl _⟩ h.places

end Spread

namespace Cursor

/-- Where the next token starts. -/
def here (c : Cursor) : Nat :=
  c.current.span.start.offset

/-- What the cursor knows lies in order. -/
def IsOrdered (c : Cursor) : Prop :=
  c.marks.Pairwise (· ≤ ·)

/-- The second cursor is further on in the program. -/
structure Ahead (c d : Cursor) : Prop where
  marks : d.marks.Sublist c.marks
  diagnostics : c.diagnostics.length ≤ d.diagnostics.length

/-- From a cursor in order to another one nothing is reported. -/
structure Clean (c d : Cursor) : Prop where
  ordered : c.IsOrdered
  silent : d.diagnostics.length ≤ c.diagnostics.length

variable {c d e : Cursor}

theorem marks_eq (c : Cursor) : ∃ more, c.marks = c.lastEnd.offset :: c.here :: more := by
  unfold marks here current
  cases c.rest with
  | nil => exact ⟨[], rfl⟩
  | cons t ts => exact ⟨_, rfl⟩

theorem length_marks (c : Cursor) : c.marks.length = 2 * c.left + 2 := by
  rw [marks, length_cons, length_append, length_flatMap, c.left_eq]
  simp [Nat.mul_comm]

namespace IsOrdered

theorem lastEnd_le (hc : c.IsOrdered) : ∀ k ∈ c.marks, c.lastEnd.offset ≤ k :=
  forall_mem_cons.2 ⟨Nat.le_refl _, (pairwise_cons.1 hc).1⟩

theorem here_le (hc : c.IsOrdered) : ∀ k ∈ c.marks.tail, c.here ≤ k := by
  obtain ⟨more, hmore⟩ := c.marks_eq
  rw [IsOrdered, hmore] at hc
  rw [hmore]
  exact forall_mem_cons.2 ⟨Nat.le_refl _, (pairwise_cons.1 hc.of_cons).1⟩

theorem le_stop (hc : c.IsOrdered) : ∀ k ∈ c.marks, k ≤ c.stop.offset := by
  rw [IsOrdered, marks, ← cons_append, pairwise_append] at hc
  rw [marks, ← cons_append]
  exact forall_mem_append.2
    ⟨fun k hk => hc.2.2 k hk _ mem_cons_self, forall_mem_singleton.2 (Nat.le_refl _)⟩

theorem lastEnd_le_here (hc : c.IsOrdered) : c.lastEnd.offset ≤ c.here := by
  obtain ⟨more, hmore⟩ := c.marks_eq
  exact hc.lastEnd_le _ (by simp [hmore])

end IsOrdered

theorem isOrdered_start {ts : List Token} {stop : Position}
    (hts : ts.Pairwise fun a b => a.span.stop.offset ≤ b.span.start.offset)
    (hplaces : ∀ t ∈ ts, t.span.start.offset ≤ t.span.stop.offset ∧
      t.span.stop.offset ≤ stop.offset) :
    (start ts stop).IsOrdered := by
  induction ts with
  | nil => exact .cons (by simp [start]) (pairwise_singleton _ _)
  | cons t ts ih =>
    obtain ⟨hfirst, hrest⟩ := pairwise_cons.1 hts
    obtain ⟨⟨horder, hstop⟩, hplaces⟩ := forall_mem_cons.1 hplaces
    have htail :
        ∀ k ∈ ts.flatMap (fun t => [t.span.start.offset, t.span.stop.offset]) ++ [stop.offset],
        t.span.stop.offset ≤ k := by
      refine forall_mem_append.2 ⟨forall_mem_flatMap.2 fun u hu => ?_, by simpa using hstop⟩
      have hle := hfirst u hu
      have hle' := (hplaces u hu).1
      simp
      omega
    have hpairs := (pairwise_cons.1 (ih hrest hplaces)).2
    have hstart := forall_mem_cons.2 ⟨horder, fun k hk => horder.trans (htail k hk)⟩
    exact .cons (forall_mem_cons.2 ⟨Nat.le_refl _, hstart⟩) (.cons hstart (.cons htail hpairs))

namespace Ahead

theorem refl (c : Cursor) : Ahead c c :=
  ⟨.refl _, Nat.le_refl _⟩

theorem trans (h : Ahead c d) (h' : Ahead d e) : Ahead c e :=
  ⟨h'.marks.trans h.marks, h.diagnostics.trans h'.diagnostics⟩

theorem report (c : Cursor) (fault : Fault) (span : Span) : Ahead c (c.report fault span) :=
  ⟨.refl _, Nat.le_succ _⟩

theorem layout (h : c.current.kind.isStructural) : Ahead c c.advance := by
  rw [advance_of_structural h]
  exact ⟨(((drop_sublist 1 c.rest).flatMap _).append (.refl _)).cons_cons _, Nat.le_refl _⟩

theorem lastEnd_le (h : Ahead c d) (hc : c.IsOrdered) : c.lastEnd.offset ≤ d.lastEnd.offset :=
  hc.lastEnd_le _ (h.marks.subset mem_cons_self)

theorem here_le (h : Ahead c d) (hc : c.IsOrdered) : c.here ≤ d.here := by
  obtain ⟨more, hmore⟩ := d.marks_eq
  exact hc.here_le _ (h.marks.tail.subset (by simp [hmore]))

theorem lastEnd_le_stop (h : Ahead c d) (hc : c.IsOrdered) : d.lastEnd.offset ≤ c.stop.offset :=
  hc.le_stop _ (h.marks.subset mem_cons_self)

/-- A run is clean if it is so in both its parts. -/
theorem clean (h : Ahead c d) (h' : Ahead d e) (hclean : Clean c e) : Clean c d ∧ Clean d e :=
  ⟨⟨hclean.ordered, h'.diagnostics.trans hclean.silent⟩, hclean.ordered.sublist h.marks,
    hclean.silent.trans h.diagnostics⟩

end Ahead

theorem WithinLine.ahead (h : c.WithinLine S d) : Ahead c d :=
  ⟨h.marks.sublist, h.diagnostics⟩

/-- If a token was read, the end of what was read is behind the start of the token. -/
theorem WithinLine.here_le_lastEnd (h : c.WithinLine S d) (hleft : d.left < c.left)
    (hc : c.IsOrdered) :
    c.here ≤ d.lastEnd.offset := by
  rcases suffix_cons_iff.1 h.marks with heq | hmarks
  · have hlength : d.marks.length = c.marks.length := congrArg length heq
    rw [length_marks, length_marks] at hlength
    omega
  · exact hc.here_le _ (hmarks.subset mem_cons_self)

/-- A line that ends takes a token. -/
theorem WithinLine.left_lt (h : c.WithinLine S d) (hcontent : c.AtContent)
    (hend : d.current.kind.isStructural) : d.left < c.left := by
  rw [d.left_eq, c.left_eq, h.rest_eq_dropWhile hend, rest_eq_cons hcontent,
    dropWhile_cons_of_pos (by simp [hcontent])]
  exact Nat.lt_succ_of_le (dropWhile_sublist _).length_le

end Cursor

namespace Parser

open Cursor

/-- Nodes are read one after another between the cursors. -/
structure Spreads (c d : Cursor) (xs : List Node) : Prop where
  ahead : Ahead c d
  spread : Clean c d → Spread c.here d.lastEnd.offset xs

namespace Spreads

variable {c d e : Cursor} {xs ys : List Node}

theorem nil (h : Ahead c d) : Spreads c d [] :=
  ⟨h, fun _ => .nil⟩

theorem append (h : Spreads c d xs) (h' : Spreads d e ys) : Spreads c e (xs ++ ys) := by
  refine ⟨h.ahead.trans h'.ahead, fun hclean => ?_⟩
  obtain ⟨hfirst, hsecond⟩ := h.ahead.clean h'.ahead hclean
  exact (h.spread hfirst).append (h'.spread hsecond) (h.ahead.here_le hclean.ordered)
    hsecond.ordered.lastEnd_le_here (h'.ahead.lastEnd_le hsecond.ordered)

theorem earlier (h : Spreads d e xs) (h' : Ahead c d) : Spreads c e xs :=
  (nil h').append h

theorem later (h : Spreads c d xs) (h' : Ahead d e) : Spreads c e xs := by
  rw [← append_nil xs]
  exact h.append (nil h')

theorem series {α : Type} {gap : Cursor → Cursor → Prop} {P : Cursor → Cursor → α → Prop}
    {f : α → List Node}
    {as : List α} (h : Series gap P c d as) (hgap : ∀ {c d}, gap c d → Ahead c d)
    (hP : ∀ {c d a}, P c d a → Spreads c d (f a)) : Spreads c d (as.flatMap f) := by
  induction h with
  | nil h => exact nil (hgap h)
  | snoc _ ha h ih =>
    rw [flatMap_append, flatMap_singleton]
    exact ih.append ((hP ha).later (hgap h))

theorem series_map {α : Type} {gap : Cursor → Cursor → Prop} {P : Cursor → Cursor → α → Prop}
    {f : α → Node} {as : List α} (h : Series gap P c d as) (hgap : ∀ {c d}, gap c d → Ahead c d)
    (hP : ∀ {c d a}, P c d a → Spreads c d [f a]) : Spreads c d (as.map f) := by
  rw [map_eq_flatMap]
  exact series h hgap hP

/-- A node that takes all that is read. -/
theorem whole (h : Spreads c d xs) (hrows : ∀ row ∈ x.rows, row.Sublist xs)
    (hspan : x.span = Span.between c.current.span.start d.lastEnd)
    (hread : Clean c d → c.here ≤ d.lastEnd.offset) : Spreads c d [x] :=
  ⟨h.ahead, fun hclean =>
    have hxs := h.spread hclean
    hxs.around hrows hspan (Nat.le_refl _) (hread hclean) (Nat.le_refl _)
      (fun y hy => (hxs.places y hy).start) fun y hy => (hxs.places y hy).stop⟩

/-- If something is read without a report, the end of it is behind its start. -/
theorem here_le_lastEnd {y : Node} (h : Spreads c d xs) (hy : y ∈ xs) (hclean : Clean c d) :
    c.here ≤ d.lastEnd.offset := by
  have hplace := (h.spread hclean).places y hy
  exact hplace.start.trans (hplace.order.trans hplace.stop)

/-- A node that begins with an expression and takes all that is read after it. -/
theorem operation {e : Expression} (h : Spreads c d (.expression e :: xs))
    (hrows : x.rows = [.expression e :: xs])
    (hspan : x.span = Span.between e.span.start d.lastEnd) : Spreads c d [x] := by
  refine ⟨h.ahead, fun hclean => ?_⟩
  have hxs := h.spread hclean
  obtain ⟨hstart, horder, hstop⟩ := hxs.places _ mem_cons_self
  exact hxs.around (by simp [hrows]) hspan hstart (horder.trans hstop) (Nat.le_refl _) hxs.start_le
    fun y hy => (hxs.places y hy).stop

/-- A node that takes all that is read up to the end of an expression. -/
theorem upTo {e : Expression} (h : Spreads c d [.expression e]) (hrows : x.rows = [[.expression e]])
    (hspan : x.span = Span.between c.current.span.start e.span.stop) : Spreads c d [x] := by
  refine ⟨h.ahead, fun hclean => ?_⟩
  have hxs := h.spread hclean
  obtain ⟨hstart, horder, hstop⟩ := hxs.places _ mem_cons_self
  exact hxs.around (by simp [hrows]) hspan (Nat.le_refl _) (hstart.trans horder) hstop
    (forall_mem_singleton.2 hstart) (forall_mem_singleton.2 (Nat.le_refl _))

theorem join {op : BinaryOp} {f g : Expression} (hf : Spreads c d [.expression f])
    (hg : Spreads d e [.expression g]) :
    Spreads c e [.expression (.join op f g)] := by
  refine ⟨hf.ahead.trans hg.ahead, fun hclean => ?_⟩
  have hxs := (hf.append hg).spread hclean
  obtain ⟨hstart, horder, -⟩ := hxs.places _ mem_cons_self
  obtain ⟨-, horder', hstop⟩ := hxs.places (.expression g) (by simp)
  have hbefore : f.span.stop.offset ≤ g.span.start.offset :=
    (pairwise_cons.1 hxs.order).1 _ mem_cons_self
  exact hxs.around (forall_mem_singleton.2 (.refl _)) rfl hstart
    ((horder.trans hbefore).trans horder') hstop hxs.start_le
    (forall_mem_cons.2 ⟨hbefore.trans horder', forall_mem_singleton.2 (Nat.le_refl _)⟩)

/-- A node that stands where the only node right under it stands. -/
theorem cover {y : Node} (h : Spreads c d [y]) (hrows : x.rows = [[y]]) (hspan : x.span = y.span) :
    Spreads c d [x] := by
  refine ⟨h.ahead, fun hclean => ?_⟩
  obtain ⟨hstart, horder, hstop⟩ := (h.spread hclean).places y mem_cons_self
  refine (h.spread hclean).node (by simp [hrows]) ⟨?_, ?_, ?_⟩ (forall_mem_singleton.2 ?_) <;>
    rw [hspan]
  · exact hstart
  · exact horder
  · exact hstop
  · exact ⟨Nat.le_refl _, horder, Nat.le_refl _⟩

/-- A node whose span is that of a token which is read, around nodes that stand inside the token. -/
theorem token (hcontent : c.AtContent) (hspan : x.span = c.current.span)
    (hrows : x.rows = [xs]) (h : Spread c.current.span.start.offset c.current.span.stop.offset xs) :
    Spreads c c.advance [x] := by
  have hline := withinLine_advance (S := .anything) hcontent
  refine ⟨hline.ahead, fun hclean => ?_⟩
  have hread := hline.here_le_lastEnd (left_advance_lt hcontent) hclean.ordered
  rw [lastEnd_advance hcontent] at hread ⊢
  refine h.node (by simp [hrows]) ⟨?_, ?_, ?_⟩ ?_ <;> rw [hspan]
  · exact hread
  · exact h.places

/-- What stands for a missing expression is reported. -/
theorem reported {fault : Fault} {span : Span} (h : Ahead c d) (h' : Ahead (d.report fault span) e)
    (s : Span) :
    Spreads c e [.expression (.null s)] := by
  refine ⟨(h.trans (.report d fault span)).trans h', fun hclean => ?_⟩
  have hreported : d.diagnostics.length < e.diagnostics.length := h'.diagnostics
  exact absurd hclean.silent (h.diagnostics.trans_lt hreported).not_ge

/-- What is read again from a run of text stands in the place of the run. -/
theorem region {region : Position × List Char} (hline : OneLine region.2)
    (h : Spreads (regionStart region) d xs) (hclean : d.diagnostics = []) :
    Spread region.1.offset (region.1.offset + byteLength region.2) xs := by
  have htokens := @Piece.tokenizeExpression_of_inline region.2 region.1 hline
  have hbounds : ∀ t ∈ tokenizeExpression (String.ofList region.2) region.1,
      region.1.offset ≤ t.span.start.offset ∧
      t.span.start.offset ≤ t.span.stop.offset ∧
        t.span.stop.offset ≤ region.1.offset + byteLength region.2 := by
    intro t ht
    rw [htokens] at ht
    rw [← Piece.join_ofExpression true region.2]
    exact Piece.offset_bounds_of_mem_place ht
  have hstart : (regionStart region).IsOrdered := by
    refine isOrdered_start ?_ fun t ht => (hbounds t ht).2
    rw [htokens]
    exact Piece.pairwise_place _ _
  have hhere : region.1.offset ≤ (regionStart region).here := by
    unfold here Cursor.current regionStart start
    cases hcut : tokenizeExpression (String.ofList region.2) region.1 with
    | nil => exact Nat.le_add_right _ _
    | cons t ts => exact (hbounds t (hcut ▸ mem_cons_self)).1
  exact (h.spread ⟨hstart, by simp [hclean]⟩).mono hhere (h.ahead.lastEnd_le_stop hstart)

/-- What is read from the regions of a string stands in the string. -/
theorem regions {P : Cursor → Cursor → Expression → Prop}
    (hP : ∀ {c d e}, P c d e → Spreads c d [.expression e]) {p : Position} {text : List Char}
    (hline : OneLine text) : ∀ {es}, Regions P (braceRegions p text) es →
    Spread p.offset (p.offset + byteLength text) (es.map .expression) := by
  fun_induction braceRegions p text with
  | case1 | case2 =>
    rintro _ ⟨⟩
    exact .nil
  | case3 p text brace rest hdrop region after hsplit anchor ih =>
    intro es h
    have htext := (Piece.eq_of_splitBraces hdrop hsplit).2
    rw [htext] at hline
    simp only [oneLine_append] at hline
    obtain ⟨⟨⟨-, hregion⟩, -⟩, hafter⟩ := hline
    have hbytes := congrArg byteLength htext
    simp only [byteLength_append] at hbytes
    have hanchor : anchor.offset = p.offset + byteLength (text.takeWhile (· ≠ '{')) +
        byteLength [brace] := rfl
    have hnext : ((anchor.advance region).advance ['}']).offset =
        anchor.offset + byteLength region + byteLength ['}'] := rfl
    cases h with
    | skip h => exact (ih hafter h).mono (by omega) (by omega)
    | take hclean he h =>
      have hfirst : Spread anchor.offset (anchor.offset + byteLength region) _ :=
        (hP he).region hregion hclean
      exact (hfirst.append (ih hafter h) (by omega) (by omega) (by omega)).mono
        (by omega) (by omega)

end Spreads

theorem Stretch.ahead {c d : Cursor} (h : Stretch S c d) : Ahead c d :=
  h.line.ahead

/-- Brackets around what is read after the first of them. -/
theorem Spreads.enclosed {c d : Cursor} {x : Node} {xs : List Node} {text : String}
    (hlexeme : c.current.lexeme = Lexeme.mark text) (hlead : Stretch S c c.advance)
    (hlead' : Stretch S c.advance d)
    (h : Spreads c.advance d xs) (hrows : x.rows = [xs])
    (hspan : x.span = Span.between c.current.span.start d.lastEnd) : Spreads c d [x] := by
  have hcontent := Token.isStructural_of_not_isBoundary
      (Bool.eq_false_iff.1 (isBoundary_of_mark hlexeme))
  refine (h.earlier hlead.ahead).whole (by simp [hrows]) hspan fun hclean => ?_
  exact (hlead.line.here_le_lastEnd (left_advance_lt hcontent) hclean.ordered).trans
    (hlead'.ahead.lastEnd_le (hlead.ahead.clean hlead'.ahead hclean).2.ordered)

/-- The parsers of expressions read in order. -/
def Kept.spreads (cs : List Char) : Kept (placedSupply cs) where
  expression _ _ c d e := Spreads c d [.expression e]
  property _ c d p := Spreads c d [.property p]
  earlier hrests h := h.earlier hrests.ahead
  later h hrests := h.later hrests.ahead
  null hgoes hgoes' _ := .reported hgoes.ahead hgoes'.ahead _
  identifier _ hkind := .token (.of_kind hkind rfl) rfl rfl .nil
  number _ hkind := .token (.of_kind hkind rfl) rfl rfl .nil
  string {b c} hgoes hkind hes := by
    have hcontent : c.AtContent := .of_kind hkind rfl
    have hplaced : c.current.IsPlaced cs := hgoes.source.current
    refine .token hcontent rfl rfl ?_
    rw [hplaced.stop_eq hcontent]
    exact Spreads.regions id (hplaced.inline hcontent).1 hes
  group _ hgoes h hmarks := (h.later hmarks.ahead).earlier hgoes.ahead
  array hlexeme hgoes hgoes' hes :=
    .enclosed hlexeme hgoes.toStretch hgoes'.toStretch (.series_map hes.series (·.ahead) id) rfl rfl
  object hlexeme hgoes hgoes' hps :=
    .enclosed hlexeme hgoes.toStretch hgoes'.toStretch (.series_map hps.series (·.ahead) id) rfl rfl
  pair _ he hgoes _ hf :=
    have hparts := (he.later hgoes.ahead).append hf
    hparts.whole (forall_mem_singleton.2 (.refl _)) rfl (hparts.here_le_lastEnd mem_cons_self)
  member {b c d d' e namespaced} he hpays hgoes hkind := by
    refine (he.later (hpays.ahead.trans hgoes.ahead)).operation rfl ?_
    rw [lastEnd_advance (.of_kind hkind rfl)]
    rfl
  call he hpays _ hes :=
    ((he.later hpays.ahead).append (.series_map hes.series (·.ahead) id)).operation rfl rfl
  index he hpays hi hmarks :=
    ((he.later hpays.ahead).append (hi.later hmarks.ahead)).operation rfl rfl
  bare h := h
  unary hpays he := (he.earlier hpays.ahead).upTo rfl rfl
  tighter h := h
  binary he _ hpays hf := .join (he.later hpays.ahead) hf
  unassigned h := h
  assign he hpays hf := .join (he.later hpays.ahead) hf
  condition h := h
  inside h := h

/-- The parsers of lines read in order. -/
def LineReading.spreads (cs : List Char) (l : Nat) : LineReading (placedSupply cs) l where
  read c d e := Spreads c d [.expression e]
  earlier hlead h := h.earlier hlead.ahead
  later h hlead := h.later hlead.ahead
  null hlead hlead' _ := .reported hlead.ahead hlead'.ahead _
  identifier hc hkind := (Kept.spreads cs).identifier (b := 0)
    (counted_advance hc (by rw [hkind]; rfl)) hkind
  runs mode _ := ((Kept.spreads cs).cost_expression (k := 0) l mode).runs

section Lines

variable {cs : List Char} {l : Nat} {c d : Cursor}

/-- A text, as a node of its own or as a line. -/
theorem LineReading.Content.spreads {text : TextContent} {x : Node}
    (h : (LineReading.spreads cs l).Content c d text)
    (hlead : Stretch (placedSupply cs) c d) (hleft : d.left < c.left)
    (hrows : x.rows = [(text.parts.filterMap TextPart.expression?).map .expression ++ []])
    (hspan : x.span = text.span) :
    Spreads c d [x] := by
  have hparts : Spreads c d
      (text.parts.flatMap fun part => part.expression?.toList.map .expression) := by
    refine .series h.parts (·.ahead) fun {c d part} hpart => ?_
    cases part with
    | run text place => exact .nil hpart.1.ahead
    | interpolation e => exact hpart
  rw [← map_flatMap, ← filterMap_eq_flatMap_toList] at hparts
  exact hparts.whole (by simp [hrows]) (hspan.trans h.span) fun hclean =>
    hlead.line.here_le_lastEnd hleft hclean.ordered

theorem LineReading.Given.spreads {given : Argument}
    (h : (LineReading.spreads cs l).Given c d given) :
    Spreads c d [.argument given] := by
  cases given with
  | text content => exact h.elim
  | expression e => exact Spreads.cover h rfl rfl
  | loop names collection place =>
    obtain ⟨c', d', hnames, hcollection, -, hend, hspan⟩ := h
    have hparts := (Spreads.series_map hnames (·.ahead) id).append hcollection
    have hloop : Spreads c d' [.argument (.loop names collection place)] :=
      hparts.whole (by simp [Node.rows, Node.beside, Node.within, Node.units, Node.children]) hspan
        (hparts.here_le_lastEnd (mem_append_right _ mem_cons_self))
    exact hloop.later hend.ahead

/-- The rest of a line that is read again is a run of the text. -/
theorem exists_argument_eq (hc : c.SuppliedLine (placedSupply cs)) (hcontent : c.AtContent) :
    ∃ raw, c.argument = regionStart (c.current.span.start, raw) ∧ OneLine raw ∧
      (c.skipTo Token.Kind.isStructural).lastEnd = c.current.span.start.advance raw := by
  obtain ⟨htokens, hchain⟩ := takeLine_supplied hc
  rw [c.before_isStructural hcontent] at htokens hchain
  have hstart := (htokens _ mem_cons_self).1.start
  obtain ⟨hinline, hlast⟩ := inline_sourceOf htokens hchain
    ⟨[], by simp, Position.inline_nil_iff.2 hstart, rfl⟩
  refine ⟨_, ?_, hinline.1, ?_⟩
  · rw [Cursor.argument, c.before_isStructural hcontent, getLastD_cons, regionStart, hlast]
  · show ((c.before Token.Kind.isStructural).getLast?.map (·.span.stop)).getD c.lastEnd = _
    rw [hlast, c.before_isStructural hcontent, getLast?_cons, getLastD_eq_getLast?]
    rfl

theorem LineReading.Takes.spreads {given : Argument} (hc : c.SuppliedLine (placedSupply cs))
    (h : (LineReading.spreads cs l).Takes c d given) : Spreads c d [.argument given] := by
  cases h with
  | text hcontent hend hlead h =>
    have hleft := hlead.line.left_lt hcontent (hend ▸ endsLine_textContent l c)
    exact (h.spreads (x := .content _) hlead hleft rfl rfl).cover rfl rfl
  | again hcontent _ h =>
    obtain ⟨raw, hargument, hline, hlast⟩ := exists_argument_eq hc hcontent
    have hspreads := h.spreads
    rw [hargument] at hspreads
    have hstops : StopsAtLine Token.Kind.isStructural := fun _ h => h
    have hskip := c.withinLine_skipTo (S := .anything) hstops
    refine ⟨⟨hskip.marks.sublist, (Nat.le_add_left _ _).trans_eq length_append.symm⟩,
      fun hclean => ?_⟩
    have hlength := length_append.symm.trans_le hclean.silent
    exact (hspreads.region hline (eq_nil_of_length_eq_zero (by omega))).mono (Nat.le_refl _)
      (congrArg Position.offset hlast).ge

theorem LineReading.Head.spreads {header : Header}
    (h : (LineReading.spreads cs l).Head c d header) :
    Spreads c d (header.argument.toList.map .argument) := by
  have hread := h.argument
  cases hargument : header.argument with
  | none =>
    rw [hargument] at hread
    exact .nil (Gap.toStretch hread).ahead
  | some given =>
    rw [hargument] at hread
    obtain ⟨c', d', hbefore, htakes, hafter⟩ := hread
    exact ((htakes.spreads hbefore.supplied).earlier hbefore.ahead).later hafter.ahead

end Lines

theorem spreads_of_chain {n m : Cursor} {xs : List Node}
    (h : Chain (fun n m x => Spreads n m [x]) n m xs) :
    Spreads n m xs := by
  induction h with
  | nil n => exact .nil (.refl n)
  | cons head _ ih => exact head.append ih

/-- The walk by the cursors: a line and its blocks are read in order. -/
def nestWalk (cs : List Char) : Walk Cursor where
  stands n c := Ahead n c ∧ c.lastEnd = n.lastEnd ∧ c.Supplied (placedSupply cs)
  reads _ n m x := Spreads n m [x]
  mono _ h := h
  layout := by
    rintro n c ⟨hahead, hlast, hc⟩ hkind
    have hlayout : c.current.kind.isStructural := by
      rcases hkind with h | h | h <;> rw [h] <;> rfl
    refine ⟨hahead.trans (.layout hlayout), ?_, hc.advance⟩
    rw [advance_of_structural hlayout]
    exact hlast
  stray := by
    rintro n c ⟨hahead, hlast, hc⟩ hkind
    have hlayout : c.current.kind.isStructural := by rw [hkind]; rfl
    refine ⟨(hahead.trans (.layout hlayout)).trans (.report _ _ _), ?_,
      hc.advance.report _ _⟩
    rw [advance_of_structural hlayout]
    exact hlast
  header := by
    rintro n c l ⟨hahead, -, hc⟩ hkind
    have hread := (LineReading.spreads cs l).runs_header hc.line
    have hhead := hread.value
    have hline := hread.line
    refine ⟨_, ⟨.refl _, rfl, hread.keeps hc⟩, ?_⟩
    rintro i k d xs - ⟨-, hlast, -⟩ hchain
    have htail := spreads_of_chain hchain
    have hxs := hhead.spreads.append htail
    have hbounds : Clean c k → c.here ≤ k.lastEnd.offset := fun hclean =>
      (hline.here_le_lastEnd (takesLine_header hkind).left_lt hclean.ordered).trans
        (htail.ahead.lastEnd_le (hline.ahead.clean htail.ahead hclean).2.ordered)
    rw [hlast]
    refine ⟨(hxs.whole (forall_mem_cons.2 ⟨?_, forall_mem_singleton.2 ?_⟩)
      rfl hbounds).earlier hahead,
      fun _ => (hxs.whole (forall_mem_singleton.2 ?_) rfl hbounds).earlier hahead⟩
    · exact (Chain.sublist_subKeywords xs).append_left _
    · exact (Chain.sublist_statements xs).append_left _
    · exact (Chain.sublist_statements xs).append_left _
  content := by
    rintro n c l ⟨hahead, -, hc⟩ hkind
    have hread := (LineReading.spreads cs l).runs_textContent hc.line
    have hcontent := hread.value
    have hline := hread.line
    have hlead : Stretch (placedSupply cs) c _ := ⟨hc.line, hread.supplied, hline⟩
    have hleft := hline.left_lt hkind.content (endsLine_textContent l c)
    refine ⟨_, ⟨.refl _, rfl, hread.keeps hc⟩,
      (hcontent.spreads hlead hleft rfl rfl).earlier hahead, ?_⟩
    rintro i k d xs - ⟨-, hlast, -⟩ hchain -
    have hxs := (hcontent.spreads (x := .content _) hlead hleft rfl rfl).append
        (spreads_of_chain hchain)
    rw [hlast, hcontent.span, Span.start_between]
    refine (hxs.whole (x := .statement (.answer _ _ _)) (forall_mem_singleton.2 ?_)
      rfl ?_).earlier hahead
    · exact (Chain.sublist_statements xs).append_left _
    · exact hxs.here_le_lastEnd mem_cons_self
  expressionLine := by
    rintro n c l ⟨hahead, -, hc⟩ hkind
    have hcontent : c.AtContent := .of_kind hkind rfl
    have hread := (LineReading.spreads cs l).runs_expressionLine hcontent hc.line
    obtain ⟨e, hs, he⟩ := hread.value
    refine ⟨_, ⟨.refl _, rfl, hread.keeps hc⟩, ?_⟩
    rw [hs]
    exact ((he.earlier (withinLine_advance (S := .anything) hcontent).ahead).upTo
      rfl rfl).earlier hahead
  comment := by
    rintro n c l ⟨hahead, -, hc⟩ hkind
    have hread := runs_comment hc.line
    obtain ⟨-, text, hs⟩ := hread.value
    have hline := hread.line
    refine ⟨_, ⟨.refl _, rfl, hread.keeps hc⟩, ?_⟩
    rw [hs]
    exact ((Spreads.nil hline.ahead).whole (forall_mem_singleton.2 (.refl _)) rfl fun hclean =>
      hline.here_le_lastEnd (takesLine_comment hkind).left_lt hclean.ordered).earlier hahead

end Parser

/-- The tokens of a source stand in order, up to its end. -/
theorem isOrdered_tokenize {source : String} {stop : Position}
    (hstop : ((tokenize source).getLast?.map (·.span.stop)).getD Position.origin = stop) :
    (Cursor.start (tokenize source) stop).IsOrdered := by
  obtain ⟨ts, q, hlast⟩ := tokenize_last source
  have hpairs : (tokenize source).Pairwise fun a b => a.span.stop.offset ≤ b.span.start.offset :=
    Piece.pairwise_place _ _
  have hplaced := (tokensPlaced_tokenize source).placed
  rw [hlast] at hstop hpairs hplaced ⊢
  obtain rfl : q = stop := by simpa [Token.endAt, Span.point] using hstop
  refine Cursor.isOrdered_start hpairs fun t ht => ⟨(hplaced t ht).start_le_stop, ?_⟩
  rcases mem_append.1 ht with ht | ht
  · exact (pairwise_append.1 hpairs).2.2 t ht _ mem_cons_self
  · rw [mem_singleton.1 ht]
    exact Nat.le_refl _

/-- A program without a report is spread over its source. -/
theorem spread_program {source : String} (h : (parse source).diagnostics = []) :
    ∃ m, Spread 0 m [.program (parse source).program] := by
  obtain ⟨q, hstop, -, hstart⟩ := supplied_tokenize source
  have hordered := isOrdered_tokenize hstop
  obtain ⟨m, ⟨hahead, -⟩, hchain⟩ := (Parser.nestWalk source.toList).reaches_programBody
    ⟨.refl _, rfl, hstart⟩
  have hbody := Parser.spreads_of_chain hchain
  rw [parse, parseTokens_eq hstop, Span.between_eq (Nat.zero_le _)] at h ⊢
  have hsilent := hahead.diagnostics
  rw [reverse_eq_nil_iff.1 h] at hsilent
  exact ⟨_, ((hbody.spread ⟨hordered, hsilent.trans (Nat.zero_le _)⟩).mono (Nat.zero_le _)
    (hbody.ahead.lastEnd_le_stop hordered)).program⟩

/-- **Spans form a tree.**  In a program without a report each node encloses the nodes right under
it, and those in one list stand apart, in their order. -/
theorem spans_nested {source : String} (h : (parse source).diagnostics = []) :
    ∀ x ∈ (parse source).program.nodes, x.IsNested := by
  obtain ⟨_, hspread⟩ := spread_program h
  exact hspread.nested _ mem_cons_self

/-- A loop over a list, with a text in which a call is read. -/
theorem spans_nested_loop :
    (parse "*for: k, v in [a, (b)]\n\tx \x7b-f(k, \"\x7bv\x7d\").g[0] + 1\x7d\n").diagnostics = [] ∧
      ∀ x ∈ (parse
        "*for: k, v in [a, (b)]\n\tx \x7b-f(k, \"\x7bv\x7d\").g[0] + 1\x7d\n").program.nodes,
        x.IsNested := by
  have h : (parse
      "*for: k, v in [a, (b)]\n\tx \x7b-f(k, \"\x7bv\x7d\").g[0] + 1\x7d\n").diagnostics = [] := by
    decide +kernel
  exact ⟨h, spans_nested h⟩

end ScriptLint

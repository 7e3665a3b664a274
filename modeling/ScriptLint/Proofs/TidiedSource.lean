import ScriptLint.Markup
import ScriptLint.Proofs.ArgumentReading
import ScriptLint.Proofs.LineTidying
import ScriptLint.Proofs.SettledLines

/-!
# The lines of markup in a tidied source

The lines of a source are tidied: white space at their ends goes, and names of keywords are written
in lower case. Lines that are left empty may join others, so that lines get new numbers.  The
program of the tidied source has its bodies of markup on the lines with the new numbers.

**Results.**
* `rows_settle`: the lines of the source and of the tidied source correspond.
* `lineRanges_tidied`: the lines of markup.
-/

namespace ScriptLint

open List Text ScriptLint.Parser LineState

open Piece

variable {ls : List Line}

namespace Position

section Order

variable {cs : List Char} {p q : Position}

/-- There are no more lines before a place than there are endings. -/
theorem IsCanonical.line_le (h : p.IsCanonical cs) :
    p.line ≤ (lines cs).countP (fun line => line.ending ≠ []) + 1 := by
  obtain ⟨i, head, tail, -, -, hline, -, hinside | ⟨-, hend⟩⟩ := h
  · obtain ⟨line, hget, -⟩ := hinside
    obtain ⟨hlt, hget⟩ := List.getElem?_eq_some_iff.1 hget
    have hsplit : lines cs = (lines cs).take i ++ line :: (lines cs).drop (i + 1) := by
      rw [← hget, getElem_cons_drop, take_append_drop]
    have hbefore : ((lines cs).take i).countP (fun line => line.ending ≠ []) = i := by
      rw [countP_eq_length.2, length_take]
      · omega
      · intro other hother
        simpa using ending_ne_nil_of_lines_eq hsplit other hother
    have hle := (take_sublist i (lines cs)).countP_le (p := fun line => line.ending ≠ [])
    omega
  · omega

/-- On a later line the offset is greater. -/
theorem IsCanonical.offset_lt (hp : p.IsCanonical cs) (hq : q.IsCanonical cs)
    (h : p.line < q.line) : p.offset < q.offset := by
  have hlast := hq.line_le
  obtain ⟨i, head, tail, hcs, hoffset, hline, -, ⟨line, hget, hinside⟩ | ⟨-, hend⟩⟩ := hp
  · obtain ⟨j, head', tail', -, hoffset', hline', -⟩ := hq
    obtain ⟨hlt, hget⟩ := List.getElem?_eq_some_iff.1 hget
    have htake : (lines cs).take (i + 1) = (lines cs).take i ++ [line] := by
      rw [take_add_one, getElem?_eq_getElem hlt, hget]
      rfl
    obtain ⟨more, hmore, hne⟩ : ∃ more, line.full = head ++ more ∧ more ≠ [] := by
      have hjoin := flatMap_full_lines cs
      rw [← take_append_drop (i + 1) (lines cs), htake] at hjoin
      have hsame : line.full ++ ((lines cs).drop (i + 1)).flatMap Line.full = head ++ tail := by
        simpa using hjoin.trans hcs
      have hsplit := prefix_of_prefix_length_le ⟨tail, hsame.symm⟩
        (prefix_append line.full _) hinside.le
      obtain ⟨more, hmore⟩ := hsplit
      refine ⟨more, hmore.symm, ?_⟩
      rintro rfl
      rw [append_nil] at hmore
      rw [hmore] at hinside
      exact absurd hinside (Nat.lt_irrefl _)
    have hpos : 0 < byteLength more := by
      obtain ⟨c, rest, rfl⟩ := exists_cons_of_ne_nil hne
      have hc := Char.utf8Size_pos c
      rw [byteLength_cons]
      omega
    have hprefix : ((lines cs).take (i + 1)).flatMap Line.full <+:
        ((lines cs).take j).flatMap Line.full := by
      have hle : i + 1 ≤ j := by omega
      obtain ⟨rest, hrest⟩ := take_prefix_take_left hle (l := lines cs)
      rw [← hrest, flatMap_append]
      exact prefix_append _ _
    obtain ⟨rest, hrest⟩ := hprefix
    rw [hoffset, hoffset', ← hrest, htake]
    simp only [flatMap_append, flatMap_cons, byteLength_append, hmore]
    omega
  · omega

end Order

end Position

theorem line_stop_between {cs : List Char} {p q : Position} (hp : p.IsCanonical cs)
    (hq : q.IsCanonical cs) : (Span.between p q).stop.line = max p.line q.line := by
  unfold Span.between
  split
  · next hlt =>
    have hle : q.line ≤ p.line := by
      by_contra hnot
      have hoffset := hp.offset_lt hq (by omega)
      omega
    show p.line = _
    omega
  · next hnot =>
    have hle : p.line ≤ q.line := by
      by_contra hlt
      have hoffset := hq.offset_lt hp (by omega)
      omega
    show q.line = _
    omega

theorem Markup.lineRanges_of_isInner {nodes : List Node} (h : nodes.all Node.isInner) :
    lineRanges nodes = [] := by
  refine filterMap_eq_nil_iff.2 fun node hnode => ?_
  have hinner := all_eq_true.1 h node hnode
  cases node with
  | program _ | statement _ | subKeyword _ => cases hinner
  | _ => rfl

section Renumbering

open Markup

variable (f : Nat → Nat)

/-- The lines on which one span starts and stops have the new numbers in the other. -/
structure Renumbers (s s' : Span) : Prop where
  start : s'.start.line = f s.start.line
  stop : s'.stop.line = f s.stop.line

/-- The bodies of markup among the one nodes stand on the lines with the new numbers among the
others. -/
def RangesMatch (nodes nodes' : List Node) : Prop :=
  lineRanges nodes' = (lineRanges nodes).map (Prod.map f f)

/-- Two statements have the same bodies of markup, on lines with new numbers. -/
structure StatementsMatch (s s' : Statement) : Prop where
  span : Renumbers f s.span s'.span
  ranges : RangesMatch f s.nodes s'.nodes

/-- Two lines of which the second is the first one tidied, with its new number. -/
structure LinesMatch (p : Position) (content : List Char) (p' : Position) (content' : List Char) :
    Prop where
  written : allBlank content = false
  tidies : Tidies content content'
  inline : OneLine content
  inline' : OneLine content'
  number : p'.line = f p.line

variable {f}

section Nodes

variable {xs xs' ys ys' : List Node}

theorem RangesMatch.append (h : RangesMatch f xs xs') (h' : RangesMatch f ys ys') :
    RangesMatch f (xs ++ ys) (xs' ++ ys') := by
  unfold RangesMatch lineRanges at h h' ⊢
  rw [filterMap_append, filterMap_append, h, h', map_append]

theorem rangesMatch_of_isInner (h : xs.all Node.isInner) (h' : xs'.all Node.isInner) :
    RangesMatch f xs xs' := by
  rw [RangesMatch, lineRanges_of_isInner h, lineRanges_of_isInner h', map_nil]

theorem RangesMatch.cons {x x' : Node} (h : RangesMatch f xs xs')
    (hnode : bodyLines? x' = (bodyLines? x).map (Prod.map f f)) :
    RangesMatch f (x :: xs) (x' :: xs') := by
  unfold RangesMatch lineRanges at h ⊢
  rw [filterMap_cons, filterMap_cons, h, hnode]
  cases bodyLines? x <;> rfl

end Nodes

theorem rangesMatch_nodesOfList {body body' : List Statement}
    (h : Forall₂ (StatementsMatch f) body body') :
    RangesMatch f (Statement.nodesOfList body) (Statement.nodesOfList body') := by
  induction h with
  | nil => rfl
  | cons head _ ih => exact head.ranges.append ih

theorem rangesMatch_subKeywords {subs subs' : List SubKeyword}
    (h : Forall₂ (fun s s' => RangesMatch f s.nodes s'.nodes) subs subs') :
    RangesMatch f (SubKeyword.nodesOfList subs) (SubKeyword.nodesOfList subs') := by
  induction h with
  | nil => rfl
  | cons head _ ih => exact head.append ih

theorem bodyLines?_match {h h' : Header} {subs subs' : List SubKeyword}
    {body body' : List Statement}
    {s s' : Span} (hname : lower h'.name = lower h.name)
    (hbody : Forall₂ (StatementsMatch f) body body') :
    bodyLines? (.statement (.keyword h' subs' body' s')) =
      (bodyLines? (.statement (.keyword h subs body s))).map (Prod.map f f) := by
  unfold bodyLines?
  dsimp only
  rw [hname]
  split
  · rcases getLast?_of_forall₂ hbody with ⟨hnone, hnone'⟩ | ⟨x, x', hlast, hlast', hmatch⟩
    · rw [hnone, hnone']
      cases body.head? <;> cases body'.head? <;> rfl
    · cases hbody with
      | nil => cases hlast
      | cons head _ =>
        rw [hlast, hlast', head?_cons]
        dsimp only
        rw [head.span.start, hmatch.span.stop]
        rfl
  · rfl

/-- The span between places with new numbers. -/
theorem renumbers_between (hf : Monotone f) {cs cs' : List Char} {p p' q q' : Position}
    (hp : p'.line = f p.line ∧ p.IsCanonical cs ∧ p'.IsCanonical cs')
    (hq : q'.line = f q.line ∧ q.IsCanonical cs ∧ q'.IsCanonical cs') :
    Renumbers f (Span.between p q) (Span.between p' q') := by
  refine ⟨by rw [Span.start_between, Span.start_between, hp.1], ?_⟩
  rw [line_stop_between hp.2.1 hq.2.1, line_stop_between hp.2.2 hq.2.2, hp.1, hq.1, hf.map_max]

section Lines

variable {p p' : Position} {content content' : List Char} {r r' : Row}
  {c c' : Cursor} {levels : Nat}

theorem Row.Holds.line_first (h : r.Holds p content) : r.first.span.start.line = p.line := by
  obtain ⟨xs, ys, -, hspan⟩ := (isCut_of_mem_row h mem_cons_self).2
  rw [hspan]
  rfl

/-- The line of a keyword gives a header with its name. -/
theorem Row.Holds.header_name (h : r.Holds p content) {name : List Char}
    (hname : keywordName? content = some name) (hrest : c.rest = r.tokens) :
    r.first.kind = .keywordStart ∧
      (Parser.header (Parser.expression levels) c).1.name = String.ofList name := by
  obtain ⟨k, hk, rfl, -⟩ := keywordLine?_of_name p hname
  obtain ⟨_, -, -, hfirst, hmore⟩ := h.keyword hk
  obtain ⟨-, hheader⟩ := h.header_eq hk hmore hrest (Parser.expression levels)
  exact ⟨by rw [hfirst], by rw [hheader]⟩

/-- Content ends on the line that is read. -/
theorem Parser.Reached.line_lastEnd {α : Type} {d : Cursor} {Q : α → Prop} {x : α × Cursor}
    (h : Reached (.behind p) d Q x) : x.2.lastEnd.line = p.line :=
  h.supplied.lastEnd.line

/-- The span of a statement that is read from a line. -/
theorem Statement.IsSupplied.isBehind {s : Statement} (h : s.IsSupplied (.behind p)) :
    s.span.IsBehind p :=
  (h (.statement s) (by cases s <;> exact mem_cons_self)).span

/-- Spans on one line, with a new number. -/
theorem Span.IsBehind.renumbers {s s' : Span} (h : s.IsBehind p) (h' : s'.IsBehind p')
    (hnumber : p'.line = f p.line) :
    Renumbers f s s' :=
  ⟨by rw [h.start.line, h'.start.line, hnumber], by rw [h.stop, h'.stop, hnumber]⟩

theorem LinesMatch.headers (h : LinesMatch f p content p' content') (hr : r.Holds p content)
    (hr' : r'.Holds p' content') (hrest : c.rest = r.tokens) (hrest' : c'.rest = r'.tokens)
    (hkind : Parser.IsHeaderStart r.first.kind) :
    lower (Parser.header (Parser.expression levels) c').1.name =
        lower (Parser.header (Parser.expression levels) c).1.name ∧
      (Parser.header (Parser.expression levels) c').2.lastEnd.line =
        f (Parser.header (Parser.expression levels) c).2.lastEnd.line := by
  obtain ⟨name, hname⟩ : ∃ name, keywordName? content = some name := by
    refine Option.ne_none_iff_exists'.1 fun hnone => ?_
    exact hr.no_keyword (keywordLine?_eq_none hnone) hkind
  obtain ⟨name', hname', hlower⟩ := h.tidies.exists_name hname
  obtain ⟨hstart, hheader⟩ := @Row.Holds.header_name p content r c levels hr name hname hrest
  obtain ⟨hstart', hheader'⟩ :=
    @Row.Holds.header_name p' content' r' c' levels hr' name' hname' hrest'
  refine ⟨by rw [hheader, hheader', hlower], ?_⟩
  rw [(Parser.reached_header hr h.inline hrest hstart).line_lastEnd,
    (Parser.reached_header hr' h.inline' hrest' hstart').line_lastEnd, h.number]

end Lines

variable (f) in
/-- A source beside the source with tidied lines, which have new numbers. -/
def tidiedPairing (hf : Monotone f) (cs cs' : List Char) : LinePairing Nat where
  left := placedSupply cs
  right := placedSupply cs'
  line _ _ r r' := ∃ p content p' content', r.Holds p content ∧ r'.Holds p' content' ∧
    LinesMatch f p content p' content'
  record _ s s' := s'.1.line = f s.1.line
  indent _ _ := True
  place p p' := p'.line = f p.line
  header _ h h' := lower h'.name = lower h.name
  content _ t t' := Renumbers f t.span t'.span
  statement _ := StatementsMatch f
  subKeyword _ s s' := RangesMatch f s.nodes s'.nodes
  alike := by
    rintro l g r r' ⟨p, content, p', content', hr, hr', hmatch⟩
    exact hmatch.tidies.alike hmatch.written hr hr'
  start := by
    rintro l g r r' ⟨p, content, p', content', hr, hr', hmatch⟩
    rw [hr.line_first, hr'.line_first, hmatch.number]
  lastEnd h := h
  stray h _ := h
  reads_header := by
    rintro l g h r r' c c' ⟨p, content, p', content', hr, hr', hmatch⟩ - hrest hrest' hkind
    exact ⟨g, h, rfl, hmatch.headers hr hr' hrest hrest' hkind⟩
  reads_content := by
    rintro l g h r r' c c' ⟨p, content, p', content', hr, hr', hmatch⟩ - hrest hrest' hkind
    have hleft := @reached_textContent c r p content l hr hmatch.inline hrest
    have hright := @reached_textContent c' r' p' content' l hr' hmatch.inline' hrest'
    refine ⟨g, h, rfl, hleft.value.span.renumbers hright.value.span hmatch.number, ?_⟩
    show (textContent _ c').2.lastEnd.line = f (textContent _ c).2.lastEnd.line
    rw [hleft.line_lastEnd, hright.line_lastEnd, hmatch.number]
  reads_expression := by
    rintro l g h r r' c c' ⟨p, content, p', content', hr, hr', hmatch⟩ - hrest hrest' hkind
    have hleft := @reached_expressionLine c r p content l hr hmatch.inline hrest
    have hright := @reached_expressionLine c' r' p' content' l hr' hmatch.inline' hrest'
    refine ⟨g, h, rfl, ⟨hleft.value.isBehind.renumbers hright.value.isBehind hmatch.number, ?_⟩, ?_⟩
    · exact (rangesMatch_of_isInner (Expression.isInner_nodes _)
        (Expression.isInner_nodes _)).cons rfl
    · show (expressionLine _ c').2.lastEnd.line =
          f (expressionLine _ c).2.lastEnd.line
      rw [hleft.line_lastEnd, hright.line_lastEnd, hmatch.number]
  reads_comment := by
    rintro l g h r r' c c' ⟨p, content, p', content', hr, hr', hmatch⟩ - hrest hrest' hkind
    have hstart := (hr.comment hkind).1
    have hstart' : r'.first.kind = .commentStart := by
      rw [(hmatch.tidies.alike hmatch.written hr hr').kind, hstart]
    have hleft := reached_comment hr hmatch.inline hrest hstart
    have hright := reached_comment hr' hmatch.inline' hrest' hstart'
    refine ⟨g, h, rfl,
      ⟨hleft.value.isBehind.renumbers hright.value.isBehind hmatch.number, rfl⟩, ?_⟩
    · show (comment c').2.lastEnd.line = f (comment c).2.lastEnd.line
      rw [hleft.line_lastEnd, hright.line_lastEnd, hmatch.number]
  keyword := by
    intro x y z h h' subs subs' body body' p p' q q' hname hsubs hbody hp hq
    refine ⟨renumbers_between hf hp hq, .cons ?_ (bodyLines?_match hname hbody.forall₂)⟩
    rw [append_assoc, append_assoc]
    exact (rangesMatch_of_isInner h.isInner_nodes h'.isInner_nodes).append
      ((rangesMatch_subKeywords hsubs.forall₂).append (rangesMatch_nodesOfList hbody.forall₂))
  sub := by
    intro x z h h' body body' p p' q q' _ hbody _ _
    exact ((rangesMatch_of_isInner h.isInner_nodes h'.isInner_nodes).append
      (rangesMatch_nodesOfList hbody.forall₂)).cons rfl
  text := by
    intro x t t' hspan
    exact ⟨hspan, (rangesMatch_of_isInner t.isInner_parts t'.isInner_parts).cons rfl⟩
  answer := by
    intro x z t t' body body' q q' hspan hstart hbody hq
    refine ⟨renumbers_between hf ⟨hspan.start, hstart⟩ hq, .cons ?_ rfl⟩
    exact (rangesMatch_of_isInner t.isInner_nodes t'.isInner_nodes).append
      (rangesMatch_nodesOfList hbody.forall₂)

section Rows

/-- A line that is tidied keeps its ending. -/
structure TidiesTo (line line' : Line) : Prop where
  tidies : Tidies line.content line'.content
  ending : line'.ending = line.ending
  inline : OneLine line.content
  inline' : OneLine line'.content

variable {levels : List Nat} {left : Nat} {p p' : Position} {line line' : Line}
  {ls' : List Line}

/-- A pair of lines before lines that correspond; both of them may be blank. -/
theorem rows_cons (hnumber : p'.line = f p.line) (htidies : Tidies line.content line'.content)
    (hinline : OneLine line.content) (hinline' : OneLine line'.content)
    (hlast : line.ending = [] → ls = []) (hlast' : line'.ending = [] → ls' = [])
    (hending : line'.ending = [] ↔ line.ending = [])
    (rest : ∀ levels left, Rows (fun _ _ p ln p' ln' => LinesMatch f p ln.content p' ln'.content)
      levels left (0 : Nat) (afterLine p line) ls (afterLine p' line') ls') :
    Rows (fun _ _ p ln p' ln' => LinesMatch f p ln.content p' ln'.content) levels left (0 : Nat) p
      (line :: ls) p' (line' :: ls') := by
  cases hblank : allBlank line.content with
  | true =>
    exact .blank_left hblank hlast (.blank_right (htidies.blank.trans hblank) hlast' (rest _ _))
  | false =>
    exact .line (g := 0) (h := 0) hblank (htidies.blank.trans hblank) (htidies.tabCount hblank)
      hlast hlast' hending ⟨hblank, htidies, hinline, hinline', hnumber⟩ (rest _ _)

theorem exists_of_tidiesTo {first second : Line} {rest : List Line}
    (h : Forall₂ TidiesTo ls (first :: second :: rest)) :
    ∃ a b ls', ls = a :: b :: ls' ∧ TidiesTo a first ∧ TidiesTo b second ∧
      Forall₂ TidiesTo ls' rest := by
  obtain ⟨a, ls', ha, htail, rfl⟩ := forall₂_cons_right_iff.1 h
  obtain ⟨b, ls', hb, hrest, rfl⟩ := forall₂_cons_right_iff.1 htail
  exact ⟨a, b, ls', rfl, ha, hb, hrest⟩

/-- Lines correspond to those of the text that is put together from their tidied forms. -/
theorem rows_settle {es : List Line} (h : Forall₂ TidiesTo ls es)
    (hending : Ended ls)
    (hf : ∀ k, f (p.line + k) = p'.line + (settle (es.take k)).length) :
    Rows (fun _ _ p ln p' ln' => LinesMatch f p ln.content p' ln'.content) levels left (0 : Nat) p
      ls p' (settle es) := by
  fun_induction settle es generalizing ls p p' levels left with
  | case1 =>
    cases h
    exact .nil
  | case2 e hfull =>
    obtain ⟨line, ls, hline, hnil, rfl⟩ := forall₂_cons_right_iff.1 h
    obtain rfl := forall₂_nil_right_iff.1 hnil
    have hblank : allBlank line.content = true := by
      rw [← hline.tidies.blank, (append_eq_nil_iff.1 hfull).1]
      rfl
    exact .blank_left hblank (fun _ => rfl) .nil
  | case3 e hfull =>
    obtain ⟨line, ls, hline, hnil, rfl⟩ := forall₂_cons_right_iff.1 h
    obtain rfl := forall₂_nil_right_iff.1 hnil
    have hnumber : p'.line = f p.line := (hf 0).symm
    exact rows_cons hnumber hline.tidies hline.inline hline.inline' (fun _ => rfl) (fun _ => rfl)
      (by rw [hline.ending]) fun _ _ => .nil
  | case4 first second rest hmerge ih =>
    obtain ⟨hreturn, rfl⟩ := hmerge
    obtain ⟨a, b, ls, rfl, ha, hb, hrest⟩ := exists_of_tidiesTo h
    have hends := hending.of_cons.of_cons
    have hending_a : a.ending ≠ [] := by simp [← ha.ending, hreturn]
    have hending_b : b.ending ≠ [] := by simp [← hb.ending]
    have hblank : allBlank b.content = true := by
      rw [← hb.tidies.blank]
      rfl
    refine rows_cons (hf 0).symm ha.tidies ha.inline ha.inline' (fun hnil => absurd hnil hending_a)
      (by simp) (by simp [hending_a]) fun _ _ =>
        .blank_left hblank (fun hnil => absurd hnil hending_b) (ih hrest hends fun k => ?_)
    have hcount := hf (k + 2)
    rw [take_succ_cons, take_succ_cons, settle, if_pos ⟨hreturn, rfl⟩, length_cons] at hcount
    rw [line_afterLine, line_afterLine, line_afterLine]
    rw [if_neg hending_a, if_neg hending_b, if_neg (by simp)]
    rw [show p.line + 1 + 1 + k = p.line + (k + 2) by omega, hcount]
    omega
  | case5 first second rest hmerge ih =>
    obtain ⟨a, b, ls, rfl, ha, hb, hrest⟩ := exists_of_tidiesTo h
    have hending_a : a.ending ≠ [] := (pairwise_cons.1 hending).1 b mem_cons_self
    have hending_first : first.ending ≠ [] := by rwa [ha.ending]
    refine rows_cons (hf 0).symm ha.tidies ha.inline ha.inline' (fun hnil => absurd hnil hending_a)
      (fun hnil => absurd hnil hending_first) (by rw [ha.ending]) fun _ _ =>
        ih (.cons hb hrest) hending.of_cons fun k => ?_
    have hlength : (settle (first :: (second :: rest).take k)).length =
        (settle ((second :: rest).take k)).length + 1 := by
      cases k with
      | zero => simp [settle, Line.full, hending_first]
      | succ k => rw [take_succ_cons, settle, if_neg hmerge, length_cons]
    have hcount := hf (k + 1)
    rw [take_succ_cons, hlength] at hcount
    rw [line_afterLine, line_afterLine, if_neg hending_a, if_neg hending_first, Nat.add_assoc,
      Nat.add_comm 1, hcount, Nat.add_assoc, Nat.add_comm 1]

end Rows

end Renumbering

/-- The number that a line has in the text put together from lines. -/
def renumber (es : List Line) (line : Nat) : Nat :=
  (settle (es.take (line - 1))).length + 1

theorem renumber_monotone (es : List Line) : Monotone (renumber es) := by
  intro a b hab
  have hle : a - 1 ≤ b - 1 := by omega
  obtain ⟨more, hmore⟩ := take_prefix_take_left hle (l := es)
  have hlength := length_settle_append_le (es.take (a - 1)) more
  rw [hmore] at hlength
  exact Nat.succ_le_succ hlength

theorem line_firstLine (source : String) : (firstLine source).line = 1 := by
  unfold firstLine
  split <;> rfl

theorem line_lastEnd_ofSource (source : String) : (Cursor.ofSource source).lastEnd.line = 1 := by
  rw [lastEnd_ofSource]
  exact line_firstLine source

theorem supplied_ofSource (source : String) :
    (Cursor.ofSource source).Supplied (placedSupply source.toList) := by
  obtain ⟨q, hstop, -, hstart⟩ := supplied_tokenize source
  rw [Cursor.ofSource, hstop]
  exact hstart

/-- **Markup in a tidied source** stands on the lines with the new numbers. -/
theorem lineRanges_tidied {source source' : String} {es : List Line}
    (h : Forall₂ TidiesTo (lines (withoutMark source.toList)) es)
    (hlines : lines (withoutMark source'.toList) = settle es) :
    Markup.lineRanges (parse source').program.nodes =
      (Markup.lineRanges (parse source).program.nodes).map
        (Prod.map (renumber es) (renumber es)) := by
  have hrows : Rows (fun _ _ p ln p' ln' => LinesMatch (renumber es) p ln.content p' ln'.content)
      [] maxDepth (0 : Nat) (firstLine source) (lines (withoutMark source.toList))
      (firstLine source') (lines (withoutMark source'.toList)) := by
    rw [hlines]
    refine rows_settle h (pairwise_ending_lines _) fun k => ?_
    rw [line_firstLine, line_firstLine, renumber, Nat.add_sub_cancel_left, Nat.add_comm]
  let P := tidiedPairing (renumber es) (renumber_monotone es) source.toList source'.toList
  have hpaired : Paired P.line P.indent maxDepth 0 (tokenize source) (tokenize source') := by
    rw [tokenize_eq_firstLine, tokenize_eq_firstLine]
    refine paired_ofLines (Nat.le_refl maxDepth) ?_ (fun _ => trivial) hrows
    intro l g p ln p' ln' r r' hmatch hr hr' _ _ _
    exact ⟨p, ln.content, p', ln'.content, hr, hr', hmatch⟩
  have hmeets : P.Meets maxDepth 0 (Cursor.ofSource source) (Cursor.ofSource source') := by
    refine ⟨0, 0, rfl, hpaired, ?_⟩
    show (Cursor.ofSource source').lastEnd.line = renumber es (Cursor.ofSource source).lastEnd.line
    rw [line_lastEnd_ofSource, line_lastEnd_ofSource]
    rfl
  obtain ⟨x, y, -, hbody, -⟩ :=
    P.gives_programBody hmeets ⟨supplied_ofSource source, supplied_ofSource source'⟩
  exact rangesMatch_nodesOfList hbody.forall₂

section Directives

variable {source source' : String} {es xs ys before after : List Line} {x line : Line}

theorem foldl_stepLine_tidied (h : Forall₂ TidiesTo ls es) (s : LineState) :
    es.foldl stepLine s = ls.foldl stepLine s := by
  induction h generalizing s with
  | nil => rfl
  | cons head _ ih =>
    rw [foldl_cons, foldl_cons, ih, stepLine, stepLine, head.tidies.directive]

theorem exists_of_tidiesTo_concat {l : Line} (h : Forall₂ TidiesTo (ls ++ [l]) es) :
    ∃ xs x, es = xs ++ [x] ∧ Forall₂ TidiesTo ls xs ∧ TidiesTo l x := by
  induction ls generalizing es with
  | nil =>
    obtain ⟨x, xs, hx, hnil, rfl⟩ := forall₂_cons_left_iff.1 h
    obtain rfl := forall₂_nil_left_iff.1 hnil
    exact ⟨[], x, rfl, .nil, hx⟩
  | cons a ls ih =>
    obtain ⟨y, ys, hy, hrest, rfl⟩ := forall₂_cons_left_iff.1 h
    obtain ⟨xs, x, rfl, hxs, hx⟩ := ih hrest
    exact ⟨y :: xs, x, rfl, .cons hy hxs, hx⟩

theorem ending_ne_nil_of_tidiesTo (h : Forall₂ TidiesTo ls es)
    (hls : ∀ l ∈ ls, l.ending ≠ []) : ∀ e ∈ es, e.ending ≠ [] := by
  induction h with
  | nil => simp
  | cons head _ ih =>
    obtain ⟨hfirst, hrest⟩ := forall_mem_cons.1 hls
    exact forall_mem_cons.2 ⟨by rwa [head.ending], ih hrest⟩

/-- The directive on a line, seen from the line. -/
theorem onLine?_append (line : Line) :
    Directive.onLine? 1 (before ++ line :: after) (before.length + 1) =
      Directive.ofLine? line.content := by
  rw [Directive.onLine?]
  simp

/-- What is turned off on a line is turned off on the line that comes from it. -/
theorem covered_tidied {ls' : List Line} {l : Line}
    (hsource : lines (withoutMark source.toList) = ls ++ l :: ls')
    (hbefore : Forall₂ TidiesTo ls xs) (hline : TidiesTo l x)
    (hlines : lines (withoutMark source'.toList) = settle xs ++ line :: after)
    (hcontent : line.content = x.content) {subject : Subject}
    (hcovered : (DirectiveTable.ofSource source).Covered subject (ls.length + 1)) :
    (DirectiveTable.ofSource source').Covered subject ((settle xs).length + 1) := by
  have hdirective : Directive.ofLine? line.content = Directive.ofLine? l.content := by
    rw [hcontent, hline.tidies.directive]
  rw [DirectiveTable.covered_ofSource, hsource] at hcovered
  rw [DirectiveTable.covered_ofSource, hlines]
  rcases hcovered with ⟨-, hopen⟩ | ⟨d, hd, hhides⟩ | ⟨d, hd, hhides⟩
  · refine .inl ⟨by simp, ?_⟩
    have hstate : LineState.after ((settle xs ++ line :: after).take ((settle xs).length + 1)) =
        LineState.after ((ls ++ l :: ls').take (ls.length + 1)) := by
      unfold LineState.after
      rw [take_length_add_append, take_length_add_append, foldl_append,
        foldl_append, after_settle, foldl_stepLine_tidied hbefore]
      show stepLine _ line = stepLine _ l
      rw [stepLine, stepLine, hdirective]
    rw [hstate]
    exact hopen
  · refine .inr (.inl ⟨d, ?_, hhides⟩)
    rw [onLine?_append] at hd ⊢
    rwa [hdirective]
  · refine .inr (.inr ⟨d, ?_, hhides⟩)
    rcases eq_nil_or_concat ls with rfl | ⟨ls, k, rfl⟩
    · cases hd
    rw [concat_eq_append] at hsource hbefore hd
    rw [length_append, length_singleton, Nat.add_sub_cancel, append_assoc,
      singleton_append, onLine?_append] at hd
    obtain ⟨xs, w, rfl, hrest, hlast⟩ := exists_of_tidiesTo_concat hbefore
    have hne : w.content ≠ [] := by
      intro hnil
      rw [← hlast.tidies.directive, hnil] at hd
      cases hd
    have hending : ∀ y ∈ xs, y.ending ≠ [] := by
      have hpairwise := pairwise_ending_lines (withoutMark source.toList)
      rw [hsource, append_assoc] at hpairwise
      have hends := (pairwise_append.1 hpairwise).2.2
      exact ending_ne_nil_of_tidiesTo hrest fun k' hk' => hends k' hk' k (by simp)
    have hsettle : settle (xs ++ [w]) = settle xs ++ [w] := by
      have hw : settle [w] = [w] := by simp [settle, Line.full, hne]
      rw [settle_append hending, hw]
      rintro - hhead
      cases hhead
      exact hne rfl
    rw [hsettle, length_append, length_singleton, Nat.add_sub_cancel, append_assoc,
      singleton_append, onLine?_append, hlast.tidies.directive]
    exact hd

end Directives

end ScriptLint

import ScriptLint.Proofs.LineOutline

/-!
# Nesting is indentation

**Input.**  A source in which no fault is found.

**Argument.**  The open levels of indentation and the open blocks of the parser grow and shrink
together.  At every line, the block of a level is owned by the last line with fewer tabs than the
level has, and a line that opens a level stands directly after its owner.  An indent that breaks
this is a stray, and strays are reported.

**Results.**
* `Nested.step`: a line that opens no stray block keeps this.
* `parent_ofLines`: so every line stands under the last one before it with fewer tabs.
* `nesting_eq_indentation`: the same of the nodes of a program.
-/

namespace ScriptLint

open List Text

variable {levels : List Nat} {child : Node}

namespace Text

/-- The tabs at the start of the line with the number. -/
def tabsAt (cs : List Char) (n : Nat) : Nat :=
  (lines (withoutMark cs))[n - 1]?.elim 0 Line.tabs

/-- The last line before a number that is not blank and has fewer tabs than given. -/
def lastBelow (cs : List Char) (tabs : Nat) : (n : Nat) → Option Nat
  | 0 => none
  | n + 1 => if isWritten cs n && tabsAt cs n < tabs then some n else lastBelow cs tabs n

theorem lastBelow_zero (cs : List Char) (n : Nat) : lastBelow cs 0 n = none := by
  induction n with
  | zero => rfl
  | succ n ih => simp [lastBelow, ih]

end Text

namespace Piece

theorem takeWhile_append_keptLevels (levels : List Nat) (tabs : Nat) :
    levels.takeWhile (tabs < ·) ++ keptLevels levels tabs = levels :=
  takeWhile_append_dropWhile

/-- A line that is not blank leaves its own indentation on top. -/
theorem headD_nextLevels (levels : List Nat) (tabs : Nat) :
    (nextLevels levels tabs).headD 0 = tabs := by
  unfold nextLevels
  dsimp only
  split
  · rfl
  · next hkept =>
    cases hlevels : keptLevels levels tabs with
    | nil =>
      rw [hlevels] at hkept
      exact (Nat.le_zero.1 (Nat.not_lt.1 hkept)).symm
    | cons level rest =>
      rw [hlevels] at hkept
      have hlevel : ¬ tabs < level := by
        have hhead := head?_dropWhile_not (fun level => decide (tabs < level)) levels
        rw [show levels.dropWhile _ = level :: rest from hlevels] at hhead
        simpa using hhead
      exact Nat.le_antisymm (Nat.not_lt.1 hlevel) (Nat.not_lt.1 hkept)

theorem le_headD_of_mem {level : Nat} (h : levels.Pairwise (· > ·))
    (hlevel : level ∈ levels) : level ≤ levels.headD 0 := by
  cases levels with
  | nil => cases hlevel
  | cons first rest =>
    rcases mem_cons.1 hlevel with rfl | hlevel
    · exact Nat.le_refl level
    · exact Nat.le_of_lt ((pairwise_cons.1 h).1 level hlevel)

theorem pairwise_nextLevels (h : levels.Pairwise (· > ·)) (tabs : Nat) :
    (nextLevels levels tabs).Pairwise (· > ·) := by
  have hkept : (keptLevels levels tabs).Pairwise (· > ·) :=
    h.sublist (dropWhile_sublist _)
  unfold nextLevels
  dsimp only
  split
  · next hdeeper =>
    refine pairwise_cons.2 ⟨?_, hkept⟩
    intro level hlevel
    exact Nat.lt_of_le_of_lt (le_headD_of_mem hkept hlevel) hdeeper
  · exact hkept

end Piece

/-- The open blocks agree with the open levels: `under tabs` is the last line with fewer tabs, and
the line that may open a block is the last one of all. -/
structure Nested (under : Nat → Option Nat) (levels : List Nat) (blocks : List (Option Nat))
    (opener : Option Nat) : Prop where
  decreasing : levels.Pairwise (· > ·)
  owners : blocks = levels.map under
  outermost : under 0 = none
  opened : ∀ line, opener = some line → ∀ tabs, levels.headD 0 < tabs → under tabs = some line

namespace Nested

open Piece (keptLevels nextLevels)

variable {under : Nat → Option Nat} {blocks : List (Option Nat)}
  {opener : Option Nat} {tabs : Nat}

theorem drop_closed (h : Nested under levels blocks opener) :
    blocks.drop (levels.takeWhile (tabs < ·)).length = (keptLevels levels tabs).map under := by
  rw [h.owners, ← map_drop]
  nth_rewrite 2 [← Piece.takeWhile_append_keptLevels levels tabs]
  rw [drop_left]

/-- Where an indent is no stray, the blocks follow the levels. -/
theorem lineBlocks_eq (h : Nested under levels blocks opener)
    (hstray : (lineBlocks levels tabs blocks opener).2 = 0) :
    (lineBlocks levels tabs blocks opener).1 = (nextLevels levels tabs).map under := by
  unfold lineBlocks at hstray ⊢
  unfold nextLevels
  by_cases hdeeper : (keptLevels levels tabs).headD 0 < tabs
  · rw [if_pos hdeeper] at hstray
    rw [if_pos hdeeper, if_pos hdeeper]
    obtain ⟨line, hopener, hblocks⟩ := indentBlocks_of_no_stray hstray
    by_cases hclosed : (levels.takeWhile (tabs < ·)).length = 0
    · have hkept := Piece.takeWhile_append_keptLevels levels tabs
      rw [length_eq_zero_iff.1 hclosed] at hkept
      rw [if_pos hclosed] at hopener
      rw [hblocks, map_cons, h.drop_closed, h.opened line hopener tabs (by rwa [← hkept])]
    · rw [if_neg hclosed] at hopener
      cases hopener
  · rw [if_neg hdeeper, if_neg hdeeper]
    exact h.drop_closed

/-- The innermost block at a line is owned by the last line with fewer tabs. -/
theorem headD_lineBlocks (h : Nested under levels blocks opener)
    (hstray : (lineBlocks levels tabs blocks opener).2 = 0) :
    (lineBlocks levels tabs blocks opener).1.headD none = under tabs := by
  have htop := Piece.headD_nextLevels levels tabs
  rw [h.lineBlocks_eq hstray]
  cases hnext : nextLevels levels tabs with
  | nil =>
    rw [hnext] at htop
    rw [← htop]
    exact h.outermost.symm
  | cons level rest =>
    rw [hnext] at htop
    rw [← htop]
    rfl

/-- A line that opens no stray block keeps the blocks in step with the levels. -/
theorem step {under' : Nat → Option Nat} {line : Nat} {opener' : Option Nat}
    (h : Nested under levels blocks opener) (hstray : (lineBlocks levels tabs blocks opener).2 = 0)
    (hunder : ∀ k, under' k = if tabs < k then some line else under k)
    (hopener : opener' = none ∨ opener' = some line) :
    Nested under' (nextLevels levels tabs) (lineBlocks levels tabs blocks opener).1 opener' where
  decreasing := Piece.pairwise_nextLevels h.decreasing tabs
  owners := by
    rw [h.lineBlocks_eq hstray]
    refine map_congr_left fun level hlevel => ?_
    have hle := Piece.le_headD_of_mem (Piece.pairwise_nextLevels h.decreasing tabs) hlevel
    rw [Piece.headD_nextLevels] at hle
    rw [hunder, if_neg (Nat.not_lt.2 hle)]
  outermost := by rw [hunder, if_neg (Nat.not_lt_zero tabs), h.outermost]
  opened := by
    intro owner howner k hk
    rw [Piece.headD_nextLevels] at hk
    rw [hunder, if_pos hk]
    rcases hopener with hnone | hsome
    · rw [hnone] at howner
      cases howner
    · rw [← hsome, howner]

end Nested

/-- Where no indent is a stray, every line stands under the last one before it with fewer tabs. -/
theorem parent_ofLines {cs : List Char} {before ls : List Line} {p : Position}
    {blocks : List (Option Nat)} {opener : Option Nat}
    (hlines : lines (withoutMark cs) = before ++ ls) (hp : p.line = before.length + 1)
    (hnested : Nested (lastBelow cs · p.line) levels blocks opener)
    (hstrays : (outline blocks opener (Piece.place p (Piece.ofLines levels ls))).strays = 0) :
    ∀ link ∈ (outline blocks opener (Piece.place p (Piece.ofLines levels ls))).lines,
      link.1 = lastBelow cs (tabsAt cs link.2) link.2 := by
  induction ls generalizing before p levels blocks opener with
  | nil =>
    rw [Piece.outline_ofLines_nil]
    rintro link ⟨⟩
  | cons line ls ih =>
    have hlast : line.ending = [] → ls = [] := after_eq_nil_of_lines_eq hlines
    have hblank : allBlank line.content = !line.isWritten :=
      allBlank_content_eq (by rw [hlines]; simp)
    have hwritten : isWritten cs p.line = line.isWritten := by simp [isWritten, hlines, hp]
    have htabs : tabsAt cs p.line = Piece.tabCount line.content := by
      simp [tabsAt, Line.tabs, Piece.tabCount, hlines, hp]
    have hlines' : lines (withoutMark cs) = (before ++ [line]) ++ ls := by
      rw [hlines, append_assoc, singleton_append]
    by_cases hline : line.isWritten
    · rw [hline] at hblank hwritten
      obtain ⟨q, opener', hq, hopener, houtline⟩ := Piece.outline_written_line hblank hlast
      rw [houtline] at hstrays ⊢
      obtain ⟨hrest, hstray⟩ := Nat.add_eq_zero_iff.1 hstrays
      intro link hlink
      rcases mem_cons.1 hlink with rfl | hlink
      · rw [hnested.headD_lineBlocks hstray, htabs]
      · have hunder : ∀ k, lastBelow cs k q.line =
            if Piece.tabCount line.content < k then some p.line
              else lastBelow cs k p.line := by
          intro k
          rw [hq, lastBelow, hwritten, htabs]
          simp
        exact ih hlines' (by rw [hq, hp]; simp) (hnested.step hstray hunder hopener) hrest
          link hlink
    · rw [eq_false_of_ne_true hline] at hblank hwritten
      obtain ⟨q, hq, houtline⟩ := Piece.outline_blank_line hblank hlast
      rw [houtline] at hstrays ⊢
      have hunder : (lastBelow cs · q.line) = (lastBelow cs · p.line) := by
        funext k
        rw [hq, lastBelow, hwritten]
        rfl
      exact ih hlines' (by rw [hq, hp]; simp) (by rw [hunder]; exact hnested) hstrays

namespace Node

/-- The node is a statement, a sub-keyword, or a part of one line. -/
def isPart (node : Node) : Bool :=
  node.line?.isSome || node.isInner

theorem isPart_under (x : Node) : ∀ y ∈ x.beside ++ x.within, y.isPart := by
  cases x with
  | statement s | subKeyword s | argument s | expression s =>
    cases s <;> simp [beside, within, children, isPart, line?, isInner, or_imp, forall_and]
  | _ => simp [beside, within, children, isPart, line?, isInner]

theorem line?_of_mem_children {node : Node} (h : child ∈ node.children) :
    child.line? = some child.span.start.line := by
  unfold children at h
  split at h
  · obtain ⟨s, -, rfl⟩ := mem_map.1 h
    rfl
  · rcases mem_append.1 h with h | h <;> obtain ⟨s, -, rfl⟩ := mem_map.1 h <;> rfl
  · obtain ⟨s, -, rfl⟩ := mem_map.1 h
    rfl
  · obtain ⟨s, -, rfl⟩ := mem_map.1 h
    rfl
  · cases h

end Node

namespace Program

/-- The nodes that hold statements, each with one of those it holds. -/
def holdings (program : Program) : List (Node × Node) :=
  program.nodes.flatMap fun parent => parent.children.map fun child => (parent, child)

theorem mem_holdings {program : Program} {parent : Node}
    (h : (parent, child) ∈ program.holdings) :
    parent ∈ program.nodes ∧ child ∈ parent.children := by
  obtain ⟨node, hnode, hchild⟩ := mem_flatMap.1 h
  obtain ⟨child', hchild', heq⟩ := mem_map.1 hchild
  cases heq
  exact ⟨hnode, hchild'⟩

theorem map_holdings (program : Program) :
    program.holdings.map (fun held => (held.1.line?, held.2.span.start.line)) =
      program.nodes.flatMap Node.links := by
  rw [holdings, map_flatMap]
  refine flatMap_congr fun node _ => ?_
  rw [map_map]
  rfl

/-- Only the program itself holds statements and begins on no line of its own. -/
theorem eq_program_of_line?_eq_none {program : Program} {parent : Node}
    (h : (parent, child) ∈ program.holdings) (hline : parent.line? = none) :
    parent = .program program := by
  obtain ⟨hparent, hchild⟩ := mem_holdings h
  rw [show program.nodes = _ from Node.nodes_eq (.program program)] at hparent
  rcases mem_cons.1 hparent with rfl | hparent
  · rfl
  · obtain ⟨y, hy, hparent⟩ := mem_flatMap.1 hparent
    have hpart := Node.forall_nodes (fun x _ => x.isPart_under)
        (Node.isPart_under _ y hy) parent hparent
    rw [Node.isPart, hline] at hpart
    have hlinks := Node.links_of_isInner hpart
    rw [Node.links, map_eq_nil_iff] at hlinks
    rw [hlinks] at hchild
    cases hchild

theorem countP_holdings (program : Program) (n : Nat) :
    program.holdings.countP (fun held => held.2.line? == some n) =
      ((program.nodes.flatMap Node.links).map Prod.snd).count n := by
  rw [← map_holdings, map_map, count, countP_map]
  refine countP_congr fun held hheld => ?_
  have hline := Node.line?_of_mem_children (mem_holdings hheld).2
  rw [hline]
  simp

end Program

/-- Where no fault is found, every link of the outline is to the last line with fewer tabs. -/
theorem parent_tokenize {source : String} (h : (parse source).diagnostics = []) :
    ∀ link ∈ (outline [] none (tokenize source)).lines,
      link.1 = lastBelow source.toList (tabsAt source.toList link.2) link.2 := by
  have hreported := (parseTokens_links (tokenize source)).2
  have hstrays : (outline [] none (tokenize source)).strays = 0 := by
    rw [show (parseTokens (tokenize source)).diagnostics = [] from h] at hreported
    exact Nat.le_zero.1 hreported
  obtain ⟨p, hp, htokens⟩ := tokenize_eq_place source
  rw [htokens] at hstrays ⊢
  refine parent_ofLines (nil_append _).symm hp ?_ hstrays
  exact ⟨.nil, rfl, lastBelow_zero _ _, fun _ hopener => by cases hopener⟩

/-- A node holds a statement where the outline has the link from the one to the other. -/
theorem link_of_mem_holdings {source : String} {n : Nat} {parent : Node}
    (h : (parent, child) ∈ (parse source).program.holdings) (hchild : child.line? = some n) :
    (parent.line?, n) ∈ (outline [] none (tokenize source)).lines := by
  have hstart := Node.line?_of_mem_children (Program.mem_holdings h).2
  have hline : child.span.start.line = n := Option.some.inj (hstart.symm.trans hchild)
  refine (parseTokens_links (tokenize source)).1.mem_iff.1 ?_
  rw [← Program.map_holdings, ← hline]
  exact mem_map_of_mem h

theorem countP_holdings_parse (source : String) (n : Nat) :
    (parse source).program.holdings.countP (fun held => held.2.line? == some n) =
      if isWritten source.toList n then 1 else 0 := by
  rw [Program.countP_holdings, ← count_numbers]
  exact ((parseTokens_links (tokenize source)).1.map Prod.snd).count_eq n

/-- **The nesting of a program is the indentation of its source.**  One node holds the statement
that begins on a line: the statement that begins on the last line before it with fewer tabs, or the
program where there is no such line. -/
theorem nesting_eq_indentation (source : String) (n : Nat)
    (hclean : (parse source).diagnostics = []) (hwritten : Text.isWritten source.toList n) :
    ∃ parent child,
      (parse source).program.holdings.filter (fun held => held.2.line? == some n) =
        [(parent, child)] ∧
      parent.line? = Text.lastBelow source.toList (Text.tabsAt source.toList n) n ∧
      (parent.line? = none → parent = .program (parse source).program) := by
  have hcount := countP_holdings_parse source n
  rw [if_pos hwritten, countP_eq_length_filter] at hcount
  obtain ⟨⟨parent, child⟩, hfilter⟩ := length_eq_one_iff.1 hcount
  have hmem : (parent, child) ∈ (parse source).program.holdings.filter
      (fun held => held.2.line? == some n) := by
    rw [hfilter]
    exact mem_singleton_self _
  obtain ⟨hheld, hchild⟩ := mem_filter.1 hmem
  have hlink := link_of_mem_holdings hheld (beq_iff_eq.1 hchild)
  refine ⟨parent, child, hfilter, ?_, ?_⟩
  · exact parent_tokenize hclean _ hlink
  · exact Program.eq_program_of_line?_eq_none hheld

/-- A question with two answers, the second behind a line that is deeper still. -/
def teaQuestion : String :=
  "*question: Tea?\n\t\tYes\n\n\t\t\tGood.\n\t\tNo"

theorem nesting_teaQuestion :
    (parse teaQuestion).diagnostics = [] ∧ Text.isWritten teaQuestion.toList 5 ∧
    ∃ parent child,
      (parse teaQuestion).program.holdings.filter (fun held => held.2.line? == some 5) =
        [(parent, child)] ∧ parent.line? = some 1 := by
  have hclean : (parse teaQuestion).diagnostics = [] := by
    decide +kernel
  have hwritten : isWritten teaQuestion.toList 5 := by
    decide +kernel
  have hbelow : lastBelow teaQuestion.toList (tabsAt teaQuestion.toList 5) 5 =
      some 1 := by
    decide +kernel
  obtain ⟨parent, child, hfilter, hparent, -⟩ :=
    nesting_eq_indentation teaQuestion 5 hclean hwritten
  exact ⟨hclean, hwritten, parent, child, hfilter, hparent.trans hbelow⟩

end ScriptLint

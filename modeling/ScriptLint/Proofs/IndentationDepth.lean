import ScriptLint.Proofs.CommentLines
import ScriptLint.Proofs.Nesting
import Mathlib.Algebra.Ring.Int.Defs

/-!
# The depth of indentation

An indent opens a level and a dedent closes one.  The depth of tokens is the number of levels they
leave open.

**Argument.**  The open levels of the tokenizer, with the margin below them, are the stack of tab
counts turned round: a line takes from it the counts above its own, and puts its own on top.  Each
line leads from the number of levels open before it to the number open behind it, and closes no
level that is not open.  The end of the input closes all.

**Results.**
* `tabStack_eq`: the stack is the open levels.
* `climbs_ofLine`, `climbs_lines`: what a line, and what lines do to the depth.
* `depth_before_content`: the depth at the content of a line is the height of the stack.
-/

namespace ScriptLint

open List Text

open Piece

variable {t : Token} {levels : List Nat} {p : Position}

/-- What a token does to the depth. -/
def Token.rise (t : Token) : Int :=
  match t.kind with
  | .indent => 1
  | .dedent => -1
  | _ => 0

/-- The number of levels that tokens open and leave open. -/
def depth (ts : List Token) : Int :=
  (ts.map Token.rise).sum

@[simp]
theorem depth_nil : depth [] = 0 := rfl

@[simp]
theorem depth_cons (t : Token) (ts : List Token) : depth (t :: ts) = t.rise + depth ts := by
  simp [depth]

@[simp]
theorem depth_append (ts us : List Token) : depth (ts ++ us) = depth ts + depth us := by
  simp [depth]

theorem Token.rise_indent (h : t.kind = .indent) : t.rise = 1 := by
  simp [Token.rise, h]

theorem Token.rise_dedent (h : t.kind = .dedent) : t.rise = -1 := by
  simp [Token.rise, h]

/-- The token neither opens nor closes a level. -/
def Token.KeepsDepth (t : Token) : Prop :=
  t.kind ≠ .indent ∧ t.kind ≠ .dedent

theorem Token.rise_of_keepsDepth (h : t.KeepsDepth) : t.rise = 0 := by
  unfold Token.rise
  split
  · next hkind => exact absurd hkind h.1
  · next hkind => exact absurd hkind h.2
  · rfl

theorem Token.keepsDepth_of_content (h : t.kind.isStructural = false) : t.KeepsDepth := by
  constructor
  · intro hkind
    rw [hkind] at h
    cases h
  · intro hkind
    rw [hkind] at h
    cases h

/-- The tokens lead from one depth to another, and close no level that is not open. -/
structure Climbs (n m : Nat) (ts : List Token) : Prop where
  arrives : n + depth ts = m
  stays : ∀ us, us <+: ts → 0 ≤ n + depth us

namespace Climbs

variable {n m k : Nat} {ts us : List Token}

theorem nil (n : Nat) : Climbs n n [] := by
  constructor
  · simp
  · intro us hus
    rw [prefix_nil.1 hus]
    simp

theorem append (h : Climbs n m ts) (h' : Climbs m k us) : Climbs n k (ts ++ us) := by
  constructor
  · rw [depth_append, ← add_assoc, h.arrives, h'.arrives]
  · intro vs hvs
    rcases prefix_or_prefix_of_prefix hvs (prefix_append ts us) with hvs' | ⟨ws, rfl⟩
    · exact h.stays vs hvs'
    · have hws := h'.stays ws ((prefix_append_right_inj ts).1 hvs)
      rwa [depth_append, ← add_assoc, h.arrives]

/-- One token, which may close a level if one is open. -/
theorem single (h : n + t.rise = m) : Climbs n m [t] := by
  constructor
  · simpa using h
  · intro us hus
    rcases prefix_cons_iff.1 hus with rfl | ⟨vs, rfl, hvs⟩
    · simp
    · rw [prefix_nil.1 hvs]
      simp [h]

/-- Tokens that open and close nothing keep the depth. -/
theorem of_keepsDepth (h : ∀ t ∈ ts, t.KeepsDepth) : Climbs n n ts := by
  induction ts with
  | nil => exact .nil n
  | cons t ts ih =>
    obtain ⟨ht, hts⟩ := forall_mem_cons.1 h
    have hsingle : Climbs n n [t] := .single (by simp [Token.rise_of_keepsDepth ht])
    exact hsingle.append (ih hts)

/-- So many dedents close so many levels. -/
theorem of_dedents (h : ∀ t ∈ ts, t.kind = .dedent) (hn : n = ts.length + m) : Climbs n m ts := by
  induction ts generalizing n with
  | nil =>
    rw [hn, length_nil, Nat.zero_add]
    exact .nil m
  | cons t ts ih =>
    obtain ⟨ht, hts⟩ := forall_mem_cons.1 h
    have hsingle : Climbs n (ts.length + m) [t] := by
      apply single
      rw [hn, length_cons, Token.rise_dedent ht]
      omega
    exact hsingle.append (ih hts rfl)

end Climbs

namespace Text

/-- The stack of tab counts at a line: the counts above its own are dropped, and its own is put on
top if it is not there already. -/
def pushTabs (stack : List Nat) (tabs : Nat) : List Nat :=
  let kept := stack.filter (· ≤ tabs)
  if kept.getLast? = some tabs then kept else kept ++ [tabs]

/-- The stack of tab counts behind lines; blank lines leave it. -/
def tabStack (ls : List Line) : List Nat :=
  (ls.filter Line.isWritten).foldl (fun stack line => pushTabs stack line.tabs) [0]

end Text

theorem head?_margin (levels : List Nat) : (levels ++ [0]).head? = some (levels.headD 0) := by
  cases levels <;> rfl

/-- The levels that are kept are those that are not above the line. -/
theorem filter_levels (h : (levels ++ [0]).Pairwise (· > ·)) (tabs : Nat) :
    (levels ++ [0]).filter (· ≤ tabs) = keptLevels levels tabs ++ [0] := by
  induction levels with
  | nil => rfl
  | cons level levels ih =>
    obtain ⟨hlevel, hlevels⟩ := pairwise_cons.1 h
    by_cases habove : tabs < level
    · rw [cons_append, filter_cons_of_neg (by simpa using habove), ih hlevels, keptLevels,
        keptLevels, dropWhile_cons_of_pos (by simpa using habove)]
    · rw [keptLevels, dropWhile_cons_of_neg (by simpa using habove), filter_eq_self]
      intro k hk
      rcases mem_cons.1 hk with rfl | hk
      · simpa using habove
      · have hk := hlevel k hk
        exact decide_eq_true (by omega)

theorem pairwise_nextLevels_margin (h : (levels ++ [0]).Pairwise (· > ·)) (tabs : Nat) :
    (nextLevels levels tabs ++ [0]).Pairwise (· > ·) := by
  have hkept : (keptLevels levels tabs ++ [0]).Pairwise (· > ·) := by
    rw [← filter_levels h tabs]
    exact h.sublist filter_sublist
  unfold nextLevels
  dsimp only
  split
  · next hdeeper =>
    constructor
    · intro level hlevel
      rcases mem_append.1 hlevel with hlevel | hlevel
      · exact Nat.lt_of_le_of_lt (le_headD_of_mem (pairwise_append.1 hkept).1 hlevel) hdeeper
      · rw [mem_singleton.1 hlevel]
        exact Nat.zero_lt_of_lt hdeeper
    · exact hkept
  · exact hkept

/-- A line does to the open levels what it does to the stack. -/
theorem pushTabs_reverse (h : (levels ++ [0]).Pairwise (· > ·)) (tabs : Nat) :
    pushTabs (levels ++ [0]).reverse tabs = (nextLevels levels tabs ++ [0]).reverse := by
  have hnext := headD_nextLevels levels tabs
  unfold pushTabs
  dsimp only
  rw [filter_reverse, filter_levels h tabs, getLast?_reverse, head?_margin]
  unfold nextLevels at hnext ⊢
  by_cases hdeeper : (keptLevels levels tabs).headD 0 < tabs
  · rw [if_pos hdeeper, if_neg (by simpa using hdeeper.ne), cons_append, reverse_cons]
  · rw [if_neg hdeeper] at hnext ⊢
    rw [if_pos (congrArg some hnext)]

/-- The open levels behind lines. -/
def levelsThrough (levels : List Nat) (ls : List Line) : List Nat :=
  ls.foldl (fun levels line => levelsAfter levels line.content) levels

/-- The pieces of a line with its ending. -/
def ofLine (levels : List Nat) (line : Line) : List Piece :=
  ofLineContent levels line.content ++ ofEnding line.ending

/-- The pieces of lines, without what closes the levels behind them. -/
def openLines : List Nat → List Line → List Piece
  | _, [] => []
  | levels, line :: ls => ofLine levels line ++ openLines (levelsAfter levels line.content) ls

theorem ofLines_append (levels : List Nat) (above ls : List Line) :
    ofLines levels (above ++ ls) =
      openLines levels above ++ ofLines (levelsThrough levels above) ls := by
  induction above generalizing levels with
  | nil => rfl
  | cons line above ih =>
    rw [cons_append, ofLines, ih, openLines, ofLine]
    simp only [append_assoc]
    rfl

variable {ls : List Line}

/-- The levels behind lines and the stack behind them. -/
theorem levelsThrough_eq {levels : List Nat}
    (hwritten : ∀ line ∈ ls, allBlank line.content = !line.isWritten)
    (h : (levels ++ [0]).Pairwise (· > ·)) :
    (levelsThrough levels ls ++ [0]).Pairwise (· > ·) ∧
    (levelsThrough levels ls ++ [0]).reverse =
      (ls.filter Line.isWritten).foldl
        (fun stack line => pushTabs stack (tabCount line.content)) (levels ++ [0]).reverse := by
  induction ls generalizing levels with
  | nil => exact ⟨h, rfl⟩
  | cons line ls ih =>
    obtain ⟨hline, hls⟩ := forall_mem_cons.1 hwritten
    have hstep : levelsThrough levels (line :: ls) = levelsThrough
        (levelsAfter levels line.content) ls := rfl
    rw [hstep]
    by_cases hw : line.isWritten
    · rw [levelsAfter, hline, hw, filter_cons_of_pos hw, foldl_cons, pushTabs_reverse h]
      exact ih hls (pairwise_nextLevels_margin h _)
    · rw [levelsAfter, hline, eq_false_of_ne_true hw, filter_cons_of_neg hw]
      exact ih hls h

/-- **The stack is the open levels**, with the margin below them. -/
theorem tabStack_eq {cs : List Char} {above ls : List Line} (h : lines cs = above ++ ls) :
    tabStack above = (levelsThrough [] above ++ [0]).reverse ∧
    (tabStack above).Pairwise (· < ·) := by
  have hwritten : ∀ line ∈ above, allBlank line.content = !line.isWritten := by
    intro line hline
    apply allBlank_content_eq
    rw [h]
    exact mem_append_left ls hline
  obtain ⟨hpairwise, heq⟩ := @levelsThrough_eq above [] hwritten (pairwise_singleton _ _)
  have hstack : tabStack above = (levelsThrough [] above ++ [0]).reverse := heq.symm
  refine ⟨hstack, ?_⟩
  rw [hstack]
  exact pairwise_reverse.2 hpairwise

/-- The indentation of a line leads from the levels before it to those behind it. -/
theorem climbs_ofIndentation (levels : List Nat) (tabs : Nat) (p : Position) :
    Climbs levels.length (nextLevels levels tabs).length (place p (ofIndentation levels tabs)) := by
  obtain ⟨closing, opening, hplace, hclosing, hlength, hopening⟩ :=
    place_ofIndentation levels tabs p
  have hlevels : levels.length = closing.length + (keptLevels levels tabs).length := by
    rw [hlength, ← length_append, takeWhile_append_keptLevels]
  have hdedents := Climbs.of_dedents hclosing hlevels
  rw [hplace]
  apply hdedents.append
  unfold nextLevels
  split at hopening
  · next hdeeper =>
    obtain ⟨t, rfl, ht⟩ := hopening
    rw [if_pos hdeeper]
    apply Climbs.single
    rw [Token.rise_indent ht]
    rfl
  · next hdeeper =>
    subst hopening
    rw [if_neg hdeeper]
    exact .nil _

/-- The tokens of a line that is not blank: its indentation and its content. -/
theorem place_written_content {content : List Char} (h : allBlank content = false) :
    ∃ first more, place p (ofLineContent levels content) =
        place p (ofIndentation levels (tabCount content)) ++ first :: more ∧
      ∀ t ∈ first :: more, t.kind.isStructural = false := by
  obtain ⟨first, more, hcontent, -, -, -⟩ := place_content_eq_cons (0 < tabCount content)
    ((content.drop (tabCount content)).takeWhile isGap) (rest_ne_nil_of_not_allBlank h)
    (last p (ofIndentation levels (tabCount content)))
  refine ⟨first, more, ?_, ?_⟩
  · unfold ofLineContent
    rw [if_neg (by simp [h])]
    rw [place_append, hcontent]
  · rw [← hcontent]
    intro t ht
    apply isStructural_of_mem_place _ ht
    intro piece hpiece
    rcases mem_cons.1 hpiece with rfl | hpiece
    · exact isInline_gap_takeWhile _
    · exact isInline_of_mem_ofContent hpiece

theorem kinds_ofEnding (ending : List Char) (p : Position) :
    (place p (ofEnding ending)).map Token.kind = if ending = [] then [] else [.newline] := by
  cases ending <;> rfl

theorem kind_of_mem_ofEnding {ending : List Char} (h : t ∈ place p (ofEnding ending)) :
    t.kind = .newline := by
  have hkind := mem_map_of_mem (f := Token.kind) h
  rw [kinds_ofEnding] at hkind
  split at hkind
  · cases hkind
  · exact mem_singleton.1 hkind

theorem climbs_ofLineContent (levels : List Nat) (content : List Char) (p : Position) :
    Climbs levels.length (levelsAfter levels content).length
      (place p (ofLineContent levels content)) := by
  unfold levelsAfter
  by_cases hblank : allBlank content
  · rw [if_pos hblank, ofLineContent, if_pos hblank]
    exact .nil _
  · obtain ⟨first, more, hplace, hcontent⟩ :=
      @place_written_content levels p content (by simpa using hblank)
    rw [if_neg hblank, hplace]
    apply (climbs_ofIndentation levels (tabCount content) p).append
    exact .of_keepsDepth fun t ht => Token.keepsDepth_of_content (hcontent t ht)

/-- **One line.**  It leads from the levels open before it to those open behind it. -/
theorem climbs_ofLine (levels : List Nat) (line : Line) (p : Position) :
    Climbs levels.length (levelsAfter levels line.content).length
      (place p (ofLine levels line)) := by
  rw [ofLine, place_append]
  apply (climbs_ofLineContent levels line.content p).append
  apply Climbs.of_keepsDepth
  intro t ht
  have hkind := kind_of_mem_ofEnding ht
  constructor <;> simp [hkind]

/-- **Lines**, by induction over them. -/
theorem climbs_lines (ls : List Line) (levels : List Nat) (p : Position) :
    Climbs levels.length (levelsThrough levels ls).length (place p (openLines levels ls)) := by
  induction ls generalizing levels p with
  | nil => exact .nil _
  | cons line ls ih =>
    rw [openLines, place_append]
    exact (climbs_ofLine levels line p).append (ih _ _)

/-- The end of the input closes the levels that are left. -/
theorem climbs_ofLines_nil (levels : List Nat) (p : Position) :
    Climbs levels.length 0 (place p (ofLines levels [])) := by
  have hdedents : Climbs levels.length 0 (place p (dedents levels)) := by
    rw [place_dedents]
    apply Climbs.of_dedents
    · intro t ht
      rw [eq_of_mem_replicate ht]
    · rw [length_replicate, Nat.add_zero]
  rw [ofLines, place_append]
  exact hdedents.append (.single rfl)

theorem kind_ne_endOfInput_of_mem_ofLine {line : Line} (h : t ∈ place p (ofLine levels line)) :
    t.kind ≠ .endOfInput := by
  intro hkind
  rw [ofLine, place_append] at h
  rcases mem_append.1 h with h | h
  · by_cases hblank : allBlank line.content
    · rw [ofLineContent, if_pos hblank] at h
      cases h
    · obtain ⟨first, more, hplace, hcontent⟩ :=
        @place_written_content levels p line.content (by simpa using hblank)
      rw [hplace] at h
      rcases mem_append.1 h with h | h
      · rcases kind_of_mem_ofIndentation h with h | h <;> simp [hkind] at h
      · have h := hcontent t h
        rw [hkind] at h
        cases h
  · have h := kind_of_mem_ofEnding h
    rw [hkind] at h
    cases h

theorem kind_ne_endOfInput_of_mem_lines (h : t ∈ place p (openLines levels ls)) :
    t.kind ≠ .endOfInput := by
  induction ls generalizing levels p with
  | nil => cases h
  | cons line ls ih =>
    rw [openLines, place_append] at h
    rcases mem_append.1 h with h | h
    · exact kind_ne_endOfInput_of_mem_ofLine h
    · exact ih h

theorem last_ofLine (levels : List Nat) (line : Line) (p : Position) :
    last p (ofLine levels line) = afterLine p line := by
  rw [ofLine, last_append, last_ofLineContent]
  rfl

theorem line_of_mem_ofLine {line : Line} (h : t ∈ place p (ofLine levels line)) :
    t.span.start.line = p.line := by
  rw [ofLine, place_append, last_ofLineContent] at h
  rcases mem_append.1 h with h | h
  · exact line_of_mem_ofLineContent h
  · unfold ofEnding at h
    split at h
    · cases h
    · rw [mem_singleton.1 h]
      rfl

/-- The tokens of lines stand on these lines, and the next line follows. -/
theorem line_of_mem_lines (hending : ∀ line ∈ ls, line.ending ≠ []) :
    (last p (openLines levels ls)).line = p.line + ls.length ∧
    ∀ t ∈ place p (openLines levels ls), t.span.start.line < p.line + ls.length := by
  induction ls generalizing levels p with
  | nil =>
    constructor
    · rfl
    · intro t ht
      cases ht
  | cons line ls ih =>
    obtain ⟨hline, hls⟩ := forall_mem_cons.1 hending
    have hnext : (afterLine p line).line = p.line + 1 := by rw [line_afterLine, if_neg hline]
    obtain ⟨hlast, hplace⟩ := @ih (levelsAfter levels line.content) (afterLine p line) hls
    rw [openLines, last_append, place_append, last_ofLine, length_cons]
    constructor
    · omega
    · intro t ht
      rcases mem_append.1 ht with ht | ht
      · have hline := line_of_mem_ofLine ht
        omega
      · have hline := hplace t ht
        omega

section Source

variable {source : String} {above below : List Line} {line : Line}

/-- The tokens of a source are those of its lines, and what closes the input. -/
theorem tokenize_eq_closed (source : String) :
    ∃ p q : Position, tokenize source =
      place p (openLines [] (lines (withoutMark source.toList))) ++
        place q (ofLines (levelsThrough [] (lines (withoutMark source.toList))) []) := by
  obtain ⟨p, -, htokens⟩ := tokenize_eq_place source
  refine ⟨p, last p (openLines [] (lines (withoutMark source.toList))), ?_⟩
  rw [htokens, ← place_append, ← ofLines_append, append_nil]

theorem climbs_tokenize (source : String) : Climbs 0 0 (tokenize source) := by
  obtain ⟨p, q, htokens⟩ := tokenize_eq_closed source
  rw [htokens]
  exact (climbs_lines _ [] p).append (climbs_ofLines_nil _ q)

/-- The end of the input is the last token, and the only one of its kind. -/
theorem endOfInput_tokenize (source : String) :
    ∃ ts stop, tokenize source = ts ++ [stop] ∧ stop.kind = .endOfInput ∧
      ∀ t ∈ ts, t.kind ≠ .endOfInput := by
  obtain ⟨p, q, htokens⟩ := tokenize_eq_closed source
  rw [ofLines, place_append, ← append_assoc] at htokens
  refine ⟨_, _, htokens, rfl, ?_⟩
  intro t ht
  rcases mem_append.1 ht with ht | ht
  · exact kind_ne_endOfInput_of_mem_lines ht
  · rw [place_dedents] at ht
    simp [eq_of_mem_replicate ht]

/-- The tokens of a source on a line of it: those before are on earlier lines, and those behind it
are on later lines or close the input. -/
structure OnLine (source : String) (n : Nat) (before own after : List Token) : Prop where
  whole : tokenize source = before ++ (own ++ after)
  earlier : ∀ t ∈ before, t.span.start.line < n
  same : ∀ t ∈ own, t.span.start.line = n
  later : ∀ t ∈ after, n < t.span.start.line ∨ t.kind = .dedent ∨ t.kind = .endOfInput

/-- Where the tokens of a line stand among those of its source, and the depth before them. -/
theorem exists_onLine (h : lines (withoutMark source.toList) = above ++ line :: below) :
    ∃ (before after : List Token) (q : Position),
      OnLine source (above.length + 1) before
        (place q (ofLine (levelsThrough [] above) line)) after ∧
      depth before = (levelsThrough [] above).length := by
  obtain ⟨p, hp, htokens⟩ := tokenize_eq_place source
  have hending : ∀ line ∈ above, line.ending ≠ [] := by
    intro line' hline
    have hpair := pairwise_ending_lines (withoutMark source.toList)
    rw [h] at hpair
    exact (pairwise_append.1 hpair).2.2 line' hline line mem_cons_self
  obtain ⟨hq, hbefore⟩ := @line_of_mem_lines [] p above hending
  have hdepth := (climbs_lines above [] p).arrives
  refine ⟨place p (openLines [] above),
    place (afterLine (last p (openLines [] above)) line)
      (ofLines (levelsAfter (levelsThrough [] above) line.content) below),
    last p (openLines [] above), ⟨?_, ?_, ?_, ?_⟩, ?_⟩
  · rw [htokens, h, ofLines_append, place_append, ofLines, ← ofLine, place_append, last_ofLine]
  · intro t ht
    have hline := hbefore t ht
    omega
  · intro t ht
    have hline := line_of_mem_ofLine ht
    omega
  · intro t ht
    by_cases hnil : line.ending = []
    · rw [after_eq_nil_of_lines_eq h hnil] at ht
      exact .inr (kind_of_mem_ofLines_nil ht)
    · have hline := (line_bounds_of_mem_place ht).1
      rw [line_afterLine, if_neg hnil] at hline
      exact .inl (by omega)
  · simpa using hdepth

/-- The depth at the content of a line is the height of the stack. -/
theorem depth_before_content (h : lines (withoutMark source.toList) = above ++ line :: below)
    (hwritten : line.isWritten) (p : Position) :
    (levelsThrough [] above).length +
        depth (place p (ofIndentation (levelsThrough [] above) (tabCount line.content))) =
      (tabStack (above ++ [line])).length - 1 ∧
    (tabStack (above ++ [line])).Pairwise (· < ·) ∧
    (tabStack (above ++ [line])).head? = some 0 ∧
    (tabStack (above ++ [line])).getLast? = some (tabCount line.content) := by
  have hlines : lines (withoutMark source.toList) = (above ++ [line]) ++ below := by
    rw [h, append_assoc, singleton_append]
  have hblank : allBlank line.content = false := by
    rw [allBlank_content_eq (by rw [h]; simp), hwritten]
    rfl
  have hlevels : levelsThrough [] (above ++ [line]) =
      nextLevels (levelsThrough [] above) (tabCount line.content) := by
    rw [levelsThrough, foldl_append, foldl_cons, levelsAfter, hblank]
    rfl
  obtain ⟨hstack, hpairwise⟩ := tabStack_eq hlines
  have harrives := (climbs_ofIndentation (levelsThrough [] above) (tabCount line.content) p).arrives
  have htop := headD_nextLevels (levelsThrough [] above) (tabCount line.content)
  refine ⟨?_, hpairwise, ?_, ?_⟩
  · rw [hstack, hlevels, length_reverse, length_append, length_singleton]
    omega
  · rw [hstack, head?_reverse, getLast?_concat]
  · rw [hstack, hlevels, getLast?_reverse, head?_margin, htop]

end Source

/-- **Indentation tokens mirror the stack of tab counts.**  The tokens of a source end with the only
end of the input.  No level is closed that is not open, and at the end none is open.  A blank line
gives its ending and nothing else.  Any other line gives indents and dedents, then content and its
ending, and the depth at its content is one less than the height of the stack of tab counts, which
rises from zero to the tabs of the line. -/
theorem indentation_mirrors_tabStack (source : String) :
    (∃ ts stop, tokenize source = ts ++ [stop] ∧ stop.kind = .endOfInput ∧
      ∀ t ∈ ts, t.kind ≠ .endOfInput) ∧
    (∀ ts, ts <+: tokenize source → 0 ≤ depth ts) ∧
    depth (tokenize source) = 0 ∧
    ∀ above line below, Text.lines (Text.withoutMark source.toList) = above ++ line :: below →
      ∃ before own after, OnLine source (above.length + 1) before own after ∧
        if line.isWritten then
          ∃ layout first more ending, own = layout ++ (first :: more) ++ ending ∧
            (∀ t ∈ layout, t.kind = .indent ∨ t.kind = .dedent) ∧
            (∀ t ∈ first :: more, t.kind.isStructural = false) ∧
            ending.map Token.kind = (if line.ending = [] then [] else [.newline]) ∧
            depth (before ++ layout) = (Text.tabStack (above ++ [line])).length - 1 ∧
            (Text.tabStack (above ++ [line])).Pairwise (· < ·) ∧
            (Text.tabStack (above ++ [line])).head? = some 0 ∧
            (Text.tabStack (above ++ [line])).getLast? = some line.tabs
        else own.map Token.kind = if line.ending = [] then [] else [.newline] := by
  have hclimbs := climbs_tokenize source
  refine ⟨endOfInput_tokenize source, by simpa using hclimbs.stays,
    by simpa using hclimbs.arrives, ?_⟩
  intro above line below hlines
  obtain ⟨before, after, q, hon, hdepth⟩ := exists_onLine hlines
  have hblank : allBlank line.content = !line.isWritten :=
    allBlank_content_eq (by rw [hlines]; simp)
  refine ⟨before, _, after, hon, ?_⟩
  by_cases hwritten : line.isWritten
  · rw [if_pos hwritten]
    obtain ⟨first, more, hplace, hcontent⟩ :=
      @place_written_content (levelsThrough [] above) q line.content (by rw [hblank, hwritten]; rfl)
    refine ⟨place q (ofIndentation (levelsThrough [] above) (tabCount line.content)), first, more,
      place (last q (ofLineContent (levelsThrough [] above) line.content)) (ofEnding line.ending),
      ?_, fun t ht => kind_of_mem_ofIndentation ht, hcontent, kinds_ofEnding _ _, ?_⟩
    · rw [ofLine, place_append, hplace]
    · rw [depth_append, hdepth]
      exact depth_before_content hlines hwritten q
  · rw [if_neg hwritten, ofLine, ofLineContent, if_pos (by simpa [hblank] using hwritten)]
    exact kinds_ofEnding _ _

end ScriptLint

import ScriptLint.Proofs.BlockReads
import ScriptLint.Proofs.TokenPlaces

/-!
# The outline of a source, line by line

The tokens of a line that is not blank are dedents, at most one indent, and content.  So the outline
of a source can be read off its lines: a line closes the blocks above its indentation, opens one if
it is indented further than what is left, and adds itself.  A blank line changes nothing.

**Results.**
* `outline_blank_line`, `outline_written_line`: what one line does.
* `numbers_ofLines`: the outline names every line that is not blank, once and in order.
* `one_statement_per_line`: the statements of a program are its lines.
-/

namespace ScriptLint

open List Text

variable {cs : List Char} {blocks : List (Option Nat)} {opener : Option Nat}

/-- The outline with some more stray indents. -/
def Outline.addStrays (n : Nat) (o : Outline) : Outline :=
  { o with strays := o.strays + n }

/-- The open blocks after an indent, and whether it was a stray. -/
def indentBlocks (blocks : List (Option Nat)) (opener : Option Nat) : List (Option Nat) × Nat :=
  if blocks.length < maxDepth then
    match opener with
    | some line => (some line :: blocks, 0)
    | none => (blocks.headD none :: blocks, 1)
  else
    (blocks, 1)

/-- An indent that is no stray opens the block of the line before it. -/
theorem indentBlocks_of_no_stray {blocks : List (Option Nat)} {opener : Option Nat}
    (h : (indentBlocks blocks opener).2 = 0) :
    ∃ line, opener = some line ∧ (indentBlocks blocks opener).1 = some line :: blocks := by
  unfold indentBlocks at h ⊢
  by_cases hdepth : blocks.length < maxDepth
  · rw [if_pos hdepth] at h ⊢
    cases opener with
    | none => cases h
    | some line => exact ⟨line, rfl, rfl⟩
  · rw [if_neg hdepth] at h
    cases h

/-- The open blocks at a line with so many tabs, and the number of stray indents before it. -/
def lineBlocks (levels : List Nat) (tabs : Nat) (blocks : List (Option Nat))
    (opener : Option Nat) : List (Option Nat) × Nat :=
  let closed := (levels.takeWhile (tabs < ·)).length
  if (Piece.keptLevels levels tabs).headD 0 < tabs then
    indentBlocks (blocks.drop closed) (if closed = 0 then opener else none)
  else
    (blocks.drop closed, 0)

theorem outline_dedents {ts rest : List Token} (h : ∀ t ∈ ts, t.kind = .dedent) :
    outline blocks opener (ts ++ rest) =
      outline (blocks.drop ts.length) (if ts.length = 0 then opener else none) rest := by
  induction ts generalizing blocks opener with
  | nil => rfl
  | cons t ts ih =>
    rw [cons_append, outline_dedent (h t mem_cons_self), ih fun u hu => h u (mem_cons_of_mem t hu)]
    simp [drop_tail]

theorem outline_indentBlocks {t : Token} {rest : List Token} (h : t.kind = .indent) :
    outline blocks opener (t :: rest) =
      (outline (indentBlocks blocks opener).1 none rest).addStrays
        (indentBlocks blocks opener).2 := by
  unfold indentBlocks
  split
  · next hdepth =>
    cases opener with
    | none => rw [outline_indent h hdepth]; rfl
    | some line => rw [outline_indent_opened h hdepth]; rfl
  · next hdepth => rw [outline_indent_deep h hdepth]; rfl

namespace Piece

/-- Text that is not empty begins with a token. -/
theorem ofText_eq_cons (h : cs ≠ []) :
    ∃ kind text pieces, ofText cs = token kind text :: pieces ∧
      kind ≠ .commentStart ∧ kind ≠ .comment := by
  cases cs with
  | nil => exact absurd rfl h
  | cons c rest =>
    rw [ofText]
    split
    · split
      · exact ⟨_, _, _, rfl, by decide, by decide⟩
      · exact ⟨_, _, _, rfl, by decide, by decide⟩
    · exact ⟨_, _, _, rfl, by decide, by decide⟩

/-- The content of a line begins with a token; a comment is nothing but its mark and its text. -/
theorem ofContent_eq_cons (indented : Bool) (h : cs ≠ []) :
    ∃ kind text pieces, ofContent indented cs = token kind text :: pieces ∧
      ((kind = .commentStart ∧ ∃ body, cs = '-' :: '-' :: body ∧ pieces = [token .comment body]) ∨
        kind ≠ .commentStart ∧ kind ≠ .comment) := by
  unfold ofContent
  split
  · exact ⟨_, _, _, rfl, .inl ⟨rfl, _, rfl, rfl⟩⟩
  · exact ⟨_, _, _, rfl, .inr ⟨by decide, by decide⟩⟩
  · unfold ofKeywordLine
    dsimp only
    split
    · obtain ⟨kind, text, pieces, heq, hkind⟩ := ofText_eq_cons h
      exact ⟨kind, text, pieces, heq, .inr hkind⟩
    · exact ⟨_, _, _, rfl, .inr ⟨by decide, by decide⟩⟩
  · obtain ⟨kind, text, pieces, heq, hkind⟩ := ofText_eq_cons h
    exact ⟨kind, text, pieces, heq, .inr hkind⟩

theorem isStructural_of_mem_place {p : Position} {pieces : List Piece} {t : Token}
    (hpieces : ∀ piece ∈ pieces, piece.isInline) (h : t ∈ place p pieces) :
    t.kind.isStructural = false := by
  obtain ⟨_, hmem, -⟩ := exists_piece_of_mem_place h
  simpa [isInline] using hpieces _ hmem

/-- The content of a line is a first token and what its statement takes. -/
theorem place_content_eq_cons (indented : Bool) (before : List Char) (h : cs ≠ []) (p : Position) :
    ∃ t more, place p (gap before :: ofContent indented cs) = t :: more ∧
      t.kind.isStructural = false ∧ t.span.start.line = p.line ∧
      ∀ after : List Token, (∀ u ∈ after.head?, u.kind.isStructural) →
        t.afterLine (more ++ after) = after := by
  obtain ⟨kind, text, pieces, heq, hkind⟩ := ofContent_eq_cons indented h
  have hinline : ∀ piece ∈ token kind text :: pieces, piece.isInline := by
    intro piece hpiece
    exact isInline_of_mem_ofContent (by rw [heq]; exact hpiece)
  have hcontent : kind.isStructural = false := by
    simpa [isInline] using hinline _ mem_cons_self
  rw [heq]
  refine ⟨_, _, rfl, hcontent, rfl, ?_⟩
  intro after hafter
  unfold Token.afterLine
  rcases hkind with ⟨rfl, body, -, rfl⟩ | ⟨hstart, hcomment⟩
  · rfl
  · split
    · next hkind => exact absurd hkind hstart
    · next hkind => exact absurd hkind hcomment
    · have hmore : ∀ t ∈ place (next (next p (gap before)) (token kind text)) pieces,
          t.kind.isStructural = false := fun t ht =>
        isStructural_of_mem_place (fun piece hpiece => hinline piece (mem_cons_of_mem _ hpiece)) ht
      rw [dropWhile_append_of_pos fun t ht => by simp [hmore t ht]]
      cases after with
      | nil => rfl
      | cons u after =>
        have hu := hafter u rfl
        rw [dropWhile_cons_of_neg (by simp [hu])]

/-- A line that is not blank has content behind its indentation. -/
theorem rest_ne_nil_of_not_allBlank {content : List Char} (h : allBlank content = false) :
    (content.drop (tabCount content)).dropWhile isGap ≠ [] := by
  intro hnil
  have hsplit : (content.drop (tabCount content)).takeWhile isGap ++
      (content.drop (tabCount content)).dropWhile isGap = content.drop (tabCount content) :=
    takeWhile_append_dropWhile
  rw [hnil, append_nil] at hsplit
  have hblank : allBlank content = true := by
    refine all_eq_true.2 fun c hc => ?_
    rw [← replicate_tab_append_drop content, ← hsplit] at hc
    rcases mem_append.1 hc with hc | hc
    · rw [eq_of_mem_replicate hc]
      decide
    · exact isBlank_of_isGap c (all_eq_true.1 all_takeWhile c hc)
  rw [h] at hblank
  cases hblank

/-- The tokens of an indentation: a dedent for every level it closes, and an indent if it opens
one. -/
theorem place_ofIndentation (levels : List Nat) (tabs : Nat) (p : Position) :
    ∃ closing opening, place p (ofIndentation levels tabs) = closing ++ opening ∧
      (∀ t ∈ closing, t.kind = .dedent) ∧
      closing.length = (levels.takeWhile (tabs < ·)).length ∧
      (if (keptLevels levels tabs).headD 0 < tabs then ∃ t, opening = [t] ∧
        t.kind = .indent else opening = []) := by
  unfold ofIndentation
  rw [place_append, place_dedents]
  refine ⟨_, _, rfl, ?_, length_replicate, ?_⟩
  · intro t ht
    rw [eq_of_mem_replicate ht]
  · split
    · exact ⟨_, rfl, rfl⟩
    · rfl

/-- What a line that is not blank does to an outline. -/
theorem outline_ofLineContent (levels : List Nat) {content : List Char} (p : Position)
    (blocks : List (Option Nat)) (opener : Option Nat) {after : List Token}
    (h : allBlank content = false) (hafter : ∀ u ∈ after.head?, u.kind.isStructural) :
    ∃ opener', (opener' = none ∨ opener' = some p.line) ∧
      outline blocks opener (place p (ofLineContent levels content) ++ after) =
        ((outline (lineBlocks levels (tabCount content) blocks opener).1 opener' after).addLine
          ((lineBlocks levels (tabCount content) blocks opener).1.headD none, p.line)).addStrays
            (lineBlocks levels (tabCount content) blocks opener).2 := by
  obtain ⟨closing, opening, hplace, hclosing, hlength, hopening⟩ :=
    place_ofIndentation levels (tabCount content) p
  obtain ⟨t, more, hcontent, hkind, hline, htake⟩ :=
    place_content_eq_cons (0 < tabCount content)
      ((content.drop (tabCount content)).takeWhile isGap) (rest_ne_nil_of_not_allBlank h)
      (p.advance (replicate (tabCount content) '\t'))
  have hopener : t.opener? = none ∨ t.opener? = some p.line := by
    unfold Token.opener?
    split
    · exact .inl rfl
    · exact .inl rfl
    · exact .inl rfl
    · rw [hline]
      exact .inr rfl
  refine ⟨t.opener?, hopener, ?_⟩
  unfold ofLineContent
  rw [if_neg (by simp [h])]
  rw [place_append, last_ofIndentation, hplace, hcontent, append_assoc, append_assoc,
    outline_dedents hclosing, hlength]
  unfold lineBlocks
  split at hopening
  · next hdeeper =>
    obtain ⟨u, rfl, hu⟩ := hopening
    rw [if_pos hdeeper, singleton_append, outline_indentBlocks hu, cons_append,
      outline_content hkind, htake after hafter, hline]
    rfl
  · next hdeeper =>
    subst hopening
    rw [if_neg hdeeper, nil_append, cons_append, outline_content hkind, htake after hafter, hline]
    rfl

section Lines

variable {levels : List Nat} {line : Line} {lines : List Line} {p : Position}

theorem outline_ofLines_nil : outline blocks opener (place p (ofLines levels [])) = .empty := by
  rw [ofLines, place_append, place_dedents, outline_dedents]
  · exact outline_endOfInput rfl
  · intro t ht
    rw [eq_of_mem_replicate ht]

theorem isStructural_head_ending (levels : List Nat) (p : Position)
    (h : line.ending = [] → lines = []) :
    ∀ u ∈ (place p (ofEnding line.ending ++ ofLines levels lines)).head?,
      u.kind.isStructural := by
  by_cases hending : line.ending = []
  · rw [h hending, hending]
    exact fun u hu => isStructural_of_mem_ofLines_nil (mem_of_head? hu)
  · rw [ofEnding, if_neg (by simpa using hending)]
    rintro u ⟨⟩
    rfl

/-- The ending of a line leads to the next line. -/
theorem outline_ending (levels : List Nat) (p : Position) (h : line.ending = [] → lines = []) :
    ∃ q : Position, q.line = p.line + 1 ∧ ∀ blocks opener,
      outline blocks opener (place p (ofEnding line.ending ++ ofLines levels lines)) =
        outline blocks opener (place q (ofLines levels lines)) := by
  by_cases hending : line.ending = []
  · refine ⟨⟨p.line + 1, 1, p.offset⟩, rfl, ?_⟩
    intro blocks opener
    rw [h hending, hending]
    exact outline_ofLines_nil.trans outline_ofLines_nil.symm
  · rw [ofEnding, if_neg (by simpa using hending)]
    refine ⟨next p (token .newline line.ending), rfl, ?_⟩
    intro blocks opener
    exact outline_newline rfl

theorem line_last_ofLineContent (levels : List Nat) (content : List Char) (p : Position) :
    (last p (ofLineContent levels content)).line = p.line := by
  unfold ofLineContent
  split
  · rfl
  · rw [last_append, last_ofIndentation, last, last_eq_advance]
    · rfl
    · exact fun _ => isInline_of_mem_ofContent

theorem place_ofLines_cons : place p (ofLines levels (line :: lines)) =
    place p (ofLineContent levels line.content) ++
      place (last p (ofLineContent levels line.content))
        (ofEnding line.ending ++ ofLines (levelsAfter levels line.content) lines) := by
  rw [ofLines, append_assoc, place_append]

/-- A blank line changes nothing. -/
theorem outline_blank_line (hblank : allBlank line.content) (h : line.ending = [] → lines = []) :
    ∃ q : Position, q.line = p.line + 1 ∧
      outline blocks opener (place p (ofLines levels (line :: lines))) =
        outline blocks opener (place q (ofLines levels lines)) := by
  obtain ⟨q, hq, houtline⟩ := outline_ending levels (p.advance line.content) h
  refine ⟨q, hq, ?_⟩
  rw [ofLines, ofLineContent, levelsAfter, if_pos hblank, if_pos hblank]
  exact houtline blocks opener

/-- A line that is not blank closes blocks, may open one, and adds itself. -/
theorem outline_written_line (hblank : allBlank line.content = false)
    (h : line.ending = [] → lines = []) :
    ∃ (q : Position) (opener' : Option Nat), q.line = p.line + 1 ∧
      (opener' = none ∨ opener' = some p.line) ∧
      outline blocks opener (place p (ofLines levels (line :: lines))) =
        ((outline (lineBlocks levels (tabCount line.content) blocks opener).1 opener'
          (place q (ofLines (nextLevels levels (tabCount line.content)) lines))).addLine
            ((lineBlocks levels (tabCount line.content) blocks opener).1.headD none,
              p.line)).addStrays (lineBlocks levels (tabCount line.content) blocks opener).2 := by
  have hlevels : levelsAfter levels line.content = nextLevels levels (tabCount line.content) := by
    rw [levelsAfter, if_neg (by simp [hblank])]
  obtain ⟨q, hq, hrest⟩ := outline_ending (nextLevels levels (tabCount line.content))
    (last p (ofLineContent levels line.content)) h
  have hhead := isStructural_head_ending (nextLevels levels (tabCount line.content))
    (last p (ofLineContent levels line.content)) h
  obtain ⟨opener', hopener, houtline⟩ :=
    outline_ofLineContent levels p blocks opener hblank hhead
  refine ⟨q, opener', by rw [hq, line_last_ofLineContent], hopener, ?_⟩
  rw [place_ofLines_cons, hlevels, houtline, hrest]

end Lines

end Piece

namespace Text

/-- The line holds a character that is not white space. -/
def Line.isWritten (line : Line) : Bool :=
  line.full.any fun c => !isBlank c

/-- The number of tabs at the start of the line. -/
def Line.tabs (line : Line) : Nat :=
  (line.content.takeWhile (· == '\t')).length

/-- The line with the number holds a character that is not white space; a byte-order mark at the
start of the text is not looked at. -/
def isWritten (cs : List Char) (n : Nat) : Bool :=
  0 < n && (lines (withoutMark cs))[n - 1]?.any Line.isWritten

/-- The numbers of the lines that are not blank; the first line has the number `n`. -/
def written (n : Nat) : List Line → List Nat
  | [] => []
  | line :: rest =>
    if line.isWritten then n :: written (n + 1) rest else written (n + 1) rest

theorem isBlank_of_isLineEnd {c : Char} (h : isLineEnd c) : isBlank c := by
  rcases (by simpa [isLineEnd] using h : c = '\n' ∨ c = '\r') with rfl | rfl <;> decide

theorem allBlank_content_eq {line : Line} (h : line ∈ lines cs) :
    allBlank line.content = !line.isWritten := by
  have hending : line.ending.any (fun c => !isBlank c) = false := by
    refine any_eq_false.2 fun c hc => ?_
    simp [isBlank_of_isLineEnd ((isLineEnd_of_mem_lines h).2 c hc)]
  rw [Line.isWritten, Line.full, any_append, hending, Bool.or_false, allBlank, not_any_eq_all_not]
  simp

theorem count_written (k n : Nat) (ls : List Line) :
    (written k ls).count n =
      if k ≤ n ∧ ls[n - k]?.any Line.isWritten then 1 else 0 := by
  induction ls generalizing k with
  | nil => simp [written]
  | cons line rest ih =>
    have hrest := ih (k + 1)
    rcases Nat.lt_trichotomy n k with hlt | rfl | hgt
    · have hnot : ¬ k ≤ n := by omega
      have hnot' : ¬ k + 1 ≤ n := by omega
      rw [if_neg fun h => hnot' h.1] at hrest
      rw [if_neg fun h => hnot h.1, written]
      split
      · rw [count_cons_of_ne (by simpa using hlt.ne'), hrest]
      · exact hrest
    · have hnot : ¬ n + 1 ≤ n := by omega
      rw [if_neg fun h => hnot h.1] at hrest
      rw [written, Nat.sub_self]
      by_cases hline : line.isWritten
      · rw [if_pos hline, if_pos ⟨Nat.le_refl n, hline⟩, count_cons_self, hrest]
      · rw [if_neg hline, if_neg fun h => hline h.2, hrest]
    · have hindex : n - k = n - (k + 1) + 1 := by omega
      have hle : k ≤ n ↔ k + 1 ≤ n := by omega
      simp only [hindex, getElem?_cons_succ, hle, written]
      split
      · rw [count_cons_of_ne (by simpa using hgt.ne), hrest]
      · exact hrest

end Text

/-- The tokens of a source are those of its lines behind the byte-order mark. -/
theorem tokenize_eq_place (source : String) :
    ∃ p : Position, p.line = 1 ∧ tokenize source =
      Piece.place p (Piece.ofLines [] (lines (withoutMark source.toList))) := by
  unfold tokenize Piece.ofSource
  cases source.toList with
  | nil => exact ⟨Position.origin, rfl, rfl⟩
  | cons c rest =>
    by_cases hmark : c = byteOrderMark
    · refine ⟨Piece.next Position.origin .mark, rfl, ?_⟩
      rw [withoutMark, if_pos hmark, if_pos (by rw [hmark]; rfl)]
      rfl
    · refine ⟨Position.origin, rfl, ?_⟩
      rw [withoutMark, if_neg hmark, if_neg (by simpa using hmark)]

/-- The outline names every line that is not blank, once and in order, whatever is open before
it. -/
theorem numbers_ofLines {ls : List Line} (hending : Ended ls)
    (hwritten : ∀ line ∈ ls, allBlank line.content = !line.isWritten)
    (levels : List Nat) (p : Position) (blocks : List (Option Nat)) (opener : Option Nat) :
    (outline blocks opener (Piece.place p (Piece.ofLines levels ls))).lines.map Prod.snd =
      written p.line ls := by
  induction ls generalizing levels p blocks opener with
  | nil =>
    rw [Piece.outline_ofLines_nil]
    rfl
  | cons line ls ih =>
    have hlast := eq_nil_of_ending_eq_nil hending
    have hrest := ih hending.of_cons fun l hl => hwritten l (mem_cons_of_mem line hl)
    have hline := hwritten line mem_cons_self
    rw [written]
    by_cases hblank : line.isWritten
    · rw [if_pos hblank]
      rw [hblank] at hline
      obtain ⟨q, opener', hq, -, houtline⟩ := Piece.outline_written_line hline hlast
      rw [houtline, ← hq, ← hrest]
      rfl
    · rw [if_neg hblank]
      rw [eq_false_of_ne_true hblank] at hline
      obtain ⟨q, hq, houtline⟩ := Piece.outline_blank_line hline hlast
      rw [houtline, hrest, hq]

theorem count_numbers (source : String) (n : Nat) :
    ((outline [] none (tokenize source)).lines.map Prod.snd).count n =
      if isWritten source.toList n then 1 else 0 := by
  obtain ⟨p, hp, htokens⟩ := tokenize_eq_place source
  have hnumbers := numbers_ofLines (pairwise_ending_lines (withoutMark source.toList))
    (fun line hline => allBlank_content_eq hline) [] p [] none
  rw [htokens, hnumbers, hp, count_written]
  refine if_congr ?_ rfl rfl
  rw [isWritten, Bool.and_eq_true, decide_eq_true_iff]
  rfl

/-- The lines of all statements of a program, up to their order. -/
theorem line?_nodes_perm (source : String) :
    (parse source).program.nodes.filterMap Node.line? ~
      (outline [] none (tokenize source)).lines.map Prod.snd := by
  refine (Node.filterMap_line?_nodes_perm (.program (parse source).program)).trans ?_
  exact (parseTokens_links (tokenize source)).1.map Prod.snd

/-- **Every line that is not blank is one statement, and there are no others.**  The nodes counted
are the statements and sub-keywords of all levels, and the source may be ill-formed. -/
theorem one_statement_per_line (source : String) (n : Nat) :
    (parse source).program.nodes.countP (fun node => node.line? == some n) =
      if Text.isWritten source.toList n then 1 else 0 := by
  rw [← count_filterMap, (line?_nodes_perm source).count_eq, count_numbers]

end ScriptLint

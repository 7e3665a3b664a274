import ScriptLint.Proofs.Lockstep
import ScriptLint.Proofs.LineOutline

/-!
# Two sources in step, line by line

Two sources are paired line by line, blank lines apart, with the same indentation on both sides.
What is to be shown of the programs is then shown of one pair of lines at a time.

**Lines.**  `Rows` relates the lines of two texts, and so the tokens cut from them.

**Results.**
* `place_written`: the tokens of a line are its layout and a row.
* `paired_ofLines`: lines that correspond are cut into tokens that are paired.
-/

namespace ScriptLint

open List Text

variable {line : Line} {lines : List Line} {levels : List Nat}

namespace Piece

/-- The pieces of a line behind the tabs of its indentation. -/
def ofWritten (content : List Char) : List Piece :=
  let rest := content.drop (tabCount content)
  gap (rest.takeWhile isGap) ::
    ofContent (0 < tabCount content) (rest.dropWhile isGap)

/-- How many levels are left for brackets on a line with so many tabs, if so many were left before
it. -/
def levelsUnder (levels : List Nat) (left tabs : Nat) : Nat :=
  let closed := min (left + (levels.takeWhile (tabs < ·)).length) maxDepth
  if (keptLevels levels tabs).headD 0 < tabs then closed - 1 else closed

theorem levelsUnder_le {left tabs : Nat} : levelsUnder levels left tabs ≤ maxDepth := by
  unfold levelsUnder
  dsimp only
  split <;> omega

/-- Where the line behind a line starts; the last line of a text may have no ending. -/
def afterLine (p : Position) (line : Line) : Position :=
  last (p.advance line.content) (ofEnding line.ending)

theorem last_ofLineContent (levels : List Nat) (content : List Char) (p : Position) :
    last p (ofLineContent levels content) = p.advance content := by
  unfold ofLineContent
  split
  · rfl
  · rw [last_append, last_ofIndentation, last, last_eq_advance, join_ofContent]
    · rw [next, Position.advance_advance, Position.advance_advance,
        takeWhile_append_dropWhile, replicate_tab_append_drop]
    · exact fun _ => isInline_of_mem_ofContent

end Piece

open Piece

/-- The row holds the content of a line that starts at the position; layout comes behind it, on
the same line. -/
structure Row.Holds (r : Row) (p : Position) (line : List Char) : Prop where
  fills : r.Fills
  place : r.first :: r.more =
    place (p.advance (replicate (tabCount line) '\t')) (ofWritten line)
  ending : ∃ u us, r.after = u :: us ∧ u.kind.isStructural ∧ u.span.start = p.advance line ∧
    u.span.stop.line = p.line

/-- What comes behind the row is the ending of its line, which starts at the position, or layout
that takes no room. -/
def Row.Ends (r : Row) (q : Position) (ending : List Char) : Prop :=
  ∃ u us, r.after = u :: us ∧ u.span = ⟨q, if ending = [] then q else stop q .newline ending⟩

/-- The indent of a line that starts at the position. -/
def indentAt (p : Position) (line : List Char) : Token :=
  let text := replicate (tabCount line) '\t'
  ⟨.indent, String.ofList text, ⟨p, p.advance text⟩⟩

/-- Lines of two texts that correspond, blank ones apart, under the same open levels; the first
of them start at the positions. -/
inductive Rows {G : Type} [AddCommMonoid G]
    (line : Nat → G → Position → Line → Position → Line → Prop) :
    List Nat → Nat → G → Position → List Line → Position → List Line → Prop
  | nil {levels : List Nat} {left : Nat} {p p' : Position} : Rows line levels left 0 p [] p' []
  | blank_left {levels : List Nat} {left : Nat} {g : G} {p p' : Position} {ln : Line}
      {ls ls' : List Line} (hblank : allBlank ln.content) (hlast : ln.ending = [] → ls = [])
      (rest : Rows line levels left g (afterLine p ln) ls p' ls') :
      Rows line levels left g p (ln :: ls) p' ls'
  | blank_right {levels : List Nat} {left : Nat} {g : G} {p p' : Position} {ln' : Line}
      {ls ls' : List Line} (hblank : allBlank ln'.content)
      (hlast : ln'.ending = [] → ls' = [])
      (rest : Rows line levels left g p ls (afterLine p' ln') ls') :
      Rows line levels left g p ls p' (ln' :: ls')
  | line {levels : List Nat} {left : Nat} {g h : G} {p p' : Position} {ln ln' : Line}
      {ls ls' : List Line} (hwritten : allBlank ln.content = false)
      (hwritten' : allBlank ln'.content = false)
      (htabs : tabCount ln'.content = tabCount ln.content)
      (hlast : ln.ending = [] → ls = []) (hlast' : ln'.ending = [] → ls' = [])
      (hending : ln'.ending = [] ↔ ln.ending = [])
      (hline : line (levelsUnder levels left (tabCount ln.content)) g p ln p' ln')
      (rest : Rows line (nextLevels levels (tabCount ln.content))
        (levelsUnder levels left (tabCount ln.content)) h
        (afterLine p ln) ls (afterLine p' ln') ls') :
      Rows line levels left (g + h) p (ln :: ls) p' (ln' :: ls')

section Lines

variable {G : Type} [AddCommMonoid G] {row : Nat → G → Row → Row → Prop}
  {indent : Token → Token → Prop} {l : Nat} {g : G} {ts ts' : List Token}

theorem Paired.dedents {closing closing' : List Token} (hclosing : ∀ t ∈ closing, t.kind = .dedent)
    (hclosing' : ∀ t ∈ closing', t.kind = .dedent) (hlength : closing'.length = closing.length)
    (hl : l ≤ maxDepth) (h : Paired row indent (min (l + closing.length) maxDepth) g ts ts') :
    Paired row indent l g (closing ++ ts) (closing' ++ ts') := by
  induction closing generalizing closing' l with
  | nil =>
    obtain rfl : closing' = [] := length_eq_zero_iff.1 hlength
    rwa [length_nil, Nat.add_zero, Nat.min_eq_left hl] at h
  | cons t closing ih =>
    cases closing' with
    | nil => cases hlength
    | cons t' closing' =>
      refine .dedent (hclosing t mem_cons_self) (hclosing' t' mem_cons_self)
        (ih (fun u hu => hclosing u (mem_cons_of_mem t hu))
          (fun u hu => hclosing' u (mem_cons_of_mem t' hu)) (Nat.succ.inj hlength)
          (Nat.min_le_right _ _) ?_)
      have hlevels : min (min (l + 1) maxDepth + closing.length) maxDepth =
          min (l + (t :: closing).length) maxDepth := by
        rw [length_cons]
        omega
      rwa [hlevels]

/-- The ending of a line is passed over on the left. -/
theorem Paired.ending_left
    {p : Position}
    (h : Paired row indent l g (place (last p (ofEnding line.ending)) (ofLines levels lines)) ts') :
    Paired row indent l g (place p (ofEnding line.ending ++ ofLines levels lines)) ts' := by
  unfold ofEnding at h ⊢
  split
  · next hnil => rwa [if_pos hnil] at h
  · next hnil =>
    rw [if_neg hnil] at h
    exact .newline_left rfl h

theorem Paired.ending_right
    {p : Position}
    (h : Paired row indent l g ts (place (last p (ofEnding line.ending)) (ofLines levels lines))) :
    Paired row indent l g ts (place p (ofEnding line.ending ++ ofLines levels lines)) := by
  unfold ofEnding at h ⊢
  split
  · next hnil => rwa [if_pos hnil] at h
  · next hnil =>
    rw [if_neg hnil] at h
    exact .newline_right rfl h

/-- Behind a line comes its ending or, at the end of the text, what closes the open levels. -/
theorem place_ending_eq_cons (levels : List Nat) (q : Position)
    (hlast : line.ending = [] → lines = []) :
    ∃ u us, place q (ofEnding line.ending ++ ofLines levels lines) = u :: us ∧
      u.kind.isStructural ∧ u.span.stop.line = q.line ∧
      u.span = ⟨q, if line.ending = [] then q else stop q .newline line.ending⟩ ∧
      u.kind = if line.ending = [] then (if levels = [] then .endOfInput else .dedent)
        else .newline := by
  by_cases hending : line.ending = []
  · rw [hlast hending, hending]
    cases levels with
    | nil => exact ⟨_, _, rfl, rfl, rfl, rfl, rfl⟩
    | cons level levels => exact ⟨_, _, rfl, rfl, rfl, rfl, rfl⟩
  · rw [ofEnding, if_neg (by simpa using hending), if_neg hending, if_neg hending]
    exact ⟨_, _, rfl, rfl, rfl, rfl, rfl⟩

/-- The tokens of a line that is not blank: those of its indentation, and a row. -/
theorem place_written (levels : List Nat) (p : Position) {content : List Char} {u : Token}
    {us : List Token} (hwritten : allBlank content = false) (hkind : u.kind.isStructural)
    (hstart : u.span.start = p.advance content) (hstop : u.span.stop.line = p.line) :
    ∃ (closing : List Token) (r : Row),
      place p (ofLineContent levels content) ++ u :: us =
        closing ++ ((if (keptLevels levels (tabCount content)).headD 0 < tabCount content then
          [indentAt p content] else []) ++ r.tokens) ∧
      (∀ t ∈ closing, t.kind = .dedent) ∧
      closing.length = (levels.takeWhile (tabCount content < ·)).length ∧
      r.Holds p content ∧ r.after = u :: us := by
  have hindentation : place p (ofIndentation levels (tabCount content)) =
      place p (dedents (levels.takeWhile (tabCount content < ·))) ++
        if (keptLevels levels (tabCount content)).headD 0 < tabCount content then
          [indentAt p content] else [] := by
    unfold ofIndentation
    rw [place_append, last_dedents]
    split <;> rfl
  obtain ⟨t, more, hcontent, hfirst, -, htake⟩ :=
    place_content_eq_cons (0 < tabCount content)
      ((content.drop (tabCount content)).takeWhile isGap) (rest_ne_nil_of_not_allBlank hwritten)
      (p.advance (replicate (tabCount content) '\t'))
  refine ⟨place p (dedents (levels.takeWhile (tabCount content < ·))),
    ⟨t, more, u :: us⟩, ?_, ?_, ?_,
    ⟨⟨hfirst, htake _ ?_⟩, hcontent.symm, u, us, rfl, hkind, hstart, hstop⟩, rfl⟩
  · unfold ofLineContent
    rw [if_neg (by simp [hwritten])]
    rw [place_append, last_ofIndentation, hindentation, hcontent, append_assoc, append_assoc]
    rfl
  · rw [place_dedents]
    intro t ht
    rw [eq_of_mem_replicate ht]
  · rw [place_dedents, length_replicate]
  · rintro _ ⟨⟩
    exact hkind

/-- Lines that correspond are cut into tokens that are paired. -/
theorem paired_ofLines {line : Nat → G → Position → Line → Position → Line → Prop}
    {p p' : Position} {ls ls' : List Line} (hl : l ≤ maxDepth)
    (hrow : ∀ {l g p ln p' ln' r r'}, line l g p ln p' ln' → r.Holds p ln.content →
      r'.Holds p' ln'.content → r.Ends (p.advance ln.content) ln.ending →
      r'.Ends (p'.advance ln'.content) ln'.ending →
      r'.after.head?.map Token.kind = r.after.head?.map Token.kind → row l g r r')
    (hindent : ∀ {l g p ln p' ln'}, line l g p ln p' ln' →
      indent (indentAt p ln.content) (indentAt p' ln'.content))
    (h : Rows line levels l g p ls p' ls') :
    Paired row indent l g (place p (ofLines levels ls)) (place p' (ofLines levels ls')) := by
  induction h with
  | nil =>
    rw [ofLines, place_append, place_append, place_dedents, place_dedents]
    refine Paired.dedents ?_ ?_ (by simp) hl (.finish rfl rfl)
    · intro t ht
      rw [eq_of_mem_replicate ht]
    · intro t ht
      rw [eq_of_mem_replicate ht]
  | blank_left hblank _ _ ih =>
    rw [place_ofLines_cons, ofLineContent, levelsAfter, if_pos hblank, if_pos hblank]
    exact Paired.ending_left (ih hl)
  | blank_right hblank _ _ ih =>
    rw [place_ofLines_cons, ofLineContent, levelsAfter, if_pos hblank, if_pos hblank]
    exact Paired.ending_right (ih hl)
  | @line levels left g h p p' ln ln' ls ls' hwritten hwritten' htabs hlast hlast' hending hline _
      ih =>
      have hlevels : levelsAfter levels ln.content = nextLevels levels (tabCount ln.content) := by
        rw [levelsAfter, if_neg (by simp [hwritten])]
      have hlevels' : levelsAfter levels ln'.content = nextLevels levels (tabCount ln.content) := by
        rw [levelsAfter, if_neg (by simp [hwritten']), htabs]
      obtain ⟨u, us, hafter, hkind, hstop, hspan, hends⟩ :=
        place_ending_eq_cons (nextLevels levels (tabCount ln.content)) (p.advance ln.content) hlast
      obtain ⟨u', us', hafter', hkind', hstop', hspan', hends'⟩ :=
        place_ending_eq_cons (nextLevels levels (tabCount ln.content))
          (p'.advance ln'.content) hlast'
      obtain ⟨closing, r, hplace, hclosing, hlength, hholds, hrest⟩ :=
        @place_written levels p ln.content u us hwritten hkind (by rw [hspan]) hstop
      obtain ⟨closing', r', hplace', hclosing', hlength', hholds', hrest'⟩ :=
        @place_written levels p' ln'.content u' us' hwritten' hkind' (by rw [hspan']) hstop'
      rw [htabs] at hlength' hplace'
      have hsame : u'.kind = u.kind := by
        rw [hends, hends']
        simp only [hending]
      have hrows : Paired row indent (levelsUnder levels left (tabCount ln.content))
          (g + h) r.tokens r'.tokens := by
        refine .line (hrow hline hholds hholds' ⟨u, us, hrest, hspan⟩
          ⟨u', us', hrest', hspan'⟩ ?_) ?_
        · rw [hrest, hrest']
          simp [hsame]
        · rw [hrest, hrest', ← hafter, ← hafter']
          exact Paired.ending_left (Paired.ending_right (ih levelsUnder_le))
      rw [place_ofLines_cons, place_ofLines_cons, hlevels, hlevels', last_ofLineContent,
        last_ofLineContent, hafter, hafter', hplace, hplace']
      refine Paired.dedents hclosing hclosing' (hlength'.trans hlength.symm) hl ?_
      rw [hlength]
      unfold levelsUnder at hrows
      split
      · next hdeeper =>
        rw [if_pos hdeeper] at hrows
        exact .indent rfl rfl (hindent hline) hrows
      · next hdeeper =>
        rw [if_neg hdeeper] at hrows
        exact hrows

end Lines

end ScriptLint

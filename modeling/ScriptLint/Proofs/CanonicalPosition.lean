import ScriptLint.Position
import ScriptLint.Text.Line

/-!
# Canonical positions

A position gives a line, a column and a byte offset.  It is canonical for a text when the three
agree: the offset falls between two characters, the line is the one in which it falls, and the
column counts the characters of that line before it.  A byte-order mark at the start of the text
takes no column.  At the end of the text the line is the one after the last line ending.

**Lines of a text.**  Every line that another one follows has an ending, and no content holds a
character that ends a line.

**Runs.**  `Inline text p run` says that a run of characters can be read from `p` on with one
column for each of them and a canonical position before and after each.  The run need not be what
the text holds there: only the number and the width of its characters count, so that the run may
be a copy with spaces in place of tabs.

**Results.**
* `isCanonical_of_lines_eq`: a place in the content of a line is canonical.
* `inline_append`: a run splits where it likes.
* `Inline.of_widths_eq`: only the widths of the characters matter.
-/

namespace ScriptLint

open List Text

variable {cs : List Char} {line : Line} {before : List Line}

variable {after : List Line}

namespace Text

/-- No character of the text ends a line. -/
def OneLine (cs : List Char) : Prop :=
  ∀ c ∈ cs, isLineEnd c = false

@[simp]
theorem oneLine_nil : OneLine [] := nofun

@[simp]
theorem oneLine_cons {c : Char} : OneLine (c :: cs) ↔ isLineEnd c = false ∧ OneLine cs :=
  forall_mem_cons

@[simp]
theorem oneLine_append {us vs : List Char} : OneLine (us ++ vs) ↔ OneLine us ∧ OneLine vs :=
  forall_mem_append

/-- The characters that end a line are those of its ending. -/
theorem isLineEnd_of_mem_lines (hline : line ∈ lines cs) :
    OneLine line.content ∧ ∀ c ∈ line.ending, isLineEnd c := by
  fun_induction lines cs generalizing line with
  | case1 => cases hline
  | case2 rest ih =>
    rcases mem_cons.1 hline with rfl | hline
    · exact ⟨by simp, by simp [isLineEnd]⟩
    · exact ih hline
  | case3 d rest _ hd ih =>
    rcases mem_cons.1 hline with rfl | hline
    · exact ⟨by simp, by simpa using hd⟩
    · exact ih hline
  | case4 d rest _ hd ih =>
    have hd' : isLineEnd d = false := by simpa using hd
    cases hrest : lines rest with
    | nil =>
      rw [hrest] at hline
      obtain rfl := mem_singleton.1 hline
      exact ⟨by simpa using hd', by simp⟩
    | cons first others =>
      rw [hrest] at hline ih
      rcases mem_cons.1 hline with rfl | hline
      · obtain ⟨hcontent, hending⟩ := ih mem_cons_self
        exact ⟨forall_mem_cons.2 ⟨hd', hcontent⟩, hending⟩
      · exact ih (mem_cons_of_mem _ hline)

/-- A line that another one follows has an ending. -/
abbrev Ended (ls : List Line) : Prop :=
  ls.Pairwise fun line _ => line.ending ≠ []

theorem pairwise_ending_lines (cs : List Char) : Ended (lines cs) := by
  fun_induction lines cs with
  | case1 => exact .nil
  | case2 rest ih => exact pairwise_cons.2 ⟨fun _ _ => by simp, ih⟩
  | case3 c rest _ _ ih => exact pairwise_cons.2 ⟨fun _ _ => by simp, ih⟩
  | case4 c rest _ _ ih =>
    cases hrest : lines rest with
    | nil => exact pairwise_singleton _ _
    | cons first others =>
      rw [hrest] at ih
      exact pairwise_cons.2 (pairwise_cons.1 ih)

/-- No line follows one without an ending. -/
theorem eq_nil_of_ending_eq_nil {ls : List Line} (h : Ended (line :: ls))
    (hending : line.ending = []) : ls = [] := by
  cases ls with
  | nil => rfl
  | cons l ls => exact absurd hending ((pairwise_cons.1 h).1 l mem_cons_self)

theorem ending_ne_nil_of_lines_eq
    (h : lines cs = before ++ line :: after) : ∀ l ∈ before, l.ending ≠ [] := by
  intro l hl
  have hpair := pairwise_ending_lines cs
  rw [h] at hpair
  exact (pairwise_append.1 hpair).2.2 l hl line mem_cons_self

theorem after_eq_nil_of_lines_eq
    (h : lines cs = before ++ line :: after) (hending : line.ending = []) : after = [] := by
  have hpair := pairwise_ending_lines cs
  rw [h] at hpair
  exact eq_nil_of_ending_eq_nil (pairwise_append.1 hpair).2.1 hending

end Text

namespace Position

open Text (Line)

/-- The characters that take a column, among the first ones of the line with index `i`. -/
def columnChars (i : Nat) (head : List Char) : List Char :=
  if i = 0 then withoutMark head else head

/-- Line, column and offset of the position agree on a place in the text. -/
def IsCanonical (cs : List Char) (p : Position) : Prop :=
  ∃ (i : Nat) (head tail : List Char),
    cs = ((lines cs).take i).flatMap Line.full ++ head ++ tail ∧
    p.offset = byteLength (((lines cs).take i).flatMap Line.full ++ head) ∧
    p.line = i + 1 ∧
    p.column = 1 + (columnChars i head).length ∧
    ((∃ line, (lines cs)[i]? = some line ∧ head.length < line.full.length) ∨
      tail = [] ∧ i = (lines cs).countP (fun line => line.ending ≠ []))

/-- The offset falls between two characters of the text, or at one of its ends. -/
def IsBoundary (cs : List Char) (offset : Nat) : Prop :=
  ∃ pre post, cs = pre ++ post ∧ offset = byteLength pre

theorem IsBoundary.le_byteLength {offset : Nat} (h : IsBoundary cs offset) :
    offset ≤ byteLength cs := by
  obtain ⟨pre, post, rfl, rfl⟩ := h
  rw [byteLength_append]
  exact Nat.le_add_right _ _

theorem IsCanonical.isBoundary {p : Position} (h : p.IsCanonical cs) : IsBoundary cs p.offset := by
  obtain ⟨i, head, tail, hcs, hoffset, _⟩ := h
  exact ⟨_, tail, hcs, hoffset⟩

theorem countP_ending_of_lines_eq
    (h : lines cs = before ++ [line]) (hending : line.ending = []) :
    (lines cs).countP (fun line => line.ending ≠ []) = before.length := by
  have hbefore : before.countP (fun line => line.ending ≠ []) = before.length := by
    refine countP_eq_length.2 ?_
    intro l hl
    simpa using ending_ne_nil_of_lines_eq h l hl
  rw [h, countP_append, hbefore]
  simp [hending]

/-- A place in the content of a line is canonical. -/
theorem isCanonical_of_lines_eq {head : List Char} (h : lines cs = before ++ line :: after)
    (hhead : head <+: line.content) :
    IsCanonical cs
      ⟨before.length + 1, 1 + (columnChars before.length head).length,
        byteLength (before.flatMap Line.full ++ head)⟩ := by
  obtain ⟨rest, hrest⟩ := hhead
  have htake : (lines cs).take before.length = before := by rw [h, take_left]
  have hcs : cs = before.flatMap Line.full ++ head ++
      (rest ++ line.ending ++ after.flatMap Line.full) := by
    have hjoin := flatMap_full_lines cs
    rw [h] at hjoin
    rw [← hjoin]
    simp [Line.full, ← hrest]
  refine ⟨before.length, head, rest ++ line.ending ++ after.flatMap Line.full, ?_⟩
  rw [htake]
  refine ⟨hcs, rfl, rfl, rfl, ?_⟩
  by_cases hinside : head.length < line.full.length
  · exact .inl ⟨line, by rw [h]; simp, hinside⟩
  · have hlength : line.full.length = head.length + rest.length + line.ending.length := by
      rw [Line.full, ← hrest]
      simp [Nat.add_assoc]
    have hrest' : rest = [] := length_eq_zero_iff.1 (by omega)
    have hending : line.ending = [] := length_eq_zero_iff.1 (by omega)
    obtain rfl := after_eq_nil_of_lines_eq h hending
    exact .inr ⟨by simp [hrest', hending], (countP_ending_of_lines_eq h hending).symm⟩

/-- After a last line ending the text ends on a line of its own. -/
theorem isCanonical_end
    (h : ∀ line ∈ lines cs, line.ending ≠ []) :
    IsCanonical cs ⟨(lines cs).length + 1, 1, byteLength cs⟩ := by
  refine ⟨(lines cs).length, [], [], ?_⟩
  rw [take_length, flatMap_full_lines]
  refine ⟨by simp, by simp, rfl, ?_, .inr ⟨rfl, ?_⟩⟩
  · unfold columnChars
    split <;> rfl
  · symm
    refine countP_eq_length.2 ?_
    intro line hline
    simpa using h line hline

section Runs

/-- A run of characters can be read from the position on, one column for each character. -/
def Inline (cs : List Char) (p : Position) (run : List Char) : Prop :=
  OneLine run ∧ ∀ head, head <+: run → (p.advance head).IsCanonical cs

@[simp]
theorem advance_nil (p : Position) : p.advance [] = p := rfl

@[simp]
theorem advance_advance (p : Position) (xs ys : List Char) :
    (p.advance xs).advance ys = p.advance (xs ++ ys) := by
  simp [advance, Nat.add_assoc]

variable {p : Position} {xs ys : List Char}

theorem Inline.isCanonical (h : Inline cs p xs) : p.IsCanonical cs :=
  h.2 [] nil_prefix

theorem Inline.isCanonical_advance (h : Inline cs p xs) : (p.advance xs).IsCanonical cs :=
  h.2 xs (prefix_refl xs)

theorem inline_nil_iff : Inline cs p [] ↔ p.IsCanonical cs := by
  constructor
  · exact Inline.isCanonical
  · intro h
    refine ⟨by simp, ?_⟩
    intro head hhead
    rw [prefix_nil.1 hhead]
    exact h

theorem inline_append : Inline cs p (xs ++ ys) ↔ Inline cs p xs ∧ Inline cs (p.advance xs) ys := by
  constructor
  · rintro ⟨hchars, hcan⟩
    refine ⟨⟨?_, ?_⟩, ?_, ?_⟩
    · exact fun c hc => hchars c (mem_append_left ys hc)
    · exact fun head hhead => hcan head (List.prefix_append_of_prefix hhead)
    · exact fun c hc => hchars c (mem_append_right xs hc)
    · intro head hhead
      rw [advance_advance]
      exact hcan _ ((prefix_append_right_inj xs).2 hhead)
  · rintro ⟨⟨hchars₁, hcan₁⟩, hchars₂, hcan₂⟩
    refine ⟨?_, ?_⟩
    · intro c hc
      rcases mem_append.1 hc with hc | hc
      · exact hchars₁ c hc
      · exact hchars₂ c hc
    · intro head hhead
      rcases prefix_or_prefix_of_prefix hhead (prefix_append xs ys) with h | h
      · exact hcan₁ head h
      · obtain ⟨tail, rfl⟩ := h
        rw [← advance_advance]
        exact hcan₂ tail ((prefix_append_right_inj xs).1 hhead)

theorem advance_eq_of_widths_eq (h : xs.map Char.utf8Size = ys.map Char.utf8Size) :
    p.advance xs = p.advance ys := by
  have hlength : xs.length = ys.length := by simpa using congrArg length h
  have hbytes : ∀ zs : List Char, byteLength zs = (zs.map Char.utf8Size).sum := by
    intro zs
    induction zs with
    | nil => rfl
    | cons z zs ih => simp [ih]
  simp [advance, hlength, hbytes, h]

/-- A run may be replaced by another one with characters of the same widths. -/
theorem Inline.of_widths_eq (h : Inline cs p xs)
    (hwidths : xs.map Char.utf8Size = ys.map Char.utf8Size)
    (hchars : OneLine ys) : Inline cs p ys := by
  refine ⟨hchars, ?_⟩
  rintro head ⟨tail, rfl⟩
  have hhead : (xs.take head.length).map Char.utf8Size = head.map Char.utf8Size := by
    have := congrArg (take head.length) hwidths
    simpa using this
  rw [← advance_eq_of_widths_eq hhead]
  exact h.2 _ (List.take_prefix _ _)

end Runs

end Position

end ScriptLint

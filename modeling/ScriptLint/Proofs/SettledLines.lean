import ScriptLint.Proofs.TokenPlaces
import ScriptLint.Proofs.DirectiveReading

/-!
# The lines of an edited text

Lines whose contents were edited are put together again.  The text has the same lines, with two
exceptions: a line feed that is left alone on its line joins the carriage return before it, and
nothing remains of a last line that lost all its characters.

**Results.**
* `lines_flatMap_full`: the lines of the text.
* `exists_of_settle_eq`: every line of the text is one of those it was put together from, with the
  same text before and behind it.
* `after_settle`: directives are not affected.
-/

namespace ScriptLint

open List

variable {line : Line} {ls : List Line} {cs : List Char}
namespace Text

/-- An ending that a line may have. -/
def IsEnding (ending : List Char) : Prop :=
  ending = [] ∨ ending = ['\n'] ∨ ending = ['\r'] ∨ ending = ['\r', '\n']

/-- The content of a line ends nowhere, and its ending is one. -/
structure Line.IsProper (line : Line) : Prop where
  content : OneLine line.content
  ending : IsEnding line.ending

/-- The lines of the text that is put together from lines. -/
def settle : List Line → List Line
  | [] => []
  | [line] => if line.full = [] then [] else [line]
  | first :: second :: rest =>
    if first.ending = ['\r'] ∧ second = ⟨[], ['\n']⟩ then
      ⟨first.content, ['\r', '\n']⟩ :: settle rest
    else
      first :: settle (second :: rest)

theorem ending_of_mem_lines (h : line ∈ lines cs) : IsEnding line.ending ∧ line.full ≠ [] := by
  fun_induction lines cs generalizing line with
  | case1 => cases h
  | case2 rest ih =>
    rcases mem_cons.1 h with rfl | h
    · exact ⟨.inr (.inr (.inr rfl)), cons_ne_nil _ _⟩
    · exact ih h
  | case3 c rest _ hc ih =>
    rcases mem_cons.1 h with rfl | h
    · rcases (by simpa [isLineEnd] using hc : c = '\n' ∨ c = '\r') with rfl | rfl
      · exact ⟨.inr (.inl rfl), cons_ne_nil _ _⟩
      · exact ⟨.inr (.inr (.inl rfl)), cons_ne_nil _ _⟩
    · exact ih h
  | case4 c rest _ hc ih =>
    cases hrest : lines rest with
    | nil =>
      rw [hrest] at h
      obtain rfl := mem_singleton.1 h
      exact ⟨.inl rfl, cons_ne_nil _ _⟩
    | cons first others =>
      rw [hrest] at h ih
      rcases mem_cons.1 h with rfl | h
      · exact ⟨(@ih first mem_cons_self).1, cons_ne_nil _ _⟩
      · exact ih (mem_cons_of_mem first h)

theorem isProper_of_mem_lines (h : line ∈ lines cs) : line.IsProper :=
  ⟨(isLineEnd_of_mem_lines h).1, (ending_of_mem_lines h).1⟩

theorem lines_cons {c : Char} (hc : isLineEnd c = false) (rest : List Char) :
    lines (c :: rest) = consToFirst c (lines rest) := by
  rw [lines]
  · simp [hc]
  · rintro after rfl
    cases hc

/-- The first line of a text ends where its first ending does. -/
theorem lines_full_append {rest : List Char} (h : line.IsProper)
    (hending : line.ending ≠ []) (hreturn : line.ending = ['\r'] → rest.head? ≠ some '\n') :
    lines (line.full ++ rest) = line :: lines rest := by
  obtain ⟨content, ending⟩ := line
  obtain ⟨hcontent, hends⟩ := h
  dsimp only [Line.full] at *
  induction content with
  | nil =>
    rcases hends with rfl | rfl | rfl | rfl
    · exact absurd rfl hending
    · rw [nil_append, singleton_append, lines]
      · rfl
      · intro after hnot
        cases hnot
    · rw [nil_append, singleton_append, lines]
      · rfl
      · rintro after - rfl
        exact hreturn rfl rfl
    · rfl
  | cons c content ih =>
    obtain ⟨hc, hrest⟩ := forall_mem_cons.1 hcontent
    rw [cons_append, cons_append, lines_cons hc, ih hrest]
    rfl

/-- No line feed begins what follows a carriage return, unless it stands alone. -/
theorem head?_flatMap_full {lines : List Line} (h : line.IsProper)
    (hlast : line.ending = [] → lines = []) (hne : line ≠ ⟨[], ['\n']⟩) :
    ((line :: lines).flatMap Line.full).head? ≠ some '\n' := by
  obtain ⟨content, ending⟩ := line
  obtain ⟨hcontent, hends⟩ := h
  cases content with
  | nil =>
    rcases hends with rfl | rfl | rfl | rfl
    · simp [hlast rfl, Line.full]
    · exact absurd rfl hne
    · simp [Line.full]
    · simp [Line.full]
  | cons c content =>
    have hc := hcontent c mem_cons_self
    rintro hhead
    obtain rfl : c = '\n' := by simpa [Line.full] using hhead
    cases hc

/-- **The lines of the text that is put together from lines.** -/
theorem lines_flatMap_full (h : ∀ line ∈ ls, line.IsProper)
    (hending : Ended ls) :
    lines (ls.flatMap Line.full) = settle ls := by
  fun_induction settle ls with
  | case1 => rfl
  | case2 line hfull => simp [hfull, lines]
  | case3 line hfull =>
    obtain ⟨hcontent, hends⟩ := h line mem_cons_self
    by_cases hnil : line.ending = []
    · have hline : line.full = line.content := by simp [Line.full, hnil]
      rw [hline] at hfull
      rw [flatMap_cons, flatMap_nil, append_nil, hline,
        Piece.lines_of_inline hfull hcontent, ← hnil]
    · rw [flatMap_cons, lines_full_append (h line mem_cons_self) hnil (by simp)]
      rfl
  | case4 first second rest hmerge ih =>
    obtain ⟨hreturn, rfl⟩ := hmerge
    have hfirst := h first mem_cons_self
    have hjoined : Line.IsProper ⟨first.content, ['\r', '\n']⟩ :=
      ⟨hfirst.content, .inr (.inr (.inr rfl))⟩
    have htext : (first :: ⟨[], ['\n']⟩ :: rest).flatMap Line.full =
        Line.full ⟨first.content, ['\r', '\n']⟩ ++ rest.flatMap Line.full := by
      simp [Line.full, hreturn]
    rw [htext, lines_full_append hjoined (by simp) (by simp),
      ih (fun line hline => h line (by simp [hline])) hending.of_cons.of_cons]
  | case5 first second rest hmerge ih =>
    obtain ⟨hfirst, hrest⟩ := forall_mem_cons.1 h
    have hnext := pairwise_cons.1 hending
    rw [flatMap_cons, lines_full_append hfirst (hnext.1 second mem_cons_self) ?_, ih hrest hnext.2]
    intro hreturn
    refine head?_flatMap_full (hrest second mem_cons_self)
      (eq_nil_of_ending_eq_nil hnext.2) fun hsecond => hmerge ⟨hreturn, hsecond⟩

/-- A line does not take in the line behind it. -/
def Line.StopsBefore (line next : Line) : Prop :=
  ¬(line.ending = ['\r'] ∧ next = ⟨[], ['\n']⟩)

theorem settle_eq_self (h : ls.IsChain Line.StopsBefore) (hfull : ∀ line ∈ ls, line.full ≠ []) :
    settle ls = ls := by
  fun_induction settle ls with
  | case1 => rfl
  | case2 line hnil => exact absurd hnil (hfull line mem_cons_self)
  | case3 line _ => rfl
  | case4 first second rest hmerge _ => exact absurd hmerge (isChain_cons_cons.1 h).1
  | case5 first second rest _ ih =>
    rw [ih (isChain_cons_cons.1 h).2 (forall_mem_cons.1 hfull).2]

theorem isChain_of_settle_eq_self (h : settle ls = ls) : ls.IsChain Line.StopsBefore := by
  fun_induction settle ls with
  | case1 => exact .nil
  | case2 line _ => exact .singleton line
  | case3 line _ => exact .singleton line
  | case4 first second rest hmerge _ =>
    have hreturn := congrArg Line.ending (cons.inj h).1
    rw [hmerge.1] at hreturn
    cases hreturn
  | case5 first second rest hmerge ih =>
    exact isChain_cons_cons.2 ⟨hmerge, ih (cons.inj h).2⟩

theorem isChain_lines (cs : List Char) : (lines cs).IsChain Line.StopsBefore := by
  have hlines := @lines_flatMap_full (lines cs) (fun line hline => isProper_of_mem_lines hline)
    (pairwise_ending_lines cs)
  rw [flatMap_full_lines] at hlines
  exact isChain_of_settle_eq_self hlines.symm

/-- **Lines written anew:** a text put together from lines that do not take in each other has just
these lines. -/
theorem lines_flatMap_full_eq (h : ∀ line ∈ ls, line.IsProper)
    (hending : Ended ls) (hchain : ls.IsChain Line.StopsBefore)
    (hfull : ∀ line ∈ ls, line.full ≠ []) : lines (ls.flatMap Line.full) = ls :=
  (lines_flatMap_full h hending).trans (settle_eq_self hchain hfull)

/-- What of a line decides where the lines of a text end: its ending, and whether it has content. -/
def Line.outline (line : Line) : List Char × Bool :=
  (line.ending, line.content.isEmpty)

/-- Lines that are written over the lines of a text, each with the ending and with content where
there was some. -/
theorem lines_of_outline
    (h : ls.map Line.outline = (lines cs).map Line.outline)
    (hcontent : ∀ line ∈ ls, OneLine line.content) : lines (ls.flatMap Line.full) = ls := by
  have hold : ∀ line ∈ ls, ∃ line' ∈ lines cs, line'.outline = line.outline := by
    intro line hline
    have hmem := mem_map_of_mem (f := Line.outline) hline
    rw [h] at hmem
    exact mem_map.1 hmem
  refine lines_flatMap_full_eq (fun line hline => ⟨hcontent line hline, ?_⟩) ?_ ?_ ?_
  · obtain ⟨line', hline', heq⟩ := hold line hline
    rw [← show line'.ending = line.ending from congrArg Prod.fst heq]
    exact (isProper_of_mem_lines hline').ending
  · have hpairwise : ((lines cs).map Line.outline).Pairwise fun o _ => o.1 ≠ [] :=
      pairwise_map.2 (pairwise_ending_lines cs)
    rw [← h] at hpairwise
    exact pairwise_map.1 hpairwise
  · have houtline : ∀ line next : Line, line.StopsBefore next ↔
        ¬ (line.outline.1 = ['\r'] ∧ next.outline = (['\n'], true)) := by
      rintro line ⟨content, ending⟩
      simp [Line.StopsBefore, Line.outline, and_comm]
    have hchain : ((lines cs).map Line.outline).IsChain fun o next =>
        ¬ (o.1 = ['\r'] ∧ next = (['\n'], true)) :=
      (isChain_map _).2 ((isChain_lines cs).imp fun line next => (houtline line next).1)
    rw [← h] at hchain
    exact ((isChain_map _).1 hchain).imp fun line next => (houtline line next).2
  · intro line hline hnil
    obtain ⟨line', hline', heq⟩ := hold line hline
    obtain ⟨hnone, hend⟩ := append_eq_nil_iff.1 hnil
    simp only [Line.outline, Prod.mk.injEq, hnone, hend, isEmpty_nil, List.isEmpty_iff] at heq
    exact (ending_of_mem_lines hline').2 (append_eq_nil_iff.2 heq.symm)

theorem flatMap_full_settle (ls : List Line) :
    (settle ls).flatMap Line.full = ls.flatMap Line.full := by
  fun_induction settle ls with
  | case1 => rfl
  | case2 line hfull => simp [hfull]
  | case3 line hfull => rfl
  | case4 first second rest hmerge ih =>
    obtain ⟨hreturn, rfl⟩ := hmerge
    simp [Line.full, hreturn, ih]
  | case5 first second rest hmerge ih => rw [flatMap_cons, ih, ← flatMap_cons]

theorem settle_cons_ne_nil (h : line.full ≠ []) (ls : List Line) : settle (line :: ls) ≠ [] := by
  cases ls with
  | nil =>
    rw [settle, if_neg h]
    exact cons_ne_nil _ _
  | cons second rest =>
    rw [settle]
    split
    · exact cons_ne_nil _ _
    · exact cons_ne_nil _ _

/-- More lines settle to more lines. -/
theorem length_settle_append_le (xs ys : List Line) :
    (settle xs).length ≤ (settle (xs ++ ys)).length := by
  fun_induction settle xs with
  | case1 => exact Nat.zero_le _
  | case2 line hfull => exact Nat.zero_le _
  | case3 line hfull => exact length_pos_iff.2 (settle_cons_ne_nil hfull ys)
  | case4 first second rest hmerge ih =>
    rw [cons_append, cons_append, settle, if_pos hmerge]
    exact Nat.succ_le_succ ih
  | case5 first second rest hmerge ih =>
    rw [cons_append, cons_append, settle, if_neg hmerge]
    exact Nat.succ_le_succ ih

/-- Lines settle apart from those behind them, unless a line feed is joined to the last of them. -/
theorem settle_append {xs ys : List Line} (hending : ∀ x ∈ xs, x.ending ≠ [])
    (hapart : (∃ x ∈ xs.getLast?, x.ending = ['\r']) → ys.head? ≠ some ⟨[], ['\n']⟩) :
    settle (xs ++ ys) = settle xs ++ settle ys := by
  fun_induction settle xs with
  | case1 => rfl
  | case2 line hfull =>
    have hnil : line.ending = [] := (append_eq_nil_iff.1 hfull).2
    exact absurd hnil (hending line mem_cons_self)
  | case3 line hfull =>
    cases ys with
    | nil => simp [settle, hfull]
    | cons y ys =>
      have hnot : ¬ (line.ending = ['\r'] ∧ y = ⟨[], ['\n']⟩) := by
        rintro ⟨hreturn, rfl⟩
        exact hapart ⟨line, rfl, hreturn⟩ rfl
      rw [singleton_append, settle, if_neg hnot]
      rfl
  | case4 first second rest hmerge ih =>
    have hrest := ih (fun x hx => hending x (by simp [hx])) fun ⟨x, hx, hreturn⟩ => hapart ⟨x, by
      cases rest with
      | nil => cases hx
      | cons y rest => rwa [getLast?_cons_cons], hreturn⟩
    rw [cons_append, cons_append, settle, if_pos hmerge, hrest]
    rfl
  | case5 first second rest hmerge ih =>
    have hrest := ih (fun x hx => hending x (mem_cons_of_mem first hx)) fun ⟨x, hx, hreturn⟩ =>
      hapart ⟨x, by rwa [getLast?_cons_cons], hreturn⟩
    rw [cons_append, cons_append, settle, if_neg hmerge, ← cons_append, hrest]
    rfl

/-- Every line of the text is one of those it was put together from, with the same text before it
and behind its content. -/
theorem exists_of_settle_eq {ls before after : List Line}
    (hending : Ended ls)
    (h : settle ls = before ++ line :: after) :
    ∃ xs x ys, ls = xs ++ x :: ys ∧ before = settle xs ∧ line.content = x.content ∧
      line.ending ++ after.flatMap Line.full = x.ending ++ ys.flatMap Line.full := by
  fun_induction settle ls generalizing before with
  | case1 => simp at h
  | case2 line hfull => simp at h
  | case3 first hfull =>
    cases before with
    | nil =>
      obtain ⟨rfl, rfl⟩ := cons.inj h
      exact ⟨[], first, [], rfl, rfl, rfl, rfl⟩
    | cons x before => simp at h
  | case4 first second rest hmerge ih =>
    obtain ⟨hreturn, rfl⟩ := hmerge
    cases before with
    | nil =>
      obtain ⟨rfl, rfl⟩ := cons.inj h
      refine ⟨[], first, ⟨[], ['\n']⟩ :: rest, rfl, rfl, rfl, ?_⟩
      rw [flatMap_full_settle, hreturn]
      rfl
    | cons x before =>
      obtain ⟨rfl, hrest⟩ := cons.inj h
      obtain ⟨xs, x, ys, rfl, rfl, hcontent, htext⟩ := ih hending.of_cons.of_cons hrest
      refine ⟨first :: ⟨[], ['\n']⟩ :: xs, x, ys, rfl, ?_, hcontent, htext⟩
      rw [settle, if_pos ⟨hreturn, rfl⟩]
  | case5 first second rest hmerge ih =>
    have hfirst : first.full ≠ [] := by
      simp [Line.full, (pairwise_cons.1 hending).1 second mem_cons_self]
    cases before with
    | nil =>
      obtain ⟨rfl, rfl⟩ := cons.inj h
      exact ⟨[], first, second :: rest, rfl, rfl, rfl, by rw [flatMap_full_settle]⟩
    | cons x before =>
      obtain ⟨rfl, hrest⟩ := cons.inj h
      obtain ⟨xs, x, ys, hsplit, rfl, hcontent, htext⟩ := ih hending.of_cons hrest
      refine ⟨first :: xs, x, ys, by rw [hsplit]; rfl, ?_, hcontent, htext⟩
      cases xs with
      | nil => rw [settle, settle, if_neg hfirst]
      | cons y xs =>
        obtain ⟨rfl, -⟩ := cons.inj hsplit
        rw [settle, if_neg hmerge]

end Text

/-- An empty line holds no directive, so that lines say the same when they are settled. -/
theorem LineState.after_settle (ls : List Text.Line) (s : LineState) :
    (Text.settle ls).foldl stepLine s = ls.foldl stepLine s := by
  fun_induction Text.settle ls generalizing s with
  | case1 => rfl
  | case2 line hfull =>
    have hnil : line.content = [] := (append_eq_nil_iff.1 hfull).1
    rw [foldl_cons, stepLine, hnil]
    rfl
  | case3 line hfull => rfl
  | case4 first second rest hmerge ih =>
    obtain ⟨-, rfl⟩ := hmerge
    rw [foldl_cons, ih]
    rfl
  | case5 first second rest hmerge ih => rw [foldl_cons, foldl_cons, ih]

end ScriptLint

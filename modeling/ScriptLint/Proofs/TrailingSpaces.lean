import ScriptLint.Proofs.FixedLines

/-!
# Spaces and tabs at the ends of lines

The rule on white space at the end of a line has one finding for every line that ends in a space or
a tab.  It spans the longest run of spaces and tabs at the end of the line, and its fix deletes the
run.  The fixes of all lines do not conflict.

Where nothing but a line feed remains of a line, a bare carriage return before it takes the line
feed in, and two lines of the source become one line of the output.

**Results.**
* `marks_checkLines`: the findings are the runs at the ends of lines.
* `applyFixes_trailingFixes`: the output is put together from the trimmed lines.
* `settle_eq_filter_iff`: trimmed lines are the lines of the output unless a line feed is taken in.
-/

namespace ScriptLint

open List Text Line

open Rules TrailingWhitespace

variable {line : Line}

namespace Text

/-- The text ends in a space or a tab. -/
def endsInGap (cs : List Char) : Bool :=
  cs.getLast?.any isGap

/-- The line without the spaces and tabs at the end of its content. -/
def Line.trimEnd (line : Line) : Line :=
  ⟨trimmed line.content, line.ending⟩

/-- Without spaces and tabs, the line behind this one would leave a line feed to be taken in. -/
def Line.TakesIn (line next : Line) : Prop :=
  line.ending = ['\r'] ∧ next.content.all isGap ∧ next.ending = ['\n']

instance (line next : Line) : Decidable (line.TakesIn next) :=
  inferInstanceAs (Decidable (_ ∧ _ ∧ _))

end Text

/-- The fixes of the rule on white space at the end of a line, blank lines not left out. -/
def trailingFixes (source : String) : List Fix :=
  (findings false source).filterMap Finding.fix

theorem endsInGap_eq_false_iff {cs : List Char} : endsInGap cs = false ↔ trimmed cs = cs := by
  rw [trimmed_eq_self_iff, endsInGap]
  cases cs.getLast? <;> simp

theorem endsInGap_trimmed (cs : List Char) : endsInGap (trimmed cs) = false :=
  endsInGap_eq_false_iff.2 (trimmed_trimmed cs)

theorem trimmed_eq_nil_iff {cs : List Char} : trimmed cs = [] ↔ cs.all isGap := by
  obtain ⟨ws, hcs, hws⟩ := exists_eq_trimmed_append cs
  constructor
  · intro hnil
    rw [hnil] at hcs
    rw [hcs]
    exact all_eq_true.2 hws
  · intro hall
    exact @trimmed_append cs (all_eq_true.1 hall) []

theorem filter_trimmed (cs : List Char) :
    (trimmed cs).filter (!isGap ·) = cs.filter (!isGap ·) := by
  obtain ⟨ws, hcs, hws⟩ := exists_eq_trimmed_append cs
  have hnone : ws.filter (!isGap ·) = [] := by
    apply filter_eq_nil_iff.2
    intro c hc
    simp [hws c hc]
  conv_rhs => rw [hcs, filter_append, hnone, append_nil]

section Findings

/-- The finding on a line: what follows the trimmed content. -/
theorem checkLine_false (n offset : Nat) (content : List Char) :
    checkLine false n offset content =
      if endsInGap content then
        some (.withFix "Trailing whitespace"
          ⟨positionAfter n offset (trimmed content), positionAfter n offset content⟩
          (.delete ⟨positionAfter n offset (trimmed content), positionAfter n offset content⟩))
      else none := by
  obtain ⟨ws, hcontent, -⟩ := exists_eq_trimmed_append content
  have hlength := congrArg length hcontent
  have hbytes := congrArg byteLength hcontent
  rw [length_append] at hlength
  rw [byteLength_append] at hbytes
  have hbetween : Span.between (positionAfter n offset (trimmed content))
      (positionAfter n offset content) =
      ⟨positionAfter n offset (trimmed content), positionAfter n offset content⟩ := by
    apply if_neg
    show ¬ offset + byteLength content < offset + byteLength (trimmed content)
    omega
  have hends : ((trimmed content).length < content.length) ↔ endsInGap content = true := by
    rw [← Bool.not_eq_false, endsInGap_eq_false_iff]
    constructor
    · intro hlt heq
      rw [heq] at hlt
      exact Nat.lt_irrefl _ hlt
    · intro hne
      apply Nat.lt_of_le_of_ne (by omega)
      intro heq
      have hnil : ws = [] := length_eq_zero_iff.1 (by omega)
      rw [hnil, append_nil] at hcontent
      exact hne hcontent.symm
  unfold checkLine
  dsimp only
  rw [hbetween]
  simp [hends]

/-- The finding is about the run of spaces and tabs at the end of the line with an index, and
deletes it. -/
structure IsTrailingRun (cs : List Char) (finding : Finding) (line : Line) (i : Nat) : Prop where
  start : finding.span.start.IsCanonical cs ∧ finding.span.start.line = i + 1
  stop : finding.span.stop.IsCanonical cs ∧ finding.span.stop.line = i + 1
  ends : finding.span.stop.offset =
    byteLength (((lines cs).take i).flatMap full ++ line.content)
  run : ∃ kept run, line.content = kept ++ run ∧ run ≠ [] ∧ (∀ c ∈ run, isGap c) ∧
    endsInGap kept = false ∧
    slice? cs finding.span.start.offset finding.span.stop.offset = some run
  fix : finding.fix = some (.delete finding.span)

/-- Places on a line are counted as the text counts them. -/
theorem positionAfter_eq_canonical (above : List Line) (head : List Char) :
    positionAfter (above.length + 1) (byteLength (above.flatMap full)) head =
      ⟨above.length + 1, 1 + (Position.columnChars above.length head).length,
        byteLength (above.flatMap full ++ head)⟩ := by
  have hcolumn : head.length + 1 -
      (if above.length + 1 = 1 ∧ head.head? = some byteOrderMark then 1 else 0) =
        1 + (Position.columnChars above.length head).length := by
    unfold Position.columnChars
    by_cases hfirst : above.length = 0
    · cases head with
      | nil => simp [withoutMark]
      | cons c head =>
        rw [withoutMark]
        by_cases hmark : c = byteOrderMark
        · simp [hfirst, hmark]
          omega
        · simp [hmark]
          omega
    · rw [if_neg hfirst, if_neg (fun h => hfirst (by omega))]
      omega
  unfold positionAfter
  dsimp only
  rw [hcolumn, byteLength_append]

variable {cs : List Char}

theorem marks_of_endsInGap {above below : List Line}
    (h : lines cs = above ++ line :: below) (hends : endsInGap line.content = true) :
    ∃ finding, checkLine false (above.length + 1) (byteLength (above.flatMap full))
        line.content = some finding ∧ IsTrailingRun cs finding line above.length := by
  obtain ⟨ws, hcontent, hws⟩ := exists_eq_trimmed_append line.content
  have htrimmed : trimmed line.content <+: line.content := ⟨ws, hcontent.symm⟩
  rw [checkLine_false, if_pos hends, positionAfter_eq_canonical, positionAfter_eq_canonical]
  refine ⟨_, rfl, ⟨Position.isCanonical_of_lines_eq h htrimmed, rfl⟩,
    ⟨Position.isCanonical_of_lines_eq h (prefix_refl _), rfl⟩, ?_, ?_, rfl⟩
  · rw [h, take_left]
    rfl
  · refine ⟨trimmed line.content, ws, hcontent, ?_, hws, endsInGap_trimmed _, ?_⟩
    · rintro rfl
      rw [append_nil] at hcontent
      rw [endsInGap_eq_false_iff.2 hcontent.symm] at hends
      cases hends
    · have hcs : cs = (above.flatMap full ++ trimmed line.content) ++ ws ++
          (line.ending ++ below.flatMap full) := by
        have hjoin := flatMap_full_lines cs
        rw [h, flatMap_append, flatMap_cons, full, hcontent] at hjoin
        rw [← hjoin]
        simp only [append_assoc]
      have hstop : byteLength (above.flatMap full ++ line.content) =
          byteLength (above.flatMap full ++ trimmed line.content) + byteLength ws := by
        conv_lhs => rw [hcontent, ← append_assoc, byteLength_append]
      have hslice := slice?_append (above.flatMap full ++ trimmed line.content) ws
        (line.ending ++ below.flatMap full)
      rwa [← hcs, ← hstop] at hslice

/-- **The findings are the runs at the ends of lines**, one for each line that ends in a space or a
tab, by induction over the lines. -/
theorem marks_checkLines {above ls : List Line} (h : lines cs = above ++ ls) :
    Forall₂ (fun finding entry => IsTrailingRun cs finding entry.1 entry.2)
      (checkLines false (above.length + 1) (byteLength (above.flatMap full)) ls)
      ((ls.zipIdx above.length).filter fun entry => endsInGap entry.1.content) := by
  induction ls generalizing above with
  | nil => exact .nil
  | cons line ls ih =>
    have hrest := @ih (above ++ [line]) (by rw [h, append_assoc, singleton_append])
    rw [length_append, flatMap_append, flatMap_singleton,
      byteLength_append] at hrest
    rw [checkLines, zipIdx_cons]
    by_cases hends : endsInGap line.content
    · obtain ⟨finding, hfinding, hmarks⟩ := marks_of_endsInGap h hends
      rw [hfinding, filter_cons_of_pos (by exact hends)]
      exact .cons hmarks hrest
    · rw [checkLine_false, if_neg hends, filter_cons_of_neg (by exact hends)]
      exact hrest

end Findings

/-- The fix of a line deletes the run at its end. -/
theorem mends_checkLine (n offset : Nat) (line : Line) :
    Mends offset line.full line.trimEnd.full
      ((checkLine false n offset line.content).toList.filterMap Finding.fix) := by
  obtain ⟨ws, hcontent, -⟩ := exists_eq_trimmed_append line.content
  rw [checkLine_false]
  by_cases hends : endsInGap line.content
  · have hws : ws ≠ [] := by
      rintro rfl
      rw [append_nil] at hcontent
      rw [endsInGap_eq_false_iff.2 hcontent.symm] at hends
      cases hends
    have hmends := ((Mends.keep offset (trimmed line.content)).append (.swap [] hws)).append
      (.keep _ line.ending)
    have hstop : offset + byteLength line.content =
        offset + byteLength (trimmed line.content) + byteLength ws := by
      conv_lhs => rw [hcontent, byteLength_append, ← Nat.add_assoc]
    rw [← hcontent, ← hstop, append_nil] at hmends
    rw [if_pos hends]
    exact hmends
  · have hsame : line.trimEnd = line := by
      rw [Line.trimEnd, endsInGap_eq_false_iff.1 (eq_false_of_ne_true hends)]
    rw [if_neg hends, hsame]
    exact .keep offset line.full

theorem mends_checkLines (n offset : Nat) (ls : List Line) :
    Mends offset (ls.flatMap Line.full) ((ls.map Line.trimEnd).flatMap Line.full)
      ((checkLines false n offset ls).filterMap Finding.fix) := by
  induction ls generalizing n offset with
  | nil => exact .keep offset []
  | cons line ls ih =>
    rw [checkLines, filterMap_append]
    exact (mends_checkLine n offset line).append (ih _ _)

/-- The trimmed lines of a source. -/
def trimmedLines (source : String) : List Line :=
  (lines source.toList).map trimEnd

/-- **The output is put together from the trimmed lines**, and no fix is skipped. -/
theorem applyFixes_trailingFixes (source : String) :
    applyFixes source (trailingFixes source) =
      ⟨String.ofList ((trimmedLines source).flatMap full),
        (trailingFixes source).length, []⟩ := by
  have hmends := mends_checkLines 1 0 (lines source.toList)
  rw [flatMap_full_lines] at hmends
  exact applyFixes_of_mends hmends (.refl _)

theorem isProper_trimEnd (h : line.IsProper) : line.trimEnd.IsProper := by
  obtain ⟨ws, hcontent, -⟩ := exists_eq_trimmed_append line.content
  constructor
  · intro c hc
    apply h.content
    rw [hcontent]
    exact mem_append_left ws hc
  · exact h.ending

theorem pairwise_ending_trimmedLines (source : String) :
    Ended (trimmedLines source) :=
  pairwise_map.2 (pairwise_ending_lines source.toList)

/-- The lines of the output. -/
theorem lines_trimmed (source : String) :
    lines ((trimmedLines source).flatMap full) = settle (trimmedLines source) := by
  apply lines_flatMap_full
  · intro line hline
    obtain ⟨old, hold, rfl⟩ := mem_map.1 hline
    exact isProper_trimEnd (isProper_of_mem_lines hold)
  · exact pairwise_ending_trimmedLines source

theorem endsInGap_of_mem_output {source : String}
    (h : line ∈ lines ((trimmedLines source).flatMap full)) :
    endsInGap line.content = false := by
  rw [lines_trimmed] at h
  obtain ⟨before, after, hsplit⟩ := append_of_mem h
  obtain ⟨xs, x, ys, hlines, -, hcontent, -⟩ :=
    exists_of_settle_eq (pairwise_ending_trimmedLines source) hsplit
  have hx : x ∈ trimmedLines source := by
    rw [hlines]
    exact mem_append_right xs mem_cons_self
  obtain ⟨old, -, rfl⟩ := mem_map.1 hx
  rw [hcontent]
  exact endsInGap_trimmed old.content

theorem filter_trimmedLines (source : String) :
    ((trimmedLines source).flatMap Line.full).filter (!isGap ·) =
      source.toList.filter (!isGap ·) := by
  conv_rhs => rw [← flatMap_full_lines source.toList]
  rw [trimmedLines, flatMap_map, filter_flatMap, filter_flatMap]
  apply flatMap_congr
  intro line _
  rw [Line.full, Line.full, filter_append, filter_append, Line.trimEnd, filter_trimmed]

/-- Lines settle to themselves, but for an empty last one, exactly when none takes in the line
behind it. -/
theorem settle_eq_filter_iff {ls : List Line}
    (hending : Ended ls) :
    settle ls = ls.filter (fun line => line.full ≠ []) ↔ ls.IsChain StopsBefore := by
  fun_induction settle ls with
  | case1 => simp
  | case2 line hfull => simp [hfull]
  | case3 line hfull => simp [hfull]
  | case4 first second rest hmerge _ =>
    have hfull : first.full ≠ [] := by simp [full, hmerge.1]
    constructor
    · intro h
      rw [filter_cons_of_pos (by simpa using hfull)] at h
      have hreturn := congrArg ending (cons.inj h).1
      rw [hmerge.1] at hreturn
      cases hreturn
    · intro hchain
      exact absurd hmerge (isChain_cons_cons.1 hchain).1
  | case5 first second rest hmerge ih =>
    obtain ⟨hfirst, hrest⟩ := pairwise_cons.1 hending
    have hfull : first.full ≠ [] := by
      intro hnil
      exact hfirst second mem_cons_self (append_eq_nil_iff.1 hnil).2
    rw [filter_cons_of_pos (by simpa using hfull), cons_inj_right, ih hrest,
      isChain_cons_cons]
    exact (and_iff_right hmerge).symm

theorem stopsBefore_trimEnd_iff {next : Line} :
    line.trimEnd.StopsBefore next.trimEnd ↔ ¬ line.TakesIn next := by
  have hnext : next.trimEnd = ⟨[], ['\n']⟩ ↔ next.content.all isGap ∧ next.ending = ['\n'] := by
    rw [Line.trimEnd, Line.mk.injEq, trimmed_eq_nil_iff]
  rw [Line.StopsBefore, hnext]
  rfl

theorem isChain_trimmedLines_iff (source : String) :
    (trimmedLines source).IsChain StopsBefore ↔
      (lines source.toList).IsChain fun line next => ¬ line.TakesIn next := by
  rw [trimmedLines, isChain_map]
  simp only [stopsBefore_trimEnd_iff]

/-- **No white space at the end of a line is missed, and nothing else is deleted.**  The findings
are, in order, one for each line that ends in a space or a tab, about the longest run of them there.
All fixes are applied.  No line of the output ends in a space or a tab, and the output has all other
characters of the source. -/
theorem trailing_findings_exact (source : String) :
    List.Forall₂ (fun finding entry => IsTrailingRun source.toList finding entry.1 entry.2)
      (findings false source)
      ((Text.lines source.toList).zipIdx.filter fun entry => Text.endsInGap entry.1.content) ∧
    (applyFixes source (trailingFixes source)).skipped = [] ∧
    (applyFixes source (trailingFixes source)).applied = (trailingFixes source).length ∧
    (∀ line ∈ Text.lines (applyFixes source (trailingFixes source)).output.toList,
      Text.endsInGap line.content = false) ∧
    (applyFixes source (trailingFixes source)).output.toList.filter (!Text.isGap ·) =
      source.toList.filter (!Text.isGap ·) := by
  rw [applyFixes_trailingFixes, String.toList_ofList]
  refine ⟨marks_checkLines (nil_append _).symm, rfl, rfl, ?_, filter_trimmedLines source⟩
  intro line hline
  exact endsInGap_of_mem_output hline

/-- **The fixes keep the lines unless a line feed is taken in.**  The output has the trimmed lines,
each with its ending and a last line of only spaces and tabs left out, exactly when no bare carriage
return stands before a line of only spaces and tabs that a line feed ends. -/
theorem trailing_fixes_keep_lines_iff (source : String) :
    Text.lines (applyFixes source (trailingFixes source)).output.toList =
      Text.settle (trimmedLines source) ∧
    (Text.lines (applyFixes source (trailingFixes source)).output.toList =
        (trimmedLines source).filter (fun line => line.full ≠ []) ↔
      (Text.lines source.toList).IsChain fun line next => ¬ line.TakesIn next) := by
  rw [applyFixes_trailingFixes, String.toList_ofList, lines_trimmed]
  refine ⟨rfl, ?_⟩
  rw [settle_eq_filter_iff (pairwise_ending_trimmedLines source), isChain_trimmedLines_iff]

/-- A blank line between a carriage return and a line feed is lost. -/
theorem trailing_fixes_lose_line :
    Text.lines (applyFixes "a\r \n>> x" (trailingFixes "a\r \n>> x")).output.toList =
      [⟨['a'], ['\r', '\n']⟩, ⟨">> x".toList, []⟩] ∧
    (trimmedLines "a\r \n>> x").filter (fun line => line.full ≠ []) =
      [⟨['a'], ['\r']⟩, ⟨[], ['\n']⟩, ⟨">> x".toList, []⟩] := by
  rw [applyFixes_trailingFixes, String.toList_ofList, lines_trimmed]
  decide

end ScriptLint

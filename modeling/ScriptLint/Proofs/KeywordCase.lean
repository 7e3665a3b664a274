import ScriptLint.Proofs.FixedLines
import ScriptLint.Proofs.MovedText

/-!
# Keywords in the case of the vocabulary

The rule on keywords offers to write a name in lower case wherever the vocabulary has it so.  The
name decides how its line is cut and read, and its length may change, so that all that follows is
moved; but the line is still that of a keyword, with a name that means the same and the same text
behind it.

**Results.**
* `applyFixes_keywordFixes`: all fixes are applied, and each line is written with the form of its
  name.
* `parse_recased`: the program is the same, but for the names.
-/

namespace ScriptLint

open List Text Vocabulary

open Piece Rules

variable {p p' : Position}

/-- A name as the vocabulary has it: in lower case, if it is known in lower case. -/
def Vocabulary.form (name : String) : String :=
  if isKnown (lower name) then lower name else name

/-- The line with the name of its keyword as the vocabulary has it. -/
def recaseLine (line : Line) : Line :=
  match keywordName? line.content with
  | none => line
  | some name =>
    if isKnown (lower (String.ofList name)) then ⟨lowerName line.content, line.ending⟩
    else line

/-- The source with the names of its keywords as the vocabulary has them. -/
def recased (source : String) : String :=
  String.ofList (markOf source ++
    ((linesOf source).map fun line => recaseLine line.2).flatMap Line.full)

/-- The fixes that the rule on keywords offers. -/
def keywordFixes (source : String) : List Fix :=
  (ValidKeyword.findings (parse source).program.nodes).filterMap Finding.fix

/-- A line on which a name is written anew: its margin, the name and the rest. -/
structure Recases (content content' margin name rest : List Char) : Prop where
  gap : ∀ c ∈ margin, isGap c
  name_eq : keywordName? content = some name
  name_eq' : keywordName? content' = some (lower (String.ofList name)).toList
  known : isKnown (lower (String.ofList name)) = true
  changes : String.ofList name ≠ lower (String.ofList name)
  whole : content = margin ++ '*' :: (name ++ rest)
  whole' : content' = margin ++ '*' :: ((lower (String.ofList name)).toList ++ rest)

/-- A line stays as it is, with a name that has its form, or the name is written anew. -/
theorem recaseLine_cases (line : Line) :
    (recaseLine line = line ∧
      ∀ name ∈ keywordName? line.content, form (String.ofList name) =
        String.ofList name) ∨
    ∃ content margin name rest, recaseLine line = ⟨content, line.ending⟩ ∧
      Recases line.content content margin name rest := by
  unfold recaseLine
  cases hname : keywordName? line.content with
  | none => exact .inl ⟨rfl, nofun⟩
  | some name =>
    dsimp only
    by_cases hknown : isKnown (lower (String.ofList name)) = true
    · rw [if_pos hknown]
      obtain ⟨rest, hwhole, hlower, -⟩ := lowerName_eq hname
      by_cases hsame : String.ofList name = lower (String.ofList name)
      · left
        constructor
        · rw [hlower, ← hsame, String.toList_ofList, ← hwhole]
        · rintro _ ⟨⟩
          rw [form, if_pos hknown, ← hsame]
      · refine .inr ⟨lowerName line.content, line.content.takeWhile isGap, name, rest, rfl, ?_⟩
        constructor
        · exact all_eq_true.1 all_takeWhile
        · exact hname
        · exact keywordName?_lowerName hname hknown
        · exact hknown
        · exact hsame
        · exact hwhole
        · exact hlower
    · rw [if_neg hknown]
      refine .inl ⟨rfl, ?_⟩
      rintro _ ⟨⟩
      rw [form, if_neg hknown]

theorem ending_recaseLine (line : Line) : (recaseLine line).ending = line.ending := by
  rcases recaseLine_cases line with ⟨hsame, -⟩ | ⟨content, margin, name, rest, hnew, -⟩
  · rw [hsame]
  · rw [hnew]

theorem head?_recaseLine (line : Line) : (recaseLine line).content.head? = line.content.head? := by
  rcases recaseLine_cases line with ⟨hsame, -⟩ | ⟨content, margin, name, rest, hnew, h⟩
  · rw [hsame]
  · rw [hnew, h.whole, h.whole']
    cases margin <;> simp

theorem isLineEnd_of_mem_recaseLine {line : Line} (hline : OneLine line.content) :
    OneLine (recaseLine line).content := by
  rcases recaseLine_cases line with ⟨hsame, -⟩ | ⟨content, margin, name, rest, hnew, h⟩
  · rwa [hsame]
  · rw [hnew]
    intro c hc
    have hold := hline c
    rw [h.whole] at hold
    rw [h.whole'] at hc
    simp only [mem_append, mem_cons] at hold hc
    rcases hc with hc | hc | hc | hc
    · exact hold (.inl hc)
    · exact hold (.inr (.inl hc))
    · exact isLineEnd_of_isNameChar ((lower_of_isKnown h.known).2.2 c hc)
    · exact hold (.inr (.inr (.inr hc)))

/-- A line has its ending, and content if and only if it had some. -/
theorem outline_recaseLine (line : Line) : (recaseLine line).outline = line.outline := by
  have hcontent : (recaseLine line).content = [] ↔ line.content = [] := by
    rw [← head?_eq_none_iff, head?_recaseLine, head?_eq_none_iff]
  rw [Line.outline, ending_recaseLine]
  congr 1
  rwa [Bool.eq_iff_iff, List.isEmpty_iff, List.isEmpty_iff]

/-- The fix of a line swaps its name. -/
theorem mends_recaseLine (line : Position × Line) :
    Mends line.1.offset line.2.full (recaseLine line.2).full
      (((keywordLine? line.1 line.2.content).map
        fun k => (String.ofList k.name, k.nameSpan)).bind (labelFix? fun _ => true)).toList := by
  obtain ⟨p, line⟩ := line
  rcases recaseLine_cases line with ⟨hsame, hform⟩ | ⟨content, margin, name, rest, hnew, h⟩
  · cases hname : keywordName? line.content with
    | none =>
      rw [hsame, keywordLine?_eq_none hname]
      exact .keep p.offset line.full
    | some name =>
      obtain ⟨k, hk, rfl, -⟩ := keywordLine?_of_name p hname
      have hnone : labelFix? (fun _ => true) (String.ofList k.name, k.nameSpan) = none := by
        refine if_neg fun hfix => ?_
        simp only [Bool.and_eq_true, bne_iff_ne, and_true] at hfix
        have hname' := hform k.name hname
        rw [form, if_pos hfix.1] at hname'
        exact hfix.2 hname'.symm
      rw [hsame, hk, Option.map_some, Option.bind_some, hnone]
      exact .keep p.offset line.full
  · obtain ⟨k, hk, hkname, -⟩ := keywordLine?_of_name p h.name_eq
    obtain ⟨-, -, -, hstart, -⟩ := keywordLine?_eq_some hk
    have hmargin : line.content.takeWhile isGap = margin := by
      rw [h.whole]
      exact (margin_starred h.gap _).1
    rw [hmargin] at hstart
    have hfix : labelFix? (fun _ => true) (String.ofList k.name, k.nameSpan) =
        some (.replace k.nameSpan (lower (String.ofList k.name))) := by
      refine if_pos ?_
      simpa [hkname, h.known] using h.changes
    have hreplace : Fix.replace k.nameSpan (lower (String.ofList k.name)) =
        ⟨p.offset + byteLength (margin ++ ['*']),
          p.offset + byteLength (margin ++ ['*']) + byteLength name,
          String.ofList (lower (String.ofList name)).toList⟩ := by
      rw [String.ofList_toList, ← hkname]
      show Fix.mk k.nameStart.offset (k.nameStart.advance k.name).offset _ = _
      rw [hstart]
      rfl
    have hfull : line.full = margin ++ ['*'] ++ name ++ (rest ++ line.ending) := by
      rw [Line.full, h.whole]
      simp
    have hfull' : (recaseLine line).full =
        margin ++ ['*'] ++ (lower (String.ofList name)).toList ++ (rest ++ line.ending) := by
      rw [hnew, Line.full, h.whole']
      simp
    have hne : name ≠ [] := by
      obtain ⟨-, -, hne, -⟩ := keywordName?_eq_some h.name_eq
      exact hne
    rw [hk, Option.map_some, Option.bind_some, hfix, hreplace, hfull, hfull']
    exact ((Mends.keep p.offset (margin ++ ['*'])).append (.swap _ hne)).append
      (.keep _ (rest ++ line.ending))

section Text

variable (source : String)

/-- The lines of the source with its keywords written anew. -/
theorem linesOf_recased : linesOf (recased source) =
    placedLines (firstLine source) ((lines (withoutMark source.toList)).map recaseLine) := by
  have hmap : ((linesOf source).map fun line => recaseLine line.2) =
      (lines (withoutMark source.toList)).map recaseLine := by
    conv_rhs => rw [← map_snd_placedLines (firstLine source)
      (lines (withoutMark source.toList)), map_map]
    rfl
  have hhead : (((lines (withoutMark source.toList)).map recaseLine).flatMap
      Line.full).head? = (withoutMark source.toList).head? := by
    conv_rhs => rw [← flatMap_full_lines (withoutMark source.toList)]
    rw [head?_flatMap, head?_flatMap, findSome?_map]
    congr 1
    funext line
    simp only [Function.comp_apply, Line.full, head?_append, head?_recaseLine, ending_recaseLine]
  unfold recased
  rw [hmap]
  refine linesOf_written ?_ ?_ ?_
  · rw [map_map]
    exact map_congr_left fun line _ => outline_recaseLine line
  · rintro _ hline
    obtain ⟨line, hmem, rfl⟩ := mem_map.1 hline
    exact isLineEnd_of_mem_recaseLine (isProper_of_mem_lines hmem).content
  · intro hne
    rwa [hhead, withoutMark_eq_self hne]

/-- **All fixes of keywords are applied,** and each name is written as the vocabulary has it. -/
theorem applyFixes_keywordFixes :
    applyFixes source (keywordFixes source) =
      ⟨recased source, (keywordFixes source).length, []⟩ := by
  have hperm := fixes_validKeyword_perm (fun _ => true) source
  refine applyFixes_mendedLines mends_recaseLine ?_
  refine hperm.trans (.of_eq ?_)
  rw [filterMap_eq_flatMap_toList]

end Text

/-- Places on the same line, in a source whose keywords are written anew. -/
def recasing : Moving where
  near p p' := p'.line = p.line
  span _ := default
  span' _ := default
  keyword := form
  near_stop := Span.line_stop_between
  span_eq _ _ := rfl
  between_eq _ _ := rfl

theorem keyword_recasing : recasing.keyword = form := by
  rfl

theorem along_recasing (h : p'.line = p.line) (u : List Char) : recasing.Along p p' u :=
  fun _ _ _ => h

theorem near_endingStop (h : p'.line = p.line) (u u' ending : List Char) :
    recasing.near (endingStop (p.advance u) ending) (endingStop (p'.advance u') ending) := by
  unfold endingStop
  split
  · exact h
  · exact h

/-- A line whose name is written anew is told again. -/
theorem Recases.placed {content content' margin name rest ending : List Char}
    (h : Recases content content' margin name rest)
    (hinline : OneLine content) (hline : p'.line = p.line) :
    recasing.retelling.Placed 0 (p, ⟨content, ending⟩) (p', ⟨content', ending⟩) := by
  obtain ⟨k, hk, hname, hsub⟩ := keywordLine?_of_name p h.name_eq
  obtain ⟨k', hk', hname', hsub'⟩ := keywordLine?_of_name p' h.name_eq'
  obtain ⟨hmargin, hbody⟩ := margin_starred h.gap (name ++ rest)
  obtain ⟨hmargin', hbody'⟩ := margin_starred h.gap ((lower (String.ofList name)).toList ++ rest)
  rw [← h.whole] at hmargin hbody
  rw [← h.whole'] at hmargin' hbody'
  have hblank : allBlank content = false := by
    rw [h.whole]
    exact allBlank_starred _
  have hblank' : allBlank content' = false := by
    rw [h.whole']
    exact allBlank_starred _
  have htabs : tabCount content' = tabCount content := by
    rw [← tabCount_margin content, ← tabCount_margin content', hmargin, hmargin']
  have hlower : lower (String.ofList k'.name) = lower (String.ofList k.name) := by
    rw [hname, hname', String.ofList_toList]
    exact (lower_of_isKnown h.known).1
  have hform : recasing.keyword (String.ofList k.name) = String.ofList k'.name := by
    rw [keyword_recasing, form, hname, hname', String.ofList_toList, if_pos h.known]
  have hrest : OneLine rest := fun c hc =>
    hinline c (by rw [h.whole]; simp [hc])
  have hlines : recasing.retelling.KeywordLines 0 p content p' content' k k' rest rest := by
    have hmargins : content'.takeWhile isGap = content.takeWhile isGap :=
      hmargin'.trans hmargin.symm
    have hsubs : k'.isSub = k.isSub := by
      rw [hsub, hsub', htabs, ← hname', ← hname, hlower]
    have hstop : k'.nameSpan.stop.line = k.nameSpan.stop.line := by
      obtain ⟨-, -, -, hstart, -⟩ := keywordLine?_eq_some hk
      obtain ⟨-, -, -, hstart', -⟩ := keywordLine?_eq_some hk'
      show k'.nameStart.line = k.nameStart.line
      rw [hstart, hstart']
      exact hline
    rw [← hname] at hbody
    rw [← hname'] at hbody'
    exact Moving.keywordLines hk hk' hbody hbody' hmargins hsubs hlower hform
      (along_recasing hline _) ⟨rfl, hrest, along_recasing hstop rest⟩
  refine ⟨Iff.rfl, .inr ⟨hblank, hblank', htabs, ?_⟩⟩
  constructor
  · exact hline
  · exact hline
  · exact hline
  · exact near_endingStop hline _ _ ending
  · exact .inr ⟨k, k', rest, rest, hlines⟩

theorem placed_recaseLine {line : Line} (hproper : line.IsProper) (hline : p'.line = p.line) :
    recasing.retelling.Placed 0 (p, line) (p', recaseLine line) := by
  rcases recaseLine_cases line with ⟨hsame, hform⟩ | ⟨content, margin, name, rest, hnew, h⟩
  · rw [hsame]
    refine Moving.placed_same rfl hproper.content (along_recasing hline _)
      (near_endingStop hline _ _ _) (fun k hk => ?_) Iff.rfl
    rw [keyword_recasing]
    refine hform k.name ?_
    cases hname : keywordName? line.content with
    | none =>
      rw [keywordLine?_eq_none hname] at hk
      cases hk
    | some name =>
      obtain ⟨k', hk', rfl, -⟩ := keywordLine?_of_name p hname
      obtain rfl : k' = k := Option.some.inj (hk'.symm.trans hk)
      rfl
  · rw [hnew]
    exact h.placed hproper.content hline

theorem forall₂_placed_recaseLine {ls : List Line} (hproper : ∀ line ∈ ls, line.IsProper)
    (hline : p'.line = p.line) :
    Forall₂ (recasing.retelling.Placed 0) (placedLines p ls)
      (placedLines p' (ls.map recaseLine)) := by
  induction ls generalizing p p' with
  | nil => exact .nil
  | cons line ls ih =>
    obtain ⟨hfirst, hrest⟩ := forall_mem_cons.1 hproper
    refine .cons (placed_recaseLine hfirst hline) (ih hrest ?_)
    rw [line_afterLine, line_afterLine, ending_recaseLine, hline]

/-- **The fixes of keywords keep the program.**  All of them are applied.  In the source that they
give, the names of keywords are as the vocabulary has them; nothing else of the tree changes but the
places, and as many faults are found, in the same order and on the same lines. -/
theorem parse_recased (source : String) :
    ∃ source', applyFixes source (keywordFixes source) =
        ⟨source', (keywordFixes source).length, []⟩ ∧
      (parse source').program.reshape .erased =
        (parse source).program.reshape { Reshape.erased with keyword := Vocabulary.form } ∧
      List.Forall₂ (fun d d' => d'.span.start.line = d.span.start.line) (parse source).diagnostics
        (parse source').diagnostics := by
  have hplaced : Forall₂ (recasing.retelling.Placed 0) (linesOf source)
      (linesOf (recased source)) := by
    rw [linesOf_recased]
    exact forall₂_placed_recaseLine (fun line hline => isProper_of_mem_lines hline) rfl
  have hstart : recasing.near (Cursor.ofSource source).lastEnd
      (Cursor.ofSource (recased source)).lastEnd :=
    (line_lastEnd_ofSource (recased source)).trans (line_lastEnd_ofSource source).symm
  obtain ⟨hbody, hdiagnostics⟩ := recasing.parse_moved hplaced hstart
  rw [keyword_recasing] at hbody
  refine ⟨recased source, applyFixes_keywordFixes source, ?_, hdiagnostics.imp fun _ _ h => h.start⟩
  exact congrArg (Program.mk · default) hbody.symm

end ScriptLint

import ScriptLint.Proofs.FixedLines
import ScriptLint.Proofs.MarkupText

/-!
# One pass of fixes is enough

When the fixes of all lines are made, no line has a fix left.  A fix that a line of the new text
still asks for would have been asked for in the old text too: the line says the same, directives and
raw markup are about the same lines, and the same braces stand around the place.

**Results.**
* `ComesFrom.keepsAt_of_fixed`: an issue that is reported in the new text was reported in the old
  one.
* `lineFixes_fixed`: no line of the new text has a fix.
* `fix_stabilises`: fixing makes one pass at most, and fixing again changes nothing.
-/

namespace ScriptLint

open List Text Line

open Piece Rules TrailingWhitespace

variable {before name rest blanks : List Char} {rule : String} {p : Position}

section Plain

open Markup

theorem isPlain_of_isGap {c : Char} (h : isGap c) : isPlain c := by
  rcases (by simpa [isGap] using h : c = ' ' ∨ c = '\t') with rfl | rfl <;> decide

theorem isPlain_of_isNameChar {c : Char} (h : isNameChar c) : isPlain c := by
  have hmarks : ['"', '\'', '(', ')', '[', ']', '{', '}', ':', '\n'].all (!isNameChar ·) := by
    decide
  by_contra hnot
  have hmark := all_eq_true.1 hmarks c
    (by simpa [isPlain, Piece.isQuote, or_iff_not_imp_left] using hnot)
  rw [h] at hmark
  cases hmark

theorem Markup.Similar.retouched {xs ys : List Char} (h : Similar xs ys) : Retouched xs ys := by
  induction h with
  | nil => exact .nil
  | cons c _ ih => exact .cons c ih
  | plain hus hvs hplain hplain' _ ih => exact .plain hus hvs hplain hplain' ih

/-- White space before the ending of a line may be gone. -/
theorem retouched_ending {blanks blanks' ending xs ys : List Char} (hblanks : ∀ c ∈ blanks, isGap c)
    (hsame : blanks' = blanks ∨ blanks' = []) (hending : IsEnding ending) (hne : ending ≠ [])
    (h : Retouched xs ys) : Retouched (blanks ++ (ending ++ xs)) (blanks' ++ (ending ++ ys)) := by
  rcases hsame with rfl | rfl
  · exact (Retouched.refl _).append ((Retouched.refl _).append h)
  have hplain : ∀ c ∈ blanks, isPlain c := fun c hc => isPlain_of_isGap (hblanks c hc)
  have hreturn : ∀ c ∈ blanks ++ ['\r'], isPlain c := by
    intro c hc
    rcases mem_append.1 hc with hc | hc
    · exact hplain c hc
    · rw [mem_singleton.1 hc]
      decide
  rcases hending with rfl | rfl | rfl | rfl
  · exact absurd rfl hne
  · exact .trim hplain h
  · have hrun := @Retouched.plain (blanks ++ ['\r']) ['\r'] xs ys (by simp) (by simp) hreturn
      (forall_mem_singleton.2 (by decide)) h
    simpa using hrun
  · have hrun := @Retouched.plain (blanks ++ ['\r']) ['\r'] ('\n' :: xs)
        ('\n' :: ys) (by simp) (by simp)
      hreturn (forall_mem_singleton.2 (by decide)) (.cons '\n' h)
    simpa using hrun

/-- The second text is the first one retouched, but for plain characters at the end. -/
def RetouchedUpTo (xs ys : List Char) : Prop :=
  ∃ cs ws, xs = cs ++ ws ∧ (∀ c ∈ ws, isPlain c) ∧ Retouched cs ys

theorem RetouchedUpTo.prepend {us vs xs ys : List Char} (h : Retouched us vs)
    (hrest : RetouchedUpTo xs ys) : RetouchedUpTo (us ++ xs) (vs ++ ys) := by
  obtain ⟨cs, ws, rfl, hws, hcs⟩ := hrest
  exact ⟨us ++ cs, ws, by rw [append_assoc], hws, h.append hcs⟩

/-- White space at the end of a line may be gone, also on the last one. -/
theorem retouchedUpTo_ending {blanks blanks' ending xs ys : List Char}
    (hblanks : ∀ c ∈ blanks, isGap c) (hsame : blanks' = blanks ∨ blanks' = [])
    (hending : IsEnding ending) (hlast : ending = [] → xs = [] ∧ ys = [])
    (h : RetouchedUpTo xs ys) :
    RetouchedUpTo (blanks ++ (ending ++ xs)) (blanks' ++ (ending ++ ys)) := by
  by_cases hne : ending = []
  · obtain ⟨rfl, rfl⟩ := hlast hne
    subst hne
    have hplain : ∀ c ∈ blanks, isPlain c := fun c hc => isPlain_of_isGap (hblanks c hc)
    rcases hsame with rfl | rfl
    · exact ⟨blanks', [], by simp, by simp, by simpa using Retouched.refl blanks'⟩
    · exact ⟨[], blanks, by simp, hplain, .nil⟩
  · obtain ⟨cs, ws, rfl, hws, hcs⟩ := h
    exact ⟨blanks ++ (ending ++ cs), ws, by simp, hws,
      retouched_ending hblanks hsame hending hne hcs⟩

end Plain

section Lines

open Markup

variable {plan : FixPlan} {source : String} {content : List Char}

theorem IsParts.similar (h : IsParts content before name rest blanks) :
    Similar name (plan.newName source p content name) := by
  unfold FixPlan.newName
  split
  · next hlowers =>
    obtain ⟨-, hname, hknown, -⟩ := h.lowers_iff.1 hlowers
    obtain ⟨-, -, hne, hchars, -⟩ := keywordName?_eq_some hname
    obtain ⟨-, hne', hchars'⟩ := lower_of_isKnown hknown
    have hrun := Similar.plain hne hne' (fun c hc => isPlain_of_isNameChar (hchars c hc))
      (fun c hc => isPlain_of_isNameChar (hchars' c hc)) .nil
    rwa [append_nil, append_nil] at hrun
  · exact .refl name

/-- The line up to the white space at its end is retouched. -/
theorem IsParts.retouched_head (h : IsParts content before name rest blanks) :
    Retouched (before ++ name ++ rest) (before ++ plan.newName source p content name ++ rest) :=
  ((Retouched.refl before).append h.similar.retouched).append (.refl rest)

theorem IsParts.full_eq (h : IsParts content before name rest blanks) (ending xs : List Char) :
    full ⟨content, ending⟩ ++ xs = before ++ name ++ rest ++ (blanks ++ (ending ++ xs)) := by
  rw [full, h.whole]
  simp only [append_assoc]

/-- What stands before a line is retouched. -/
theorem retouched_before {A : List (Position × Line)} (hproper : ∀ line ∈ A, line.2.IsProper)
    (hending : ∀ line ∈ A, line.2.ending ≠ []) :
    Retouched ((A.map Prod.snd).flatMap full)
      ((A.map (plan.fixLine source)).flatMap full) := by
  induction A with
  | nil => exact .nil
  | cons line A ih =>
    obtain ⟨p, content, ending⟩ := line
    obtain ⟨hfirst, hrest⟩ := forall_mem_cons.1 hproper
    obtain ⟨hne, hne'⟩ := forall_mem_cons.1 hending
    obtain ⟨before, name, rest, blanks, h⟩ := exists_parts content
    rw [map_cons, map_cons, flatMap_cons, flatMap_cons, h.full_eq,
      (h.fixLine plan source p ending).full_eq]
    exact h.retouched_head.append
      (retouched_ending h.gap (plan.newBlanks_cases source p content blanks)
      hfirst.ending hne (ih hrest hne'))

/-- What stands behind a line is retouched, but for white space at the end of the text. -/
theorem retouchedUpTo_after {B : List (Position × Line)} (hproper : ∀ line ∈ B, line.2.IsProper)
    (hending : Ended (B.map Prod.snd)) :
    RetouchedUpTo ((B.map Prod.snd).flatMap full)
      ((B.map (plan.fixLine source)).flatMap full) := by
  induction B with
  | nil => exact ⟨[], [], rfl, by simp, .nil⟩
  | cons line B ih =>
    obtain ⟨p, content, ending⟩ := line
    obtain ⟨hfirst, hrest⟩ := forall_mem_cons.1 hproper
    obtain ⟨before, name, rest, blanks, h⟩ := exists_parts content
    have hlast : ending = [] → B = [] := fun hnil =>
      map_eq_nil_iff.1 (eq_nil_of_ending_eq_nil hending hnil)
    rw [map_cons, map_cons, flatMap_cons, flatMap_cons, h.full_eq,
      (h.fixLine plan source p ending).full_eq]
    refine .prepend h.retouched_head (retouchedUpTo_ending h.gap
      (plan.newBlanks_cases source p content blanks) hfirst.ending (fun hnil => ?_)
      (ih hrest hending.of_cons))
    rw [hlast hnil]
    exact ⟨rfl, rfl⟩

end Lines

section Fixed

variable (plan : FixPlan) (source : String)

/-- Where a line among placed lines stands. -/
theorem place_of_placedLines_eq {p q : Position} {ls : List Line} {line : Line}
    {A B : List (Position × Line)} (h : placedLines p ls = A ++ (q, line) :: B)
    (hending : Ended ls) :
    q.line = p.line + A.length ∧
      q.offset = p.offset + byteLength ((A.map Prod.snd).flatMap full) := by
  induction A generalizing p ls with
  | nil =>
    cases ls with
    | nil => cases h
    | cons first ls =>
      obtain ⟨heq, -⟩ := cons.inj h
      rw [← (Prod.mk.inj heq).1]
      exact ⟨rfl, rfl⟩
  | cons first A ih =>
    cases ls with
    | nil => cases h
    | cons line' ls =>
      obtain ⟨rfl, hrest⟩ := cons.inj h
      obtain ⟨hline, hoffset⟩ := ih hrest hending.of_cons
      have hne : line'.ending ≠ [] := by
        intro hnil
        rw [eq_nil_of_ending_eq_nil hending hnil] at hrest
        cases A <;> cases hrest
      rw [line_afterLine, if_neg hne] at hline
      rw [offset_afterLine] at hoffset
      refine ⟨by rw [length_cons]; omega, ?_⟩
      rw [hoffset, map_cons, flatMap_cons, byteLength_append]
      exact Nat.add_assoc _ _ _

variable {line : Position × Line}

theorem isProper_of_mem_linesOf (h : line ∈ linesOf source) : line.2.IsProper :=
  isProper_of_mem_lines (snd_mem_of_mem_linesOf h)

variable {plan source}

theorem isProper_fixLine (h : line.2.IsProper) : (plan.fixLine source line).IsProper := by
  obtain ⟨p, content, ending⟩ := line
  obtain ⟨before, name, rest, blanks, hparts⟩ := exists_parts content
  have hwhole := hparts.whole
  have hcontent : OneLine content := h.content
  refine ⟨fun c hc => ?_, h.ending⟩
  rw [hparts.content_fixLine plan source p] at hc
  simp only [mem_append] at hc
  rcases hc with ((hc | hc) | hc) | hc
  · exact hcontent c (by rw [hwhole]; simp [hc])
  · unfold FixPlan.newName at hc
    split at hc
    · next hlowers =>
      obtain ⟨-, -, hknown, -⟩ := hparts.lowers_iff.1 hlowers
      exact isLineEnd_of_isNameChar ((lower_of_isKnown hknown).2.2 c hc)
    · exact hcontent c (by rw [hwhole]; simp [hc])
  · exact hcontent c (by rw [hwhole]; simp [hc])
  · rcases plan.newBlanks_cases source p content blanks with hsame | hnil
    · rw [hsame] at hc
      exact hcontent c (by rw [hwhole]; simp [hc])
    · rw [hnil] at hc
      cases hc

theorem tidiesTo_fixLine (h : line.2.IsProper) :
    TidiesTo line.2 (plan.fixLine source line) := by
  obtain ⟨p, content, ending⟩ := line
  obtain ⟨before, name, rest, blanks, hparts⟩ := exists_parts content
  exact ⟨hparts.tidies_fixLine plan source p ending, rfl, h.content, (isProper_fixLine h).content⟩

theorem forall₂_tidiesTo {A : List (Position × Line)} (h : ∀ line ∈ A, line.2.IsProper) :
    Forall₂ TidiesTo (A.map Prod.snd) (A.map (plan.fixLine source)) := by
  rw [forall₂_map_left_iff, forall₂_map_right_iff]
  exact forall₂_same.2 fun line hline => tidiesTo_fixLine (h line hline)

/-- A line that begins with no byte-order mark begins with none when its fixes are made. -/
theorem head?_fixLine {xs : List Char} (h : line.2.IsProper)
    (hhead : line.2.content.head? ≠ some byteOrderMark) (hlast : line.2.ending = [] → xs = []) :
    ((plan.fixLine source line).full ++ xs).head? ≠ some byteOrderMark := by
  obtain ⟨p, content, ending⟩ := line
  obtain ⟨before, name, rest, blanks, hparts⟩ := exists_parts content
  have hends : IsEnding ending := h.ending
  rw [(hparts.fixLine plan source p ending).full_eq]
  cases before with
  | cons c before =>
    have hwhole := hparts.whole
    rw [hwhole] at hhead
    simpa using hhead
  | nil =>
    rcases hparts.keyword with ⟨-, hbefore⟩ | ⟨hnone, rfl, rfl⟩
    · simp at hbefore
    rw [hparts.newName_of_none plan source p hnone]
    cases hblanks : plan.newBlanks source p content blanks with
    | cons d ws =>
      have hgap := (hparts.fixLine plan source p ending).gap d (by rw [hblanks]; simp)
      rintro hmark
      obtain rfl : d = byteOrderMark := by simpa using hmark
      revert hgap
      decide
    | nil =>
      rcases hends with rfl | rfl | rfl | rfl
      · rw [hlast rfl]
        exact nofun
      · show some '\n' ≠ some byteOrderMark
        decide
      · show some '\r' ≠ some byteOrderMark
        decide
      · show some '\r' ≠ some byteOrderMark
        decide

variable (plan source)

/-- A source without a byte-order mark has none when its fixes are made. -/
theorem head?_fixedLines (h : source.toList.head? ≠ some byteOrderMark) :
    (((linesOf source).map (plan.fixLine source)).flatMap full).head? ≠
      some byteOrderMark := by
  have hbody := withoutMark_eq_self h
  have hjoin := flatMap_full_lines source.toList
  have hending := pairwise_ending_lines source.toList
  have hproper := fun line => @isProper_of_mem_lines line source.toList
  unfold linesOf
  rw [hbody]
  generalize lines source.toList = ls at hjoin hending hproper
  cases ls with
  | nil => exact nofun
  | cons line ls =>
    refine @head?_fixLine plan source (firstLine source, line) _ (hproper line mem_cons_self) ?_ ?_
    · intro hhead
      obtain ⟨rest, hrest⟩ := head?_eq_some_iff.1 hhead
      refine h ?_
      rw [← hjoin, flatMap_cons, full, hrest]
      rfl
    · intro hnil
      rw [eq_nil_of_ending_eq_nil hending hnil]
      rfl

/-- The mark of the text with all fixes made. -/
theorem withoutMark_fixedText :
    markOf (String.ofList (plan.fixedText source)) = markOf source ∧
      withoutMark (String.ofList (plan.fixedText source)).toList =
        ((linesOf source).map (plan.fixLine source)).flatMap full :=
  markOf_ofList (head?_fixedLines plan source)

theorem pairwise_ending_fixed : Ended ((linesOf source).map (plan.fixLine source)) := by
  have hending := pairwise_ending_lines (withoutMark source.toList)
  rw [← map_snd_placedLines (firstLine source) (lines _)] at hending
  exact pairwise_map.2 (pairwise_map.1 hending)

/-- The lines of the text with all fixes made. -/
theorem lines_fixedText :
    lines (withoutMark (String.ofList (plan.fixedText source)).toList) =
      settle ((linesOf source).map (plan.fixLine source)) := by
  rw [(withoutMark_fixedText plan source).2]
  refine lines_flatMap_full ?_ (pairwise_ending_fixed plan source)
  intro line hline
  obtain ⟨line, hmem, rfl⟩ := mem_map.1 hline
  exact isProper_fixLine (isProper_of_mem_linesOf source hmem)

theorem isBlankRest_of_mem {cs : List Char} (h : '*' ∈ cs) : isBlankRest cs = false := by
  refine Bool.eq_false_iff.2 fun hblank => ?_
  rcases (by simpa [isBlankRest] using hblank : cs = [] ∨ cs = [byteOrderMark]) with rfl | rfl
  · cases h
  · have hmark := mem_singleton.1 h
    revert hmark
    decide

/-- A line of the text with all fixes made comes from a line of the source. -/
structure ComesFrom (A : List (Position × Line)) (p : Position) (l : Line)
    (B : List (Position × Line)) (p' : Position) (l' : Line) : Prop where
  lines : linesOf source = A ++ (p, l) :: B
  content : l'.content = (plan.fixLine source (p, l)).content
  line : p'.line = (settle (A.map (plan.fixLine source))).length + 1
  offset : p'.offset =
    byteLength (markOf source ++ (A.map (plan.fixLine source)).flatMap full)
  after : ∃ after, Text.lines (withoutMark (String.ofList (plan.fixedText source)).toList) =
    settle (A.map (plan.fixLine source)) ++ l' :: after

variable {plan source} {A B : List (Position × Line)} {p' : Position} {l l' : Line}

theorem exists_comesFrom (h : (p', l') ∈ linesOf (String.ofList (plan.fixedText source))) :
    ∃ A p l B, ComesFrom plan source A p l B p' l' := by
  obtain ⟨A', B', hsplit⟩ := append_of_mem h
  have hlines := lines_fixedText plan source
  have hplace := place_of_placedLines_eq hsplit (pairwise_ending_lines _)
  have hsnd := congrArg (map Prod.snd) hsplit
  rw [linesOf, map_snd_placedLines, map_append, map_cons] at hsnd
  obtain ⟨xs, x, ys, hes, hbefore, hcontent, -⟩ :=
    exists_of_settle_eq (pairwise_ending_fixed plan source) (hlines.symm.trans hsnd)
  obtain ⟨A, rest, hlinesOf, rfl, hrest⟩ := map_eq_append_iff.1 hes
  obtain ⟨⟨p, l⟩, B, rfl, rfl, rfl⟩ := map_eq_cons_iff.1 hrest
  refine ⟨A, p, l, B, hlinesOf, hcontent, ?_, ?_, B'.map Prod.snd, by rw [hsnd, hbefore]⟩
  · rw [hplace.1, line_firstLine, ← hbefore, length_map, Nat.add_comm]
  · rw [hplace.2, offset_firstLine, (withoutMark_fixedText plan source).1, hbefore,
      flatMap_full_settle, byteLength_append]

namespace ComesFrom

variable (h : ComesFrom plan source A p l B p' l')

include h

theorem lines_source :
    Text.lines (withoutMark source.toList) = A.map Prod.snd ++ l :: B.map Prod.snd := by
  have hsnd := congrArg (map Prod.snd) h.lines
  rwa [linesOf, map_snd_placedLines, map_append] at hsnd

theorem proper : ∀ line ∈ A ++ (p, l) :: B, line.2.IsProper := by
  rw [← h.lines]
  exact fun line hline => isProper_of_mem_linesOf source hline

theorem place : p.line = A.length + 1 ∧
    p.offset = byteLength (markOf source ++ (A.map Prod.snd).flatMap full) := by
  have hplace := place_of_placedLines_eq h.lines (pairwise_ending_lines _)
  rw [line_firstLine, offset_firstLine, Nat.add_comm 1] at hplace
  rwa [byteLength_append]

theorem ending : ∀ line ∈ A, line.2.ending ≠ [] := by
  intro line hline
  exact ending_ne_nil_of_lines_eq h.lines_source line.2 (mem_map_of_mem hline)

/-- What a directive says about the line it says about the line that comes from it. -/
theorem isSuppressed
    (hrule : (DirectiveTable.ofSource source).isSuppressed p.line rule) :
    (DirectiveTable.ofSource (String.ofList (plan.fixedText source))).isSuppressed
      p'.line rule := by
  obtain ⟨after, hafter⟩ := h.after
  have hbefore : Forall₂ TidiesTo (A.map Prod.snd) (A.map (plan.fixLine source)) :=
    forall₂_tidiesTo fun line hline => h.proper line (mem_append_left _ hline)
  have hline : TidiesTo l (plan.fixLine source (p, l)) :=
    @tidiesTo_fixLine plan source (p, l) (h.proper (p, l) (by simp))
  have hcovered := fun subject => @covered_tidied _ source (String.ofList (plan.fixedText source)) _
    _ _ _ _ _ h.lines_source hbefore hline hafter h.content subject
  rw [length_map, ← h.place.1, ← h.line] at hcovered
  rw [DirectiveTable.isSuppressed_iff] at hrule ⊢
  exact hrule.imp (hcovered _) (hcovered _)

/-- A line of markup gives a line of markup. -/
theorem inMarkup
    (hrange : (Markup.lineRanges (parse source).program.nodes).any fun range =>
      range.1 ≤ p.line && p.line ≤ range.2) :
    (Markup.lineRanges (parse (String.ofList (plan.fixedText source))).program.nodes).any
    fun range =>
      range.1 ≤ p'.line && p'.line ≤ range.2 := by
  have htidied : Forall₂ TidiesTo (Text.lines (withoutMark source.toList))
      ((linesOf source).map (plan.fixLine source)) := by
    have hlines := @forall₂_tidiesTo plan source (linesOf source)
      fun line hline => isProper_of_mem_linesOf source hline
    rwa [linesOf, map_snd_placedLines] at hlines
  have hranges := lineRanges_tidied htidied (lines_fixedText plan source)
  have hnumber : renumber ((linesOf source).map (plan.fixLine source)) p.line = p'.line := by
    have hlength : (A.map (plan.fixLine source)).length = A.length := length_map _
    rw [renumber, h.line, h.place.1, Nat.add_sub_cancel, h.lines, map_append, ← hlength, take_left]
  rw [hranges, any_map]
  rw [any_eq_true] at hrange ⊢
  obtain ⟨range, hmem, hbounds⟩ := hrange
  refine ⟨range, hmem, ?_⟩
  simp only [Bool.and_eq_true, decide_eq_true_eq, Function.comp] at hbounds ⊢
  rw [← hnumber]
  exact ⟨renumber_monotone _ hbounds.1, renumber_monotone _ hbounds.2⟩

/-- The text with all fixes made, around a place on the line. -/
theorem toList_eq {u v : List Char} (hcontent : l'.content = u ++ v) :
    (String.ofList (plan.fixedText source)).toList =
      (markOf source ++ (A.map (plan.fixLine source)).flatMap full ++ u) ++
        (v ++ (l.ending ++ (B.map (plan.fixLine source)).flatMap full)) := by
  have hfull : (plan.fixLine source (p, l)).full = u ++ (v ++ l.ending) := by
    rw [full, ← h.content, hcontent, append_assoc]
    rfl
  rw [String.toList_ofList, FixPlan.fixedText, h.lines, map_append, map_cons,
    flatMap_append, flatMap_cons, hfull]
  simp only [append_assoc]

/-- The source around a place on the line. -/
theorem source_eq {u v : List Char} (hcontent : l.content = u ++ v) :
    source.toList = (markOf source ++ (A.map Prod.snd).flatMap full ++ u) ++
      (v ++ (l.ending ++ (B.map Prod.snd).flatMap full)) := by
  have hjoin := flatMap_full_lines (withoutMark source.toList)
  rw [h.lines_source, flatMap_append, flatMap_cons, full, hcontent] at hjoin
  conv_lhs => rw [← markOf_append source, ← hjoin]
  simp only [append_assoc]

/-- An issue that is reported on the line was reported on the line that it comes from. -/
theorem keepsAt_of_fixed {u u' v v' : List Char} (hcontent : l.content = u ++ v)
    (hcontent' : l'.content = u' ++ v') (hu : Markup.Retouched u u')
    (hv : RetouchedUpTo (v ++ (l.ending ++ (B.map Prod.snd).flatMap full))
      (v' ++ (l.ending ++ (B.map (plan.fixLine source)).flatMap full)))
    (hkeeps : keepsAt (String.ofList (plan.fixedText source)) rule (p'.advance u') = true) :
    keepsAt source rule (p.advance u) = true := by
  have hbefore : Markup.Retouched (markOf source ++ (A.map Prod.snd).flatMap full ++ u)
      (markOf source ++ (A.map (plan.fixLine source)).flatMap full ++ u') :=
    ((Markup.Retouched.refl _).append (retouched_before
      (fun line hline => h.proper line (mem_append_left _ hline)) h.ending)).append hu
  obtain ⟨after, blanks, hafter, hblanks, hretouched⟩ := hv
  have hbraces := Markup.any_enclosingBraces?_retouched hbefore hretouched hblanks
  rw [← hafter, ← h.source_eq hcontent, ← h.toList_eq hcontent', byteLength_append _ u,
    byteLength_append _ u', ← h.place.2, ← h.offset] at hbraces
  unfold keepsAt at hkeeps ⊢
  simp only [Bool.and_eq_true, Bool.or_eq_true, Bool.not_eq_true'] at hkeeps ⊢
  obtain ⟨hrule, hmarkup⟩ := hkeeps
  constructor
  · refine Bool.eq_false_iff.2 fun hsuppressed => ?_
    exact absurd (h.isSuppressed hsuppressed) (Bool.eq_false_iff.1 hrule)
  · refine hmarkup.imp (fun hrange => ?_) fun hinside => hbraces.symm.trans hinside
    refine Bool.eq_false_iff.2 fun hranges => ?_
    exact absurd (h.inMarkup hranges) (Bool.eq_false_iff.1 hrange)

/-- What stands behind the parts of the line. -/
theorem retouchedUpTo_tail
    (hparts : IsParts l.content before name rest blanks) :
    RetouchedUpTo (blanks ++ (l.ending ++ (B.map Prod.snd).flatMap full))
      (plan.newBlanks source p l.content blanks ++
        (l.ending ++ (B.map (plan.fixLine source)).flatMap full)) := by
  have hproper := h.proper
  have hending := pairwise_ending_lines (withoutMark source.toList)
  rw [h.lines_source] at hending
  have hpairwise := (pairwise_append.1 hending).2.1
  refine retouchedUpTo_ending hparts.gap (plan.newBlanks_cases source p l.content blanks)
    (hproper (p, l) (by simp)).ending (fun hnil => ?_)
    (retouchedUpTo_after (fun line hline => hproper line (by simp [hline])) hpairwise.of_cons)
  rw [map_eq_nil_iff.1 (eq_nil_of_ending_eq_nil hpairwise hnil)]
  exact ⟨rfl, rfl⟩

theorem parts_fixed
    (hparts : IsParts l.content before name rest blanks) :
    IsParts l'.content before (plan.newName source p l.content name) rest
      (plan.newBlanks source p l.content blanks) := by
  have hsame : (plan.fixLine source (p, ⟨l.content, l.ending⟩)).content = l'.content :=
    h.content.symm
  have hfixed := hparts.fixLine plan source p l.ending
  rwa [hsame] at hfixed

/-- An issue at the name was reported. -/
theorem keepsAt_name
    (hparts : IsParts l.content before name rest blanks)
    (hkeeps : keepsAt (String.ofList (plan.fixedText source)) rule (p'.advance before) = true) :
    keepsAt source rule (p.advance before) = true := by
  have hcontent := hparts.whole
  have hcontent' := (h.parts_fixed hparts).whole
  have hname : Markup.Retouched (name ++ rest) (plan.newName source p l.content name ++ rest) :=
    hparts.similar.retouched.append (.refl rest)
  have htail := (h.retouchedUpTo_tail hparts).prepend hname
  rw [append_assoc, append_assoc] at hcontent hcontent'
  refine h.keepsAt_of_fixed hcontent hcontent' (.refl before) ?_ hkeeps
  simpa only [append_assoc] using htail

/-- An issue behind the last part but the white space at the end was reported. -/
theorem keepsAt_end
    (hparts : IsParts l.content before name rest blanks)
    (hkeeps : keepsAt (String.ofList (plan.fixedText source)) rule
      (p'.advance (before ++ plan.newName source p l.content name ++ rest)) = true) :
    keepsAt source rule (p.advance (before ++ name ++ rest)) = true :=
  h.keepsAt_of_fixed hparts.whole (h.parts_fixed hparts).whole hparts.retouched_head
    (h.retouchedUpTo_tail hparts) hkeeps

/-- The first line stays the first. -/
theorem line_eq_one : p'.line = 1 ↔ p.line = 1 := by
  rw [h.line, h.place.1]
  cases hA : A with
  | nil => simp [settle]
  | cons line A =>
    have hne : line.2.ending ≠ [] := h.ending line (by simp [hA])
    have hfull : (plan.fixLine source line).full ≠ [] := by
      intro hnil
      exact hne (append_eq_nil_iff.1 hnil).2
    have hsettle := settle_cons_ne_nil hfull (A.map (plan.fixLine source))
    have hpos := length_pos_iff.2 hsettle
    rw [map_cons, length_cons]
    omega

/-- No name is left to be written in lower case. -/
theorem not_lowers : plan.lowers (String.ofList (plan.fixedText source)) p' l'.content = false := by
  obtain ⟨before, name, rest, blanks, hparts⟩ := exists_parts l.content
  refine Bool.eq_false_iff.2 fun hlowers' => ?_
  obtain ⟨hon, hname, hknown, hlower, hkeeps⟩ := (h.parts_fixed hparts).lowers_iff.1 hlowers'
  cases hlowers : plan.lowers source p l.content with
  | true =>
    obtain ⟨-, -, hknown', -⟩ := hparts.lowers_iff.1 hlowers
    have hnew : plan.newName source p l.content name = (lower (String.ofList name)).toList :=
      if_pos hlowers
    rw [hnew, String.ofList_toList] at hlower
    exact hlower (lower_of_isKnown hknown').1.symm
  | false =>
    have hnew : plan.newName source p l.content name = name := if_neg (by simp [hlowers])
    rw [hnew] at hname hknown hlower
    have hkeyword : keywordName? l.content = some name := by
      rcases hparts.keyword with ⟨hkeyword, -⟩ | ⟨-, rfl, -⟩
      · exact hkeyword
      · obtain ⟨-, -, hne, -⟩ := keywordName?_eq_some hname
        exact absurd rfl hne
    have hreported := h.keepsAt_name hparts hkeeps
    have htrue := hparts.lowers_iff.2 ⟨hon, hkeyword, hknown, hlower, hreported⟩
    rw [hlowers] at htrue
    cases htrue

/-- No white space is left to be deleted. -/
theorem not_trims : plan.trims (String.ofList (plan.fixedText source)) p' l'.content = false := by
  obtain ⟨before, name, rest, blanks, hparts⟩ := exists_parts l.content
  refine Bool.eq_false_iff.2 fun htrims' => ?_
  obtain ⟨skipBlank, hskip, hne, hblank, hkeeps⟩ := (h.parts_fixed hparts).trims_iff.1 htrims'
  have htrims : plan.trims source p l.content = false := by
    refine Bool.eq_false_iff.2 fun htrims => hne ?_
    exact if_pos htrims
  have hsame : plan.newBlanks source p l.content blanks = blanks := if_neg (by simp [htrims])
  rw [hsame] at hne
  have htrue := hparts.trims_iff.2 ⟨skipBlank, hskip, hne, ?_, h.keepsAt_end hparts hkeeps⟩
  · rw [htrims] at htrue
    cases htrue
  rw [(withoutMark_fixedText plan source).1] at hblank
  simp only [h.line_eq_one] at hblank
  cases hlowers : plan.lowers source p l.content with
  | false =>
    have hnew : plan.newName source p l.content name = name := if_neg (by simp [hlowers])
    rwa [hnew] at hblank
  | true =>
    obtain ⟨-, hname, -⟩ := hparts.lowers_iff.1 hlowers
    obtain ⟨-, hbefore⟩ := hparts.keyword.resolve_right fun hnone => by simp [hname] at hnone
    rw [isBlankRest_of_mem (by simp [hbefore]), Bool.false_and]

end ComesFrom

variable (plan source)

/-- **No line of the text with all fixes made has a fix.** -/
theorem lineFixes_fixed : (linesOf (String.ofList (plan.fixedText source))).flatMap
    (plan.lineFixes (String.ofList (plan.fixedText source))) = [] := by
  refine flatMap_eq_nil_iff.2 fun line hline => ?_
  obtain ⟨A, p, l, B, h⟩ := exists_comesFrom hline
  unfold FixPlan.lineFixes FixPlan.nameFix? FixPlan.endFix?
  rw [h.not_lowers, h.not_trims]
  rfl

end Fixed

section Passes

variable {linter : Linter} {path text : String}

theorem Report.fixes_eq_nil_iff {report : Report} :
    report.fixes = [] ↔ ∀ issue ∈ report.issues, issue.fix = none :=
  filterMap_eq_nil_iff

/-- A text without fixes is left as it is. -/
theorem Linter.fixFrom_of_fixes_eq_nil (left passes applied : Nat)
    (h : (linter.lint path text).fixes = []) :
    linter.fixFrom path left passes applied text =
      ⟨text, passes, applied, linter.lint path text⟩ := by
  cases left with
  | zero => rfl
  | succ left =>
    have happlied : (applyFixes text (linter.lint path text).fixes).applied = 0 := by
      simp [h, applyFixes, Fix.select]
    exact if_pos happlied

variable {config : Config}

/-- Fixing ends with a text without fixes, after the fixes of the first report. -/
theorem Linter.exists_fix_eq (h : Linter.ofConfig config = .ok linter)
    (hpasses : 1 ≤ config.maxFixPasses) (path source : String) :
    ∃ output passes, passes ≤ 1 ∧ (linter.lint path output).fixes = [] ∧
      linter.fix path source =
        ⟨output, passes, (linter.lint path source).fixes.length, linter.lint path output⟩ := by
  obtain ⟨hconfig, plan, hplan⟩ := fixes_perm h
  obtain ⟨left, hleft⟩ := Nat.exists_eq_add_of_le' hpasses
  unfold Linter.fix
  rw [hconfig, hleft]
  by_cases hnone : (linter.lint path source).fixes = []
  · refine ⟨source, 0, Nat.zero_le 1, hnone, ?_⟩
    rw [Linter.fixFrom_of_fixes_eq_nil _ _ _ hnone, hnone]
    rfl
  · have hfixed : (linter.lint path (String.ofList (plan.fixedText source))).fixes = [] := by
      have hperm := hplan path (String.ofList (plan.fixedText source))
      rw [lineFixes_fixed] at hperm
      exact hperm.eq_nil
    have happly := applyFixes_lines plan source (hplan path source)
    refine ⟨String.ofList (plan.fixedText source), 1, Nat.le_refl 1, hfixed, ?_⟩
    rw [Linter.fixFrom, happly, if_neg (by simpa using hnone),
      Linter.fixFrom_of_fixes_eq_nil _ _ _ hfixed, Nat.zero_add, Nat.zero_add]

/-- **Fixing makes one pass at most.**  That pass makes every fix of the first report; the last
report, which is on the text that is left, has no fix, and fixing that text again changes
nothing. -/
theorem fix_stabilises (h : Linter.ofConfig config = .ok linter) (hpasses : 1 ≤ config.maxFixPasses)
    (path source : String) :
    (linter.fix path source).passes ≤ 1 ∧
      (linter.fix path source).applied = (linter.lint path source).fixes.length ∧
      (linter.fix path source).report = linter.lint path (linter.fix path source).output ∧
      (∀ issue ∈ (linter.fix path source).report.issues, issue.fix = none) ∧
      (linter.fix path (linter.fix path source).output).applied = 0 ∧
      (linter.fix path (linter.fix path source).output).output =
        (linter.fix path source).output := by
  obtain ⟨output, passes, hle, hfixed, heq⟩ := Linter.exists_fix_eq h hpasses path source
  have hagain : linter.fix path output = ⟨output, 0, 0, linter.lint path output⟩ :=
    Linter.fixFrom_of_fixes_eq_nil _ _ _ hfixed
  rw [heq]
  dsimp only
  rw [hagain]
  exact ⟨hle, rfl, rfl, Report.fixes_eq_nil_iff.1 hfixed, rfl, rfl⟩

/-- A keyword in upper case, with white space at the end of its line. -/
theorem fix_stabilises_if : ∃ linter : Linter, Linter.ofConfig {} = .ok linter ∧
    1 ≤ ({} : Config).maxFixPasses ∧
    (linter.fix "a.gt" "*IF: a  ").passes ≤ 1 ∧
    (linter.fix "a.gt" "*IF: a  ").applied = (linter.lint "a.gt" "*IF: a  ").fixes.length ∧
    (∀ issue ∈ (linter.fix "a.gt" "*IF: a  ").report.issues, issue.fix = none) ∧
    (linter.fix "a.gt" (linter.fix "a.gt" "*IF: a  ").output).applied = 0 := by
  obtain ⟨linter, h⟩ : ∃ linter, Linter.ofConfig {} = .ok linter := ⟨_, rfl⟩
  obtain ⟨hpasses, happlied, -, hissues, hagain, -⟩ :=
    fix_stabilises h (by decide) "a.gt" "*IF: a  "
  exact ⟨linter, h, by decide, hpasses, happlied, hissues, hagain⟩

end Passes

end ScriptLint

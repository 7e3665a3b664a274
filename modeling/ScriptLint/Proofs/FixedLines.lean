import ScriptLint.Proofs.Chunks
import ScriptLint.Proofs.FixableLines
import ScriptLint.Proofs.TidiedSource

/-!
# Lines with their fixes made

A line has a part before the name of its keyword, the name, a rest, and white space at its end; on
other lines there is no name and no rest.  A fix swaps the name, or the white space, for something
else.

**Results.**
* `tidies_fixLine`: a line with its fixes made is a tidied form of the line.
* `applyFixes_lines`: the fixes of all lines, in any order, give the text of these lines.
-/

namespace ScriptLint

open List Text

open Piece Rules TrailingWhitespace

variable {source : String}

/-- A text keeps its end when that is no white space. -/
theorem trimmed_eq_self_iff {cs : List Char} :
    trimmed cs = cs ↔ ∀ c ∈ cs.getLast?, isGap c = false := by
  rcases eq_nil_or_concat cs with rfl | ⟨cs, c, rfl⟩
  · simp [trimmed, dropEndWhile]
  rw [concat_eq_append, getLast?_concat]
  constructor
  · rintro hsame _ ⟨⟩
    by_contra hgap
    have hdrop := @trimmed_append [c] (by simpa using hgap) cs
    obtain ⟨ws, hcs, -⟩ := exists_eq_trimmed_append cs
    have hlength := congrArg length (hsame.symm.trans hdrop)
    have hlength' := congrArg length hcs
    simp only [length_append, length_singleton] at hlength hlength'
    omega
  · intro hlast
    have hc : trimmed [c] = [c] := by simp [trimmed, dropEndWhile, hlast c rfl]
    have hne : dropEndWhile isGap [c] ≠ [] := by
      show trimmed [c] ≠ []
      rw [hc]
      simp
    have happend := dropEndWhile_append_of_ne_nil hne cs
    exact happend.trans (congrArg (cs ++ ·) hc)

theorem isGap_of_isNameChar {c : Char} (h : isNameChar c) : isGap c = false := by
  by_contra hgap
  have hblank : c = ' ' ∨ c = '\t' := by simpa [isGap, or_iff_not_imp_left] using hgap
  rcases hblank with rfl | rfl <;> exact absurd h (by decide)

theorem isLineEnd_of_isNameChar {c : Char} (h : isNameChar c) : isLineEnd c = false := by
  by_contra hend
  have hchar : c = '\n' ∨ c = '\r' := by simpa [isLineEnd, or_iff_not_imp_left] using hend
  rcases hchar with rfl | rfl <;> exact absurd h (by decide)

/-- The parts of a line around the name of its keyword and the white space at its end. -/
structure IsParts (content before name rest blanks : List Char) : Prop where
  whole : content = before ++ name ++ rest ++ blanks
  gap : ∀ c ∈ blanks, isGap c
  trim : trimmed content = before ++ name ++ rest
  keyword : (keywordName? content = some name ∧ before = content.takeWhile isGap ++ ['*']) ∨
    (keywordName? content = none ∧ name = [] ∧ rest = [])

theorem exists_parts (content : List Char) :
    ∃ before name rest blanks, IsParts content before name rest blanks := by
  obtain ⟨blanks, hcontent, hblanks⟩ := exists_eq_trimmed_append content
  have hname := keywordName?_append hblanks (trimmed content)
  rw [← hcontent] at hname
  cases hkeyword : keywordName? content with
  | none =>
    exact ⟨trimmed content, [], [], blanks, by simpa using hcontent, hblanks, by simp,
      .inr ⟨hkeyword, rfl, rfl⟩⟩
  | some name =>
    rw [hkeyword] at hname
    obtain ⟨rest, htrimmed, -⟩ := lowerName_eq hname.symm
    have hmargin : content.takeWhile isGap = (trimmed content).takeWhile isGap := by
      conv_lhs => rw [hcontent, htrimmed]
      rw [append_assoc]
      exact (margin_starred (all_eq_true.1 all_takeWhile) _).1
    refine ⟨(trimmed content).takeWhile isGap ++ ['*'], name, rest, blanks, ?_, hblanks, ?_,
      .inl ⟨hkeyword, by rw [hmargin]⟩⟩
    · conv_lhs => rw [hcontent, htrimmed]
      simp
    · conv_lhs => rw [htrimmed]
      simp

theorem takeWhile_before {content before : List Char}
    (h : before = content.takeWhile isGap ++ ['*']) (xs : List Char) :
    (before ++ xs).takeWhile isGap = content.takeWhile isGap := by
  rw [h, append_assoc]
  exact (margin_starred (all_eq_true.1 all_takeWhile) xs).1

namespace FixPlan

variable (plan : FixPlan) (source : String)

/-- The line with its fixes made. -/
def fixLine (line : Position × Line) : Line :=
  let ended := if plan.trims source line.1 line.2.content then trimmed line.2.content
    else line.2.content
  ⟨if plan.lowers source line.1 line.2.content then lowerName ended else ended, line.2.ending⟩

/-- The name of a line with its fixes made. -/
def newName (p : Position) (content name : List Char) : List Char :=
  if plan.lowers source p content then (lower (String.ofList name)).toList else name

/-- The white space at the end of a line with its fixes made. -/
def newBlanks (p : Position) (content blanks : List Char) : List Char :=
  if plan.trims source p content then [] else blanks

theorem newBlanks_cases (p : Position) (content blanks : List Char) :
    plan.newBlanks source p content blanks = blanks ∨
    plan.newBlanks source p content blanks = [] := by
  unfold newBlanks
  split
  · exact .inr rfl
  · exact .inl rfl

end FixPlan

section Parts

variable {plan : FixPlan} {source : String} {p : Position}
  {content before name rest blanks : List Char} (h : IsParts content before name rest blanks)

include h

theorem IsParts.nameStart {k : KeywordLine} (hk : keywordLine? p content = some k) :
    k.name = name ∧ k.nameStart = p.advance before ∧
      k.nameSpan = ⟨p.advance before, p.advance (before ++ name)⟩ := by
  rcases h.keyword with ⟨hname, hbefore⟩ | ⟨hname, -⟩
  · obtain ⟨k', hk', hsame, -⟩ := keywordLine?_of_name p hname
    obtain rfl : k' = k := Option.some.inj (hk'.symm.trans hk)
    obtain ⟨-, -, -, hstart, -⟩ := keywordLine?_eq_some hk
    rw [← hbefore] at hstart
    refine ⟨hsame, hstart, ?_⟩
    rw [KeywordLine.nameSpan, hstart, hsame, Position.advance_advance]
  · rw [keywordLine?_eq_none hname] at hk
    cases hk

/-- When a name is to be written in lower case. -/
theorem IsParts.lowers_iff : plan.lowers source p content = true ↔
    plan.keywords = true ∧ keywordName? content = some name ∧
      Vocabulary.isKnown (lower (String.ofList name)) = true ∧
      String.ofList name ≠ lower (String.ofList name) ∧
      keepsAt source ValidKeyword.name (p.advance before) = true := by
  unfold FixPlan.lowers
  rw [Bool.and_eq_true, Option.any_eq_true]
  constructor
  · rintro ⟨hon, k, hk, hfix⟩
    obtain ⟨hname, hstart, -⟩ := h.nameStart hk
    rcases h.keyword with ⟨hkeyword, -⟩ | ⟨hnone, -⟩
    · rw [hname, hstart] at hfix
      simp only [Bool.and_eq_true, bne_iff_ne] at hfix
      exact ⟨hon, hkeyword, hfix⟩
    · rw [keywordLine?_eq_none hnone] at hk
      cases hk
  · rintro ⟨hon, hkeyword, hfix⟩
    obtain ⟨k, hk, -⟩ := keywordLine?_of_name p hkeyword
    obtain ⟨hname, hstart, -⟩ := h.nameStart hk
    refine ⟨hon, k, hk, ?_⟩
    rw [hname, hstart]
    simpa only [Bool.and_eq_true, bne_iff_ne] using hfix

/-- When white space at the end of a line is to be deleted. -/
theorem IsParts.trims_iff : plan.trims source p content = true ↔
    ∃ skipBlank ∈ plan.trailing, blanks ≠ [] ∧
      (isBlankRest ((if p.line = 1 then markOf source else []) ++ (before ++ name ++ rest)) &&
        skipBlank) = false ∧
      keepsAt source TrailingWhitespace.name (p.advance (before ++ name ++ rest)) = true := by
  have hlength : (before ++ name ++ rest).length < content.length ↔ blanks ≠ [] := by
    have hwhole := congrArg length h.whole
    rw [length_append] at hwhole
    rw [← length_pos_iff]
    omega
  unfold FixPlan.trims
  rw [Option.any_eq_true, h.trim]
  simp only [Bool.and_eq_true, Bool.not_eq_true', decide_eq_true_eq, hlength]
  rfl

/-- The line keeps its name when its end is trimmed, and its name may be written in lower case. -/
theorem IsParts.lowerName_eq (hname : keywordName? content = some name)
    {ws : List Char} (hws : ws = blanks ∨ ws = []) :
    keywordName? (before ++ name ++ rest ++ ws) = some name ∧
      lowerName (before ++ name ++ rest ++ ws) =
        before ++ (lower (String.ofList name)).toList ++ rest ++ ws := by
  have hkeyword : keywordName? (before ++ name ++ rest ++ ws) = some name := by
    rcases hws with rfl | rfl
    · rw [← h.whole, hname]
    · rw [append_nil, ← keywordName?_append h.gap, ← h.whole, hname]
  refine ⟨hkeyword, ?_⟩
  obtain ⟨-, hbefore⟩ := h.keyword.resolve_right fun hnone => by simp [hname] at hnone
  have hmargin : (before ++ name ++ rest ++ ws).takeWhile isGap = content.takeWhile isGap := by
    rw [append_assoc, append_assoc]
    exact takeWhile_before hbefore _
  obtain ⟨rest', hwhole, hlower, -⟩ := ScriptLint.lowerName_eq hkeyword
  have hrest : rest' = rest ++ ws := by
    rw [hmargin, hbefore] at hwhole
    simpa using hwhole.symm
  rw [hlower, hmargin, hrest, hbefore]
  simp

variable (plan source p)

/-- The line with its fixes made, part by part. -/
theorem IsParts.content_fixLine (ending : List Char) :
    (plan.fixLine source (p, ⟨content, ending⟩)).content =
      before ++ plan.newName source p content name ++ rest ++
        plan.newBlanks source p content blanks := by
  have hended : (if plan.trims source p content then trimmed content else content) =
      before ++ name ++ rest ++ plan.newBlanks source p content blanks := by
    unfold FixPlan.newBlanks
    split
    · rw [h.trim, append_nil]
    · exact h.whole
  unfold FixPlan.fixLine FixPlan.newName
  rw [hended]
  split
  · next hlowers =>
    obtain ⟨-, hname, -⟩ := h.lowers_iff.1 hlowers
    exact (h.lowerName_eq hname (plan.newBlanks_cases source p content blanks)).2
  · rfl

/-- A line with its fixes made is a tidied form of the line. -/
theorem IsParts.tidies_fixLine (ending : List Char) :
    Tidies content (plan.fixLine source (p, ⟨content, ending⟩)).content := by
  have hended : Tidies content
      (before ++ name ++ rest ++ plan.newBlanks source p content blanks) := by
    rcases plan.newBlanks_cases source p content blanks with hsame | hnil
    · rw [hsame, ← h.whole]
      exact .refl content
    · rw [hnil, append_nil]
      conv_lhs => rw [h.whole]
      exact tidies_append h.gap _
  rw [h.content_fixLine plan source p, FixPlan.newName]
  split
  · next hlowers =>
    obtain ⟨-, hname, hknown, -⟩ := h.lowers_iff.1 hlowers
    obtain ⟨hkeyword, hlower⟩ := h.lowerName_eq hname (plan.newBlanks_cases source p content blanks)
    rw [← hlower]
    exact hended.trans (tidies_lowerName hkeyword hknown)
  · exact hended

/-- What is left of a line with its fixes made, if white space at its end is dropped. -/
theorem IsParts.trimmed_newName :
    trimmed (before ++ plan.newName source p content name ++ rest) =
      before ++ plan.newName source p content name ++ rest := by
  have hkept : trimmed (before ++ name ++ rest) = before ++ name ++ rest := by
    rw [← h.trim, trimmed_trimmed]
  unfold FixPlan.newName
  split
  · next hlowers =>
    obtain ⟨-, hname, hknown, -⟩ := h.lowers_iff.1 hlowers
    obtain ⟨-, hne, hchars⟩ := lower_of_isKnown hknown
    rw [trimmed_eq_self_iff] at hkept ⊢
    by_cases hrest : rest = []
    · rw [hrest, append_nil, getLast?_append_of_ne_nil _ hne]
      exact fun c hc => isGap_of_isNameChar (hchars c (mem_of_getLast? hc))
    · rw [getLast?_append_of_ne_nil _ hrest] at hkept ⊢
      exact hkept
  · exact hkept

theorem IsParts.newName_of_none (hnone : keywordName? content = none) :
    plan.newName source p content name = name := by
  refine if_neg fun hlowers => ?_
  obtain ⟨-, hname, -⟩ := h.lowers_iff.1 hlowers
  rw [hnone] at hname
  cases hname

/-- The name on a line with its fixes made. -/
theorem IsParts.keywordName?_fixLine (ending : List Char) :
    keywordName? (plan.fixLine source (p, ⟨content, ending⟩)).content =
      (keywordName? content).map fun _ => plan.newName source p content name := by
  have hends := plan.newBlanks_cases source p content blanks
  rw [h.content_fixLine plan source p]
  rcases h.keyword with ⟨hname, -⟩ | ⟨hnone, rfl, rfl⟩
  · obtain ⟨hkeyword, hlower⟩ := h.lowerName_eq hname hends
    rw [hname, FixPlan.newName]
    split
    · next hlowers =>
      obtain ⟨-, -, hknown, -⟩ := h.lowers_iff.1 hlowers
      rw [← hlower]
      exact keywordName?_lowerName hkeyword hknown
    · exact hkeyword
  · have hwhole := h.whole
    simp only [append_nil] at hwhole
    rw [h.newName_of_none plan source p hnone, hnone, append_nil, append_nil, Option.map_none]
    rcases hends with hsame | hnil
    · rw [hsame, ← hwhole, hnone]
    · rw [hnil, append_nil, ← keywordName?_append h.gap, ← hwhole, hnone]

/-- The parts of a line with its fixes made. -/
theorem IsParts.fixLine (ending : List Char) :
    IsParts (plan.fixLine source (p, ⟨content, ending⟩)).content before
      (plan.newName source p content name) rest (plan.newBlanks source p content blanks) := by
  have hwhole := h.content_fixLine plan source p ending
  have hkeyword := h.keywordName?_fixLine plan source p ending
  have hgap : ∀ c ∈ plan.newBlanks source p content blanks, isGap c := by
    rcases plan.newBlanks_cases source p content blanks with hsame | hnil
    · rw [hsame]
      exact h.gap
    · simp [hnil]
  refine ⟨hwhole, hgap, ?_, ?_⟩
  · rw [hwhole, trimmed_append hgap, h.trimmed_newName]
  rcases h.keyword with ⟨hname, hbefore⟩ | ⟨hnone, hnil, hrest⟩
  · rw [hname] at hkeyword
    refine .inl ⟨hkeyword, ?_⟩
    rw [hwhole, append_assoc, append_assoc, takeWhile_before hbefore]
    exact hbefore
  · rw [hnone] at hkeyword
    exact .inr ⟨hkeyword, by rw [h.newName_of_none plan source p hnone, hnil], hrest⟩

theorem IsParts.fixes_name : (plan.nameFix? source p content).toList =
    if plan.lowers source p content then
      [⟨p.offset + byteLength before, p.offset + byteLength (before ++ name),
        lower (String.ofList name)⟩]
    else [] := by
  unfold FixPlan.nameFix?
  split
  · next hlowers =>
    obtain ⟨-, hname, -⟩ := h.lowers_iff.1 hlowers
    obtain ⟨k, hk, -⟩ := keywordLine?_of_name p hname
    obtain ⟨hsame, -, hspan⟩ := h.nameStart hk
    rw [hk, Option.map_some, hsame, hspan]
    rfl
  · rfl

theorem IsParts.fixes_end : (plan.endFix? source p content).toList =
    if plan.trims source p content then
      [⟨p.offset + byteLength (before ++ name ++ rest), p.offset + byteLength content, ""⟩]
    else [] := by
  unfold FixPlan.endFix?
  rw [h.trim]
  split
  · rfl
  · rfl

end Parts

section Mending

theorem withoutMark_eq_self {cs : List Char} (h : cs.head? ≠ some byteOrderMark) :
    withoutMark cs = cs := by
  cases cs with
  | nil => rfl
  | cons c rest => rw [withoutMark, if_neg (by simpa using h)]

/-- A text that is put behind the mark of a source. -/
theorem markOf_ofList {text : List Char}
    (h : source.toList.head? ≠ some byteOrderMark → text.head? ≠ some byteOrderMark) :
    markOf (String.ofList (markOf source ++ text)) = markOf source ∧
      withoutMark (String.ofList (markOf source ++ text)).toList = text := by
  unfold markOf
  rw [String.toList_ofList]
  by_cases hmark : source.toList.head? = some byteOrderMark
  · rw [if_pos hmark]
    exact ⟨rfl, rfl⟩
  · have hhead := h hmark
    rw [if_neg hmark, nil_append, if_neg hhead]
    exact ⟨rfl, withoutMark_eq_self hhead⟩

theorem firstLine_eq_of_markOf_eq {source' : String} (h : markOf source' = markOf source) :
    firstLine source' = firstLine source := by
  unfold markOf at h
  unfold firstLine
  by_cases hmark : source.toList.head? = some byteOrderMark <;>
    by_cases hmark' : source'.toList.head? = some byteOrderMark <;> simp_all

/-- The lines of a source that is written over line by line. -/
theorem linesOf_written {ls : List Line}
    (h : ls.map Line.outline = (lines (withoutMark source.toList)).map Line.outline)
    (hcontent : ∀ line ∈ ls, OneLine line.content)
    (hhead : source.toList.head? ≠ some byteOrderMark →
      (ls.flatMap Line.full).head? ≠ some byteOrderMark) :
    linesOf (String.ofList (markOf source ++ ls.flatMap Line.full)) =
      placedLines (firstLine source) ls := by
  obtain ⟨hmark, htext⟩ := markOf_ofList hhead
  rw [linesOf, htext, lines_of_outline h hcontent, firstLine_eq_of_markOf_eq hmark]

variable {fixLine : Position × Line → Line} {lineFixes : Position × Line → List Fix}
  (hline : ∀ line, Mends line.1.offset line.2.full (fixLine line).full (lineFixes line))

include hline

/-- The fixes of the lines from a place on. -/
theorem mends_placedLines (p : Position) (ls : List Line) :
    Mends p.offset (ls.flatMap Line.full) (((placedLines p ls).map fixLine).flatMap Line.full)
      ((placedLines p ls).flatMap lineFixes) := by
  induction ls generalizing p with
  | nil => exact .keep p.offset []
  | cons line ls ih =>
    refine .append (hline (p, line)) ?_
    rw [← offset_afterLine]
    exact ih (afterLine p line)

/-- Fixes of lines do not conflict: in any order all of them are applied. -/
theorem applyFixes_mendedLines {given : List Fix}
    (h : given.Perm ((linesOf source).flatMap lineFixes)) :
    applyFixes source given = ⟨String.ofList (markOf source ++
      ((linesOf source).map fixLine).flatMap Line.full), given.length, []⟩ := by
  have hlines := mends_placedLines hline (firstLine source)
    (lines (withoutMark source.toList))
  rw [offset_firstLine, flatMap_full_lines, ← Nat.zero_add (byteLength _)] at hlines
  have hsource := (Mends.keep 0 (markOf source)).append hlines
  rw [markOf_append] at hsource
  exact applyFixes_of_mends hsource h

end Mending

section Lines

variable (plan : FixPlan) (source : String)

/-- The fixes of a line swap its name and the white space at its end. -/
theorem FixPlan.mends_fixLine (line : Position × Line) :
    Mends line.1.offset line.2.full (plan.fixLine source line).full
      (plan.lineFixes source line) := by
  obtain ⟨p, content, ending⟩ := line
  obtain ⟨before, name, rest, blanks, h⟩ := exists_parts content
  have hname : plan.lowers source p content = true → name ≠ [] := by
    intro hlowers
    obtain ⟨-, hname, -⟩ := h.lowers_iff.1 hlowers
    obtain ⟨-, -, hne, -⟩ := keywordName?_eq_some hname
    exact hne
  have hblanks : plan.trims source p content = true → blanks ≠ [] := by
    intro htrims
    obtain ⟨-, -, hne, -⟩ := h.trims_iff.1 htrims
    exact hne
  have hmends := ((((Mends.keep p.offset before).append
    (.swapIf (lower (String.ofList name)).toList hname)).append (.keep _ rest)).append
      (.swapIf [] hblanks)).append (.keep _ ending)
  have hfull : Line.full ⟨content, ending⟩ = before ++ name ++ rest ++ blanks ++ ending := by
    rw [← h.whole]
    rfl
  have hfixed : (plan.fixLine source (p, ⟨content, ending⟩)).full =
      before ++ plan.newName source p content name ++ rest ++
        plan.newBlanks source p content blanks ++ ending := by
    rw [← h.content_fixLine plan source p ending]
    rfl
  have hfixes : plan.lineFixes source (p, ⟨content, ending⟩) =
      (plan.nameFix? source p content).toList ++ (plan.endFix? source p content).toList := rfl
  have hend : p.offset + byteLength content =
      p.offset + byteLength (before ++ name ++ rest) + byteLength blanks := by
    conv_lhs => rw [h.whole, byteLength_append, ← Nat.add_assoc]
  rw [hfull, hfixed, hfixes, h.fixes_name plan source p, h.fixes_end plan source p, hend,
    byteLength_append before name, ← Nat.add_assoc]
  rw [String.ofList_toList] at hmends
  simp only [append_nil] at hmends
  exact hmends

/-- The text of a source with the fixes of all lines made. -/
def FixPlan.fixedText : List Char :=
  markOf source ++ ((linesOf source).map (plan.fixLine source)).flatMap Line.full

/-- **Fixes of lines do not conflict:** in any order all of them are applied. -/
theorem applyFixes_lines {given : List Fix}
    (h : given.Perm ((linesOf source).flatMap (plan.lineFixes source))) :
    applyFixes source given = ⟨String.ofList (plan.fixedText source), given.length, []⟩ :=
  applyFixes_mendedLines (plan.mends_fixLine source) h

end Lines

end ScriptLint

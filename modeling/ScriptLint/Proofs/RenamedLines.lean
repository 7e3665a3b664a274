import ScriptLint.Proofs.Renaming

/-!
# The source with an identifier renamed

A fix that replaces an identifier by another word changes one line.  This line is told again with
the word in its place, behind the name of its keyword if it has one; all other lines are told again
as they are, but for their offsets.

**Results.**
* `RenamedLine.placed`: a line that is told again with another word.
* `exists_renamedLines`: the lines of the source that the fix gives.
* `parse_renamed`: the program of this source, and the faults that are found in it.
-/

namespace ScriptLint

open List Retelling

open Piece Text

variable {start : Nat} {line : Position × Line} {line' : Line} {ls : List Line}
  {target : Span} {x : List Char} {w : String}

/-- A line at its place, and the same line with another word for the one at the target, if it holds
that behind the name of its keyword. -/
structure RenamedLine (target : Nat) (x w : List Char) (line : Position × Line) (line' : Line) :
    Prop where
  ending : line'.ending = line.2.ending
  content : ∃ rest', line'.content = lineHead line.2.content ++ rest' ∧
    Renames target x w (line.1.offset + byteLength (lineHead line.2.content))
      (lineTail line.2.content) rest'

section Lines

variable {p p' : Position} {content content' rest' : List Char}

/-- White space before the text of a line. -/
theorem Renames.margin (h : Renames target.start.offset x w.toList p.offset content content')
    (hx : IsWord x) (hw : IsWord w.toList) :
    content'.takeWhile isGap = content.takeWhile isGap := by
  cases h with
  | same => rfl
  | @swap a b => rw [(margin_word hx a b).1, (margin_word hw a b).1]

/-- A line that is not that of a keyword. -/
theorem RenamedText.plainLines
    (h : RenamedText target.start.offset x w.toList p content p' content')
    (R : Rewording target x w)
    (hname : keywordName? content = none) :
    (renamed R).PlainLines
      (2 * covers target.start.offset p.offset content) p content p' content' := by
  have hmargin := h.text.margin R.old R.new
  have htabs : tabCount content' = tabCount content := by
    rw [← tabCount_margin content, ← tabCount_margin content', hmargin]
  have hsplit : content.takeWhile isGap ++ content.dropWhile isGap = content :=
    takeWhile_append_dropWhile
  have hinline : ∀ piece ∈ ofContent (0 < tabCount content) (content.dropWhile isGap),
      piece.isInline :=
    fun _ => isInline_of_mem_ofContent
  have hjoin := join_ofContent (0 < tabCount content) (content.dropWhile isGap)
  have hchars : ∀ c ∈ join (ofContent (0 < tabCount content) (content.dropWhile isGap)),
      isLineEnd c = false := by
    intro c hc
    rw [hjoin] at hc
    exact h.inline c (by rw [← hsplit]; exact mem_append_right _ hc)
  constructor
  · exact keywordLine?_eq_none hname
  · refine keywordLine?_eq_none ?_
    rcases h.text.split with ⟨-, rfl⟩ | ⟨a, b, rfl, rfl, -⟩
    · exact hname
    · exact keywordName?_swap R.old R.new a b hname
  · unfold lineTokens
    rw [htabs]
    rcases h with ⟨-, hline, htext⟩
    cases htext with
    | same hfree =>
      refine forall₂_renamed_same hinline hchars hline ?_
      rw [hjoin]
      exact covers_eq_zero_of_append (hsplit.symm.trans (append_nil _).symm) hfree
    | @swap a b hplace hapart =>
      have ha : a = a.takeWhile isGap ++ a.dropWhile isGap := takeWhile_append_dropWhile.symm
      rw [ha, byteLength_append, ← Nat.add_assoc] at hplace
      refine forall₂_renamed_swap (ofContent_swap R.old R.new _ hapart hname)
        R.old hinline hchars hline ?_ hapart.dropWhile
      rw [(margin_word R.old a b).1]
      exact hplace
  · exact Nat.mul_le_mul_left 2 (sum_covers_lineTokens target.start.offset p content)

/-- The line of a keyword with the other word behind its name. -/
theorem Renames.line_of_name {name : List Char} (hname : keywordName? content = some name)
    (h : Renames target.start.offset x w.toList (p.offset + byteLength (lineHead content))
      (lineTail content) rest') (hx : IsWord x) (hw : IsWord w.toList) :
    keywordName? (lineHead content ++ rest') = some name ∧
      (lineHead content ++ rest').takeWhile isGap = content.takeWhile isGap ∧
      lineHead (lineHead content ++ rest') = lineHead content ∧
      lineTail (lineHead content ++ rest') = rest' := by
  have hname' : keywordName? (lineHead content ++ rest') = some name := by
    rcases h.split with ⟨-, rfl⟩ | ⟨a, b, htail, rfl, -⟩
    · rwa [lineHead_append_lineTail]
    · exact keywordName?_swap_tail hx hw hname htail
  obtain ⟨rest, hbody, hhead, -⟩ := ScriptLint.line_of_name hname
  obtain ⟨after, hbody', hhead', htail'⟩ := ScriptLint.line_of_name hname'
  have hmargin : (lineHead content ++ rest').takeWhile isGap = content.takeWhile isGap := by
    have hgaps : ∀ c ∈ content.takeWhile isGap, isGap c := all_eq_true.1 all_takeWhile
    rw [hhead, append_assoc]
    exact (margin_starred hgaps _).1
  have hsame : lineHead (lineHead content ++ rest') = lineHead content := by
    rw [hhead', hmargin, hhead]
  refine ⟨hname', hmargin, hsame, ?_⟩
  have hwhole := lineHead_append_lineTail (lineHead content ++ rest')
  rw [hsame] at hwhole
  exact append_cancel_left hwhole

theorem RenamedText.keywordLines {name : List Char} (hname : keywordName? content = some name)
    (hchars : OneLine content) (hline : p'.line = p.line)
    (h : Renames target.start.offset x w.toList (p.offset + byteLength (lineHead content))
      (lineTail content) rest') (R : Rewording target x w) :
    ∃ k k', (renamed R).KeywordLines
      (2 * covers target.start.offset p.offset content) p content p'
        (lineHead content ++ rest') k k'
      (lineTail content) rest' := by
  obtain ⟨hname', hmargin, hhead, htail⟩ := h.line_of_name hname R.old R.new
  obtain ⟨k, xs, hk, hkname, hsub, hbody, hstart, hstop, hargument, hrest, hanchor⟩ :=
    keywordLine_parts p hname
  obtain ⟨k', xs', hk', hkname', hsub', hbody', hstart', hstop', hargument', hrest', hanchor'⟩ :=
    keywordLine_parts p' hname'
  rw [htail] at hbody' hargument' hrest'
  have htabs : tabCount (lineHead content ++ rest') = tabCount content := by
    rw [← tabCount_margin content, ← tabCount_margin (lineHead content ++ rest'), hmargin]
  have hinline : OneLine (lineTail content) := by
    intro c hc
    exact hchars c (by rw [← lineHead_append_lineTail content]; exact mem_append_right _ hc)
  refine ⟨k, k', ?_⟩
  constructor
  · exact hk
  · exact hk'
  · exact hbody
  · exact hbody'
  · exact hline
  · rw [hsub, hsub', htabs]
  · rw [hkname, hkname']
  · rw [hkname, hkname']
    rfl
  · rw [hstart, hstart']
    exact hline
  · rw [hstop, hstop']
    exact hline
  · rw [hstop, hstop']
    refine RenamedText.tokens ?_ R.old (fun _ _ => isInline_of_mem_ofArgument) join_ofArgument
      (ofArgument_swap R.old R.new)
    exact ⟨hinline, hline, h⟩
  · rw [hstop]
    exact Nat.mul_le_mul_left 2 (sum_covers_argument target.start.offset p content)
  · rw [hanchor, hanchor']
    refine ⟨fun c hc => hinline c (by rw [hrest]; exact mem_append_right _ hc), hline, ?_⟩
    rw [hargument, hargument']
    have hinner := h.argument R.old R.new (by rw [← hargument]; exact hrest)
    rw [Nat.add_assoc, ← byteLength_append] at hinner
    exact hinner
  · rw [hanchor]
    exact Nat.mul_le_mul_left 2 (covers_argument_le target.start.offset p hrest)

/-- **A line with another word is told again.** -/
theorem RenamedLine.placed
    (h : RenamedLine target.start.offset x w.toList line line')
    (hchars : OneLine line.2.content) (hline : p'.line = line.1.line)
    (R : Rewording target x w) :
    ∃ n ≤ 2 * covers target.start.offset line.1.offset line.2.content,
      (renamed R).Placed n line (p', line') := by
  obtain ⟨p, content, ending⟩ := line
  obtain ⟨content', ending'⟩ := line'
  obtain ⟨hending, rest', hcontent, htext⟩ := h
  dsimp only at hending hcontent htext hchars hline ⊢
  subst hending hcontent
  have hblank : allBlank (lineHead content ++ rest') = allBlank content := by
    conv_rhs => rw [← lineHead_append_lineTail content]
    rw [allBlank, allBlank, all_append, all_append]
    exact congrArg (_ && ·) (htext.allBlank_eq R.old R.new)
  have hends : (endingStop (p'.advance (lineHead content ++ rest')) ending').line =
      (endingStop (p.advance content) ending').line := by
    unfold endingStop
    split
    · exact hline
    · exact hline
  cases hwritten : allBlank content with
  | true => exact ⟨0, Nat.zero_le _, Iff.rfl, .inl ⟨rfl, hwritten, hblank.trans hwritten⟩⟩
  | false =>
    have hplaced : ∀ {n : Nat}, (lineHead content ++ rest').takeWhile isGap =
        content.takeWhile isGap →
        ((renamed R).PlainLines n p content p' (lineHead content ++ rest') ∨
          ∃ k k' rest rest'', (renamed R).KeywordLines n p content p'
            (lineHead content ++ rest') k k' rest rest'') →
        (renamed R).Placed n (p, ⟨content, ending'⟩)
          (p', ⟨lineHead content ++ rest', ending'⟩) := by
      intro n hmargin hlines
      refine ⟨Iff.rfl,
        .inr ⟨hwritten, hblank.trans hwritten, ?_, hline, hline, hline, hends, hlines⟩⟩
      rw [← tabCount_margin content, ← tabCount_margin (lineHead content ++ rest'), hmargin]
    refine ⟨_, Nat.le_refl _, ?_⟩
    cases hname : keywordName? content with
    | none =>
      rw [lineHead_of_plain hname, lineTail_of_plain hname] at htext
      rw [lineHead_of_plain hname] at hplaced ⊢
      exact hplaced (htext.margin R.old R.new)
        (.inl (RenamedText.plainLines ⟨hchars, hline, htext⟩ R hname))
    | some name =>
      obtain ⟨k, k', hkeyword⟩ := RenamedText.keywordLines hname hchars hline htext R
      exact hplaced (htext.line_of_name hname R.old R.new).2.1 (.inr ⟨k, k', _, _, hkeyword⟩)

/-- A line that ends before the target, or starts behind it, stays as it is. -/
theorem RenamedLine.same (x w : List Char) {line : Line}
    (h : start < p.offset ∨ p.offset + byteLength line.content ≤ start) :
    RenamedLine start x w (p, line) line := by
  have hwhole := lineHead_append_lineTail line.content
  refine ⟨rfl, lineTail line.content, hwhole.symm, .same ?_⟩
  refine covers_eq_zero_of_append (hwhole.symm.trans (append_nil _).symm) ?_
  rcases h with hlt | hle
  · exact covers_of_lt _ hlt
  · exact covers_of_le hle

theorem forall₂_renamedLine_same (x w : List Char) {p : Position}
    (h : start < p.offset) : Forall₂ (RenamedLine start x w) (placedLines p ls) ls := by
  induction ls generalizing p with
  | nil => exact .nil
  | cons line ls ih =>
    refine .cons (.same x w (.inl h)) (ih ?_)
    rw [offset_afterLine]
    omega

/-- **The lines with another word.**  On one of the lines a word is swapped; the text is the same
before the word and behind it. -/
theorem exists_renamedLines {x : List Char} (w : List Char) {p q : Position}
    {line : Line} {a b : List Char} (hx : x ≠ []) (hmem : (q, line) ∈ placedLines p ls)
    (htail : lineTail line.content = a ++ x ++ b) (hapart : Apart a b)
    (hplace : q.offset + byteLength (lineHead line.content ++ a) = start) :
    ∃ ls' xs ys, ls.flatMap Line.full = xs ++ x ++ ys ∧ ls'.flatMap Line.full = xs ++ w ++ ys ∧
      p.offset + byteLength xs = start ∧
      Forall₂ (RenamedLine start x w) (placedLines p ls) ls' := by
  have hpos := byteLength_pos hx
  induction ls generalizing p with
  | nil => cases hmem
  | cons first ls ih =>
    rcases mem_cons.1 hmem with heq | hmem
    · obtain ⟨rfl, rfl⟩ := Prod.mk.inj heq
      have hcontent : line.content = lineHead line.content ++ a ++ x ++ b := by
        conv_lhs => rw [← lineHead_append_lineTail line.content, htail]
        simp
      refine ⟨⟨lineHead line.content ++ (a ++ w ++ b), line.ending⟩ :: ls,
        lineHead line.content ++ a,
        b ++ line.ending ++ ls.flatMap Line.full, ?_, ?_, hplace, .cons ⟨rfl, _, rfl, ?_⟩ ?_⟩
      · rw [flatMap_cons, Line.full]
        conv_lhs => rw [hcontent]
        simp
      · simp [Line.full]
      · rw [htail]
        refine .swap ?_ hapart
        rw [byteLength_append] at hplace
        dsimp only
        omega
      · refine forall₂_renamedLine_same x w ?_
        rw [offset_afterLine, Line.full, hcontent]
        simp only [byteLength_append] at hplace ⊢
        omega
    · obtain ⟨ls', xs, ys, htext, htext', hoffset, hlines⟩ := ih hmem
      rw [offset_afterLine] at hoffset
      refine ⟨first :: ls', first.full ++ xs, ys, ?_, ?_, ?_, .cons (.same x w (.inr ?_)) hlines⟩
      · rw [flatMap_cons, htext]
        simp
      · rw [flatMap_cons, htext']
        simp
      · rw [byteLength_append]
        omega
      · rw [Line.full, byteLength_append] at hoffset
        omega

end Lines

theorem RenamedLine.outline {w : List Char} (h : RenamedLine start x w line line')
    (hx : IsWord x) (hw : IsWord w) :
    line'.outline = line.2.outline := by
  obtain ⟨hending, rest', hcontent, htext⟩ := h
  have hempty : line'.content = [] ↔ line.2.content = [] := by
    conv_rhs => rw [← lineHead_append_lineTail line.2.content]
    rw [hcontent, append_eq_nil_iff, append_eq_nil_iff]
    rcases htext.split with ⟨-, rfl⟩ | ⟨a, b, htail, rfl, -⟩
    · exact Iff.rfl
    · rw [htail]
      simp [hx.ne_nil, hw.ne_nil]
  rw [Line.outline]
  congr 1
  rwa [Bool.eq_iff_iff, List.isEmpty_iff, List.isEmpty_iff]

theorem RenamedLine.inline {w : List Char} (h : RenamedLine start x w line line') (hw : IsWord w)
    (hchars : OneLine line.2.content) : OneLine line'.content := by
  obtain ⟨-, rest', hcontent, htext⟩ := h
  rw [← lineHead_append_lineTail line.2.content] at hchars
  rw [hcontent]
  intro c hc
  rcases mem_append.1 hc with hc | hc
  · exact hchars c (mem_append_left _ hc)
  · exact htext.inline hw (fun c hc => hchars c (mem_append_right _ hc)) c hc

/-- The lines with another word, one after the other, are told again. -/
theorem forall₂_placed_renamed {p p' : Position} {ls' : List Line}
    (h : Forall₂ (RenamedLine target.start.offset x w.toList) (placedLines p ls) ls')
    (hproper : ∀ line ∈ ls, line.IsProper) (hline : p'.line = p.line) (R : Rewording target x w) :
    Forall₂ (fun line line' => ∃ n ≤ 2 * covers target.start.offset line.1.offset line.2.content,
      (renamed R).Placed n line line') (placedLines p ls)
        (placedLines p' ls') := by
  induction ls generalizing p p' ls' with
  | nil =>
    rw [placedLines, forall₂_nil_left_iff] at h
    rw [h]
    exact .nil
  | cons line ls ih =>
    obtain ⟨hfirst, hrest⟩ := forall_mem_cons.1 hproper
    cases h with
    | cons head tail =>
      refine .cons (head.placed hfirst.content hline R) (ih tail hrest ?_)
      rw [line_afterLine, line_afterLine, head.ending, hline]

/-- The lines with another word have the endings of the lines, and content where these have some. -/
theorem outlines_of_renamedLines {w : List Char} {lines : List (Position × Line)}
    {ls' : List Line} (h : Forall₂ (RenamedLine start x w) lines ls') (hx : IsWord x)
    (hw : IsWord w)
    (hchars : ∀ line ∈ lines, OneLine line.2.content) :
    ls'.map Line.outline = (lines.map Prod.snd).map Line.outline ∧
      ∀ line ∈ ls', OneLine line.content := by
  induction h with
  | nil => exact ⟨rfl, nofun⟩
  | cons head _ ih =>
    obtain ⟨hfirst, hrest⟩ := forall_mem_cons.1 hchars
    obtain ⟨houtline, hinline⟩ := ih hrest
    constructor
    · rw [map_cons, map_cons, map_cons, head.outline hx hw, houtline]
    · exact forall_mem_cons.2 ⟨head.inline hw hfirst, hinline⟩

/-- The source that the fix gives, and its lines. -/
theorem exists_renamedSource {source name : String} {span : Span}
    (hplace : IsPlaceOf source span name) (hw : IsWord w.toList) :
    ∃ source' ls', applyFixes source [.replace span w] = ⟨source', 1, []⟩ ∧
      linesOf source' = placedLines (firstLine source) ls' ∧
      Forall₂ (RenamedLine span.start.offset name.toList w.toList) (linesOf source) ls' := by
  have hx := hplace.word
  obtain ⟨p, ln, before, after, hmem, htail, hapart, hstart⟩ := hplace.line
  obtain ⟨ls', xs, ys, htext, htext', hoffset, hlines⟩ := exists_renamedLines
    w.toList hx.ne_nil hmem htail hapart (show p.offset + _ = span.start.offset by rw [hstart]; rfl)
  rw [flatMap_full_lines] at htext
  rw [offset_firstLine, ← byteLength_append] at hoffset
  refine ⟨String.ofList (markOf source ++ ls'.flatMap Line.full), ls', ?_, ?_, hlines⟩
  · have hsource : source.toList = (markOf source ++ xs) ++ name.toList ++ ys := by
      rw [← markOf_append source, htext]
      simp
    have hsource' : markOf source ++ ls'.flatMap Line.full =
        (markOf source ++ xs) ++ w.toList ++ ys := by
      rw [htext']
      simp
    have hfix : Fix.replace span w =
        ⟨span.start.offset, span.start.offset + byteLength name.toList, w⟩ := by
      unfold Fix.replace
      rw [hplace.stop]
      rfl
    have hmends : Mends 0 source.toList ((markOf source ++ xs) ++ w.toList ++ ys)
        [.replace span w] := by
      have hparts := ((Mends.keep 0 (markOf source ++ xs)).append (.swap w.toList hx.ne_nil)).append
          (.keep _ ys)
      rw [Nat.zero_add, hoffset, String.ofList_toList, ← hfix, ← hsource] at hparts
      exact hparts
    rw [hsource']
    exact applyFixes_of_mends hmends (.refl _)
  · obtain ⟨houtline, hinline⟩ := outlines_of_renamedLines hlines hx hw fun line hline =>
      (isLineEnd_of_mem_lines (snd_mem_of_mem_linesOf hline)).1
    rw [map_snd_placedLines] at houtline
    refine linesOf_written houtline hinline fun hhead => ?_
    rw [← withoutMark_eq_self hhead, htext] at hhead
    rw [htext']
    cases xs with
    | nil =>
      obtain ⟨c, rest, hcons, hc⟩ := hw.start
      rw [hcons]
      rintro ⟨⟩
      have hmark : isWordStart byteOrderMark = false := by decide +kernel
      rw [hmark] at hc
      cases hc
    | cons c xs => exact hhead

/-- **Renaming an identifier.**  The fix that replaces an identifier by another word is applied.  In
the source that it gives, this one identifier has the word for its name, and the string literals
around it have it in their texts; nothing else of the tree changes but the places, and the same
faults are found. -/
theorem parse_renamed {source name w : String} {span : Span}
    (hnode : .expression (.identifier name span) ∈ (parse source).program.nodes)
    (hw : ofExpression true w.toList = [token .identifier w.toList]) :
    ((parse source).program.nodes.filterMap Node.identifierStart?).count span.start.offset = 1 ∧
    ∃ source', applyFixes source [.replace span w] = ⟨source', 1, []⟩ ∧
      (parse source').program.reshape .erased =
        (parse source).program.reshape (.renamed span w) ∧
      (parse source').diagnostics.map Diagnostic.message =
        (parse source).diagnostics.map Diagnostic.message := by
  have hword : IsWord w.toList := (separates_ofExpression true w.toList [] w.toList [] hw).1
  have hplace := isPlaceOf_of_mem_nodes hnode
  have R : Rewording span name.toList w := ⟨hplace.word, hword, by rw [hplace.stop]; rfl⟩
  constructor
  · refine Nat.le_antisymm (nodup_iff_count_le_one.1 (nodup_identifierStarts source) _) ?_
    exact count_pos_iff.2 (mem_filterMap.2 ⟨_, hnode, rfl⟩)
  obtain ⟨source', ls', hfixed, hlines', hlines⟩ := exists_renamedSource hplace hword
  refine ⟨source', hfixed, ?_⟩
  obtain ⟨n, hn, htally⟩ := tally_placedLines (forall₂_placed_renamed hlines
    (fun line hline => isProper_of_mem_lines hline) rfl R)
  have hone := @covers_le_one span.start.offset (firstLine source).offset
    ((lines (withoutMark source.toList)).flatMap Line.full)
  rw [← hlines'] at htally
  obtain ⟨m, l, hml, hweighs, k, hk, hfaults⟩ := parse_told (.renamed R) htally
    ((line_lastEnd_ofSource source').trans (line_lastEnd_ofSource source).symm)
  have hcarried : 2 ≤ (renamed R).hefts
      (Statement.nodesOfList (parse source).program.body) := by
    rw [Program.nodes, mem_cons] at hnode
    obtain ⟨before, after, hsplit⟩ := append_of_mem (hnode.resolve_left (by rintro ⟨⟩))
    have hheft : (renamed R).nodeHeft
        (.expression (.identifier name span)) = 2 := if_pos rfl
    rw [hsplit, hefts_append, hefts_cons, hheft]
    omega
  have hbound := hweighs.bound
  have hbody := hweighs.full (by omega)
  constructor
  · exact congrArg (Program.mk · default) hbody.symm
  · rw [← forall₂_eq_eq_eq, forall₂_map_left_iff, forall₂_map_right_iff]
    refine (Moving.forall₂_of_tally_zero hfaults (by omega)).flip.imp fun d' d h => ?_
    exact congrArg Fault.message (Faults.eq (h.full rfl).1 fun hsame => hsame.symm)

/-- The node is the identifier with the name and the span. -/
def Node.isIdentifier (name : String) (span : Span) : Node → Bool
  | .expression (.identifier name' span') => name' == name && span' == span
  | _ => false

theorem identifier_mem_of_any {nodes : List Node} {name : String} {span : Span}
    (h : nodes.any (Node.isIdentifier name span)) :
    .expression (.identifier name span) ∈ nodes := by
  obtain ⟨node, hmem, hnode⟩ := any_eq_true.1 h
  unfold Node.isIdentifier at hnode
  split at hnode
  · simp only [Bool.and_eq_true, beq_iff_eq] at hnode
    rwa [hnode.1, hnode.2] at hmem
  · cases hnode

/-- An identifier between the braces of a string, in the argument of a keyword; another line has a
fault. -/
def literalCount : String :=
  "*if: a = \"é \x7bb + a\x7d!\"\n\tGo \x7ba\x7d\n>> (a"

/-- The place of the identifier inside the string. -/
def literalCountPlace : Span :=
  ⟨⟨1, 18, 18⟩, ⟨1, 19, 19⟩⟩

theorem parse_renamed_literalCount :
    (.expression (.identifier "a" literalCountPlace) ∈ (parse literalCount).program.nodes ∧
      ofExpression true "count".toList = [token .identifier "count".toList]) ∧
    ∃ source', applyFixes literalCount [.replace literalCountPlace "count"] = ⟨source', 1, []⟩ ∧
      (parse source').program.reshape .erased =
        (parse literalCount).program.reshape (.renamed literalCountPlace "count") ∧
      (parse source').diagnostics.map Diagnostic.message =
        (parse literalCount).diagnostics.map Diagnostic.message := by
  have hnode : .expression (.identifier "a" literalCountPlace) ∈
      (parse literalCount).program.nodes :=
    identifier_mem_of_any (by decide +kernel)
  have hword : ofExpression true "count".toList = [token .identifier "count".toList] := by
    decide +kernel
  exact ⟨⟨hnode, hword⟩, (parse_renamed hnode hword).2⟩

end ScriptLint

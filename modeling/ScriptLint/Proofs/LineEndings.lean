import ScriptLint.Proofs.FixedLines
import ScriptLint.Proofs.MarkupText
import ScriptLint.Proofs.Relocation

/-!
# Sources with other line endings

A source without carriage returns may be written with a carriage return, alone or before the line
feed, where each line ends, and with a byte-order mark in front.

**Results.**
* `Text.lines_withEndings`: the lines are the same, but for their endings.
* `Reended.relocatesTo`: the programs and the findings are the same at the new offsets.
* `lint_withReturns`: so are the reports, with a carriage return before each line feed and a mark.
* `lint_bareReturns`: with bare carriage returns, only braces in markup may be told apart.
-/

namespace ScriptLint

open List Text Markup

open Piece Rules TrailingWhitespace

variable {cs ending : List Char}

namespace Text

/-- The text with another ending for every line feed. -/
def withEndings (ending cs : List Char) : List Char :=
  cs.flatMap fun c => if c = '\n' then ending else [c]

/-- Number of line feeds that stand before an offset. -/
def feedsBefore : List Char → Nat → Nat
  | [], _ => 0
  | c :: cs, offset =>
    if offset = 0 then 0
    else (if c = '\n' then 1 else 0) + feedsBefore cs (offset - c.utf8Size)

section Endings

theorem withEndings_append (xs ys : List Char) :
    withEndings ending (xs ++ ys) = withEndings ending xs ++ withEndings ending ys :=
  flatMap_append

theorem withEndings_of_not_mem (h : '\n' ∉ cs) : withEndings ending cs = cs := by
  induction cs with
  | nil => rfl
  | cons c cs ih =>
    obtain ⟨hc, hcs⟩ := not_or.1 (mem_cons.not.1 h)
    rw [withEndings, flatMap_cons, if_neg (Ne.symm hc)]
    exact congrArg (c :: ·) (ih hcs)

@[simp]
theorem feedsBefore_zero (cs : List Char) : feedsBefore cs 0 = 0 := by
  cases cs <;> simp [feedsBefore]

theorem feedsBefore_append (xs ys : List Char) :
    feedsBefore (xs ++ ys) (byteLength xs) = xs.count '\n' := by
  induction xs with
  | nil => exact feedsBefore_zero ys
  | cons c xs ih =>
    have hpos := c.utf8Size_pos
    rw [cons_append, feedsBefore, byteLength_cons, if_neg (by omega),
      Nat.add_sub_cancel_left, ih, count_cons, Nat.add_comm]
    simp

theorem feedsBefore_mono (cs : List Char) : Monotone (feedsBefore cs) := by
  induction cs with
  | nil => exact fun _ _ _ => Nat.le_refl 0
  | cons c cs ih =>
    intro a b hab
    have hle := ih (Nat.sub_le_sub_right hab c.utf8Size)
    rw [feedsBefore, feedsBefore]
    by_cases ha : a = 0
    · rw [if_pos ha]
      exact Nat.zero_le _
    · have hb : b ≠ 0 := by omega
      rw [if_neg ha, if_neg hb]
      omega

/-- The text behind a text that comes first. -/
theorem splitAtByte?_append_add (xs ys : List Char) (n : Nat) :
    splitAtByte? (xs ++ ys) (byteLength xs + n) =
      (splitAtByte? ys n).map fun parts => (xs ++ parts.1, parts.2) := by
  induction xs with
  | nil => simp
  | cons c xs ih =>
    have hpos := c.utf8Size_pos
    obtain ⟨m, hm⟩ : ∃ m, byteLength (c :: xs) + n = m + 1 :=
      ⟨byteLength (c :: xs) + n - 1, by rw [byteLength_cons]; omega⟩
    have hrest : m + 1 - c.utf8Size = byteLength xs + n := by
      rw [← hm, byteLength_cons]
      omega
    rw [hm, cons_append, splitAtByte?, if_pos (by rw [← hm, byteLength_cons]; omega), hrest,
      ih, Option.map_map]
    rfl

variable {extra : Nat} (hsize : byteLength ending = 1 + extra)

include hsize

theorem byteLength_withEndings (cs : List Char) :
    byteLength (withEndings ending cs) = byteLength cs + extra * cs.count '\n' := by
  induction cs with
  | nil => simp [withEndings]
  | cons c cs ih =>
    rw [withEndings, flatMap_cons, byteLength_append]
    change _ + byteLength (withEndings ending cs) = _
    rw [byteLength_cons]
    by_cases hc : c = '\n'
    · have hone : Char.utf8Size '\n' = 1 := by decide
      rw [if_pos hc, hc, count_cons_self, Nat.mul_succ]
      omega
    · rw [if_neg hc, count_cons_of_ne hc, byteLength_cons, byteLength_nil]
      omega

/-- A cut of the text with other endings is a cut of the text. -/
theorem splitAtByte?_withEndings (cs : List Char) (n : Nat) :
    splitAtByte? (withEndings ending cs) (n + extra * feedsBefore cs n) =
      (splitAtByte? cs n).map (Prod.map (withEndings ending) (withEndings ending)) := by
  induction cs generalizing n with
  | nil => cases n <;> simp [withEndings, feedsBefore, splitAtByte?]
  | cons c cs ih =>
    cases n with
    | zero => simp [splitAtByte?, withEndings]
    | succ n =>
      have hone : Char.utf8Size '\n' = 1 := by decide
      have hstep : withEndings ending (c :: cs) = (if c = '\n' then ending else [c]) ++
          withEndings ending cs := rfl
      rw [splitAtByte?, feedsBefore, if_neg (Nat.succ_ne_zero n)]
      by_cases hle : c.utf8Size ≤ n + 1
      · have hoffset :
            n + 1 + extra * ((if c = '\n' then 1 else 0) + feedsBefore cs (n + 1 - c.utf8Size)) =
            byteLength (if c = '\n' then ending else [c]) +
              (n + 1 - c.utf8Size + extra * feedsBefore cs (n + 1 - c.utf8Size)) := by
          by_cases hc : c = '\n'
          · rw [if_pos hc, if_pos hc, hc, Nat.mul_add]
            omega
          · rw [if_neg hc, if_neg hc, byteLength_cons, byteLength_nil, Nat.zero_add]
            omega
        rw [hoffset, hstep, splitAtByte?_append_add, ih, if_pos hle, Option.map_map, Option.map_map]
        rfl
      · have hc : c ≠ '\n' := by
          rintro rfl
          omega
        have hzero : n + 1 - c.utf8Size = 0 := by omega
        rw [if_neg hle, hzero, feedsBefore_zero, hstep, if_neg hc, if_neg hc, Nat.mul_zero,
          singleton_append, splitAtByte?, if_neg hle]
        rfl

end Endings

/-- The line with another ending, if it has one. -/
def Line.withEnding (ending : List Char) (line : Line) : Line :=
  ⟨line.content, if line.ending = [] then [] else ending⟩

/-- A text without carriage returns has no ending but line feeds. -/
theorem ending_of_not_mem (h : '\r' ∉ cs) {line : Line} (hline : line ∈ lines cs) :
    line.ending = [] ∨ line.ending = ['\n'] := by
  have hmem : ∀ c ∈ line.ending, c ≠ '\r' := by
    rintro c hc rfl
    refine h ?_
    rw [← flatMap_full_lines cs]
    exact mem_flatMap.2 ⟨line, hline, mem_append_right _ hc⟩
  rcases (isProper_of_mem_lines hline).ending with hends | hends | hends | hends
  · exact .inl hends
  · exact .inr hends
  · exact absurd rfl (hmem '\r' (by rw [hends]; simp))
  · exact absurd rfl (hmem '\r' (by rw [hends]; simp))

theorem full_withEnding {line : Line} (hcontent : OneLine line.content)
    (hending : line.ending = [] ∨ line.ending = ['\n']) :
    (line.withEnding ending).full = withEndings ending line.full := by
  have hfeed : '\n' ∉ line.content := fun hmem => by cases hcontent _ hmem
  rw [Line.full, Line.full, withEndings_append, withEndings_of_not_mem hfeed]
  refine congrArg (line.content ++ ·) ?_
  show (if line.ending = [] then [] else ending) = _
  rcases hending with hends | hends
  · rw [hends]
    rfl
  · rw [hends]
    exact (append_nil ending).symm

/-- **Lines with other endings:** the text with carriage returns has the same lines, but for the
endings. -/
theorem lines_withEndings (h : '\r' ∉ cs) (hending : ending = ['\r'] ∨ ending = ['\r', '\n']) :
    lines (withEndings ending cs) = (lines cs).map (Line.withEnding ending) := by
  have hne : ending ≠ [] := by
    rcases hending with rfl | rfl <;> simp
  have htext : withEndings ending cs = ((lines cs).map (Line.withEnding ending)).flatMap
      Line.full := by
    conv_lhs => rw [← flatMap_full_lines cs]
    rw [withEndings, flatMap_assoc, flatMap_map]
    exact flatMap_congr fun line hline => (full_withEnding
      (isProper_of_mem_lines hline).content (ending_of_not_mem h hline)).symm
  rw [htext]
  refine lines_flatMap_full_eq ?_ ?_ ?_ ?_
  · rintro _ hmem
    obtain ⟨line, hline, rfl⟩ := mem_map.1 hmem
    refine ⟨(isProper_of_mem_lines hline).content, ?_⟩
    show IsEnding (if line.ending = [] then [] else ending)
    split
    · exact .inl rfl
    · exact .inr (.inr hending)
  · refine pairwise_map.2 ((pairwise_ending_lines cs).imp fun {line _} hline => ?_)
    show (if line.ending = [] then [] else ending) ≠ []
    rwa [if_neg hline]
  · refine (isChain_map _).2 ((isChain_lines cs).imp fun line next _ hmerge => ?_)
    have hends : (if next.ending = [] then [] else ending) = ['\n'] :=
      congrArg Line.ending hmerge.2
    split at hends
    · cases hends
    · rcases hending with rfl | rfl <;> cases hends
  · rintro _ hmem
    obtain ⟨line, hline, rfl⟩ := mem_map.1 hmem
    have hfull := (ending_of_mem_lines hline).2
    intro hnil
    obtain ⟨hcontent, hends⟩ := append_eq_nil_iff.1 hnil
    change (if line.ending = [] then [] else ending) = [] at hends
    split at hends
    · next hnone => exact hfull (append_eq_nil_iff.2 ⟨hcontent, hnone⟩)
    · exact hne hends

end Text

theorem withEndings_markOf {ending : List Char} {source : String} :
    withEndings ending (markOf source) = markOf source := by
  refine withEndings_of_not_mem fun hmem => ?_
  unfold markOf at hmem
  split at hmem
  · revert hmem
    decide
  · cases hmem

/-- The first line of a source without a mark does not begin with one. -/
theorem head?_of_mem_linesOf {source : String} {line : Position × Line}
    (hhead : source.toList.head? ≠ some byteOrderMark) (h : line ∈ linesOf source)
    (hone : line.1.line = 1) : line.2.content.head? ≠ some byteOrderMark := by
  have hbody := withoutMark_eq_self hhead
  have hjoin := flatMap_full_lines source.toList
  have hending := pairwise_ending_lines source.toList
  unfold linesOf at h
  rw [hbody] at h
  generalize lines source.toList = ls at h hjoin hending
  cases ls with
  | nil => cases h
  | cons first ls =>
    rcases mem_cons.1 h with rfl | hlater
    · intro hmark
      obtain ⟨rest, hrest⟩ := head?_eq_some_iff.1 hmark
      refine hhead ?_
      rw [← hjoin, flatMap_cons, Line.full, hrest]
      rfl
    · have hle := le_line_of_mem_placedLines hlater
      have hne : first.ending ≠ [] := by
        intro hnil
        rw [eq_nil_of_ending_eq_nil hending hnil] at hlater
        cases hlater
      rw [line_afterLine, if_neg hne, line_firstLine] at hle
      omega

/-- The second source is the first one with another ending for its lines, and with a mark in front
that may be missing. -/
structure Reended (mark ending : List Char) (source source' : String) : Prop where
  text : source'.toList = mark ++ withEndings ending source.toList
  ending : ending = ['\r'] ∨ ending = ['\r', '\n']
  mark : mark = [] ∨
    mark = [byteOrderMark] ∧ source.toList.head? ≠ some byteOrderMark
  no_return : '\r' ∉ source.toList

/-- The new offset of an offset in a text. -/
def reendedOffset (mark ending cs : List Char) (offset : Nat) : Nat :=
  byteLength mark + (offset + (byteLength ending - 1) * feedsBefore cs offset)

namespace Reended

variable {mark : List Char} {source source' : String}

theorem strictMono (mark ending cs : List Char) : StrictMono (reendedOffset mark ending cs) := by
  intro a b hab
  have hle := feedsBefore_mono cs hab.le
  have hmul := Nat.mul_le_mul_left (byteLength ending - 1) hle
  unfold reendedOffset
  omega

variable (h : Reended mark ending source source')

include h

theorem size : byteLength ending = 1 + (byteLength ending - 1) := by
  rcases h.ending with rfl | rfl <;> rfl

/-- The new offset behind a part of the source. -/
theorem offset_append {xs ys : List Char}
    (hsplit : source.toList = xs ++ ys) :
    reendedOffset mark ending source.toList (byteLength xs) =
      byteLength (mark ++ withEndings ending xs) := by
  rw [reendedOffset, hsplit, feedsBefore_append, byteLength_append, byteLength_withEndings h.size]

/-- The mark and the text behind it. -/
theorem markOf_eq :
    markOf source' = mark ++ withEndings ending (markOf source) ∧
    withoutMark source'.toList =
      withEndings ending (withoutMark source.toList) := by
  have hkeep := @withEndings_markOf ending source
  rcases h.mark with rfl | ⟨rfl, hhead⟩
  · have hsource : source' = String.ofList (markOf source ++
        withEndings ending (withoutMark source.toList)) := by
      rw [← String.toList_inj, String.toList_ofList, h.text, nil_append]
      conv_lhs => rw [← markOf_append source, withEndings_append, hkeep]
    rw [hsource, hkeep]
    refine markOf_ofList fun hhead => ?_
    cases hcs : source.toList with
    | nil => exact nofun
    | cons c rest =>
      rw [hcs] at hhead
      rw [withoutMark_eq_self hhead, withEndings, flatMap_cons]
      by_cases hc : c = '\n'
      · rw [if_pos hc]
        rcases h.ending with rfl | rfl
        · show some '\r' ≠ some byteOrderMark
          decide
        · show some '\r' ≠ some byteOrderMark
          decide
      · rw [if_neg hc]
        exact hhead
  · rw [withoutMark_eq_self hhead]
    unfold markOf
    rw [if_neg hhead, h.text]
    exact ⟨rfl, rfl⟩

theorem firstLine_eq :
    firstLine source' = (firstLine source).relocate (reendedOffset mark ending source.toList) := by
  have hplace : ∀ source : String, firstLine source = ⟨1, 1, byteLength (markOf source)⟩ := by
    intro source
    rw [← offset_firstLine]
    unfold firstLine
    split <;> rfl
  rw [hplace source, hplace source', h.markOf_eq.1, ← h.offset_append (markOf_append source).symm]
  rfl

/-- Lines from a place on, with other endings. -/
theorem forall₂_lineMoves {before : List Char}
    {p : Position} {ls : List Line}
    (hls : ∀ line ∈ ls, OneLine line.content ∧ (line.ending = [] ∨ line.ending = ['\n']))
    (hsplit : source.toList = before ++ ls.flatMap Line.full)
    (hoffset : p.offset = byteLength before) :
    Forall₂ (LineMoves (reendedOffset mark ending source.toList)) (placedLines p ls)
      (placedLines (p.relocate (reendedOffset mark ending source.toList))
        (ls.map (Line.withEnding ending))) := by
  induction ls generalizing before p with
  | nil => exact .nil
  | cons line ls ih =>
    obtain ⟨⟨hcontent, hending⟩, hrest⟩ := forall_mem_cons.1 hls
    rw [flatMap_cons, ← append_assoc] at hsplit
    have hpart : ∀ xs ys, line.full = xs ++ ys →
        reendedOffset mark ending source.toList (p.offset + byteLength xs) =
          reendedOffset mark ending source.toList p.offset +
            byteLength (withEndings ending xs) := by
      intro xs ys hfull
      rw [hoffset, ← byteLength_append,
        @offset_append _ _ _ _ h (before ++ xs) (ys ++ ls.flatMap Line.full)
          (by rw [hsplit, hfull]; simp),
        @offset_append _ _ _ _ h before (line.full ++ ls.flatMap Line.full)
          (by rw [hsplit]; simp),
        withEndings_append, ← append_assoc, byteLength_append]
    have hmoves : LineMoves (reendedOffset mark ending source.toList) (p, line)
        (p.relocate (reendedOffset mark ending source.toList), line.withEnding ending) := by
      constructor
      · rfl
      · rfl
      · show (if line.ending = [] then [] else ending) = [] ↔ line.ending = []
        by_cases hnil : line.ending = []
        · simp [hnil]
        · rcases h.ending with rfl | rfl <;> simp [hnil]
      · exact hcontent
      · intro xs ys hxs
        have hfeed : '\n' ∉ xs := fun hmem => by
          cases hcontent '\n' (by rw [hxs]; exact mem_append_left ys hmem)
        have hnew := hpart xs (ys ++ line.ending) (by
          rw [Line.full, hxs, append_assoc])
        rwa [withEndings_of_not_mem hfeed] at hnew
      · have hnew := hpart line.full [] (append_nil _).symm
        rwa [← full_withEnding hcontent hending] at hnew
    have hnext : afterLine (p.relocate (reendedOffset mark ending source.toList))
        (line.withEnding ending) =
        (afterLine p line).relocate (reendedOffset mark ending source.toList) := by
      have hnil : (line.withEnding ending).ending = [] ↔ line.ending = [] := hmoves.ending
      have hstop := hmoves.stop
      by_cases hends : line.ending = []
      · have hlast : ∀ {q : Position} {ln : Line}, ln.ending = [] →
            afterLine q ln = q.advance ln.content := by
          intro q ln hln
          rw [afterLine, hln]
          rfl
        rw [hlast hends, hlast (hnil.2 hends)]
        exact hmoves.advance (append_nil _).symm
      · rw [afterLine_eq p hends, afterLine_eq _ (hends ∘ hnil.1)]
        exact congrArg (Position.mk (p.line + 1) 1) hstop.symm
    rw [map_cons, placedLines, placedLines, hnext]
    refine .cons hmoves (ih hrest hsplit ?_)
    rw [offset_afterLine, hoffset, byteLength_append]

theorem relocatesTo :
    RelocatesTo (reendedOffset mark ending source.toList) source source' := by
  have hreturn : '\r' ∉ withoutMark source.toList := fun hmem => h.no_return (by
    rw [← markOf_append source]
    exact mem_append_right _ hmem)
  have hlines : Forall₂ (LineMoves (reendedOffset mark ending source.toList)) (linesOf source)
      (linesOf source') := by
    unfold linesOf
    rw [h.firstLine_eq, h.markOf_eq.2, lines_withEndings hreturn h.ending]
    refine h.forall₂_lineMoves (fun line hline => ?_) ?_ (offset_firstLine source)
    · exact ⟨(isProper_of_mem_lines hline).content, ending_of_not_mem hreturn hline⟩
    · rw [flatMap_full_lines, markOf_append]
  refine relocatesTo_of_lines (strictMono mark ending source.toList) h.firstLine_eq hlines ?_
  intro line hline hone
  rw [h.markOf_eq.1]
  rcases h.mark with rfl | ⟨rfl, hhead⟩
  · rw [withEndings_markOf, nil_append]
  · have hrest : (trimmed line.2.content).head? ≠ some byteOrderMark := fun hmark =>
      head?_of_mem_linesOf hhead hline hone (head?_trimmed hmark)
    rw [withEndings_markOf, markOf, if_neg hhead]
    generalize trimmed line.2.content = rest at hrest
    cases rest with
    | nil => rfl
    | cons c rest =>
      have hc : c ≠ byteOrderMark := by simpa using hrest
      simp [isBlankRest, hc]

end Reended

/-- The last line of a text, whose line feeds have a carriage return before them; a mark may come
first. -/
theorem takeWhile_reverse_withEndings {mark : List Char} (hmark : '\n' ∉ mark)
    (before : List Char) :
    ∃ ws, (∀ c ∈ ws, c ∈ mark) ∧
      (mark ++ withEndings ['\r', '\n'] before).reverse.takeWhile (· ≠ '\n') =
        before.reverse.takeWhile (· ≠ '\n') ++ ws := by
  induction before using reverseRecOn with
  | nil =>
    refine ⟨mark.reverse, fun c hc => mem_reverse.1 hc, ?_⟩
    rw [withEndings, flatMap_nil, append_nil, reverse_nil, takeWhile_nil,
      nil_append, takeWhile_eq_self_iff]
    intro c hc
    have hne : c ≠ '\n' := fun heq => hmark (heq ▸ mem_reverse.1 hc)
    simpa using hne
  | append_singleton before c ih =>
    have hlast : (before ++ [c]).reverse = c :: before.reverse := by simp
    rw [hlast, withEndings_append, ← append_assoc, reverse_append]
    by_cases hc : c = '\n'
    · refine ⟨[], nofun, ?_⟩
      rw [hc]
      rfl
    · obtain ⟨ws, hws, hrest⟩ := ih
      refine ⟨ws, hws, ?_⟩
      rw [withEndings_of_not_mem (by simpa using Ne.symm hc), reverse_singleton,
        singleton_append, takeWhile_cons_of_pos (by simpa using hc),
        takeWhile_cons_of_pos (by simpa using hc), hrest, cons_append]

theorem takeWhile_withEndings (after : List Char) :
    ∃ ws, (∀ c ∈ ws, c = '\r') ∧
      (withEndings ['\r', '\n'] after).takeWhile (· ≠ '\n') =
        after.takeWhile (· ≠ '\n') ++ ws := by
  induction after with
  | nil => exact ⟨[], nofun, rfl⟩
  | cons c after ih =>
    rw [withEndings, flatMap_cons]
    by_cases hc : c = '\n'
    · refine ⟨['\r'], by simp, ?_⟩
      rw [hc]
      rfl
    · obtain ⟨ws, hws, hrest⟩ := ih
      refine ⟨ws, hws, ?_⟩
      rw [if_neg hc, singleton_append, takeWhile_cons_of_pos (by simpa using hc),
        takeWhile_cons_of_pos (by simpa using hc), cons_append, ← hrest]
      rfl

/-- The braces around a place are the same. -/
theorem Reended.enclosingBraces?_eq {mark : List Char} {source source' : String}
    (h : Reended mark ['\r', '\n'] source source') (offset : Nat) :
    enclosingBraces? source'.toList (reendedOffset mark ['\r', '\n'] source.toList offset) =
      enclosingBraces? source.toList offset := by
  have hmark : ∀ c ∈ mark, isPlain c := by
    rcases h.mark with rfl | ⟨rfl, -⟩
    · exact nofun
    · exact forall_mem_singleton.2 (by decide)
  unfold enclosingBraces? reendedOffset
  rw [h.text, splitAtByte?_append_add, splitAtByte?_withEndings h.size]
  cases splitAtByte? source.toList offset with
  | none => rfl
  | some parts =>
    obtain ⟨before, after⟩ := parts
    obtain ⟨ws, hws, hbefore⟩ := takeWhile_reverse_withEndings
      (fun hmem => (of_isPlain (hmark _ hmem)).2.2.2.2.1 rfl) before
    obtain ⟨us, hus, hafter⟩ := takeWhile_withEndings after
    have hplain : ∀ c ∈ us, isPlain c := by
      intro c hc
      rw [hus c hc]
      decide
    simp only [Option.map_some, Prod.map]
    rw [hbefore, hafter, sinceOpening_append fun c hc => hmark c (hws c hc)]
    cases sinceOpening 0 [] (before.reverse.takeWhile (· ≠ '\n')) with
    | none => rfl
    | some inside =>
      dsimp only
      rw [← append_assoc, untilClosing_append hplain]

namespace Markup

/-- Every line of a text closes the braces that it opens, and no others; `depth` braces are open. -/
def closesOnLines (depth : Nat) : List Char → Bool
  | [] => depth == 0
  | c :: cs =>
    if c = '{' then closesOnLines (depth + 1) cs
    else if c = '}' then
      match depth with
      | 0 => false
      | depth + 1 => closesOnLines depth cs
    else if c = '\n' then depth == 0 && closesOnLines 0 cs
    else closesOnLines depth cs

section Closing

variable {depth k : Nat} {xs ys seen inside : List Char}

theorem closesOnLines_cons {c : Char} : closesOnLines k (c :: cs) = true ↔
    (c = '\n' → k = 0) ∧ ∃ m, depthStep k c = some m ∧ closesOnLines m cs = true := by
  rw [closesOnLines.eq_def]
  by_cases hopen : c = '{'
  · simp [hopen]
  by_cases hclose : c = '}'
  · cases k <;> simp [hclose, depthStep]
  by_cases hfeed : c = '\n'
  · cases k <;> simp [hfeed, depthStep]
  · simp [hopen, hclose, hfeed, depthStep]

/-- What is left of a text closes what is open before it. -/
theorem exists_closesOnLines (h : closesOnLines k (xs ++ ys)) : ∃ m, closesOnLines m ys := by
  induction xs generalizing k with
  | nil => exact ⟨k, h⟩
  | cons c xs ih =>
    obtain ⟨-, m, -, hrest⟩ := closesOnLines_cons.1 h
    exact ih hrest

/-- At the end of a line nothing is open. -/
theorem closesOnLines_line : closesOnLines k (xs ++ '\n' :: ys) = true ↔
    closesOnLines k xs = true ∧ closesOnLines 0 ys = true := by
  induction xs generalizing k with
  | nil => simp [closesOnLines]
  | cons c xs ih =>
    rw [cons_append, closesOnLines_cons, closesOnLines_cons]
    grind

/-- Back over a character, the braces are open that were open before it. -/
theorem sinceOpening_of_depthStep {c : Char} {m : Nat} (h : depthStep k c = some m)
    (seen cs : List Char) :
    sinceOpening (depth + m) seen (c :: cs) = sinceOpening (depth + k) (c :: seen) cs := by
  rcases sinceOpening_step (depth + m) c with ⟨rfl, hnone, -⟩ | ⟨d, hback, hnext⟩
  · cases h
    cases hnone
  · obtain rfl : d = depth + k := by grind [depthStep]
    exact hnext seen cs

/-- A text that closes its braces is passed over from its end. -/
theorem sinceOpening_closesOnLines (h : closesOnLines k xs) (seen rest : List Char) :
    ∃ seen', sinceOpening depth seen ((withEndings ['\r'] xs).reverse ++ rest) =
      sinceOpening (depth + k) seen' rest := by
  induction xs generalizing k rest with
  | nil =>
    obtain rfl : k = 0 := by simpa [closesOnLines] using h
    exact ⟨seen, rfl⟩
  | cons c xs ih =>
    obtain ⟨-, m, hstep, hrest⟩ := closesOnLines_cons.1 h
    obtain ⟨d, hd, htext⟩ : ∃ d, depthStep k d = some m ∧
      (withEndings ['\r'] (c :: xs)).reverse ++ rest =
        (withEndings ['\r'] xs).reverse ++ (d :: rest) := by
      rw [withEndings, flatMap_cons, reverse_append, append_assoc]
      split
      · next hfeed => exact ⟨'\r', by rw [← hstep, hfeed]; rfl, rfl⟩
      · exact ⟨c, hstep, rfl⟩
    obtain ⟨seen', heq⟩ := ih hrest (d :: rest)
    exact ⟨d :: seen', by rw [htext, heq, sinceOpening_of_depthStep hd]⟩

/-- An open brace is found, with what stands behind it, or the search goes on in what is left. -/
theorem sinceOpening_cases (depth : Nat) (seen xs : List Char) :
    (∃ inside, (∀ ys, sinceOpening depth seen (xs ++ ys) = some inside) ∧
      ∃ before, xs.reverse ++ seen = before ++ '{' :: inside) ∨
    (sinceOpening depth seen xs = none ∧ ∃ depth' seen', ∀ ys,
      sinceOpening depth seen (xs ++ ys) = sinceOpening depth' seen' ys) := by
  induction xs generalizing depth seen with
  | nil => exact .inr ⟨rfl, depth, seen, fun _ => rfl⟩
  | cons c xs ih =>
    have hreverse : ∀ seen, (c :: xs).reverse ++ seen = xs.reverse ++ c :: seen := by simp
    rcases sinceOpening_step depth c with ⟨rfl, -, hfound⟩ | ⟨d, -, hnext⟩
    · exact .inl ⟨seen, fun _ => hfound _ _, xs.reverse, hreverse seen⟩
    · simp only [cons_append, hnext, hreverse]
      exact ih d (c :: seen)

/-- A line that closes its braces closes the last one that is open. -/
theorem exists_untilClosing (h : closesOnLines k xs) (hk : depth < k) :
    ∃ inner, ∀ ys, untilClosing depth (xs ++ ys) = some inner := by
  induction xs generalizing k depth with
  | nil =>
    obtain rfl : k = 0 := by simpa [closesOnLines] using h
    cases hk
  | cons c xs ih =>
    obtain ⟨-, m, hstep, hrest⟩ := closesOnLines_cons.1 h
    simp only [cons_append, untilClosing_step]
    cases hd : depthStep depth c with
    | none => exact ⟨[], fun _ => rfl⟩
    | some d =>
      have hlt : d < m := by grind [depthStep]
      obtain ⟨inner, hinner⟩ := ih hrest hlt
      refine ⟨c :: inner, fun ys => ?_⟩
      rw [Option.elim_some, hinner]
      rfl

end Closing

end Markup

section Returns

variable {source source' : String}

theorem not_mem_withEndings_return (cs : List Char) : '\n' ∉ withEndings ['\r'] cs := by
  intro hmem
  obtain ⟨c, -, hc⟩ := mem_flatMap.1 hmem
  split at hc
  · revert hc
    decide
  · next hne => exact hne (mem_singleton.1 hc).symm

/-- A text is cut before its first line feed. -/
theorem exists_takeWhile_append (cs : List Char) :
    ∃ rest, cs = cs.takeWhile (· ≠ '\n') ++ rest ∧ (rest = [] ∨ ∃ more, rest = '\n' :: more) := by
  refine ⟨cs.dropWhile (· ≠ '\n'), takeWhile_append_dropWhile.symm, ?_⟩
  cases hrest : cs.dropWhile (· ≠ '\n') with
  | nil => exact .inl rfl
  | cons c more =>
    have hhead := head?_dropWhile_not (fun c : Char => decide (c ≠ '\n')) cs
    rw [hrest] at hhead
    have hc : c = '\n' := by simpa using hhead
    exact .inr ⟨more, by rw [hc]⟩

open Markup in
/-- The braces on a line are found, whatever stands before and behind the line, if lines close their
braces. -/
theorem search_line {lead tail above : List Char} (hline : closesOnLines 0 (lead.reverse ++ tail))
    (habove : closesOnLines 0 above) (below : List Char) :
    (match sinceOpening 0 [] (lead ++ (withEndings ['\r'] above).reverse) with
      | none => none
      | some inside => untilClosing 0 (inside ++ (tail ++ below))) =
    match sinceOpening 0 [] lead with
      | none => none
      | some inside => untilClosing 0 (inside ++ tail) := by
  rcases sinceOpening_cases 0 [] lead with ⟨inside, hfound, before, hbefore⟩ |
    ⟨hnone, depth, seen, hmore⟩
  · have hhere := hfound []
    rw [append_nil] at hhere hbefore
    rw [hfound, hhere]
    dsimp only
    rw [hbefore, append_assoc, cons_append] at hline
    obtain ⟨m, hm⟩ := exists_closesOnLines hline
    obtain ⟨-, _, ⟨⟩, hrest⟩ := closesOnLines_cons.1 hm
    obtain ⟨inner, hinner⟩ := exists_untilClosing hrest (Nat.succ_pos m)
    have htail := hinner []
    rw [append_nil] at htail
    rw [htail, ← append_assoc, hinner]
  · obtain ⟨seen', hpassed⟩ := @sinceOpening_closesOnLines depth _ _ habove seen []
    rw [append_nil] at hpassed
    rw [hnone, hmore, hpassed]
    rfl

open Markup in
/-- Where each line closes its braces, a search for braces in the whole text finds those of the
line. -/
theorem enclosingBraces?_return (h : closesOnLines 0 cs) (offset : Nat) :
    enclosingBraces? (withEndings ['\r'] cs) offset = enclosingBraces? cs offset := by
  have hsplit := splitAtByte?_withEndings (show byteLength ['\r'] = 1 + 0 from rfl) cs offset
  rw [Nat.zero_mul, Nat.add_zero] at hsplit
  unfold enclosingBraces?
  rw [hsplit]
  cases hparts : splitAtByte? cs offset with
  | none => rfl
  | some parts =>
    obtain ⟨before, after⟩ := parts
    obtain ⟨rfl, -⟩ := splitAtByte?_eq_some hparts
    dsimp only [Option.map_some, Prod.map]
    have hwhole : ∀ {us : List Char}, '\n' ∉ us → us.takeWhile (· ≠ '\n') = us := fun h => by
      simpa using Retouched.takeWhile_newline h []
    rw [hwhole (not_mem_withEndings_return after),
      hwhole fun hmem => not_mem_withEndings_return before (mem_reverse.1 hmem)]
    obtain ⟨above, hbefore, habove⟩ := exists_takeWhile_append before.reverse
    obtain ⟨below, hafter, hbelow⟩ := exists_takeWhile_append after
    have hlead : '\n' ∉ before.reverse.takeWhile (· ≠ '\n') := fun hmem => by
      simpa using mem_takeWhile_imp hmem
    have htail : '\n' ∉ after.takeWhile (· ≠ '\n') := fun hmem => by
      simpa using mem_takeWhile_imp hmem
    generalize before.reverse.takeWhile (· ≠ '\n') = lead at hbefore hlead
    generalize after.takeWhile (· ≠ '\n') = tail at hafter htail
    obtain rfl : before = above.reverse ++ lead.reverse := by
      rw [← reverse_append, ← hbefore, reverse_reverse]
    have hlines : closesOnLines 0 above.reverse ∧ closesOnLines 0 (lead.reverse ++ after) := by
      rcases habove with rfl | ⟨more, rfl⟩
      · exact ⟨rfl, h⟩
      · rw [reverse_cons, append_assoc, append_assoc, singleton_append, closesOnLines_line] at h
        rw [reverse_cons, closesOnLines_line]
        exact ⟨⟨h.1, rfl⟩, h.2⟩
    have hline : closesOnLines 0 (lead.reverse ++ tail) := by
      rw [hafter] at hlines
      rcases hbelow with rfl | ⟨more, rfl⟩
      · rw [append_nil] at hlines
        exact hlines.2
      · rw [← append_assoc, closesOnLines_line] at hlines
        exact hlines.2.1
    have hsearch := search_line hline hlines.1 (withEndings ['\r'] below)
    rw [hafter, withEndings_append, withEndings_append, withEndings_of_not_mem htail,
      withEndings_of_not_mem (fun hmem => hlead (mem_reverse.1 hmem)),
      reverse_append, reverse_reverse]
    exact hsearch

end Returns

section Reports

variable {config : Config} {linter : Linter}

/-- **A mark and carriage returns only move offsets.**  Where each line ends in a carriage return
and a line feed, and a mark may come first, the report on a source has the same issues in the same
order; each offset is moved by the number of line feeds before it, and by the mark. -/
theorem lint_withReturns (hlinter : Linter.ofConfig config = .ok linter) (path source : String)
    (marked : Bool) (hreturn : '\r' ∉ source.toList)
    (hmark : source.toList.head? ≠ some Text.byteOrderMark) :
    (linter.lint path (String.ofList ((if marked then [Text.byteOrderMark] else []) ++
        Text.withEndings ['\r', '\n'] source.toList))).issues =
      (linter.lint path source).issues.map (Issue.relocate fun offset =>
        offset + Text.feedsBefore source.toList offset + if marked then 3 else 0) := by
  obtain ⟨preset, rfl⟩ := Linter.eq_of_ofConfig hlinter
  have h : Reended (if marked then [byteOrderMark] else []) ['\r', '\n'] source
      (String.ofList ((if marked then [byteOrderMark] else []) ++
        withEndings ['\r', '\n'] source.toList)) := by
    constructor
    · exact String.toList_ofList
    · exact .inr rfl
    · cases marked with
      | false => exact .inl rfl
      | true => exact .inr ⟨rfl, hmark⟩
    · exact hreturn
  have hoffset : (fun offset => offset + feedsBefore source.toList offset +
      if marked then 3 else 0) =
      reendedOffset (if marked then [byteOrderMark] else []) ['\r', '\n'] source.toList := by
    funext offset
    have hsize : byteLength ['\r', '\n'] - 1 = 1 := rfl
    have hbytes : byteLength (if marked then [byteOrderMark] else []) =
        if marked then 3 else 0 := by
      cases marked <;> rfl
    rw [reendedOffset, hsize, hbytes, Nat.one_mul, Nat.add_comm]
  rw [hoffset]
  refine h.relocatesTo.lint (Reended.strictMono _ _ _).injective fun issue => ?_
  unfold keeps
  have hline : (issue.relocate (reendedOffset (if marked then [byteOrderMark] else [])
    ['\r', '\n'] source.toList)).line = issue.line := rfl
  rw [hline]
  congr 2
  exact h.enclosingBraces?_eq issue.span.start.offset

theorem lint_withReturns_marked : ∃ linter, Linter.ofConfig {} = .ok linter ∧
    '\r' ∉ ">> a \n*SET: b".toList ∧
    ">> a \n*SET: b".toList.head? ≠ some Text.byteOrderMark ∧
    (linter.lint "a.gt" (String.ofList ((if true then [Text.byteOrderMark] else []) ++
        Text.withEndings ['\r', '\n'] ">> a \n*SET: b".toList))).issues =
      (linter.lint "a.gt" ">> a \n*SET: b").issues.map (Issue.relocate fun offset =>
        offset + Text.feedsBefore ">> a \n*SET: b".toList offset + if true then 3 else 0) := by
  obtain ⟨linter, h⟩ : ∃ linter, Linter.ofConfig {} = .ok linter := ⟨_, rfl⟩
  exact ⟨linter, h, by decide, by decide,
    lint_withReturns h "a.gt" ">> a \n*SET: b" true (by decide) (by decide)⟩

/-- The report at the same offsets. -/
theorem Issue.relocate_id (issue : Issue) : issue.relocate id = issue := by
  obtain ⟨code, rule, severity, message, span, fix⟩ := issue
  cases fix <;> rfl

/-- **Carriage returns for line feeds.**  With a bare carriage return at the end of each line a
source has the same issues at the same places, and the same are suppressed; but in markup the braces
around an issue are looked for in the whole source.  So the reports are the same where there is no
markup, and where each line closes the braces that it opens. -/
theorem lint_bareReturns (hlinter : Linter.ofConfig config = .ok linter) (path source : String)
    (hreturn : '\r' ∉ source.toList) :
    linter.lint path (String.ofList (Text.withEndings ['\r'] source.toList)) =
      .ofIssues path ((linter.rawIssues path source (parse source)
        (DirectiveTable.ofSource source)).filter fun issue =>
          !(DirectiveTable.ofSource source).isSuppressed issue.line issue.rule &&
            Markup.keeps (Text.withEndings ['\r'] source.toList)
              (Markup.lineRanges (parse source).program.nodes) issue) ∧
    (Markup.lineRanges (parse source).program.nodes = [] ∨ Markup.closesOnLines 0 source.toList →
      linter.lint path (String.ofList (Text.withEndings ['\r'] source.toList)) =
        linter.lint path source) := by
  obtain ⟨preset, rfl⟩ := Linter.eq_of_ofConfig hlinter
  have h : Reended [] ['\r'] source (String.ofList (withEndings ['\r'] source.toList)) := by
    constructor
    · exact String.toList_ofList
    · exact .inl rfl
    · exact .inl rfl
    · exact hreturn
  have hoffset : reendedOffset [] ['\r'] source.toList = id := by
    funext offset
    show 0 + (offset + 0 * _) = offset
    rw [Nat.zero_mul, Nat.add_zero, Nat.zero_add]
  have hmoves := h.relocatesTo
  rw [hoffset] at hmoves
  have hraw := hmoves.rawIssues Function.injective_id preset config path
  have hsame : Issue.relocate id = id := funext Issue.relocate_id
  rw [hsame, map_id] at hraw
  have hreport : Linter.lint ⟨preset.configuredRules config, config⟩ path
      (String.ofList (withEndings ['\r'] source.toList)) =
      .ofIssues path ((Linter.rawIssues ⟨preset.configuredRules config, config⟩ path source
        (parse source) (DirectiveTable.ofSource source)).filter fun issue =>
          !(DirectiveTable.ofSource source).isSuppressed issue.line issue.rule &&
            keeps (withEndings ['\r'] source.toList)
              (lineRanges (parse source).program.nodes) issue) := by
    unfold Linter.lint
    dsimp only
    rw [hraw, hmoves.lineRanges, hmoves.directives, String.toList_ofList]
  refine ⟨hreport, fun hmarkup => hreport.trans ?_⟩
  unfold Linter.lint
  dsimp only
  congr 1
  refine filter_congr fun issue _ => ?_
  congr 1
  unfold keeps
  rcases hmarkup with hnone | hcloses
  · rw [hnone]
    rfl
  · rw [enclosingBraces?_return hcloses]

theorem lint_bareReturns_closedBraces : ∃ linter, Linter.ofConfig {} = .ok linter ∧
    '\r' ∉ "*html\n\t\x7ba\x7d \n".toList ∧
    Markup.closesOnLines 0 "*html\n\t\x7ba\x7d \n".toList = true ∧
    linter.lint "a.gt" (String.ofList (Text.withEndings ['\r'] "*html\n\t\x7ba\x7d \n".toList)) =
      linter.lint "a.gt" "*html\n\t\x7ba\x7d \n" := by
  obtain ⟨linter, h⟩ : ∃ linter, Linter.ofConfig {} = .ok linter := ⟨_, rfl⟩
  have hcloses : closesOnLines 0 "*html\n\t\x7ba\x7d \n".toList = true := by decide
  exact ⟨linter, h, by decide, hcloses,
    (lint_bareReturns h "a.gt" "*html\n\t\x7ba\x7d \n" (by decide)).2 (.inr hcloses)⟩

/-- A brace of markup that is closed on another line: with line feeds the white space behind it is
passed over, and with carriage returns it is found. -/
theorem markup_braces_across_returns : ∃ linter, Linter.ofConfig {} = .ok linter ∧
    (linter.lint "a.gt" "*html\n\t\x7b \n\t\x7d").issues.length = 0 ∧
    (linter.lint "a.gt" (String.ofList
      (Text.withEndings ['\r'] "*html\n\t\x7b \n\t\x7d".toList))).issues.length = 1 := by
  refine ⟨⟨Preset.default.configuredRules {}, {}⟩, rfl, ?_, ?_⟩
  · decide +kernel
  · decide +kernel

end Reports

end ScriptLint

import ScriptLint.Proofs.MovedText
import ScriptLint.Proofs.WordBounds

/-!
# Where the words of a program stand

An identifier of a program is a word of its source: it stands at its place on a line, behind the
name of a keyword if the line has one, and no word reaches over its ends.  This holds wherever the
expression is read from: a line of its own, the braces of a text, the argument of a keyword, or the
braces of a string literal inside another expression.

**Method.**  A source is told again as itself.  A token that holds the byte at an offset has a load,
and the identifiers that start there carry at most the load of the line, so two of them cannot start
at the same offset.

**Results.**
* `isPlaceOf_of_mem_nodes`: an identifier of a program stands on a line of the source.
* `nodup_identifierStarts`: no two identifiers of a program start at the same offset.
-/

namespace ScriptLint

open List Text Position

open Piece

variable {content name : List Char} {source : String}

section Covers

/-- One if the text, which starts at an offset, holds the byte at another offset, and zero if
not. -/
def covers (offset start : Nat) (cs : List Char) : Nat :=
  if start ≤ offset ∧ offset < start + byteLength cs then 1 else 0

variable {offset start : Nat}

theorem covers_nil (offset start : Nat) : covers offset start [] = 0 := by
  rw [covers, byteLength_nil, if_neg (by omega)]

theorem covers_le_one (cs : List Char) : covers offset start cs ≤ 1 := by
  unfold covers
  split <;> omega

theorem covers_append (xs ys : List Char) : covers offset start (xs ++ ys) =
    covers offset start xs + covers offset (start + byteLength xs) ys := by
  unfold covers
  rw [byteLength_append]
  split <;> split <;> split <;> omega

/-- A text holds its first byte. -/
theorem covers_start {cs : List Char} (h : cs ≠ []) : covers offset offset cs = 1 := by
  have hpos := byteLength_pos h
  rw [covers, if_pos (by omega)]

theorem covers_of_le {cs : List Char} (h : start + byteLength cs ≤ offset) :
    covers offset start cs = 0 := by
  rw [covers, if_neg (by omega)]

theorem covers_of_lt (cs : List Char) (h : offset < start) : covers offset start cs = 0 := by
  rw [covers, if_neg (by omega)]

/-- The part of a text holds no more than the text. -/
theorem covers_eq_zero_of_append {u xs v ys : List Char} (hu : u = xs ++ v ++ ys)
    (h : covers offset start u = 0) : covers offset (start + byteLength xs) v = 0 := by
  rw [hu, covers_append, covers_append] at h
  omega

theorem Text.Fills.byteLength_eq {u v : List Char} (h : Fills u v) :
    byteLength v = byteLength u := by
  have hadvance : origin.advance v = origin.advance u :=
    advance_eq_of_widths_eq h.widths
  have hstop : origin.offset + byteLength v = origin.offset + byteLength u :=
    congrArg offset hadvance
  omega

theorem covers_fills {u v : List Char} (h : Fills u v) :
    covers offset start v = covers offset start u := by
  rw [covers, covers, h.byteLength_eq]

/-- The tokens of a text together hold no more than the text. -/
theorem sum_covers_place (p : Position) {pieces : List Piece}
    (h : ∀ piece ∈ pieces, piece.isInline) :
    ((place p pieces).map fun t => covers offset t.span.start.offset t.text.toList).sum ≤
      covers offset p.offset (join pieces) := by
  induction pieces generalizing p with
  | nil => exact Nat.zero_le _
  | cons piece pieces ih =>
    obtain ⟨hfirst, hrest⟩ := forall_mem_cons.1 h
    have hlater := ih (p.advance piece.text) hrest
    rw [join_cons, covers_append]
    cases piece with
    | mark => cases hfirst
    | gap text => exact Nat.le_trans hlater (Nat.le_add_left _ _)
    | token kind text =>
      have hkind := Piece.ne_newline_of_isInline hfirst
      rw [Piece.place_token hkind, map_cons, String.toList_ofList]
      exact Nat.add_le_add_left hlater _

theorem sum_covers_after (p : Position) {xs u : List Char} {pieces : List Piece}
    (h : ∀ piece ∈ pieces, piece.isInline) (hu : xs ++ join pieces = u) :
    ((place (p.advance xs) pieces).map fun t =>
      covers offset t.span.start.offset t.text.toList).sum ≤ covers offset p.offset u := by
  rw [← hu, covers_append]
  exact (sum_covers_place (p.advance xs) h).trans (Nat.le_add_left _ _)

/-- The insides of the braces of a text together hold no more than the text. -/
theorem sum_covers_braceRegions (p : Position) (u : List Char) :
    ((Parser.braceRegions p u).map fun r => covers offset r.1.offset r.2).sum ≤
      covers offset p.offset u := by
  fun_induction Parser.braceRegions p u with
  | case1 => exact Nat.zero_le _
  | case2 => exact Nat.zero_le _
  | case3 p u brace rest hdrop region after hsplit anchor ih =>
    have hu := (Piece.eq_of_splitBraces hdrop hsplit).2
    have hanchor : anchor.offset = p.offset + byteLength (u.takeWhile (· ≠ '{') ++ [brace]) := by
      simp [anchor, advance]
    have hlater : ((anchor.advance region).advance ['}']).offset =
        p.offset + byteLength (u.takeWhile (· ≠ '{') ++ [brace] ++ region ++ ['}']) := by
      simp [anchor, advance, Nat.add_assoc]
    rw [hlater] at ih
    rw [map_cons, sum_cons]
    dsimp only
    rw [hanchor]
    conv_rhs => rw [hu, covers_append, covers_append, covers_append]
    omega

end Covers

/-- What stands on a line up to the name of its keyword; nothing if it has none. -/
def lineHead (content : List Char) : List Char :=
  match keywordName? content with
  | none => []
  | some name => content.takeWhile isGap ++ '*' :: name

/-- What stands on a line behind the name of its keyword; all of it if it has none. -/
def lineTail (content : List Char) : List Char :=
  content.drop (lineHead content).length

theorem lineHead_of_plain (h : keywordName? content = none) : lineHead content = [] := by
  rw [lineHead, h]

theorem lineTail_of_plain (h : keywordName? content = none) : lineTail content = content := by
  rw [lineTail, lineHead_of_plain h]
  rfl

/-- The parts of the line of a keyword. -/
theorem line_of_name (h : keywordName? content = some name) :
    ∃ rest, content.dropWhile isGap = '*' :: (name ++ rest) ∧
      lineHead content = content.takeWhile isGap ++ '*' :: name ∧ lineTail content = rest := by
  obtain ⟨rest, hbody, -⟩ := keywordName?_eq_some h
  have hhead : lineHead content = content.takeWhile isGap ++ '*' :: name := by
    rw [lineHead, h]
  have hsplit : content = lineHead content ++ rest := by
    conv_lhs => rw [← takeWhile_append_dropWhile (p := isGap) (l := content), hbody]
    rw [hhead]
    simp
  refine ⟨rest, hbody, hhead, ?_⟩
  have hdrop : (lineHead content ++ rest).drop (lineHead content).length = rest := drop_left
  rwa [← hsplit] at hdrop

theorem lineHead_append_lineTail (content : List Char) :
    lineHead content ++ lineTail content = content := by
  cases hname : keywordName? content with
  | none => rw [lineHead_of_plain hname, lineTail_of_plain hname, nil_append]
  | some name =>
    obtain ⟨rest, hbody, hhead, htail⟩ := line_of_name hname
    conv_rhs => rw [← takeWhile_append_dropWhile (p := isGap) (l := content), hbody]
    rw [hhead, htail]
    simp

/-- The parts of the line of a keyword, seen from its name. -/
theorem keywordLine_parts (p : Position) (h : keywordName? content = some name) :
    ∃ k xs, keywordLine? p content = some k ∧ k.name = name ∧
      k.isSub = (0 < tabCount content && Vocabulary.isSubKeyword (lower (String.ofList name))) ∧
      content.dropWhile isGap = '*' :: (k.name ++ lineTail content) ∧
      k.nameSpan.start = p.advance (content.takeWhile isGap ++ ['*']) ∧
      k.nameSpan.stop = p.advance (lineHead content) ∧
      k.argument = argumentAfter (lineTail content) ∧ lineTail content = xs ++ k.argument ∧
      k.anchor = p.advance (lineHead content ++ xs) := by
  obtain ⟨rest, hbody, hhead, rfl⟩ := line_of_name h
  obtain ⟨k, hk, rfl, hsub⟩ := keywordLine?_of_name p h
  obtain ⟨hargument, hstart, xs, hrest, hanchor⟩ := anchor_of_body hk hbody
  have hstop : k.nameSpan.stop = p.advance (lineHead content) := by
    rw [hhead]
    show k.nameStart.advance k.name = _
    rw [hstart]
    simp
  refine ⟨k, xs, hk, rfl, hsub, hbody, hstart, hstop, hargument, hrest, ?_⟩
  rw [hanchor, hstop, advance_advance]

/-- A text stands on a line of the source, behind the name of its keyword, and no word reaches over
its ends.  White space on the line may be read as spaces. -/
def OnSourceLine (source : String) (q : Position) (u : List Char) : Prop :=
  ∃ p ln before after, (p, ln) ∈ linesOf source ∧
    Fills (lineTail ln.content) (before ++ u ++ after) ∧ Apart before after ∧
    q = p.advance (lineHead ln.content ++ before)

namespace OnSourceLine

variable {q : Position} {u : List Char}

theorem within (h : OnSourceLine source q u) {a v b : List Char} (hu : u = a ++ v ++ b)
    (hapart : Apart a b) : OnSourceLine source (q.advance a) v := by
  obtain ⟨p, ln, before, after, hmem, hfills, houter, rfl⟩ := h
  refine ⟨p, ln, before ++ a, b ++ after, hmem, ?_, houter.append hapart, ?_⟩
  · rw [hu] at hfills
    simpa using hfills
  · rw [advance_advance, append_assoc]

theorem filled (h : OnSourceLine source q u) : OnSourceLine source q (filledText u) := by
  obtain ⟨p, ln, before, after, hmem, hfills, houter, rfl⟩ := h
  refine ⟨p, ln, before, after, hmem, hfills.trans ?_, houter, rfl⟩
  exact ((Fills.refl before).append (fills_filledText u)).append (.refl after)

theorem inline (h : OnSourceLine source q u) : OneLine u := by
  obtain ⟨p, ln, before, after, hmem, hfills, -⟩ := h
  have hline : OneLine (lineTail ln.content) := by
    intro c hc
    refine (isLineEnd_of_mem_lines (snd_mem_of_mem_linesOf hmem)).1 c ?_
    exact mem_of_mem_drop hc
  intro c hc
  exact hfills.isLineEnd hline c (by simp [hc])

end OnSourceLine

/-- The token is one of the source: an identifier is a word that stands on a line, and so do the
insides of the braces of a string. -/
structure Token.PartsOnLine (source : String) (t : Token) : Prop where
  stop : t.span.stop = t.span.start.advance t.text.toList
  identifier : t.kind = .identifier → IsWord t.text.toList ∧
    OnSourceLine source t.span.start t.text.toList
  string : t.kind = .string → ∀ r ∈ Parser.braceRegions t.span.start t.text.toList,
    OnSourceLine source r.1 r.2

/-- The tokens of a text that stands on a line. -/
theorem forall₂_stands {source : String} {p : Position} {pieces : List Piece}
    (hinline : ∀ piece ∈ pieces, piece.isInline) (hseparates : Separates pieces)
    (h : OnSourceLine source p (join pieces)) :
    Forall₂ (fun t t' => t' = t ∧ t.PartsOnLine source) (place p pieces) (place p pieces) := by
  refine forall₂_place hinline fun xs kind cs ys hpieces => ⟨rfl, ?_, ?_, ?_⟩
  · rw [String.toList_ofList, advance_advance]
  · rintro rfl
    obtain ⟨hword, hapart⟩ := hseparates xs cs ys hpieces
    rw [String.toList_ofList]
    exact ⟨hword, h.within (by rw [hpieces]; simp) hapart⟩
  · rintro - ⟨q, run⟩ hmem
    rw [String.toList_ofList] at hmem
    obtain ⟨us, vs, hcs, rfl⟩ := braces_of_mem_braceRegions hmem
    have hapart : Apart ((join xs ++ us) ++ ['{']) ('}' :: (vs ++ join ys)) := by
      refine .closing _ (by decide) ?_
      rintro c ⟨⟩
      decide
    have hregion := h.within (v := run) (by rw [hpieces, hcs]; simp) hapart
    rwa [advance_advance, ← append_assoc]

namespace Text

/-- What a character may be in a word: its beginning, and a part of it. -/
def wordParts (c : Char) : Bool × Bool :=
  (isWordStart c, isWordChar c)

/-- What keeps a word apart may be written in other characters that are the same parts of words. -/
theorem Apart.of_wordParts {before before' after after' : List Char}
    (hbefore : before.map wordParts = before'.map wordParts)
    (hafter : after.map wordParts = after'.map wordParts) (h : Apart before' after') :
    Apart before after where
  left := by
    rintro us c vs rfl hc
    rw [map_append] at hbefore
    obtain ⟨us', rest, rfl, -, hrest⟩ := map_eq_append_iff.1 hbefore.symm
    obtain ⟨d, vs', rfl, hd, hvs⟩ := map_eq_cons_iff.1 hrest
    obtain ⟨e, he, hword⟩ := h.left us' d vs' rfl ((congrArg Prod.fst hd).trans hc)
    have hparts : wordParts e ∈ vs.map wordParts := hvs ▸ mem_map_of_mem he
    obtain ⟨e', he', hsame⟩ := mem_map.1 hparts
    exact ⟨e', he', (congrArg Prod.snd hsame).trans hword⟩
  right := by
    intro c hc
    obtain ⟨rest, rfl⟩ := head?_eq_some_iff.1 hc
    obtain ⟨d, rest', rfl, hd, -⟩ := map_eq_cons_iff.1 hafter.symm
    exact (congrArg Prod.snd hd).symm.trans (h.right d rfl)

theorem Fills.wordParts {u v : List Char} (h : Fills u v) : u.map wordParts = v.map wordParts := by
  induction h with
  | nil => rfl
  | @cons c d _ _ hcd _ ih =>
    rw [map_cons]
    congr 1
    rcases hcd with rfl | ⟨hc, rfl⟩
    · rfl
    · rcases (by simpa [isGap] using hc : c = ' ' ∨ c = '\t') with rfl | rfl <;> decide

end Text

/-- A place of an identifier is known: the word stands there. -/
structure IsPlaceOf (source : String) (span : Span) (name : String) : Prop where
  word : IsWord name.toList
  stands : OnSourceLine source span.start name.toList
  stop : span.stop = span.start.advance name.toList

/-- The line on which an identifier stands, as it is written. -/
theorem IsPlaceOf.line {source name : String} {span : Span} (h : IsPlaceOf source span name) :
    ∃ p ln before after, (p, ln) ∈ linesOf source ∧
      lineTail ln.content = before ++ name.toList ++ after ∧ Apart before after ∧
      span.start = p.advance (lineHead ln.content ++ before) := by
  obtain ⟨p, ln, before, after, hmem, hfills, hapart, hstart⟩ := h.stands
  obtain ⟨us, after', htail, hus, hafter⟩ := hfills.of_append
  obtain ⟨before', word, rfl, hbefore, hword⟩ := hus.of_append
  obtain rfl := hword.eq_of_not_mem fun hspace => absurd (h.word.chars ' ' hspace) (by decide)
  refine ⟨p, ln, before', after', hmem, htail,
    hapart.of_wordParts hbefore.wordParts hafter.wordParts, ?_⟩
  rw [hstart, ← advance_advance, ← advance_advance,
    advance_eq_of_widths_eq hbefore.widths]

open Classical in
/-- What an identifier carries: much if it starts at the offset, and something if it does not stand
on a line. -/
noncomputable def startHeft (source : String) (offset : Nat) (span : Span) (name : String) : Nat :=
  (if span.start.offset = offset then 2 else 0) + if IsPlaceOf source span name then 0 else 1

/-- A source is told again as itself; what holds the byte at an offset counts. -/
noncomputable def standing (source : String) (offset : Nat) : Retelling where
  before := .same
  after := .same
  near p p' := p' = p
  token t t' := t' = t ∧ t.PartsOnLine source
  load t := covers offset t.span.start.offset t.text.toList
  told p u p' u' := (p' = p ∧ u' = u) ∧ (u ≠ [] → OnSourceLine source p u)
  textLoad p u := covers offset p.offset u
  heft := startHeft source offset
  near_stop := by
    rintro p p' q q' - rfl rfl
    rfl
  span_eq := by
    rintro ⟨start, stop⟩ ⟨start', stop'⟩ rfl rfl
    rfl
  between_eq := by
    rintro p p' q q' rfl rfl
    rfl
  kind h := by rw [h.1]
  near_start h := by rw [h.1]
  near_end h := by rw [h.1]
  same h _ := by rw [h.1]
  fixed h _ := by rw [h.1]
  identifier := by
    rintro t t' ⟨rfl, h⟩ hkind
    obtain ⟨hword, hstands⟩ := h.identifier hkind
    refine ⟨?_, fun _ => rfl⟩
    rw [startHeft, if_pos (c := IsPlaceOf _ _ _) ⟨hword, hstands, h.stop⟩, Nat.add_zero]
    split
    · next hstart =>
        rw [hstart, covers_start hword.ne_nil]
    · exact Nat.zero_le _
  string := by
    rintro t t' ⟨rfl, -⟩ -
    exact ⟨rfl, rfl⟩
  regions := by
    rintro t t' ⟨rfl, h⟩ hkind
    constructor
    · exact forall₂_same.2 fun r hr => ⟨⟨rfl, rfl⟩, fun _ => h.string hkind r hr⟩
    · exact sum_covers_braceRegions _ _
  told_inline := by
    rintro p u p' u' ⟨⟨rfl, rfl⟩, h⟩
    have hinline : OneLine u' :=
      fun c hc => (h (ne_nil_of_mem hc)).inline c hc
    exact ⟨hinline, hinline⟩
  told_blank := by
    rintro p u p' u' ⟨⟨rfl, rfl⟩, -⟩
    rfl
  told_stop := by
    rintro p u p' u' ⟨⟨rfl, rfl⟩, -⟩
    rfl
  told_tokens := by
    rintro p u p' u' ⟨⟨rfl, rfl⟩, h⟩
    have hinline : ∀ piece ∈ ofExpression true u', piece.isInline :=
      fun _ => isInline_of_mem_ofExpression
    have hjoin := join_ofExpression true u'
    constructor
    · by_cases hne : u' = []
      · subst hne
        rw [ofExpression]
        exact .nil
      · exact forall₂_stands hinline (separates_ofExpression true u') (by rw [hjoin]; exact h hne)
    · have hsum := @sum_covers_place offset p' _ hinline
      rwa [hjoin] at hsum
  told_filled := by
    rintro p u p' u' ⟨⟨rfl, rfl⟩, h⟩
    refine ⟨⟨⟨rfl, rfl⟩, fun hne => (h ?_).filled⟩, ?_⟩
    · rintro rfl
      exact hne (by simp [filledText, ofText])
    rw [covers_fills (fills_filledText u')]

section Lines

variable {p : Position} {ln : Line}

theorem stands_lineTail (hmem : (p, ln) ∈ linesOf source) :
    OnSourceLine source (p.advance (lineHead ln.content)) (lineTail ln.content) := by
  refine ⟨p, ln, [], [], hmem, ?_, apart_nil nofun, by rw [append_nil]⟩
  rw [append_nil]
  exact .refl _

/-- No word begins between the name of a keyword and its argument. -/
theorem isWordStart_of_mem_before {rest xs : List Char} (hne : argumentAfter rest ≠ [])
    (hrest : rest = xs ++ argumentAfter rest) : ∀ c ∈ xs, isWordStart c = false := by
  obtain ⟨after, hcolon, hargument⟩ := dropWhile_isGap_of_argumentAfter hne
  have hsplit : rest = rest.takeWhile isGap ++ ':' :: after.takeWhile isGap ++
      argumentAfter rest := by
    rw [hargument, append_assoc, cons_append, takeWhile_append_dropWhile, ← hcolon,
      takeWhile_append_dropWhile]
  obtain rfl := append_cancel_right (hrest.symm.trans hsplit)
  intro c hc
  rcases mem_append.1 hc with hc | hc
  · exact isWordStart_of_mem_gaps c hc
  · rcases mem_cons.1 hc with rfl | hc
    · decide
    · exact isWordStart_of_mem_gaps c hc

/-- The tokens of a line cover no more than the line. -/
theorem sum_covers_lineTokens (offset : Nat) (p : Position) (content : List Char) :
    ((lineTokens p content).map fun t => covers offset t.span.start.offset t.text.toList).sum ≤
      covers offset p.offset content := by
  refine sum_covers_after p (fun _ => isInline_of_mem_ofContent) ?_
  rw [join_ofContent, takeWhile_append_dropWhile]

/-- What follows the name of a keyword covers no more than the line. -/
theorem sum_covers_argument (offset : Nat) (p : Position) (content : List Char) :
    ((place (p.advance (lineHead content)) (ofArgument (lineTail content))).map fun t =>
      covers offset t.span.start.offset t.text.toList).sum ≤ covers offset p.offset content := by
  refine sum_covers_after p (fun _ => isInline_of_mem_ofArgument) ?_
  rw [join_ofArgument, lineHead_append_lineTail]

theorem covers_argument_le (offset : Nat) (p : Position) {xs argument : List Char}
    (h : lineTail content = xs ++ argument) :
    covers offset (p.advance (lineHead content ++ xs)).offset argument ≤
      covers offset p.offset content := by
  conv_rhs => rw [← lineHead_append_lineTail content, h, ← append_assoc, covers_append]
  exact Nat.le_add_left _ _

theorem plainLines_standing (offset : Nat) (hmem : (p, ln) ∈ linesOf source)
    (hname : keywordName? ln.content = none) :
    (standing source offset).PlainLines (2 * covers offset p.offset ln.content) p ln.content p
      ln.content := by
  have hbody : OnSourceLine source (p.advance (ln.content.takeWhile isGap))
      (ln.content.dropWhile isGap) := by
    have hwhole := stands_lineTail hmem
    rw [lineHead_of_plain hname, lineTail_of_plain hname] at hwhole
    refine hwhole.within (b := []) (by rw [append_nil, takeWhile_append_dropWhile])
      (.of_free ?_ nofun)
    exact fun c hc => isWordStart_of_isGap (all_eq_true.1 all_takeWhile c hc)
  constructor
  · exact keywordLine?_eq_none hname
  · exact keywordLine?_eq_none hname
  · exact forall₂_stands (fun _ => isInline_of_mem_ofContent) (separates_ofContent _ hname)
      (by rw [join_ofContent]; exact hbody)
  · exact Nat.mul_le_mul_left 2 (sum_covers_lineTokens offset p ln.content)

theorem keywordLines_standing (offset : Nat) (hmem : (p, ln) ∈ linesOf source)
    (hname : keywordName? ln.content = some name) :
    ∃ k rest, (standing source offset).KeywordLines (2 * covers offset p.offset ln.content) p
      ln.content p ln.content k k rest rest := by
  obtain ⟨k, xs, hk, -, -, hbody, -, hstop, hargument, hrest, hanchor⟩ := keywordLine_parts p hname
  have hstands := stands_lineTail hmem
  refine ⟨k, lineTail ln.content, ?_⟩
  constructor
  · exact hk
  · exact hk
  · exact hbody
  · exact hbody
  · rfl
  · rfl
  · rfl
  · rfl
  · rfl
  · rfl
  · rw [hstop]
    exact forall₂_stands (fun _ => isInline_of_mem_ofArgument) (separates_ofArgument _)
      (by rw [join_ofArgument]; exact hstands)
  · rw [hstop]
    exact Nat.mul_le_mul_left 2 (sum_covers_argument offset p ln.content)
  · refine ⟨⟨rfl, rfl⟩, fun hne => ?_⟩
    rw [hanchor, ← advance_advance]
    refine hstands.within (b := []) (by rw [append_nil]; exact hrest) (.of_free ?_ nofun)
    rw [hargument] at hne hrest
    exact isWordStart_of_mem_before hne hrest
  · rw [hanchor]
    exact Nat.mul_le_mul_left 2 (covers_argument_le offset p hrest)

theorem placed_standing (offset : Nat) (hmem : (p, ln) ∈ linesOf source) :
    ∃ n ≤ 2 * covers offset p.offset ln.content,
      (standing source offset).Placed n (p, ln) (p, ln) := by
  cases hblank : allBlank ln.content with
  | true => exact ⟨0, Nat.zero_le _, Iff.rfl, .inl ⟨rfl, hblank, hblank⟩⟩
  | false =>
    refine ⟨_, Nat.le_refl _, Iff.rfl, .inr ⟨hblank, hblank, rfl, rfl, rfl, rfl, rfl, ?_⟩⟩
    cases hname : keywordName? ln.content with
    | none => exact .inl (plainLines_standing offset hmem hname)
    | some name =>
      obtain ⟨k, rest, hkeyword⟩ := keywordLines_standing offset hmem hname
      exact .inr ⟨k, k, rest, rest, hkeyword⟩

/-- Of lines that are told again one by one, one at most covers an offset. -/
theorem tally_placedLines {R : Nat → Position × Line → Position × Line → Prop} {offset : Nat}
    {p p' : Position} {ls ls' : List Line}
    (h : Forall₂ (fun line line' => ∃ n ≤ 2 * covers offset line.1.offset line.2.content,
      R n line line') (placedLines p ls) (placedLines p' ls')) :
    ∃ n ≤ 2 * covers offset p.offset (ls.flatMap Line.full),
      Tally R n (placedLines p ls) (placedLines p' ls') := by
  induction ls generalizing p p' ls' with
  | nil =>
    rw [placedLines, forall₂_nil_left_iff] at h
    rw [h]
    exact ⟨0, Nat.zero_le _, .nil⟩
  | cons line ls ih =>
    cases ls' with
    | nil => cases h
    | cons line' ls' =>
      obtain ⟨⟨m, hm, hfirst⟩, hrest⟩ := forall₂_cons.1 h
      obtain ⟨n, hn, htally⟩ := ih hrest
      refine ⟨m + n, ?_, .cons hfirst htally⟩
      rw [offset_afterLine] at hn
      have hfull : covers offset p.offset line.content ≤ covers offset p.offset line.full := by
        rw [Line.full, covers_append]
        exact Nat.le_add_right _ _
      rw [flatMap_cons, covers_append]
      dsimp only at hm
      omega

/-- The lines of a source are told again as themselves; one of them at most counts. -/
theorem tally_standing (source : String) (offset : Nat) :
    ∃ n ≤ 2, Tally (standing source offset).Placed n (linesOf source) (linesOf source) := by
  obtain ⟨n, hn, htally⟩ := tally_placedLines
    (forall₂_same.2 fun line hline => @placed_standing source line.1 line.2 offset hline)
  have hone := @covers_le_one offset (firstLine source).offset
    ((lines (withoutMark source.toList)).flatMap Line.full)
  exact ⟨n, by omega, htally⟩

end Lines

section Nodes

variable {name name' : String} {span span' : Span}

/-- The identifiers of a program that start at one offset carry no more than one of them may. -/
theorem hefts_nodes_le (source : String) (offset : Nat) :
    (standing source offset).hefts (parse source).program.nodes ≤ 2 := by
  obtain ⟨n, hn, htally⟩ := tally_standing source offset
  obtain ⟨x, y, hxy, hweighs, -⟩ := Retelling.parse_told (standing source offset) htally rfl
  have hbound := hweighs.bound
  rw [Program.nodes, Retelling.hefts_cons]
  show 0 + _ ≤ 2
  omega

/-- **Places of identifiers.**  An identifier of a program is a word that stands at its place on a
line. -/
theorem isPlaceOf_of_mem_nodes
    (h : .expression (.identifier name span) ∈ (parse source).program.nodes) :
    IsPlaceOf source span name := by
  by_contra hnot
  have hle := hefts_nodes_le source span.start.offset
  obtain ⟨before, after, hsplit⟩ := append_of_mem h
  rw [hsplit, Retelling.hefts_append, Retelling.hefts_cons] at hle
  have hheft : (standing source span.start.offset).nodeHeft
      (.expression (.identifier name span)) = 3 := by
    show startHeft source span.start.offset span name = 3
    unfold startHeft
    rw [if_pos rfl, if_neg hnot]
  omega

/-- The offset at which an identifier starts, if the node is one. -/
def Node.identifierStart? : Node → Option Nat
  | .expression (.identifier _ span) => some span.start.offset
  | _ => none

/-- Each identifier that starts at the offset carries as much as one may. -/
theorem count_identifierStart_le (source : String) (offset : Nat) (nodes : List Node) :
    2 * (nodes.filterMap Node.identifierStart?).count offset ≤
      (standing source offset).hefts nodes := by
  induction nodes with
  | nil => exact Nat.zero_le _
  | cons node nodes ih =>
    rw [Retelling.hefts_cons, filterMap_cons]
    split
    · omega
    · next start hstart =>
      rw [count_cons]
      have hheft : 2 * (if start == offset then 1 else 0) ≤
          (standing source offset).nodeHeft node := by
        unfold Node.identifierStart? at hstart
        split at hstart
        · next name span =>
          obtain rfl := Option.some.inj hstart
          show _ ≤ startHeft source offset span name
          unfold startHeft
          by_cases hoffset : span.start.offset = offset
          · rw [if_pos hoffset, if_pos (beq_iff_eq.2 hoffset)]
            omega
          · rw [if_neg (by simpa using hoffset)]
            exact Nat.zero_le _
        · cases hstart
      omega

/-- **No two identifiers of a program start at the same offset.** -/
theorem nodup_identifierStarts (source : String) :
    ((parse source).program.nodes.filterMap Node.identifierStart?).Nodup := by
  rw [nodup_iff_count_le_one]
  intro offset
  have hcount := count_identifierStart_le source offset (parse source).program.nodes
  have hle := hefts_nodes_le source offset
  omega

end Nodes

end ScriptLint

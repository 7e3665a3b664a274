import ScriptLint.Proofs.ArgumentText
import Mathlib.Algebra.BigOperators.Group.List.Basic

/-!
# The lines of a source and the keywords on them

A site is a line that is not blank, with its place and with the number of levels that are left for
brackets on it.  What the line of a keyword says can be seen from its text: the name, whether it is
that of a sub-keyword, the argument, and where these stand.

**Results.**
* `rows_sitesFrom`: the lines of a source correspond to themselves, one site to one row.
* `Row.Holds.keyword`, `Row.Holds.no_keyword`: the tokens of the line of a keyword, and of other
  lines.
* `Row.Holds.argument`: the tokens of its argument.
-/

namespace ScriptLint

open List Text

open Piece

variable {rest : List Char} {ts : List Token} {site : Site} {p : Position}

/-- A line that is not blank, with its place and the levels left on it. -/
structure Site where
  start : Position
  levels : Nat
  content : List Char
deriving DecidableEq

/-- The sites of lines under the open levels; so many levels are left before them. -/
def sitesFrom : List Nat → Nat → Position → List Line → List Site
  | _, _, _, [] => []
  | levels, left, p, line :: lines =>
    if allBlank line.content then sitesFrom levels left (afterLine p line) lines
    else
      let tabs := tabCount line.content
      ⟨p, levelsUnder levels left tabs, line.content⟩ ::
        sitesFrom (nextLevels levels tabs) (levelsUnder levels left tabs) (afterLine p line) lines

/-- Where the first line of a source starts: behind the byte-order mark, if there is one. -/
def firstLine (source : String) : Position :=
  if source.toList.head? = some byteOrderMark then next Position.origin .mark
  else Position.origin

/-- The byte-order mark of a source, if it has one. -/
def markOf (source : String) : List Char :=
  if source.toList.head? = some byteOrderMark then [byteOrderMark] else []

/-- The sites of a source. -/
def sites (source : String) : List Site :=
  sitesFrom [] maxDepth (firstLine source) (lines (withoutMark source.toList))

/-- What the line of a keyword says: its name, whether it is that of a sub-keyword, its argument,
and where the name and the argument start. -/
structure KeywordLine where
  name : List Char
  isSub : Bool
  nameStart : Position
  argument : List Char
  anchor : Position
deriving DecidableEq

/-- What follows a name: the text behind its colon, without the white space before it. -/
def argumentAfter (rest : List Char) : List Char :=
  match rest.dropWhile isGap with
  | ':' :: after => after.dropWhile isGap
  | _ => []

/-- The line of a keyword that starts at a position, if it is one. -/
def keywordLine? (p : Position) (line : List Char) : Option KeywordLine :=
  let margin := line.takeWhile isGap
  let body := line.dropWhile isGap
  let name := (body.drop 1).takeWhile isNameChar
  let argument := argumentAfter (body.drop (1 + name.length))
  if body.head? = some '*' ∧ name ≠ [] ∧ isBold body = false then
    some {
      name
      isSub := 0 < tabCount line && Vocabulary.isSubKeyword (lower (String.ofList name))
      nameStart := p.advance (margin ++ ['*'])
      argument
      anchor := p.advance (line.take (line.length - argument.length)) }
  else
    none

namespace KeywordLine

/-- The place of the name. -/
def nameSpan (k : KeywordLine) : Span :=
  ⟨k.nameStart, k.nameStart.advance k.name⟩

/-- The keyword has an argument that is an expression. -/
def takesExpression (k : KeywordLine) : Bool :=
  Vocabulary.takesExpression (lower (String.ofList k.name)) k.isSub && !k.argument.isEmpty

/-- The keyword begins a loop. -/
def isLoop (k : KeywordLine) : Bool :=
  !k.isSub && lower (String.ofList k.name) == Vocabulary.loopKeyword

end KeywordLine

section Rows

variable {G : Type} [AddCommMonoid G]
  {line : Nat → G → Position → Line → Position → Line → Prop} {weight : Site → G}

/-- Lines correspond to themselves, if each site does; together they weigh what the sites weigh. -/
theorem rows_sitesFrom {levels : List Nat} {left : Nat} {p : Position} {ls : List Line}
    (hending : Ended ls)
    (h : ∀ site ∈ sitesFrom levels left p ls, ∀ ending, line site.levels (weight site) site.start
      ⟨site.content, ending⟩ site.start ⟨site.content, ending⟩) :
    Rows line levels left ((sitesFrom levels left p ls).map weight).sum p ls p ls := by
  induction ls generalizing levels left p with
  | nil => exact .nil
  | cons ln ls ih =>
    have hlast := eq_nil_of_ending_eq_nil hending
    cases hblank : allBlank ln.content with
    | true =>
      rw [sitesFrom, if_pos hblank] at h ⊢
      exact .blank_left hblank hlast (.blank_right hblank hlast (ih hending.of_cons h))
    | false =>
      rw [sitesFrom, if_neg (by simp [hblank])] at h ⊢
      obtain ⟨hfirst, hrest⟩ := forall_mem_cons.1 h
      exact .line hblank hblank rfl hlast hlast Iff.rfl (hfirst ln.ending)
        (ih hending.of_cons hrest)

end Rows

/-- Lines with the places where they start, the first of them at the position. -/
def placedLines : Position → List Line → List (Position × Line)
  | _, [] => []
  | p, line :: lines => (p, line) :: placedLines (afterLine p line) lines

/-- The lines of a source, behind the byte-order mark. -/
def linesOf (source : String) : List (Position × Line) :=
  placedLines (firstLine source) (lines (withoutMark source.toList))

theorem map_snd_placedLines (p : Position) (ls : List Line) :
    (placedLines p ls).map Prod.snd = ls := by
  induction ls generalizing p with
  | nil => rfl
  | cons line ls ih => rw [placedLines, map_cons, ih]

variable {line : Position × Line} {source : String}

theorem snd_mem_of_mem_linesOf
    (h : line ∈ linesOf source) : line.2 ∈ lines (withoutMark source.toList) := by
  rw [← map_snd_placedLines (firstLine source) (lines (withoutMark source.toList))]
  exact mem_map_of_mem h

section Places

variable {levels : List Nat} {left : Nat} {ls : List Line}

theorem line_afterLine (p : Position) (ln : Line) :
    (afterLine p ln).line = if ln.ending = [] then p.line else p.line + 1 := by
  unfold afterLine ofEnding
  cases ln.ending <;> rfl

/-- Sites come line by line. -/
theorem pairwise_sitesFrom (hending : Ended ls) :
    (∀ site ∈ sitesFrom levels left p ls, p.line ≤ site.start.line) ∧
    (sitesFrom levels left p ls).Pairwise fun a b => a.start.line < b.start.line := by
  induction ls generalizing levels left p with
  | nil => exact ⟨by simp [sitesFrom], .nil⟩
  | cons ln ls ih =>
    have hnext : ∀ {levels left}, ∀ site ∈ sitesFrom levels left (afterLine p ln) ls,
        p.line < site.start.line := by
      intro levels left site hsite
      have hline := line_afterLine p ln
      have hle := (ih hending.of_cons).1 site hsite
      rw [if_neg ?_] at hline
      · omega
      · intro hnil
        rw [eq_nil_of_ending_eq_nil hending hnil] at hsite
        cases hsite
    rw [sitesFrom]
    split
    · exact ⟨fun site hsite => (hnext site hsite).le, (ih hending.of_cons).2⟩
    · constructor
      · rintro site hsite
        rcases mem_cons.1 hsite with rfl | hsite
        · exact Nat.le_refl _
        · exact (hnext site hsite).le
      · exact pairwise_cons.2 ⟨fun site hsite => hnext site hsite, (ih hending.of_cons).2⟩

theorem exists_line_of_mem_sitesFrom (h : site ∈ sitesFrom levels left p ls) :
    ∃ line, (site.start, line) ∈ placedLines p ls ∧ site.content = line.content ∧
    allBlank line.content = false := by
  induction ls generalizing levels left p with
  | nil => cases h
  | cons ln ls ih =>
    rw [sitesFrom] at h
    split at h
    · obtain ⟨line, hline, hcontent⟩ := ih h
      exact ⟨line, mem_cons_of_mem _ hline, hcontent⟩
    · next hblank =>
      rcases mem_cons.1 h with rfl | h
      · exact ⟨ln, mem_cons_self, rfl, by simpa using hblank⟩
      · obtain ⟨line, hline, hcontent⟩ := ih h
        exact ⟨line, mem_cons_of_mem _ hline, hcontent⟩

theorem offset_afterLine (p : Position) (ln : Line) :
    (afterLine p ln).offset = p.offset + byteLength ln.full := by
  unfold afterLine
  rw [offset_last, join_ofEnding, Line.full, byteLength_append, ← Nat.add_assoc]
  rfl

theorem split_of_mem_placedLines (h : line ∈ placedLines p ls) :
    ∃ before after, ls.flatMap Line.full = before ++ line.2.content ++ after ∧
      line.1.offset = p.offset + byteLength before := by
  induction ls generalizing p with
  | nil => cases h
  | cons ln ls ih =>
    rcases mem_cons.1 h with rfl | h
    · exact ⟨[], ln.ending ++ ls.flatMap Line.full, by simp [Line.full], rfl⟩
    · obtain ⟨before, after, hsplit, hoffset⟩ := ih h
      refine ⟨ln.full ++ before, after, ?_, ?_⟩
      · rw [flatMap_cons, hsplit]
        simp
      · rw [hoffset, offset_afterLine, byteLength_append, Nat.add_assoc]

end Places

theorem markOf_append (source : String) :
    markOf source ++ withoutMark source.toList = source.toList := by
  unfold markOf
  cases source.toList with
  | nil => rfl
  | cons c rest =>
    rw [withoutMark]
    by_cases hmark : c = byteOrderMark
    · rw [if_pos hmark, hmark]
      rfl
    · rw [if_neg hmark, if_neg (by simpa using hmark)]
      rfl

theorem offset_firstLine (source : String) :
    (firstLine source).offset = byteLength (markOf source) := by
  unfold firstLine markOf
  split
  · simp [Piece.next, Position.origin]
  · rfl

/-- A line stands in the source where its position says. -/
theorem split_of_mem_linesOf (h : line ∈ linesOf source) :
    ∃ before after, source.toList = before ++ line.2.content ++ after ∧
    line.1.offset = byteLength before := by
  obtain ⟨before, after, hsplit, hoffset⟩ := split_of_mem_placedLines h
  rw [flatMap_full_lines] at hsplit
  refine ⟨markOf source ++ before, after, ?_, ?_⟩
  · rw [← markOf_append source, hsplit]
    simp
  · rw [hoffset, offset_firstLine, byteLength_append]

theorem split_of_mem_sites (h : site ∈ sites source) :
    ∃ before after, source.toList = before ++ site.content ++ after ∧
      site.start.offset = byteLength before := by
  obtain ⟨line, hline, hcontent, -⟩ := exists_line_of_mem_sitesFrom h
  rw [hcontent]
  exact split_of_mem_linesOf hline

theorem tokenize_eq_firstLine (source : String) :
    tokenize source =
      place (firstLine source) (ofLines [] (lines (withoutMark source.toList))) := by
  unfold tokenize ofSource firstLine
  cases source.toList with
  | nil => rfl
  | cons c rest =>
    by_cases hmark : c = byteOrderMark
    · rw [withoutMark, if_pos hmark, if_pos (by rw [hmark]; rfl), if_pos (by rw [hmark]; rfl)]
      rfl
    · rw [withoutMark, if_neg hmark, if_neg (by simpa using hmark), if_neg (by simpa using hmark)]

/-- The gaps before the first token. -/
def Piece.lead : List Piece → List Char
  | gap text :: rest => text ++ lead rest
  | _ => []

theorem Piece.lead_append {xs ys : List Piece} (h : lead ys = []) : lead (xs ++ ys) = lead xs := by
  induction xs with
  | nil => exact h
  | cons piece xs ih =>
    cases piece with
    | gap text => rw [cons_append, lead, lead, ih]
    | mark => rfl
    | token kind text => rfl

theorem Piece.lead_isPrefixOf (pieces : List Piece) :
    ∃ rest, join pieces = lead pieces ++ rest := by
  induction pieces with
  | nil => exact ⟨[], rfl⟩
  | cons piece pieces ih =>
    cases piece with
    | gap text =>
      obtain ⟨rest, hrest⟩ := ih
      exact ⟨rest, by rw [join_cons, lead, hrest, append_assoc]; rfl⟩
    | mark => exact ⟨_, rfl⟩
    | token kind text => exact ⟨_, rfl⟩

/-- The gaps before the first token of lines are on the first line. -/
theorem Piece.lead_ofLines_cons {levels : List Nat} {line : Line} {ls : List Line}
    (hlast : line.ending = [] → ls = []) :
    lead (ofLines levels (line :: ls)) = lead (ofLineContent levels line.content) := by
  have hdedents : ∀ (levels : List Nat) (rest : List Piece), lead rest = [] →
      lead (dedents levels ++ rest) = [] := by
    intro levels rest hrest
    cases levels with
    | nil => exact hrest
    | cons => rfl
  rw [ofLines, append_assoc]
  refine lead_append ?_
  by_cases hending : line.ending = []
  · rw [hlast hending, hending]
    exact hdedents _ _ rfl
  · rw [ofEnding, if_neg (by simpa using hending)]
    rfl

/-- The first token stands behind the gaps. -/
theorem Piece.start_head_place {p : Position} {pieces : List Piece} {t : Token}
    (hmark : mark ∉ pieces) (h : place p pieces = t :: ts) :
    t.span.start = p.advance (lead pieces) := by
  induction pieces generalizing p with
  | nil => cases h
  | cons piece rest ih =>
    cases piece with
    | mark => exact absurd mem_cons_self hmark
    | gap text =>
      rw [lead, ← Position.advance_advance]
      exact ih (fun hmem => hmark (mem_cons_of_mem _ hmem)) h
    | token kind text =>
      rw [← (cons.inj h).1]
      rfl

/-- A token of content, and what stands behind it. -/
theorem Piece.place_token {kind : Token.Kind} (hkind : kind ≠ .newline) (p : Position)
    (text : List Char) (pieces : List Piece) :
    place p (token kind text :: pieces) =
      ⟨kind, String.ofList text, ⟨p, p.advance text⟩⟩ :: place (p.advance text) pieces := by
  rw [place, stop, if_neg hkind, next, if_neg hkind]

section Keywords

variable {r : Row} {line : List Char} {k : KeywordLine}

theorem isGap_of_mem_replicate_tab {n : Nat} {c : Char} (hc : c ∈ replicate n '\t') :
    isGap c = true := by
  rw [eq_of_mem_replicate hc]
  rfl

theorem takeWhile_isGap (line : List Char) :
    line.takeWhile isGap =
      replicate (tabCount line) '\t' ++ (line.drop (tabCount line)).takeWhile isGap := by
  conv_lhs => rw [← replicate_tab_append_drop line]
  exact takeWhile_append_of_pos fun _ => isGap_of_mem_replicate_tab

theorem dropWhile_isGap (line : List Char) :
    line.dropWhile isGap = (line.drop (tabCount line)).dropWhile isGap := by
  conv_lhs => rw [← replicate_tab_append_drop line]
  exact dropWhile_append_of_pos fun _ => isGap_of_mem_replicate_tab

/-- The tokens of a row are those of what the line holds behind its white space. -/
theorem Row.Holds.place_body (h : r.Holds p line) :
    r.first :: r.more = Piece.place (p.advance (line.takeWhile isGap))
      (ofContent (0 < tabCount line) (line.dropWhile isGap)) := by
  have hmargin : p.advance (line.takeWhile isGap) =
      (p.advance (replicate (tabCount line) '\t')).advance
        ((line.drop (tabCount line)).takeWhile isGap) := by
    rw [Position.advance_advance, ← takeWhile_isGap]
  rw [h.place, hmargin, dropWhile_isGap line]
  rfl

/-- The line of a comment is its mark and its text. -/
theorem Row.Holds.comment (h : r.Holds p line)
    (hkind : r.first.kind = .commentStart ∨ r.first.kind = .comment) :
    r.first.kind = .commentStart ∧ ∃ text, line.dropWhile isGap = '-' :: '-' :: text ∧
      r.first :: r.more = Piece.place (p.advance (line.takeWhile isGap)) (ofComment text) := by
  have hplace := h.place_body
  by_cases hnil : line.dropWhile isGap = []
  · rw [hnil] at hplace
    simp [ofContent, ofText, Piece.place] at hplace
  · obtain ⟨kind, _, pieces, heq, hfirst⟩ := ofContent_eq_cons (0 < tabCount line) hnil
    have hstart : r.first.kind = kind := by
      rw [heq] at hplace
      rw [(cons.inj hplace).1]
    rcases hfirst with ⟨hcomment, text, hbody, -⟩ | hnot
    · rw [hbody] at hplace
      exact ⟨hstart.trans hcomment, text, hbody, hplace⟩
    · rw [hstart] at hkind
      exact absurd hkind (not_or.2 hnot)

/-- What the line of a keyword is made of. -/
theorem keywordLine?_eq_some (hk : keywordLine? p line = some k) :
    ∃ rest, line.dropWhile isGap = '*' :: (k.name ++ rest) ∧
      ofContent (0 < tabCount line) (line.dropWhile isGap) =
        token .keywordStart ['*'] :: token (if k.isSub then .subKeyword else .keyword) k.name ::
          ofArgument rest ∧
      k.nameStart = p.advance (line.takeWhile isGap ++ ['*']) ∧
      k.argument = argumentAfter rest ∧
      k.anchor = p.advance (line.take (line.length - k.argument.length)) := by
  unfold keywordLine? at hk
  dsimp only at hk
  split at hk
  · next hline =>
    obtain ⟨hstar, hname, hbold⟩ := hline
    cases hk
    cases hbody : line.dropWhile isGap with
    | nil =>
      rw [hbody] at hstar
      cases hstar
    | cons c after =>
      rw [hbody] at hstar hname hbold
      obtain rfl : c = '*' := Option.some.inj hstar
      have hrest : ('*' :: after).drop (1 + (after.takeWhile isNameChar).length) =
          after.dropWhile isNameChar := by
        rw [Nat.add_comm, drop_succ_cons, drop_length_takeWhile]
      refine ⟨after.dropWhile isNameChar, ?_, ?_, rfl, ?_, rfl⟩
      · rw [drop_succ_cons, drop_zero, takeWhile_append_dropWhile]
      · have hnot : ((('*' :: after).drop 1).takeWhile isNameChar).isEmpty = false := by
          simpa using hname
        show ofKeywordLine _ _ = _
        unfold ofKeywordLine
        dsimp only
        rw [hnot, hbold, if_neg (by simp), drop_succ_cons, drop_zero, hrest]
      · rw [drop_succ_cons, drop_zero, hrest]
  · cases hk

/-- The line of a keyword begins with the asterisk and the name. -/
theorem Row.Holds.keyword (h : r.Holds p line) (hk : keywordLine? p line = some k) :
    ∃ rest, line.dropWhile isGap = '*' :: (k.name ++ rest) ∧ k.argument = argumentAfter rest ∧
      r.first = ⟨.keywordStart, "*", ⟨p.advance (line.takeWhile isGap), k.nameStart⟩⟩ ∧
      r.more = ⟨if k.isSub then .subKeyword else .keyword, String.ofList k.name, k.nameSpan⟩ ::
        Piece.place k.nameSpan.stop (ofArgument rest) := by
  obtain ⟨rest, hbody, hpieces, hstart, hargument, -⟩ := keywordLine?_eq_some hk
  have hplace := h.place_body
  rw [hpieces] at hplace
  refine ⟨rest, hbody, hargument, ?_⟩
  have hkind : (if k.isSub then Token.Kind.subKeyword else .keyword) ≠ .newline := by
    split <;> decide
  rw [place_token (by decide), place_token hkind, Position.advance_advance, ← hstart] at hplace
  obtain ⟨hfirst, hmore⟩ := cons.inj hplace
  exact ⟨hfirst, hmore⟩

theorem argumentAfter_suffix (rest : List Char) : argumentAfter rest <:+ rest := by
  have hgap := dropWhile_suffix isGap (l := rest)
  unfold argumentAfter
  split
  · next after heq =>
    rw [heq] at hgap
    exact ((dropWhile_suffix isGap).trans (suffix_cons ':' after)).trans hgap
  · exact nil_suffix

theorem dropWhile_isGap_of_argumentAfter (hne : argumentAfter rest ≠ []) :
    ∃ after, rest.dropWhile isGap = ':' :: after ∧
      argumentAfter rest = after.dropWhile isGap := by
  unfold argumentAfter at hne ⊢
  split at hne
  · next after heq => exact ⟨after, heq, rfl⟩
  · exact absurd rfl hne

theorem argumentAfter_of_colon {after : List Char} (h : rest.dropWhile isGap = ':' :: after) :
    argumentAfter rest = after.dropWhile isGap := by
  rw [argumentAfter, h]
  rfl

theorem argumentAfter_of_ne_colon
    (h : ∀ after, rest.dropWhile isGap ≠ ':' :: after) : argumentAfter rest = [] := by
  unfold argumentAfter
  split
  · next after hcolon => exact absurd hcolon (h after)
  · rfl

theorem ofArgument_of_colon {after : List Char} (h : rest.dropWhile isGap = ':' :: after) :
    ofArgument rest = gap (rest.takeWhile isGap) :: token .colon [':'] ::
      gap (after.takeWhile isGap) :: ofText (after.dropWhile isGap) := by
  unfold ofArgument
  rw [h]
  rfl

theorem ofArgument_of_ne_colon
    (h : ∀ after, rest.dropWhile isGap ≠ ':' :: after) :
    ofArgument rest = gap (rest.takeWhile isGap) :: ofText (rest.dropWhile isGap) := by
  unfold ofArgument
  split
  · next after hcolon => exact absurd hcolon (h after)
  · rfl

/-- An argument comes behind a colon. -/
theorem place_ofArgument (hne : argumentAfter rest ≠ []) (q : Position) :
    ∃ colon : Token, colon.kind = .colon ∧ Piece.place q (ofArgument rest) = colon ::
      Piece.place (q.advance (rest.take (rest.length - (argumentAfter rest).length)))
        (ofText (argumentAfter rest)) := by
  obtain ⟨after, heq, hargument⟩ := dropWhile_isGap_of_argumentAfter hne
  have hrest : rest = (rest.takeWhile isGap ++ ':' :: after.takeWhile isGap) ++
      after.dropWhile isGap := by
    rw [append_assoc, cons_append, takeWhile_append_dropWhile, ← heq, takeWhile_append_dropWhile]
  have htake : rest.take (rest.length - (after.dropWhile isGap).length) =
      rest.takeWhile isGap ++ ':' :: after.takeWhile isGap := by
    conv_lhs => rw [hrest]
    rw [length_append, Nat.add_sub_cancel, take_left]
  have hanchor : q.advance (rest.takeWhile isGap ++ ':' :: after.takeWhile isGap) =
      ((q.advance (rest.takeWhile isGap)).advance [':']).advance
        (after.takeWhile isGap) := by
    rw [Position.advance_advance, Position.advance_advance]
    rfl
  rw [hargument, htake, ofArgument_of_colon heq, hanchor]
  exact ⟨_, rfl, Piece.place_token (by decide) _ _ _⟩

/-- The line of a keyword up to its argument, and the argument. -/
theorem keywordLine?_split (hk : keywordLine? p line = some k) :
    ∃ xs, line.dropWhile isGap = '*' :: (k.name ++ (xs ++ k.argument)) ∧
      k.anchor = p.advance (line.takeWhile isGap ++ '*' :: (k.name ++ xs)) := by
  obtain ⟨rest, hbody, -, -, hargument, hanchor⟩ := keywordLine?_eq_some hk
  obtain ⟨xs, hxs⟩ := argumentAfter_suffix rest
  rw [← hargument] at hxs
  rw [← hxs] at hbody
  refine ⟨xs, hbody, ?_⟩
  have hline : line = line.takeWhile isGap ++ '*' :: (k.name ++ xs) ++ k.argument := by
    conv_lhs => rw [← takeWhile_append_dropWhile (p := isGap) (l := line), hbody]
    simp
  have hprefix : line.take (line.length - k.argument.length) =
      line.takeWhile isGap ++ '*' :: (k.name ++ xs) := by
    conv_lhs => rw [hline]
    rw [length_append, Nat.add_sub_cancel, take_left]
  rw [hanchor, hprefix]

theorem line_anchor (hk : keywordLine? p line = some k) : k.anchor.line = p.line := by
  obtain ⟨xs, -, hanchor⟩ := keywordLine?_split hk
  rw [hanchor]
  rfl

/-- The argument of a keyword is a part of its line. -/
theorem mem_of_mem_argument (hk : keywordLine? p line = some k) {d : Char} (hd : d ∈ k.argument) :
    d ∈ line := by
  obtain ⟨xs, hbody, -⟩ := keywordLine?_split hk
  refine (dropWhile_suffix isGap).subset ?_
  rw [hbody]
  simp [hd]

/-- The argument of a keyword stands behind the colon, up to the end of the line. -/
theorem Row.Holds.argument (h : r.Holds p line) (hk : keywordLine? p line = some k)
    (hne : k.argument ≠ []) :
    ∃ start name colon : Token, start.kind = .keywordStart ∧
      name.text = String.ofList k.name ∧ name.span = k.nameSpan ∧
      name.kind = (if k.isSub then .subKeyword else .keyword) ∧ colon.kind = .colon ∧
      r.tokens = start :: name :: colon ::
        (Piece.place k.anchor (ofText k.argument) ++ r.after) := by
  obtain ⟨rest, hbody, hargument, hfirst, hmore⟩ := h.keyword hk
  obtain ⟨-, -, -, hstart, -⟩ := keywordLine?_eq_some hk
  obtain ⟨xs, hsplit, hanchor⟩ := keywordLine?_split hk
  obtain rfl : rest = xs ++ k.argument := by
    rw [hbody] at hsplit
    exact append_cancel_left (cons.inj hsplit).2
  obtain ⟨colon, hcolon, hplace⟩ := place_ofArgument (hargument ▸ hne) k.nameSpan.stop
  rw [← hargument, length_append, Nat.add_sub_cancel, take_left] at hplace
  have hplaced : k.nameSpan.stop.advance xs = k.anchor := by
    rw [hanchor]
    show (k.nameStart.advance k.name).advance xs = _
    rw [hstart]
    simp
  refine ⟨r.first, ⟨if k.isSub then .subKeyword else .keyword, String.ofList k.name, k.nameSpan⟩,
    colon, ?_, rfl, rfl, rfl, hcolon, ?_⟩
  · rw [hfirst]
  · unfold Row.tokens
    rw [hmore, hplace, hplaced]
    rfl

theorem kind_head_ofText {cs : List Char} {q : Position} {t : Token}
    (h : t :: ts = Piece.place q (ofText cs)) :
    t.kind ∈ [.text, .interpolationStart, .invalid] := by
  have hcons : ∀ {kind text pieces}, t :: ts = Piece.place q (token kind text :: pieces) →
      t.kind = kind := by
    rintro kind text pieces ⟨⟩
    rfl
  rw [ofText.eq_def] at h
  split at h
  · cases h
  · split at h
    · split at h
      · simp [hcons h]
      · simp [hcons h]
    · simp [hcons h]

theorem not_isHeaderStart_ofText {cs : List Char} {q : Position} {t : Token}
    (h : t :: ts = Piece.place q (ofText cs)) : ¬ Parser.IsHeaderStart t.kind := by
  rintro (hkind | hkind | hkind) <;> exact absurd (hkind ▸ kind_head_ofText h) (by decide)

/-- Other lines do not begin as those of keywords do. -/
theorem Row.Holds.no_keyword (h : r.Holds p line) (hk : keywordLine? p line = none) :
    ¬ Parser.IsHeaderStart r.first.kind := by
  have hplace := h.place_body
  unfold keywordLine? at hk
  dsimp only at hk
  split at hk
  · cases hk
  · next hnot =>
    unfold ofContent at hplace
    split at hplace
    · rw [(cons.inj hplace).1]
      simp [Parser.IsHeaderStart]
    · rw [(cons.inj hplace).1]
      simp [Parser.IsHeaderStart]
    · next heq =>
      unfold ofKeywordLine at hplace
      dsimp only at hplace
      split at hplace
      · exact not_isHeaderStart_ofText hplace
      · next hname =>
        refine absurd ⟨?_, ?_⟩ hnot
        · rw [heq]
          rfl
        · simpa using hname
    · exact not_isHeaderStart_ofText hplace

theorem Row.Holds.exists_keyword (h : r.Holds p line) (hkind : Parser.IsHeaderStart r.first.kind) :
    ∃ k, keywordLine? p line = some k ∧ r.first.kind = .keywordStart := by
  obtain ⟨k, hk⟩ := Option.ne_none_iff_exists'.1 fun hnone => h.no_keyword hnone hkind
  obtain ⟨_, -, -, hfirst, -⟩ := h.keyword hk
  exact ⟨k, hk, by rw [hfirst]⟩

theorem Row.Holds.layout (h : r.Holds p line) : ∀ u ∈ r.after.head?, u.kind.isStructural := by
  obtain ⟨u, us, hafter, hkind, -⟩ := h.ending
  rw [hafter]
  rintro _ ⟨⟩
  exact hkind

theorem Row.Holds.keywordLine?_eq_none (h : r.Holds p line)
    (hkind : ¬ Parser.IsHeaderStart r.first.kind) :
    keywordLine? p line = none := by
  refine Option.eq_none_iff_forall_ne_some.2 fun k hk => hkind ?_
  obtain ⟨rest, -, -, hfirst, -⟩ := h.keyword hk
  rw [hfirst]
  exact .inl rfl

/-- Behind the mark of an expression stands the expression. -/
theorem Row.Holds.expression (h : r.Holds p line) (hkind : r.first.kind = .expressionStart) :
    ∃ q text, r.more = Piece.place q (ofExpression true text) := by
  have hplace := h.place_body
  unfold ofContent at hplace
  split at hplace
  · rw [(cons.inj hplace).1] at hkind
    cases hkind
  · exact ⟨_, _, (cons.inj hplace).2⟩
  · unfold ofKeywordLine at hplace
    dsimp only at hplace
    split at hplace
    · exact absurd (hkind ▸ kind_head_ofText hplace) (by decide)
    · rw [(cons.inj hplace).1] at hkind
      cases hkind
  · exact absurd (hkind ▸ kind_head_ofText hplace) (by decide)

end Keywords

end ScriptLint

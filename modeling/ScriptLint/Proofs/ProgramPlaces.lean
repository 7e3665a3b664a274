import ScriptLint.Proofs.ProgramWalk
import ScriptLint.Proofs.TokenPlaces

/-!
# Every place that a program names is canonical

The tokens of a source form a supply whose spans start at canonical positions and stop between two
characters.  What is read from the supply names only such spans.

**Reading again.**  The expressions in the braces of a string, and the arguments of some keywords,
are cut into tokens a second time.  Braces hold runs of the text.  An argument is put together from
tokens, with a space for every space or tab between them; since all of these are one byte wide, the
copy is a run of the text as well, and the tokens cut from it stand where they should.

**Result.** `places_canonical`: tokens, nodes, names and diagnostics.
-/

namespace ScriptLint

open List Text

open Position

variable {p : Position}

/-- The span starts at a canonical position and stops at or after it, inside the text and between
two characters. -/
structure Span.IsPlaced (cs : List Char) (s : Span) : Prop where
  start : s.start.IsCanonical cs
  start_le_stop : s.start.offset ≤ s.stop.offset
  stop_le : s.stop.offset ≤ byteLength cs
  stop : IsBoundary cs s.stop.offset

theorem Token.IsPlaced.span {cs : List Char} {t : Token} (h : t.IsPlaced cs) : t.span.IsPlaced cs :=
  ⟨h.start, h.start_le_stop, h.stop.le_byteLength, h.stop⟩

section Again

variable {cs : List Char}

theorem inline_of_mem_braceRegions {anchor : Position} {chars run : List Char}
    (h : Inline cs p chars) (hmem : (anchor, run) ∈ Parser.braceRegions p chars) :
    Inline cs anchor run := by
  fun_induction Parser.braceRegions p chars with
  | case1 => cases hmem
  | case2 => cases hmem
  | case3 p chars brace rest hdrop region after hsplit first ih =>
    have hchars := (Piece.eq_of_splitBraces hdrop hsplit).2
    rw [hchars] at h
    simp only [inline_append] at h
    obtain ⟨⟨⟨-, hregion⟩, -⟩, hafter⟩ := h
    rcases mem_cons.1 hmem with heq | hmem
    · obtain ⟨hanchor, hrun⟩ := Prod.mk.inj heq
      rw [hanchor, hrun]
      simpa [first] using hregion
    · refine ih ?_ hmem
      simpa [first] using hafter

theorem utf8Size_of_isGap {c : Char} (h : isGap c) : c.utf8Size = 1 := by
  rcases (by simpa [isGap] using h : c = ' ' ∨ c = '\t') with rfl | rfl <;> rfl

/-- A gap may be replaced by as many spaces. -/
theorem inline_spaces {gap : List Char} (hgap : ∀ c ∈ gap, isGap c) (h : Inline cs p gap) :
    (p.advance gap).offset = p.offset + gap.length ∧
    Inline cs p (replicate gap.length ' ') ∧
    p.advance (replicate gap.length ' ') = p.advance gap := by
  have hwidths : gap.map Char.utf8Size = (replicate gap.length ' ').map Char.utf8Size := by
    rw [map_replicate]
    refine eq_replicate_iff.2 ⟨length_map _, ?_⟩
    intro n hn
    obtain ⟨c, hc, rfl⟩ := mem_map.1 hn
    exact utf8Size_of_isGap (hgap c hc)
  have hbytes : byteLength gap = gap.length := by
    clear h hwidths
    induction gap with
    | nil => rfl
    | cons c gap ih =>
      rw [byteLength_cons, utf8Size_of_isGap (hgap c mem_cons_self),
        ih fun d hd => hgap d (mem_cons_of_mem c hd), length_cons, Nat.add_comm]
  refine ⟨?_, h.of_widths_eq hwidths ?_, (advance_eq_of_widths_eq hwidths).symm⟩
  · show p.offset + byteLength gap = p.offset + gap.length
    rw [hbytes]
  · intro c hc
    rw [eq_of_mem_replicate hc]
    rfl

/-- The source put together from the tokens of a line is a run of the text, up to the end of the
last one. -/
theorem inline_sourceOf {t : Token} {ts : List Token}
    (hts : ∀ u ∈ t :: ts, u.IsPlaced cs ∧ u.kind.isStructural = false)
    (hchain : (t :: ts).IsChain (Token.Adjoins cs))
    (hgap : ∃ gap : List Char, (∀ c ∈ gap, isGap c) ∧ Inline cs p gap ∧
      t.span.start = p.advance gap) :
    Inline cs p (Parser.sourceOf p.offset (t :: ts)) ∧
      p.advance (Parser.sourceOf p.offset (t :: ts)) = (ts.getLastD t).span.stop := by
  induction ts generalizing p t with
  | nil =>
    obtain ⟨gap, hgaps, hinline, hstart⟩ := hgap
    obtain ⟨hplaced, hkind⟩ := hts t mem_cons_self
    obtain ⟨hwidth, hspaces, hadvance⟩ := inline_spaces hgaps hinline
    rw [Parser.sourceOf, Parser.sourceOf, append_nil, hstart, hwidth, Nat.add_sub_cancel_left,
      inline_append, ← advance_advance, hadvance, ← hstart]
    exact ⟨⟨hspaces, hplaced.inline hkind⟩, (hplaced.stop_eq hkind).symm⟩
  | cons u rest ih =>
    obtain ⟨gap, hgaps, hinline, hstart⟩ := hgap
    obtain ⟨hplaced, hkind⟩ := hts t mem_cons_self
    obtain ⟨-, hkind'⟩ := hts u (by simp)
    obtain ⟨hwidth, hspaces, hadvance⟩ := inline_spaces hgaps hinline
    obtain ⟨hnext, hchain'⟩ := isChain_cons_cons.1 hchain
    obtain ⟨hrest, hlast⟩ := ih (p := t.span.stop) (fun v hv => hts v (mem_cons_of_mem t hv))
      hchain' (hnext hkind hkind')
    have hstop := hplaced.stop_eq hkind
    have hoffset : p.offset + gap.length + byteLength t.text.toList = t.span.stop.offset := by
      rw [hstop, ← hwidth, ← hstart]
      rfl
    have hread : p.advance (replicate gap.length ' ' ++ t.text.toList) = t.span.stop := by
      rw [← advance_advance, hadvance, ← hstart, ← hstop]
    rw [Parser.sourceOf, hstart, hwidth, Nat.add_sub_cancel_left, inline_append, inline_append]
    rw [← advance_advance p (_ ++ _), hread, hadvance, ← hstart, hoffset, getLastD_cons]
    exact ⟨⟨⟨hspaces, hplaced.inline hkind⟩, hrest⟩, hlast⟩

end Again

/-- The supply of a text: tokens, positions and spans that are placed in it. -/
def placedSupply (cs : List Char) : Supply where
  token := Token.IsPlaced cs
  next := Token.Adjoins cs
  start := IsCanonical cs
  stop p := IsBoundary cs p.offset
  span := Span.IsPlaced cs
  span_token h := h.span
  start_span h := h.start
  stop_span h := h.stop
  stop_start h := h.isBoundary
  span_between {p q} hp hq := by
    have hstop : IsBoundary cs (Span.between p q).stop.offset := by
      unfold Span.between
      split
      · exact hp.isBoundary
      · exact hq
    exact ⟨by rwa [Span.start_between], Span.start_le_stop_between p q, hstop.le_byteLength, hstop⟩
  start_stop_token h hkind := by
    rw [h.stop_eq hkind]
    exact (h.inline hkind).isCanonical_advance
  token_endAt h := Piece.isPlaced_point rfl h
  region {t anchor run} ht hkind hmem := by
    have hcontent : t.kind.isStructural = false := by
      rw [hkind]
      rfl
    have hrun := inline_of_mem_braceRegions (ht.inline hcontent) hmem
    have htokens := tokensPlaced_tokenizeExpression hrun
    exact ⟨hrun.isCanonical_advance, htokens.placed, htokens.chain⟩

instance (cs : List Char) : (placedSupply cs).Rereads where
  argument {t ts} hts hchain := by
    have hstart := (hts t mem_cons_self).1.start
    have hrun := (inline_sourceOf hts hchain ⟨[], by simp, inline_nil_iff.2 hstart, rfl⟩).1
    have htokens := tokensPlaced_tokenizeExpression hrun
    exact ⟨htokens.placed, htokens.chain⟩

/-- The start of a text is canonical. -/
theorem isCanonical_origin (cs : List Char) : Position.origin.IsCanonical cs := by
  cases hlines : lines cs with
  | nil =>
    have hcs := flatMap_full_lines cs
    rw [hlines] at hcs
    obtain rfl : [] = cs := hcs
    exact @isCanonical_end [] (by simp [lines])
  | cons line rest =>
    have hplace := @isCanonical_of_lines_eq cs line [] rest [] hlines nil_prefix
    simpa [columnChars, withoutMark, Position.origin] using hplace

theorem Piece.place_ofLines_last (levels : List Nat) (lines : List Line) (p : Position) :
    ∃ ts q, place p (ofLines levels lines) = ts ++ [Token.endAt q] := by
  induction lines generalizing levels p with
  | nil =>
    refine ⟨place p (dedents levels), last p (dedents levels), ?_⟩
    rw [ofLines, place_append]
    rfl
  | cons line lines ih =>
    obtain ⟨ts, q, hrest⟩ := ih (levelsAfter levels line.content)
      (last p (ofLineContent levels line.content ++ ofEnding line.ending))
    refine ⟨place p (ofLineContent levels line.content ++ ofEnding line.ending) ++ ts, q, ?_⟩
    rw [ofLines, place_append, hrest, append_assoc]

/-- The last token of a source is the end of the input. -/
theorem tokenize_last (source : String) : ∃ ts q, tokenize source = ts ++ [Token.endAt q] := by
  unfold tokenize Piece.ofSource
  split
  · exact Piece.place_ofLines_last [] _ _
  · exact Piece.place_ofLines_last [] _ _

/-- The tokens of a source are of its supply. -/
theorem supplied_tokenize (source : String) :
    ∃ q, ((tokenize source).getLast?.map (·.span.stop)).getD Position.origin = q ∧
      q.IsCanonical source.toList ∧
      (Cursor.start (tokenize source) q).Supplied (placedSupply source.toList) := by
  obtain ⟨ts, q, hlast⟩ := tokenize_last source
  have htokens := tokensPlaced_tokenize source
  have hend : q.IsCanonical source.toList := by
    have hmem : Token.endAt q ∈ tokenize source := by
      rw [hlast]
      simp
    exact (htokens.placed _ hmem).start
  refine ⟨q, ?_, hend, Cursor.supplied_start htokens.placed htokens.chain hend⟩
  rw [hlast, getLast?_concat]
  rfl

/-- Nodes and diagnostics of a program are of the supply of its source. -/
theorem isSupplied_parse (source : String) :
    (∀ node ∈ (parse source).program.nodes, node.IsSupplied (placedSupply source.toList)) ∧
    ∀ d ∈ (parse source).diagnostics, d.span.IsPlaced source.toList := by
  obtain ⟨q, hstop, hend, hstart⟩ := supplied_tokenize source
  obtain ⟨_, hreached, hchain⟩ :=
    (Parser.supplyWalk (placedSupply source.toList)).reaches_programBody
    (n := ()) ⟨hstart, by simp [Cursor.start]⟩
  have hbody := forall_mem_map.1 (hchain.forall_mem id)
  rw [parse, parseTokens_eq hstop]
  constructor
  · intro node hnode
    rcases mem_cons.1 hnode with rfl | hnode
    · refine ⟨?_, trivial⟩
      exact (placedSupply source.toList).span_between (isCanonical_origin _) hend.isBoundary
    · exact Statement.isSupplied_of_mem_nodesOfList hbody node hnode
  · intro d hd
    exact hreached.reported d (mem_reverse.1 hd)

/-- **Positions are canonical.**  The tokens of a source, the nodes of its program with the names
and runs of text in them, and its diagnostics all start at canonical positions of the source, and
stop at or after their start, inside the source and between two characters. -/
theorem places_canonical (source : String) :
    (∀ t ∈ tokenize source, t.span.IsPlaced source.toList) ∧
    (∀ node ∈ (parse source).program.nodes,
      node.span.IsPlaced source.toList ∧ ∀ span ∈ node.labels, span.IsPlaced source.toList) ∧
    ∀ d ∈ (parse source).diagnostics, d.span.IsPlaced source.toList := by
  obtain ⟨hnodes, hdiagnostics⟩ := isSupplied_parse source
  refine ⟨?_, ?_, hdiagnostics⟩
  · intro t ht
    exact ((tokensPlaced_tokenize source).placed t ht).span
  · intro node hnode
    exact ⟨(hnodes node hnode).span, (hnodes node hnode).labels⟩

end ScriptLint

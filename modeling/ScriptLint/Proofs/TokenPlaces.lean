import ScriptLint.Proofs.CanonicalPosition
import ScriptLint.Proofs.TokenCover
import Mathlib.Data.List.Chain

/-!
# Where tokens stand

The tokens of a source stand at canonical positions.  A token of content can be read character by
character from its start, and the next token of content on the line follows it after spaces and
tabs only.

**Invariant.**  `LaidOut text p lines` says that from `p` on the text is made of the given lines:
each content is a run on its line, and the next line starts behind the ending.  One line of the
tokenizer preserves it, so it holds along the whole source.

**Results.**
* `laidOut_lines`, `laidOut_lines_of_mark`: the lines of a text are laid out in the text.
* `tokensPlaced_tokenize`: the tokens of a source are placed in the source.
* `tokensPlaced_tokenizeExpression`: so are the tokens of an expression read from a run.
-/

namespace ScriptLint

open List Text Position

open Text (Line)
open Position (Inline IsBoundary IsCanonical)

variable {content run cs : List Char} {after : List Line} {levels : List Nat} {t : Token}

/-- The token stands at a canonical position; as content it can be read from there. -/
structure Token.IsPlaced (cs : List Char) (t : Token) : Prop where
  start : t.span.start.IsCanonical cs
  stop : IsBoundary cs t.span.stop.offset
  start_le_stop : t.span.start.offset ≤ t.span.stop.offset
  inline : t.kind.isStructural = false → Inline cs t.span.start t.text.toList
  stop_eq : t.kind.isStructural = false → t.span.stop = t.span.start.advance t.text.toList

/-- Between two tokens of content there are only spaces and tabs. -/
def Token.Adjoins (cs : List Char) (t u : Token) : Prop :=
  t.kind.isStructural = false → u.kind.isStructural = false →
    ∃ gap : List Char, (∀ c ∈ gap, isGap c) ∧ Inline cs t.span.stop gap ∧
      u.span.start = t.span.stop.advance gap

/-- The tokens stand in the text, each next to the one before it. -/
structure TokensPlaced (cs : List Char) (ts : List Token) : Prop where
  placed : ∀ t ∈ ts, t.IsPlaced cs
  chain : ts.IsChain (Token.Adjoins cs)

section Joining

variable {ts us : List Token}

theorem Token.adjoins_of_structural_left {u : Token} (h : t.kind.isStructural = true) :
    t.Adjoins cs u := by
  intro ht
  rw [h] at ht
  cases ht

theorem Token.adjoins_of_structural_right {u : Token} (h : u.kind.isStructural = true) :
    t.Adjoins cs u := by
  intro _ hu
  rw [h] at hu
  cases hu

theorem TokensPlaced.nil : TokensPlaced cs [] :=
  ⟨by simp, .nil⟩

theorem TokensPlaced.singleton (h : t.IsPlaced cs) : TokensPlaced cs [t] :=
  ⟨by simpa using h, .singleton t⟩

theorem TokensPlaced.append (ht : TokensPlaced cs ts) (hu : TokensPlaced cs us)
    (hjoin : ∀ t ∈ ts.getLast?, ∀ u ∈ us.head?, t.Adjoins cs u) : TokensPlaced cs (ts ++ us) := by
  refine ⟨?_, isChain_append.2 ⟨ht.chain, hu.chain, hjoin⟩⟩
  intro t hmem
  rcases mem_append.1 hmem with hmem | hmem
  · exact ht.placed t hmem
  · exact hu.placed t hmem

/-- Layout joins with anything behind it. -/
theorem TokensPlaced.append_of_structural_left (ht : TokensPlaced cs ts)
    (hu : TokensPlaced cs us) (hlayout : ∀ t ∈ ts, t.kind.isStructural) :
    TokensPlaced cs (ts ++ us) := by
  refine ht.append hu ?_
  intro t hlast u _
  exact Token.adjoins_of_structural_left (hlayout t (mem_of_getLast? hlast))

/-- Layout joins with anything before it. -/
theorem TokensPlaced.append_of_structural_right (ht : TokensPlaced cs ts)
    (hu : TokensPlaced cs us) (hlayout : ∀ u ∈ us, u.kind.isStructural) :
    TokensPlaced cs (ts ++ us) := by
  refine ht.append hu ?_
  intro t _ u hhead
  exact Token.adjoins_of_structural_right (hlayout u (mem_of_head? hhead))

theorem TokensPlaced.of_structural (hplaced : ∀ t ∈ ts, t.IsPlaced cs)
    (hlayout : ∀ t ∈ ts, t.kind.isStructural) : TokensPlaced cs ts := by
  refine ⟨hplaced, ?_⟩
  induction ts with
  | nil => exact .nil
  | cons t ts ih =>
    refine isChain_cons.2 ⟨?_, ih ?_ ?_⟩
    · intro u _
      exact Token.adjoins_of_structural_left (hlayout t mem_cons_self)
    · exact fun u hu => hplaced u (mem_cons_of_mem t hu)
    · exact fun u hu => hlayout u (mem_cons_of_mem t hu)

end Joining

namespace Piece

variable {p : Position}

theorem next_eq_advance {piece : Piece} (h : piece.isInline) :
    next p piece = p.advance piece.text := by
  cases piece with
  | mark => cases h
  | gap text => rfl
  | token kind text =>
    simp [next, ne_newline_of_isInline h]

theorem last_eq_advance {pieces : List Piece} (h : ∀ piece ∈ pieces, piece.isInline) :
    last p pieces = p.advance (join pieces) := by
  induction pieces generalizing p with
  | nil => rfl
  | cons piece pieces ih =>
    rw [last, next_eq_advance (h piece mem_cons_self),
      ih (fun q hq => h q (mem_cons_of_mem piece hq)), advance_advance, join_cons]

theorem isPlaced_token {kind : Token.Kind} {text : List Char} (hkind : kind ≠ .newline)
    (h : Inline cs p text) :
    Token.IsPlaced cs ⟨kind, String.ofList text, ⟨p, stop p kind text⟩⟩ := by
  have hstop : stop p kind text = p.advance text := by simp [stop, hkind]
  rw [hstop]
  refine ⟨h.isCanonical, h.isCanonical_advance.isBoundary, ?_, ?_, ?_⟩
  · exact Nat.le_add_right _ _
  · intro _
    simpa using h
  · simp

/-- Inside a line the tokens are placed, and only spaces and tabs stand before the first. -/
theorem tokensPlaced_of_isInline {pieces : List Piece}
    (hpieces : ∀ piece ∈ pieces, piece.isInline) (h : Inline cs p (join pieces)) :
    TokensPlaced cs (place p pieces) ∧
    ∀ u ∈ (place p pieces).head?,
      ∃ gap : List Char, (∀ c ∈ gap, isGap c) ∧ Inline cs p gap ∧
        u.span.start = p.advance gap := by
  induction pieces generalizing p with
  | nil => exact ⟨.nil, by simp [place]⟩
  | cons piece pieces ih =>
    have hpiece := hpieces piece mem_cons_self
    rw [join_cons, inline_append, ← next_eq_advance hpiece] at h
    obtain ⟨hplaced, hfirst⟩ := ih (fun q hq => hpieces q (mem_cons_of_mem piece hq)) h.2
    rw [next_eq_advance hpiece] at hplaced hfirst
    cases piece with
    | mark => cases hpiece
    | gap text =>
      refine ⟨hplaced, ?_⟩
      intro u hu
      obtain ⟨gap, hgap, hinline, hstart⟩ := hfirst u hu
      refine ⟨text ++ gap, ?_, ?_, ?_⟩
      · intro c hc
        rcases mem_append.1 hc with hc | hc
        · exact all_eq_true.1 hpiece c hc
        · exact hgap c hc
      · exact inline_append.2 ⟨h.1, hinline⟩
      · rw [hstart, advance_advance]
        rfl
    | token kind text =>
      have hkind := ne_newline_of_isInline hpiece
      have hnext : next p (token kind text) = p.advance text := next_eq_advance hpiece
      have hstop : stop p kind text = p.advance text := by simp [stop, hkind]
      have htoken : Token.IsPlaced cs ⟨kind, String.ofList text, ⟨p, stop p kind text⟩⟩ :=
        isPlaced_token hkind h.1
      refine ⟨?_, ?_⟩
      · rw [place, hnext]
        refine (TokensPlaced.singleton htoken).append hplaced ?_
        intro t ht u hu _ _
        obtain rfl := mem_singleton.1 (mem_of_getLast? ht)
        rw [hstop]
        exact hfirst u hu
      · intro u hu
        obtain rfl := Option.some.inj hu
        exact ⟨[], by simp, inline_nil_iff.2 h.1.isCanonical, rfl⟩

theorem place_dedents (levels : List Nat) :
    place p (dedents levels) =
      replicate levels.length ⟨.dedent, "", Span.point p⟩ := by
  induction levels with
  | nil => rfl
  | cons level levels ih =>
    rw [length_cons, replicate_succ, ← ih]
    rfl

theorem isStructural_of_mem_dedents
    (h : t ∈ place p (dedents levels)) : t.kind.isStructural := by
  rw [place_dedents] at h
  rw [eq_of_mem_replicate h]
  rfl

theorem last_dedents (levels : List Nat) : last p (dedents levels) = p := by
  induction levels with
  | nil => rfl
  | cons level levels ih => exact ih

theorem isPlaced_point {kind : Token.Kind} (hkind : kind.isStructural)
    (h : p.IsCanonical cs) : Token.IsPlaced cs ⟨kind, "", Span.point p⟩ := by
  refine ⟨h, h.isBoundary, Nat.le_refl _, ?_, ?_⟩
  · intro hkind'
    rw [hkind] at hkind'
    cases hkind'
  · intro _
    rfl

theorem tokensPlaced_dedents (levels : List Nat) (h : p.IsCanonical cs) :
    TokensPlaced cs (place p (dedents levels)) := by
  refine .of_structural ?_ fun t ht => isStructural_of_mem_dedents ht
  intro t ht
  rw [place_dedents] at ht
  obtain rfl := eq_of_mem_replicate ht
  exact isPlaced_point rfl h

theorem last_ofIndentation (levels : List Nat) (tabs : Nat) :
    last p (ofIndentation levels tabs) = p.advance (replicate tabs '\t') := by
  unfold ofIndentation
  rw [last_append, last_dedents]
  split <;> rfl

theorem kind_of_mem_ofIndentation {tabs : Nat} (h : t ∈ place p (ofIndentation levels tabs)) :
    t.kind = .indent ∨ t.kind = .dedent := by
  obtain ⟨_, hmem, -⟩ := exists_piece_of_mem_place h
  simp only [ofIndentation, dedents, mem_append, mem_map, mem_singleton] at hmem
  rcases hmem with ⟨_, _, heq⟩ | heq
  · exact .inr (token.inj heq).1.symm
  · split at heq
    · exact .inl (token.inj heq).1
    · cases heq

theorem isStructural_of_mem_ofIndentation {tabs : Nat}
    (h : t ∈ place p (ofIndentation levels tabs)) : t.kind.isStructural := by
  rcases kind_of_mem_ofIndentation h with h | h <;> rw [h] <;> rfl

theorem tokensPlaced_ofIndentation (levels : List Nat) (tabs : Nat)
    (h : Inline cs p (replicate tabs '\t')) :
    TokensPlaced cs (place p (ofIndentation levels tabs)) := by
  unfold ofIndentation
  rw [place_append, last_dedents]
  have hdedents := tokensPlaced_dedents (levels.takeWhile (tabs < ·)) h.isCanonical
  refine hdedents.append_of_structural_left ?_ ?_
  · split
    · exact .singleton (isPlaced_token (by decide) h)
    · exact .nil
  · exact fun t ht => isStructural_of_mem_dedents ht

/-- **One line of the tokenizer.** -/
theorem tokensPlaced_ofLineContent (levels : List Nat) (h : Inline cs p content) :
    TokensPlaced cs (place p (ofLineContent levels content)) ∧
    last p (ofLineContent levels content) = p.advance content := by
  unfold ofLineContent
  split
  · exact ⟨.nil, rfl⟩
  · have hcontent := replicate_tab_append_drop content
    have hinline := h
    rw [← hcontent, inline_append] at hinline
    have hpieces : ∀ piece ∈
        gap ((content.drop (tabCount content)).takeWhile isGap) ::
          ofContent (0 < tabCount content)
            ((content.drop (tabCount content)).dropWhile isGap), piece.isInline := by
      intro piece hpiece
      rcases mem_cons.1 hpiece with rfl | hpiece
      · exact isInline_gap_takeWhile _
      · exact isInline_of_mem_ofContent hpiece
    have hindentation := tokensPlaced_ofIndentation levels (tabCount content) hinline.1
    have hrest := (tokensPlaced_of_isInline hpieces (by simpa using hinline.2)).1
    refine ⟨?_, ?_⟩
    · rw [place_append, last_ofIndentation]
      exact hindentation.append_of_structural_left hrest
        fun t ht => isStructural_of_mem_ofIndentation ht
    · rw [last_append, last_ofIndentation, last_eq_advance hpieces]
      simpa using congrArg p.advance hcontent

/-- From the position on, the text is made of the given lines. -/
def LaidOut (cs : List Char) : Position → List Line → Prop
  | p, [] => p.IsCanonical cs
  | p, line :: rest =>
    Inline cs p line.content ∧
    IsBoundary cs (p.offset + byteLength line.full) ∧
    (line.ending = [] → rest = []) ∧
    LaidOut cs (last (p.advance line.content) (ofEnding line.ending)) rest

theorem LaidOut.isCanonical {lines : List Line} (h : LaidOut cs p lines) : p.IsCanonical cs := by
  cases lines with
  | nil => exact h
  | cons line rest => exact h.1.isCanonical

theorem kind_of_mem_ofLines_nil (h : t ∈ place p (ofLines levels [])) :
    t.kind = .dedent ∨ t.kind = .endOfInput := by
  rw [ofLines, place_append, place_dedents] at h
  rcases mem_append.1 h with h | h
  · rw [eq_of_mem_replicate h]
    exact .inl rfl
  · rw [mem_singleton.1 h]
    exact .inr rfl

theorem isStructural_of_mem_ofLines_nil
    (h : t ∈ place p (ofLines levels [])) : t.kind.isStructural := by
  rcases kind_of_mem_ofLines_nil h with h | h <;> rw [h] <;> rfl

theorem tokensPlaced_ofLines_nil (levels : List Nat) (h : p.IsCanonical cs) :
    TokensPlaced cs (place p (ofLines levels [])) := by
  rw [ofLines, place_append, last_dedents]
  exact (tokensPlaced_dedents levels h).append_of_structural_left
    (.singleton (isPlaced_point rfl h)) fun t ht => isStructural_of_mem_dedents ht

theorem isPlaced_newline {ending : List Char} (h : Inline cs p content)
    (hstop : IsBoundary cs (p.offset + byteLength (content ++ ending))) :
    Token.IsPlaced cs
      ⟨.newline, String.ofList ending,
        ⟨p.advance content, stop (p.advance content) .newline ending⟩⟩ := by
  have hoffset : (stop (p.advance content) .newline ending).offset =
      p.offset + byteLength (content ++ ending) := by
    simp [stop, advance, Nat.add_assoc]
  refine ⟨h.isCanonical_advance, ?_, ?_, ?_, ?_⟩
  · rw [hoffset]
    exact hstop
  · rw [hoffset, byteLength_append]
    simp only [advance]
    omega
  · intro hkind
    cases hkind
  · intro hkind
    cases hkind

/-- **All lines of the tokenizer**, by induction on the lines. -/
theorem tokensPlaced_ofLines (levels : List Nat) {lines : List Line}
    (h : LaidOut cs p lines) : TokensPlaced cs (place p (ofLines levels lines)) := by
  induction lines generalizing p levels with
  | nil => exact tokensPlaced_ofLines_nil levels h
  | cons line lines ih =>
    obtain ⟨hinline, hboundary, hlast, hrest⟩ := h
    obtain ⟨hplaced, hend⟩ := tokensPlaced_ofLineContent levels hinline
    rw [ofLines, place_append, place_append, last_append, hend]
    have hlines := ih (levelsAfter levels line.content) hrest
    cases hending : line.ending with
    | nil =>
      obtain rfl := hlast hending
      rw [hending] at hlines
      rw [show ofEnding [] = [] from rfl, place, append_nil]
      exact hplaced.append_of_structural_right hlines
        fun t ht => isStructural_of_mem_ofLines_nil ht
    | cons c ending =>
      rw [Line.full, hending] at hboundary
      rw [hending] at hlines
      have hnewline : TokensPlaced cs (place (p.advance line.content) (ofEnding (c :: ending))) :=
        .singleton (isPlaced_newline hinline hboundary)
      rw [append_assoc]
      refine hplaced.append (hnewline.append_of_structural_left hlines ?_) ?_
      · intro t ht
        obtain rfl := mem_singleton.1 ht
        rfl
      · intro t _ u hu
        obtain rfl := Option.some.inj hu
        exact Token.adjoins_of_structural_right rfl

/-- The content of a line is a run, also behind a mark `m` that takes no column. -/
theorem inline_of_lines_eq {before : List Line} {line : Line} {m : List Char}
    (h : lines cs = before ++ line :: after) (hcontent : line.content = m ++ content)
    (hcolumns : ∀ head, head <+: content →
      (columnChars before.length (m ++ head)).length = head.length) :
    Inline cs ⟨before.length + 1, 1, byteLength (before.flatMap Line.full ++ m)⟩ content := by
  refine ⟨?_, ?_⟩
  · intro c hc
    have hline : line ∈ lines cs := by
      rw [h]
      simp
    refine (isLineEnd_of_mem_lines hline).1 c ?_
    rw [hcontent]
    exact mem_append_right m hc
  · intro head hhead
    have hprefix : m ++ head <+: line.content := by
      rw [hcontent]
      exact (prefix_append_right_inj m).2 hhead
    have hcanonical := isCanonical_of_lines_eq h hprefix
    rw [hcolumns head hhead] at hcanonical
    simpa [advance, Nat.add_assoc] using hcanonical

theorem laidOut_cons (before : List Line) (line : Line) (m content : List Char)
    (h : lines cs = before ++ line :: after) (hcontent : line.content = m ++ content)
    (hcolumns : ∀ head, head <+: content →
      (columnChars before.length (m ++ head)).length = head.length)
    (hafter : line.ending ≠ [] →
      LaidOut cs
        ⟨before.length + 2, 1, byteLength ((before ++ [line]).flatMap Line.full)⟩ after) :
    LaidOut cs ⟨before.length + 1, 1, byteLength (before.flatMap Line.full ++ m)⟩
      (⟨content, line.ending⟩ :: after) := by
  have hinline := inline_of_lines_eq h hcontent hcolumns
  have hbytes : byteLength (before.flatMap Line.full ++ m) +
      byteLength (content ++ line.ending) =
        byteLength ((before ++ [line]).flatMap Line.full) := by
    simp [Line.full, hcontent, Nat.add_assoc]
  refine ⟨hinline, ?_, ?_, ?_⟩
  · refine ⟨(before ++ [line]).flatMap Line.full, after.flatMap Line.full, ?_, hbytes⟩
    have hjoin := flatMap_full_lines cs
    rw [h] at hjoin
    rw [← hjoin]
    simp
  · exact fun hending => after_eq_nil_of_lines_eq h hending
  · cases hending : line.ending with
    | nil =>
      obtain rfl := after_eq_nil_of_lines_eq h hending
      exact hinline.isCanonical_advance
    | cons c ending =>
      have hnext : last
          (advance
            ⟨before.length + 1, 1, byteLength (before.flatMap Line.full ++ m)⟩ content)
          (ofEnding (c :: ending)) =
            ⟨before.length + 2, 1, byteLength ((before ++ [line]).flatMap Line.full)⟩ := by
        rw [← hbytes, hending]
        simp [ofEnding, last, next, advance, Nat.add_assoc]
      rw [hnext]
      exact hafter (by simp [hending])

/-- The lines after the first are laid out where the lines before them end. -/
theorem laidOut_of_lines_eq (before : List Line) (h : lines cs = before ++ after)
    (hbefore : before ≠ []) (hended : ∀ line ∈ before, line.ending ≠ []) :
    LaidOut cs ⟨before.length + 1, 1, byteLength (before.flatMap Line.full)⟩ after := by
  induction after generalizing before with
  | nil =>
    rw [append_nil] at h
    have hend : IsCanonical cs ⟨_, _, _⟩ :=
      isCanonical_end (by rw [h]; exact hended)
    have hjoin := flatMap_full_lines cs
    rw [h] at hend hjoin
    rw [hjoin]
    exact hend
  | cons line after ih =>
    have hlength : before.length ≠ 0 := by
      intro hzero
      exact hbefore (length_eq_zero_iff.1 hzero)
    have hafter : line.ending ≠ [] →
        LaidOut cs
          ⟨before.length + 2, 1, byteLength ((before ++ [line]).flatMap Line.full)⟩
          after := by
      intro hending
      have hended' : ∀ l ∈ before ++ [line], l.ending ≠ [] := by
        intro l hl
        rcases mem_append.1 hl with hl | hl
        · exact hended l hl
        · obtain rfl := mem_singleton.1 hl
          exact hending
      have hrest := ih (before ++ [line]) (by simpa using h) (by simp) hended'
      simpa using hrest
    have hline := laidOut_cons before line [] line.content h rfl
      (fun head _ => by simp [columnChars, hlength]) hafter
    simpa using hline

/-- The lines of a text are laid out from its start, if no mark stands there. -/
theorem laidOut_lines (hmark : cs.head? ≠ some byteOrderMark) :
    LaidOut cs origin (lines cs) := by
  have hjoin := flatMap_full_lines cs
  cases hlines : lines cs with
  | nil =>
    rw [hlines] at hjoin
    obtain rfl : [] = cs := hjoin
    exact isCanonical_end (by simp [lines])
  | cons line after =>
    refine laidOut_cons [] line [] line.content hlines rfl ?_ ?_
    · intro head hhead
      have hhead' : head.head? ≠ some byteOrderMark := by
        intro hfirst
        obtain ⟨rest, rfl⟩ := head?_eq_some_iff.1 hfirst
        obtain ⟨tail, htail⟩ := hhead
        rw [hlines] at hjoin
        apply hmark
        rw [← hjoin, flatMap_cons, Line.full, ← htail]
        rfl
      cases head with
      | nil => rfl
      | cons c head =>
        have hc : c ≠ byteOrderMark := by simpa using hhead'
        simp [columnChars, withoutMark, hc]
    · intro hending
      exact laidOut_of_lines_eq [line] hlines (by simp) (by simpa using hending)

theorem lines_mark_cons (rest : List Char) :
    lines (byteOrderMark :: rest) =
      consToFirst byteOrderMark (lines rest) := by
  rw [lines]
  · rfl
  · intro _ hmark
    cases hmark

/-- Behind a mark the lines are laid out from the first column. -/
theorem laidOut_lines_of_mark (rest : List Char) :
    LaidOut (byteOrderMark :: rest) (next origin mark) (lines rest) := by
  have hlines := lines_mark_cons rest
  cases hrest : lines rest with
  | nil =>
    rw [hrest] at hlines
    have hline := laidOut_cons [] ⟨[byteOrderMark], []⟩ [byteOrderMark] [] hlines rfl
      (by intro head hhead; rfl)
      (fun hending => absurd rfl hending)
    exact hline.isCanonical
  | cons line after =>
    rw [hrest] at hlines
    have hafter := fun hending : line.ending ≠ [] =>
      laidOut_of_lines_eq [⟨byteOrderMark :: line.content, line.ending⟩] hlines
        (by simp) (by simpa using hending)
    have hline := laidOut_cons [] ⟨byteOrderMark :: line.content, line.ending⟩
      [byteOrderMark] line.content hlines rfl (fun head _ => rfl) hafter
    exact hline

theorem lines_of_inline (hne : run ≠ []) (hrun : OneLine run) : lines run = [⟨run, []⟩] := by
  induction run with
  | nil => exact absurd rfl hne
  | cons c run ih =>
    have hc := hrun c mem_cons_self
    have hlines : lines (c :: run) = consToFirst c (lines run) := by
      rw [lines]
      · simp [hc]
      · rintro rest rfl
        cases hc
    rw [hlines]
    cases run with
    | nil => rfl
    | cons d run =>
      rw [ih (by simp) (fun e he => hrun e (mem_cons_of_mem c he))]
      rfl

theorem kind_mem_of_mem_place {comments : Bool} (h : t ∈ place p (ofExpression comments run)) :
    t.kind ∈ expressionKinds := by
  obtain ⟨_, hmem, -⟩ := exists_piece_of_mem_place h
  exact kind_mem_of_mem_ofExpression hmem

theorem isContent_of_mem_place_ofExpression {comments : Bool}
    (h : t ∈ place p (ofExpression comments run)) : t.isContent := by
  have hkind := kind_mem_of_mem_place h
  revert hkind
  simp only [Token.isContent]
  cases t.kind <;> decide

/-- From a run without line ends, an expression is cut as one line. -/
theorem tokenizeExpression_of_inline {anchor : Position} (hrun : OneLine run) :
    tokenizeExpression (String.ofList run) anchor =
      place anchor (ofExpression true run) := by
  unfold tokenizeExpression ofExpressionText
  rw [String.toList_ofList]
  by_cases hne : run = []
  · subst hne
    simp [lines, ofExpression, place]
  · rw [lines_of_inline hne hrun]
    have hcontent : (place anchor (ofExpression true run)).filter Token.isContent =
        place anchor (ofExpression true run) :=
      filter_eq_self.2 fun t ht => isContent_of_mem_place_ofExpression ht
    simp [ofEnding, ofLines, dedents, place_append, hcontent, place, Token.isContent,
      Token.Kind.isStructural]

end Piece

/-- The tokens of a source are placed in the source. -/
theorem tokensPlaced_tokenize (source : String) : TokensPlaced source.toList (tokenize source) := by
  unfold tokenize Piece.ofSource
  split
  · next hmark =>
    obtain ⟨rest, hrest⟩ := head?_eq_some_iff.1 hmark
    rw [hrest]
    exact Piece.tokensPlaced_ofLines [] (Piece.laidOut_lines_of_mark rest)
  · next hmark => exact Piece.tokensPlaced_ofLines [] (Piece.laidOut_lines hmark)

/-- The tokens of an expression are placed in the text in which its characters are a run. -/
theorem tokensPlaced_tokenizeExpression {cs : List Char} {anchor : Position}
    (h : Inline cs anchor run) :
    TokensPlaced cs (tokenizeExpression (String.ofList run) anchor) := by
  rw [Piece.tokenizeExpression_of_inline h.1]
  have hpieces : ∀ piece ∈ Piece.ofExpression true run, piece.isInline :=
    fun _ => Piece.isInline_of_mem_ofExpression
  exact (Piece.tokensPlaced_of_isInline hpieces (by simpa using h)).1

end ScriptLint

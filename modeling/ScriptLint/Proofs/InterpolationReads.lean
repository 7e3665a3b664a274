import ScriptLint.Proofs.LineSwap
import ScriptLint.Proofs.LineDerivation

/-!
# The same expression in a text and in a string

Between the braces of a text an expression is read in place.  Between the braces of a string it is
cut anew, as if it were the expression of a line, and read with one level less.  The two readings
give the same tree, unless two hyphens side by side begin a comment in the string, or all levels are
used up.

**Results.**
* `ofSource_line`: the pieces of a source with one line.
* `programBody_text`, `programBody_expression`: programs with one statement.
* `standalone_of_fits`: when the levels are enough for the brackets of an expression.
* `interpolation_inString`: an expression means the same in a text and in a string.
-/

namespace ScriptLint

open List Text Expression

open Piece ScriptLint.Parser

variable {x : Expression} {n : Nat} {q : Position}

namespace Piece

variable {u : List Char} {c : Char}

theorem isQuote_of_kind_string (rest : List Char) (h : (tokenShape c rest).1 = .string) :
    isQuote c := by
  unfold tokenShape at h
  split at h
  · cases h
  split at h
  · assumption
  split at h
  · dsimp only at h
    split at h <;> cases h
  split at h
  · cases h
  split at h
  · cases h
  split at h <;> cases h

/-- Strings need quotes. -/
theorem exists_isQuote_of_string {cs : List Char}
    (h : token .string cs ∈ ofExpression false u) : ∃ c ∈ u, isQuote c := by
  rcases mem_ofExpression h with ⟨_, _, ⟨⟩⟩ | ⟨⟨⟩, _⟩ | ⟨c, rest, hrest, h⟩
  exact ⟨c, hrest.subset mem_cons_self, isQuote_of_kind_string rest (token.inj h).1.symm⟩

/-- Without two hyphens side by side there are no comments, wherever they are allowed. -/
theorem ofExpression_comments (h : ¬['-', '-'] <:+: u) :
    ofExpression true u = ofExpression false u := by
  fun_induction ofExpression false u with
  | case1 => rw [ofExpression]
  | case2 c rest hgap ih =>
    rw [ofExpression, if_pos hgap, ih fun hpart => h (hpart.trans (suffix_cons ..).isInfix)]
  | case3 c rest hgap hcomment => cases hcomment
  | case4 c rest hgap hcomment shape ih =>
    have hno : ¬(true && c == '-' && rest.head? == some '-') = true := by
      simp only [Bool.and_eq_true, beq_iff_eq, not_and]
      rintro ⟨-, rfl⟩ hhead
      obtain ⟨rest, rfl⟩ := head?_eq_some_iff.1 hhead
      exact h ⟨[], rest, rfl⟩
    rw [ofExpression, if_neg hgap, if_neg hno]
    refine congrArg _ (ih fun hpart => h (hpart.trans ?_))
    exact ((drop_suffix ..).trans (suffix_cons ..)).isInfix

theorem isWordChar_of_isDigit (h : c.isDigit) : isWordChar c := by
  have hlow : c.toNat < 0x80 := by
    have hbounds : 48 ≤ c.toNat ∧ c.toNat ≤ 57 := by
      simp only [Char.isDigit, Bool.and_eq_true, decide_eq_true_eq] at h
      exact h
    omega
  simp [isWordChar, isAlphanumeric, isNumeral_of_lt c hlow, h]

/-- No token begins with white space. -/
theorem tokenShape_of_isBlank (hblank : isBlank c) (rest : List Char) :
    (tokenShape c rest).1 = .invalid := by
  have hno : ∀ p : Char → Bool, (∀ d, p d → isBlank d = false) → p c = false := by
    intro p hp
    refine Bool.eq_false_iff.2 fun hc => ?_
    rw [hp c hc] at hblank
    cases hblank
  have hmem : ∀ marks : List Char, (marks.all fun d => !isBlank d) → marks.contains c = false := by
    intro marks hmarks
    refine hno marks.contains fun d hd => ?_
    have hmark := all_eq_true.1 hmarks d (by simpa using hd)
    simpa using hmark
  have hdigit := hno Char.isDigit fun d hd => isBlank_of_isWordChar (isWordChar_of_isDigit hd)
  have hstart := hno isWordStart fun d hd => isBlank_of_isWordChar (isWordChar_of_isWordStart d hd)
  have hquote := hno isQuote (by simp [isQuote, isBlank])
  have hpair : rest.head?.any (isOperatorPair c) = false := by
    cases rest with
    | nil => rfl
    | cons e rest =>
      refine hno (isOperatorPair · e) fun d hd => ?_
      simp only [isOperatorPair, Bool.or_eq_true, Bool.and_eq_true, beq_iff_eq] at hd
      rcases hd with (⟨rfl | rfl, -⟩ | ⟨rfl, -⟩) | ⟨rfl, -⟩ <;> rfl
  have hoperator : isOperatorChar c = false := hmem _ (by decide)
  have hmark : isPunctuationChar c = false := hmem _ (by decide)
  simp [tokenShape, hdigit, hquote, hstart, hpair, hoperator, hmark]

theorem kind_of_allBlank (h : allBlank u) {kind : Token.Kind} {cs : List Char}
    (hmem : token kind cs ∈ ofExpression false u) : kind = .invalid := by
  rcases mem_ofExpression hmem with ⟨_, _, ⟨⟩⟩ | ⟨⟨⟩, _⟩ | ⟨c, rest, hrest, heq⟩
  rw [(token.inj heq).1]
  exact tokenShape_of_isBlank (all_eq_true.1 h c (hrest.subset mem_cons_self)) rest

/-- Without quotes and braces inside, the first closing brace closes. -/
theorem splitBraces_plain (h : ∀ c ∈ u, isQuote c = false ∧ c ≠ '{' ∧ c ≠ '}') (after : List Char) :
    splitBraces (u ++ '}' :: after) = some (u, after) := by
  unfold splitBraces
  induction u with
  | nil => rfl
  | cons c u ih =>
    obtain ⟨⟨hquote, hopen, hclose⟩, hrest⟩ := forall_mem_cons.1 h
    rw [cons_append, splitAtClosing]
    simp only [hquote, hopen, hclose, if_false, ih hrest, Option.map_some, Bool.false_eq_true]

/-- The pieces of a source with one line that begins neither with white space nor with a mark. -/
theorem ofSource_line (hline : OneLine (c :: u)) (hblank : isBlank c = false)
    (hgap : isGap c = false) (hmark : c ≠ byteOrderMark) :
    ofSource (c :: u) =
      gap [] :: gap [] :: (ofContent false (c :: u) ++ [token .endOfInput []]) := by
  have htab : (c == '\t') = false := by
    simp only [isGap, Bool.or_eq_false_iff] at hgap
    exact hgap.2
  have htabs : tabCount (c :: u) = 0 := by
    rw [tabCount, takeWhile_cons_of_neg (by simp [htab])]
    rfl
  have hall : allBlank (c :: u) = false := by
    simp [allBlank, hblank]
  rw [ofSource, if_neg (by simpa using hmark), lines_of_inline (cons_ne_nil c u) hline]
  rw [ofLines, ofLineContent, levelsAfter, hall, htabs]
  simp [ofIndentation, keptLevels, nextLevels, ofEnding, ofLines, dedents, hgap]

end Piece

section Lifting

variable {levels : Nat} {ts : List Token} {e : Expression}

theorem Derives.layered (h : Derives levels .operand ts n e) (layers : List (List BinaryOp)) :
    Derives levels (.layered layers) ts n e := by
  induction layers with
  | nil => exact .bare h
  | cons ops layers ih => exact .tighter ih

/-- An operand is an expression in every mode. -/
theorem Derives.inMode (h : Derives levels .operand ts n e) (mode : Mode) :
    Derives levels (.inMode mode) ts n e := by
  cases mode with
  | condition => exact .condition (h.layered _)
  | statement =>
    have hwhole := Derives.statement (h.layered _) .unassigned
    rwa [append_nil] at hwhole

theorem Expression.SameAs.literal {value : LiteralValue} {raw : String} {es : List Expression}
    {s : Span} (h : (literal value raw es s).SameAs x) :
    ∃ es' s', x = .literal value raw es' s' ∧
      es'.map withoutSpans = es.map withoutSpans := by
  unfold SameAs at h
  cases x with
  | literal value' raw' es' s' =>
    rw [withoutSpans, withoutSpans, withoutSpansEach_eq_map,
      withoutSpansEach_eq_map] at h
    obtain ⟨rfl, rfl, hes, -⟩ := literal.inj h
    exact ⟨es', s', rfl, hes⟩
  | _ => simp [withoutSpans] at h

end Lifting

section Programs

variable {expression : Mode → Parser Expression} {deeper : Option Inside} {c d : Cursor}

theorem enterBlock_at_end (h : c.current.kind = .endOfInput) : enterBlock deeper c = (none, c) := by
  have hblank : c.rest.takeWhile (·.kind == .newline) = [] := by
    unfold Cursor.current at h
    cases hrest : c.rest with
    | nil => rfl
    | cons t rest =>
      rw [hrest] at h
      have hkind : t.kind = .endOfInput := h
      rw [takeWhile_cons_of_neg (by simp [hkind])]
  have hcurrent : (c.drop 0).current = c.current := rfl
  simp only [enterBlock, hblank, length_nil, hcurrent, h]
  rfl

/-- A block with one statement. -/
theorem block_single {s : Statement} (hstatement : statement expression deeper c = (s, d))
    (hcontent : c.AtContent) (hleft : d.left < c.left)
    (hend : d.current.kind = .endOfInput) : block expression deeper false c = ([s], d) := by
  have hfirst : bodyStep expression deeper false false ([], []) c = ((([], [s]), true), d) := by
    rw [bodyStep_content _ hcontent, item_statement _ rfl, hstatement]
    rfl
  have hbody := @body_eq_block expression deeper false c
  rw [show loop _ _ c = _ from (iterate_go hfirst hleft).trans
    (iterate_stop (bodyStep_end _ hend))] at hbody
  exact Prod.ext (congrArg (·.1.2) hbody).symm (congrArg Prod.snd hbody).symm

variable {read : List Token} {last : Token}

/-- A run that takes the only line of a program stops at the end of the input. -/
theorem ends_of_withinLine {S : Supply} (hline : c.WithinLine S d)
    (hend : d.current.kind.isStructural)
    (hrest : c.rest = read ++ [last]) (hread : ∀ t ∈ read, t.kind.isStructural = false)
    (hlast : last.kind = .endOfInput) : d.rest = [last] ∧ d.current.kind = .endOfInput := by
  have hafter : d.rest = [last] := by
    rw [hline.rest_eq_dropWhile hend, hrest,
      dropWhile_append_of_pos fun t ht => by simp [hread t ht],
      dropWhile_cons_of_neg (by simp [hlast, Token.Kind.isStructural])]
  refine ⟨hafter, ?_⟩
  rw [Cursor.current, hafter]
  exact hlast

variable (hrest : c.rest = read ++ [last]) (hread : ∀ t ∈ read, t.kind.isStructural = false)
  (hlast : last.kind = .endOfInput)

include hrest hread hlast

/-- A program with one line of text. -/
theorem programBody_text (hkind : c.current.kind = .interpolationStart) :
    programBody c = ([.text (textContent (Parser.expression maxDepth) c).1],
        (textContent (Parser.expression maxDepth) c).2) ∧
      (textContent (Parser.expression maxDepth) c).2.rest = [last] := by
  have hline := (runs_textContent maxDepth c.supplied_anything).line
  have hstructural := endsLine_textContent maxDepth c
  obtain ⟨hafter, hend⟩ := ends_of_withinLine hline hstructural hrest hread hlast
  have htakes : c.TakesLine (textContent (Parser.expression maxDepth) c).2 :=
    takesLine_textContent (by rw [hkind]; exact ⟨rfl, by simp [IsHeaderStart], nofun, nofun, nofun⟩)
  refine ⟨block_single ?_ htakes.content htakes.left_lt hend, hafter⟩
  have hstatement : statement (Parser.expression maxDepth) (inside maxDepth) c =
      textLine (Parser.expression maxDepth) (inside maxDepth) c := by
    simp only [statement, bind, peek, hkind]
  rw [hstatement, textLine_closed (enterBlock_at_end hend)]

/-- A program with one expression. -/
theorem programBody_expression (hkind : c.current.kind = .expressionStart) :
    programBody c = ([(expressionLine (Parser.expression maxDepth) c).1],
      (expressionLine (Parser.expression maxDepth) c).2) := by
  have htakes : c.TakesLine (expressionLine (Parser.expression maxDepth) c).2 :=
    takesLine_expressionLine hkind
  have hline := (runs_expressionLine maxDepth htakes.content c.supplied_anything).line
  have hend := (ends_of_withinLine hline (endsLine_expressionLine c) hrest hread hlast).2
  refine block_single ?_ htakes.content htakes.left_lt hend
  simp only [statement, bind, peek, hkind]

end Programs

/-- A line of text that is an expression between braces. -/
def inText (e : List Char) : String :=
  String.ofList ('{' :: (e ++ ['}']))

/-- A line with a string that holds nothing but an expression between braces. -/
def inString (e : List Char) : String :=
  String.ofList ('>' :: '>' :: ' ' :: '"' :: '{' :: (e ++ ['}', '"']))

/-- The text may stand between braces: on one line, and without quotes and other braces. -/
structure IsPlain (e : List Char) : Prop where
  inline : OneLine e
  free : ∀ c ∈ e, isQuote c = false ∧ c ≠ '{' ∧ c ≠ '}'

theorem IsPlain.of_all {e : List Char}
    (h : e.all fun c => !isLineEnd c && !isQuote c && c != '{' && c != '}') : IsPlain e := by
  simp only [all_eq_true, Bool.and_eq_true, Bool.not_eq_true', bne_iff_ne] at h
  exact ⟨fun c hc => (h c hc).1.1.1, fun c hc => ⟨(h c hc).1.1.2, (h c hc).1.2, (h c hc).2⟩⟩

section Sources

variable {e : List Char}

theorem IsPlain.not_mem (h : IsPlain e) : '"' ∉ '{' :: (e ++ ['}']) := by
  intro hmem
  rcases mem_cons.1 hmem with heq | hmem
  · cases heq
  · rcases mem_append.1 hmem with hmem | hmem
    · have hquote := (h.free _ hmem).1
      cases hquote
    · cases mem_singleton.1 hmem

theorem tokenize_inText (h : IsPlain e) :
    ∃ first q last stop, tokenize (inText e) =
      (first :: (place q (ofExpression false e) ++ [last])) ++ [stop] ∧
      first.kind = .interpolationStart ∧ last.kind = .interpolationEnd ∧
      stop.kind = .endOfInput := by
  have hline : OneLine ('{' :: (e ++ ['}'])) := by
    refine forall_mem_cons.2 ⟨by decide, forall_mem_append.2 ⟨h.inline, ?_⟩⟩
    exact forall_mem_singleton.2 (by decide)
  have htext : ofText ('{' :: (e ++ ['}'])) =
      token .interpolationStart ['{'] ::
        (ofExpression false e ++ [token .interpolationEnd ['}']]) := by
    rw [ofText, if_pos rfl]
    split
    · next inner after hsplit =>
      rw [splitBraces_plain h.free] at hsplit
      obtain ⟨rfl, rfl⟩ := Prod.mk.inj (Option.some.inj hsplit)
      rw [ofText]
    · next hsplit =>
      rw [splitBraces_plain h.free] at hsplit
      cases hsplit
  have hsource : ofSource ('{' :: (e ++ ['}'])) =
      gap [] :: gap [] :: (token .interpolationStart ['{'] ::
        (ofExpression false e ++ [token .interpolationEnd ['}']]) ++ [token .endOfInput []]) := by
    rw [ofSource_line hline (by decide) (by decide) (by decide)]
    rw [← htext]
    rfl
  rw [tokenize, inText, String.toList_ofList, hsource]
  simp only [place, place_append]
  exact ⟨_, _, _, _, rfl, rfl, rfl, rfl⟩

theorem tokenize_inString (h : IsPlain e) :
    ∃ first t stop, tokenize (inString e) = [first, t] ++ [stop] ∧ first.kind = .expressionStart ∧
      t.lexeme = ⟨.string, String.ofList ('"' :: '{' :: (e ++ ['}', '"']))⟩ ∧
      stop.kind = .endOfInput := by
  have hline : OneLine ('>' :: '>' :: ' ' :: '"' :: '{' :: (e ++ ['}', '"'])) := by
    simpa [isLineEnd] using h.inline
  have hindex : ('{' :: (e ++ ['}', '"'])).idxOf? '"' = some (e.length + 2) := by
    have hsplit : '{' :: (e ++ ['}', '"']) = '{' :: (e ++ ['}']) ++ ['"'] := by simp
    have hnone := idxOf?_eq_none_iff.2 h.not_mem
    unfold idxOf? at hnone ⊢
    rw [hsplit, findIdx?_append, hnone]
    simp
  have hstring : ofExpression true (' ' :: '"' :: '{' :: (e ++ ['}', '"'])) =
      [gap [' '], token .string ('"' :: '{' :: (e ++ ['}', '"']))] := by
    have hshape : tokenShape '"' ('{' :: (e ++ ['}', '"'])) = (.string, e.length + 3) := by
      rw [tokenShape, if_neg (by decide), if_pos (by decide), hindex]
    rw [ofExpression, if_pos (by decide), ofExpression, if_neg (by decide), if_neg (by simp),
      hshape]
    have hlength : ('{' :: (e ++ ['}', '"'])).length ≤ e.length + 3 := by simp
    dsimp only
    rw [take_of_length_le hlength, drop_of_length_le hlength, ofExpression]
  have hsource : ofSource ('>' :: '>' :: ' ' :: '"' :: '{' :: (e ++ ['}', '"'])) =
      [gap [], gap [], token .expressionStart ['>', '>'], gap [' '],
        token .string ('"' :: '{' :: (e ++ ['}', '"'])), token .endOfInput []] := by
    rw [ofSource_line hline (by decide) (by decide) (by decide), ofContent, hstring]
    rfl
  rw [tokenize, inString, String.toList_ofList, hsource]
  exact ⟨_, _, _, rfl, rfl, rfl, rfl⟩

/-- The only statement of the text is what is read between its first and its last token. -/
theorem parse_inText (h : IsPlain e) : ∃ (c : Cursor) (first last stop : Token) (q : Position),
    (parse (inText e)).program.body = [.text (textContent (expression maxDepth) c).1] ∧
      (parse (inText e)).diagnostics = (textContent (expression maxDepth) c).2.diagnostics.reverse ∧
      c.diagnostics = [] ∧ (textContent (expression maxDepth) c).2.rest = [stop] ∧
      c.rest = first :: (place q (ofExpression false e) ++ [last]) ++ [stop] ∧
      first.kind = .interpolationStart ∧ last.kind = .interpolationEnd ∧
      stop.kind = .endOfInput := by
  obtain ⟨first, q, last, stop, htokens, hfirst, hlast, hstop⟩ := tokenize_inText h
  have hinside : ∀ t ∈ place q (ofExpression false e), t.kind.isStructural = false :=
    fun t ht => isStructural_of_mem_expressionKinds (kind_mem_of_mem_place ht)
  have hread : ∀ t ∈ first :: (place q (ofExpression false e) ++ [last]),
      t.kind.isStructural = false := by
    refine forall_mem_cons.2 ⟨by rw [hfirst]; rfl, forall_mem_append.2 ⟨hinside, ?_⟩⟩
    exact forall_mem_singleton.2 (by rw [hlast]; rfl)
  rw [parse, parseTokens]
  generalize ((tokenize (inText e)).getLast?.map (·.span.stop)).getD Position.origin = position
  have hkind : (Cursor.start (tokenize (inText e)) position).current.kind =
      .interpolationStart := by
    rw [htokens]
    exact hfirst
  obtain ⟨hbody, hafter⟩ := programBody_text
    (c := Cursor.start (tokenize (inText e)) position) htokens hread hstop hkind
  refine ⟨Cursor.start (tokenize (inText e)) position, first, last, stop, q, ?_, ?_, rfl, hafter,
    htokens, hfirst, hlast, hstop⟩
  · exact congrArg Prod.fst hbody
  · exact congrArg (fun r => r.2.diagnostics.reverse) hbody

/-- The text is read as the expression that its tokens derive. -/
theorem derives_inText (h : IsPlain e) (hclean : (parse (inText e)).diagnostics = []) :
    ∃ q n x s, n ≤ maxOperations ∧
      Derives maxDepth (.inMode .condition) (place q (ofExpression false e)) n x ∧
      (parse (inText e)).program.body = [.text ⟨[.interpolation x], s⟩] := by
  obtain ⟨c, first, last, stop, q, hbody, hdiagnostics, hnone, hafter, hrest, hfirst, hlast, -⟩ :=
    parse_inText h
  rw [hdiagnostics, reverse_eq_nil_iff] at hclean
  obtain ⟨read, hread, hderives⟩ := (clears_textContent maxDepth c).clean (by rw [hclean, hnone])
  obtain rfl : first :: (place q (ofExpression false e) ++ [last]) = read := by
    rw [hrest, hafter] at hread
    exact append_cancel_right hread
  have hends : ∀ t ∈ place q (ofExpression false e), t.kind ≠ .interpolationEnd := by
    intro t ht hkind
    exact absurd (hkind ▸ kind_mem_of_mem_place ht) (by decide)
  obtain ⟨n, x, hn, hx, hparts⟩ := hderives.single hfirst hends hlast
  refine ⟨q, n, x, (textContent (expression maxDepth) c).1.span, hn, hx, ?_⟩
  rw [hbody, ← hparts]

/-- A text is read without a report if its tokens derive an expression. -/
theorem inText_of_derives (h : IsPlain e) {ts : List Token}
    (hn : n ≤ maxOperations) (hx : Derives maxDepth (.inMode .condition) ts n x)
    (hlexemes : (place .origin (ofExpression false e)).map Token.lexeme = ts.map Token.lexeme) :
    (parse (inText e)).diagnostics = [] := by
  obtain ⟨c, first, last, stop, q, -, hdiagnostics, hnone, -, hrest, hfirst, hlast, hstop⟩ :=
    parse_inText h
  have hderives : DerivesText maxDepth (first :: (ts ++ [last])) [.interpolation x] :=
    .interpolation hfirst hx hn hlast .nil
  have hahead : c.ahead = (first :: (ts ++ [last])).map Token.lexeme ++ [stop.lexeme] := by
    rw [Cursor.ahead, hrest]
    simp [map_lexeme_place .origin q, hlexemes]
  have hbound : (headD [stop.lexeme] .ending).kind.isStructural := by
    rw [Token.lexeme, hstop]
    rfl
  rw [hdiagnostics, (textContent_of_derives hderives hahead hbound).2, hnone]
  rfl

variable {levels : Nat}

/-- Tokens that derive an expression do not come from white space. -/
theorem allBlank_of_derives {mode : Mode}
    (hx : Derives levels (.inMode mode) (place q (ofExpression false e)) n x) :
    allBlank e = false := by
  refine Bool.eq_false_iff.2 fun hblank => ?_
  obtain ⟨l, hhead, -⟩ := hx.begins
  obtain ⟨t, ht, -⟩ := mem_map.1 (mem_of_mem_head? hhead)
  have hpart := hx.isPart t ht
  obtain ⟨_, hmem, -⟩ := exists_piece_of_mem_place ht
  rw [Lexeme.isPart, Token.lexeme, kind_of_allBlank hblank hmem] at hpart
  cases hpart

theorem braceRegions_inString (h : IsPlain e) (p : Position) :
    ∃ anchor, braceRegions p ('"' :: '{' :: (e ++ ['}', '"'])) = [(anchor, e)] := by
  have hopen := braceRegions_open (v := ['"']) (by decide) p (e ++ ['}', '"'])
  rw [splitBraces_plain h.free ['"']] at hopen
  have hclosing : ∀ p, braceRegions p ['"'] = [] := fun p => braceRegions_eq p ['"']
  refine ⟨p.advance ['"', '{'], hopen.trans ?_⟩
  dsimp only
  rw [hclosing]
  rfl

theorem IsPlain.not_string (h : IsPlain e) :
    ∀ t ∈ place q (ofExpression false e), t.kind ≠ .string := by
  intro t ht hkind
  obtain ⟨_, hmem, -⟩ := exists_piece_of_mem_place ht
  obtain ⟨c, hc, hquote⟩ := exists_isQuote_of_string (hkind ▸ hmem)
  rw [(h.free c hc).1] at hquote
  cases hquote

/-- So many levels are enough for the brackets of the expression. -/
def fitsIn (levels : Nat) (e : List Char) : Bool :=
  Lexeme.fits levels 0 ((tokenizeExpression (String.ofList e) .origin).map Token.lexeme)

theorem fitsIn_eq (h : IsPlain e) (hcomment : ¬['-', '-'] <:+: e) (levels : Nat) (q : Position) :
    fitsIn levels e = Lexeme.fits levels 0 ((place q (ofExpression false e)).map Token.lexeme) := by
  rw [fitsIn, tokenizeExpression_of_inline h.inline, ofExpression_comments hcomment,
    map_lexeme_place q]

/-- Cut anew, the tokens are read as the expression that they derive if the levels are enough for
their brackets, and with a report if not. -/
theorem standalone_of_fits {ts : List Token} {c : Cursor}
    (hn : n ≤ maxOperations) (hx : Derives levels (.inMode .condition) ts n x)
    (hplain : ∀ t ∈ ts, t.kind ≠ .string) (hahead : c.ahead = ts.map Token.lexeme) (levels' : Nat) :
    if Lexeme.fits levels' 0 (ts.map Token.lexeme) then
      (standalone (expression levels' .condition) c).2.diagnostics = c.diagnostics ∧
        x.SameAs (standalone (expression levels' .condition) c).1
    else (standalone (expression levels' .condition) c).2.diagnostics ≠ c.diagnostics := by
  split
  · next hfits =>
    exact (hx.of_fits hplain hfits).standalone hn (by rw [hahead, append_nil]) (by rfl)
  · next hfits =>
    intro hclean
    obtain ⟨m, -, hderives⟩ := derives_standalone hclean
    have hpart : ∀ u ∈ c.rest, u.lexeme.isPart := by
      intro u hu
      have hmem : u.lexeme ∈ ts.map Token.lexeme := hahead ▸ mem_map_of_mem hu
      obtain ⟨t, ht, heq⟩ := mem_map.1 hmem
      exact heq ▸ hx.isPart t ht
    have hwhole : c.rest.takeWhile (fun t => !t.kind.isBoundary) = c.rest := by
      refine takeWhile_eq_self_iff.2 fun u hu => ?_
      have hkind : u.kind.isBoundary = false := Lexeme.isBoundary_of_isPart (hpart u hu)
      rw [hkind]
      rfl
    rw [hwhole] at hderives
    exact hfits (hahead ▸ hderives.fits)

/-- A string with the expression between its braces records it if one level less is enough for its
brackets, and nothing if not. -/
theorem interpolations_inString (h : IsPlain e) (hcomment : ¬['-', '-'] <:+: e)
    (hn : n ≤ maxOperations)
    (hx : Derives levels (.inMode .condition) (place q (ofExpression false e)) n x) {t : Token}
    (ht : t.text = String.ofList ('"' :: '{' :: (e ++ ['}', '"']))) (levels' : Nat) :
    (interpolations (innerAt (levels' + 1)) t).map withoutSpans =
      if fitsIn levels' e then [x.withoutSpans] else [] := by
  obtain ⟨anchor, hregions⟩ := braceRegions_inString h t.span.start
  have htokens : tokenizeExpression (String.ofList e) anchor =
      place anchor (ofExpression false e) := by
    rw [tokenizeExpression_of_inline h.inline, ofExpression_comments hcomment]
  have hread := standalone_of_fits hn hx h.not_string
    (c := Cursor.start (place anchor (ofExpression false e)) (anchor.advance e))
    (map_lexeme_place q anchor _) levels'
  show ((braceRegions t.span.start t.text.toList).filterMap
    (regionExpression? (expression levels' .condition))).map _ = _
  rw [fitsIn_eq h hcomment levels' q, ht, String.toList_ofList, hregions, filterMap_cons,
    regionExpression?, if_neg, htokens, filterMap_nil]
  · split at hread
    · next hfits =>
      obtain ⟨hclean, hsame⟩ := hread
      have hempty : (standalone (expression levels' .condition) (Cursor.start
          (place anchor (ofExpression false e)) (anchor.advance e))).2.diagnostics.isEmpty := by
        rw [hclean]
        rfl
      rw [if_pos hempty, if_pos hfits, map_singleton, hsame]
    · next hfits =>
      rw [if_neg (fun hempty => hread (isEmpty_iff.1 hempty)), if_neg hfits, map_nil]
  · rw [allBlank_of_derives hx]
    exact Bool.false_ne_true

/-- The line with the string is read without a report, and its only statement is the string. -/
theorem inString_of_derives (h : IsPlain e) (hcomment : ¬['-', '-'] <:+: e) (hn : n ≤ maxOperations)
    (hx : Derives levels (.inMode .condition) (place q (ofExpression false e)) n x) :
    (parse (inString e)).diagnostics = [] ∧ ∃ value raw es s s',
      (parse (inString e)).program.body = [.expression (.literal (.string value) raw es s) s'] ∧
      es.map withoutSpans =
        if fitsIn (maxDepth - 1) e then [x.withoutSpans] else [] := by
  obtain ⟨first, t, stop, htokens, hfirst, ht, hstop⟩ := tokenize_inString h
  obtain ⟨hkind, htext⟩ := Lexeme.mk.inj ht
  have hread : ∀ u ∈ [first, t], u.kind.isStructural = false := by
    simp [hfirst, show t.kind = .string from hkind, Token.Kind.isStructural]
  rw [parse, parseTokens]
  generalize hposition :
    ((tokenize (inString e)).getLast?.map (·.span.stop)).getD Position.origin = position
  have hstart : (Cursor.start (tokenize (inString e)) position).current.kind =
      .expressionStart := by
    rw [htokens]
    exact hfirst
  rw [programBody_expression (c := Cursor.start (tokenize (inString e)) position)
    htokens hread hstop hstart]
  have hahead : (Cursor.start (tokenize (inString e)) position).advance.ahead =
      [t].map Token.lexeme ++ [stop.lexeme] := by
    refine Cursor.ahead_advance_of_eq (l := first.lexeme) ?_
    rw [htokens]
    rfl
  have hderives := (@Derives.string maxDepth t hkind).inMode .statement
  have hbound : stop.kind.isBoundary := by
    rw [hstop]
    rfl
  obtain ⟨y, s', hy, hsame, hclean⟩ :=
    expressionLine_of_derives hderives (Nat.zero_le _) hahead hbound
  obtain ⟨es, s, rfl, hes⟩ := hsame.literal
  refine ⟨reverse_eq_nil_iff.2 hclean, _, _, es, s, s', congrArg (fun st => [st]) hy, ?_⟩
  exact hes.trans (interpolations_inString h hcomment hn hx htext (maxDepth - 1))

/-- **An expression means the same in a text and in a string.**  It stands on one line, without
quotes and braces, and no two hyphens are side by side in it.  If it is read without a report
between the braces of a text, then a string that holds it between braces is read without a report
too.  The string records one expression, which is that of the text up to places, if one level less
is enough for the brackets of the expression; otherwise it records none. -/
theorem interpolation_inString (h : IsPlain e) (hcomment : ¬['-', '-'] <:+: e)
    (hclean : (parse (inText e)).diagnostics = []) :
    (parse (inString e)).diagnostics = [] ∧ ∃ x s value raw es s' s'',
      (parse (inText e)).program.body = [.text ⟨[.interpolation x], s⟩] ∧
      (parse (inString e)).program.body =
        [.expression (.literal (.string value) raw es s') s''] ∧
      es.map Expression.withoutSpans =
        if fitsIn (maxDepth - 1) e then [x.withoutSpans] else [] := by
  obtain ⟨q, n, x, s, hn, hx, htext⟩ := derives_inText h hclean
  obtain ⟨hnone, value, raw, es, s', s'', hstring, hes⟩ := inString_of_derives h hcomment hn hx
  exact ⟨hnone, x, s, value, raw, es, s', s'', htext, hstring, hes⟩

/-- A call of an index, divided by a member with a sign before it. -/
theorem interpolation_inString_quotient :
    let e := "f[1](a, (b)) / -x.y".toList
    IsPlain e ∧ (parse (inText e)).diagnostics = [] ∧ (parse (inString e)).diagnostics = [] ∧
      fitsIn (maxDepth - 1) e ∧ ∃ x s value raw es s' s'',
        (parse (inText e)).program.body = [.text ⟨[.interpolation x], s⟩] ∧
        (parse (inString e)).program.body =
          [.expression (.literal (.string value) raw es s') s''] ∧
        es.map Expression.withoutSpans =
          if fitsIn (maxDepth - 1) e then [x.withoutSpans] else [] := by
  intro e
  have hplain : IsPlain e := .of_all (by decide +kernel)
  have hclean : (parse (inText e)).diagnostics = [] := by decide +kernel
  obtain ⟨hnone, hsame⟩ := interpolation_inString hplain (by decide +kernel) hclean
  exact ⟨hplain, hclean, hnone, by decide +kernel, hsame⟩

/-- A variable in parentheses. -/
def parenthesised (depth : Nat) : List Char :=
  replicate depth '(' ++ 'a' :: replicate depth ')'

/-- Each pair of parentheses takes a level. -/
theorem derives_parenthesised (first t last : Token) (hfirst : first.lexeme = .mark "(")
    (ht : t.kind = .identifier) (hlast : last.lexeme = .mark ")") (depth : Nat) :
    Derives depth .operand (replicate depth first ++ t :: replicate depth last) 0
      (.identifier t.text t.span) := by
  induction depth with
  | zero => exact .identifier ht
  | succ depth ih =>
    have hsplit : replicate (depth + 1) first ++ t :: replicate (depth + 1) last =
        first :: ((replicate depth first ++ t :: replicate depth last) ++ [last]) := by
      rw [replicate_succ, replicate_succ' (n := depth) (a := last)]
      simp
    rw [hsplit]
    exact .group hfirst (.nested (ih.inMode .condition)) hlast

/-- The expressions between the braces of a statement that is a text or a string. -/
def Statement.held : Statement → List Expression
  | .text content => content.parts.filterMap fun
    | .interpolation e => some e
    | .run _ _ => none
  | .expression (.literal _ _ es _) _ => es
  | _ => []

/-- What a source holds between braces: the lexemes of each expression, without parentheses. -/
def heldIn (source : String) : List (List Lexeme) :=
  writeEach (fun _ _ _ => false) ((parse source).program.body.flatMap Statement.held)

/-- Between the braces of a string two hyphens begin a comment, so that a difference loses its
second operand; and where a text has a level for its last parenthesis, a string has none and records
nothing. -/
theorem interpolation_inString_differs :
    let a : Lexeme := ⟨.identifier, "a"⟩
    let b : Lexeme := ⟨.identifier, "b"⟩
    ((parse (inText "a--b".toList)).diagnostics = [] ∧
      heldIn (inText "a--b".toList) = [[a, .operator "-", .operator "-", b]] ∧
      heldIn (inString "a--b".toList) = [[a]]) ∧
    ((parse (inText (parenthesised maxDepth))).diagnostics = [] ∧
      (heldIn (inText (parenthesised maxDepth))).length = 1 ∧
      heldIn (inString (parenthesised maxDepth)) = []) := by
  refine ⟨⟨by decide +kernel, by decide +kernel, by decide +kernel⟩, ?_⟩
  have hplain : IsPlain (parenthesised maxDepth) := .of_all (by decide +kernel)
  have hderives := derives_parenthesised ⟨.punctuation, "(", default⟩ ⟨.identifier, "a", default⟩
    ⟨.punctuation, ")", default⟩ rfl rfl rfl maxDepth
  have hlexemes : (place .origin (ofExpression false (parenthesised maxDepth))).map Token.lexeme =
      (replicate maxDepth ⟨.punctuation, "(", default⟩ ++ ⟨.identifier, "a", default⟩ ::
        replicate maxDepth ⟨.punctuation, ")", default⟩ : List Token).map Token.lexeme := by
    decide +kernel
  have hclean :=
    inText_of_derives hplain (Nat.zero_le _) (hderives.inMode .condition) hlexemes
  have hcomment : ¬['-', '-'] <:+: parenthesised maxDepth := fun hpart =>
    absurd (hpart.subset mem_cons_self) (by decide +kernel)
  have hfits : fitsIn (maxDepth - 1) (parenthesised maxDepth) = false := by
    rw [fitsIn_eq hplain hcomment _ .origin, hlexemes]
    decide +kernel
  obtain ⟨q, n, x, s, hn, hx, htext⟩ := derives_inText hplain hclean
  obtain ⟨-, value, raw, es, s', s'', hstring, hes⟩ :=
    inString_of_derives hplain hcomment hn hx
  rw [hfits, if_neg nofun, map_eq_nil_iff] at hes
  refine ⟨hclean, ?_, ?_⟩
  · rw [heldIn, htext]
    rfl
  · rw [heldIn, hstring, hes]
    rfl

end Sources

end ScriptLint

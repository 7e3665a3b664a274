import ScriptLint.Proofs.CommentLines
import ScriptLint.Proofs.LineDerivation
import Mathlib.Algebra.Order.BigOperators.Group.List
import Mathlib.Algebra.Order.Group.Nat

/-!
# Invalid tokens are reported

A character that begins no token, a string that is not closed and a brace that is not closed are cut
out as invalid tokens.  Such a token may be met in an expression or behind one, in a text or in the
header of a loop, or be skipped with the rest of its line; a fault is reported on the line in each
case.

**Clean runs.**  A parser that reports nothing has read no invalid token (`Vets`).  It stops at the
end of its line, or before a comment, in which nothing is invalid.

**Results.**
* `valid_header`, `valid_textContent`, `valid_expressionLine`, `valid_comment`: a line that reports
  nothing is read from valid tokens.
* `invalid_reported`: all lines of a source.
-/

namespace ScriptLint

open List Text

open Piece

variable {ts : List Token} {c : Cursor} {levels : Nat} {r : Row} {site : Site}

/-- None of the tokens is invalid. -/
def AllValid (ts : List Token) : Prop :=
  ∀ t ∈ ts, t.kind ≠ .invalid

theorem AllValid.append {us : List Token} (h : AllValid ts) (h' : AllValid us) :
    AllValid (ts ++ us) :=
  forall_mem_append.2 ⟨h, h'⟩

/-- Behind the first boundary of an expression there is a comment. -/
theorem allValid_ofExpression (cs : List Char) :
    ∀ p, AllValid ((place p (ofExpression true cs)).takeWhile fun t => !t.kind.isBoundary) →
      AllValid (place p (ofExpression true cs)) := by
  fun_induction ofExpression true cs with
  | case1 => exact fun _ _ => forall_mem_nil _
  | case2 c rest _ ih => exact fun p => ih _
  | case3 c rest _ _ => exact fun p _ => by simp [AllValid, ofComment, place]
  | case4 c rest _ _ shape ih =>
    intro p h
    have hkind : shape.1.isBoundary = false := by
      have hmem : shape.1 ∈ tokenKinds := kind_tokenShape c rest
      revert hmem
      cases shape.1 <;> decide
    rw [place, takeWhile_cons_of_pos (by simp [hkind])] at h
    obtain ⟨hfirst, hrest⟩ := forall_mem_cons.1 h
    exact forall_mem_cons.2 ⟨hfirst, ih _ hrest⟩

theorem Derives.allValid {levels n : Nat} {form : Form} {a : form.Value}
    (h : Derives levels form ts n a) : AllValid ts := by
  intro t ht hkind
  have hpart := h.isPart t ht
  simp [Lexeme.isPart, Lexeme.isOperand, Token.lexeme, hkind] at hpart

theorem DerivesText.allValid {levels : Nat} {parts : List TextPart}
    (h : DerivesText levels ts parts) : AllValid ts := by
  induction h with
  | nil => exact nofun
  | run _ _ hvalid _ ih => exact forall_mem_cons.2 ⟨hvalid, ih⟩
  | interpolation hfirst he _ hlast _ ih =>
    exact forall_mem_cons.2 ⟨by rw [hfirst]; decide,
      he.allValid.append (forall_mem_cons.2 ⟨by rw [hlast]; decide, ih⟩)⟩

/-- The argument of a keyword, cut into tokens as an expression. -/
def KeywordLine.retokenized (k : KeywordLine) : List Token :=
  tokenizeExpression (String.ofList (filledText k.argument)) k.anchor

/-- What a line is read from, given its tokens: the argument of a keyword that takes an expression
is cut into tokens anew. -/
def workedTokens (keyword? : Option KeywordLine) (ts : List Token) : List Token :=
  match keyword? with
  | none => ts
  | some k => ts.filter (fun t => t.span.start.offset < k.anchor.offset) ++ k.retokenized

namespace Parser

section Clean

variable {α β : Type}

/-- The run reports something, or has read no invalid token. -/
def Vets (c : Cursor) (r : α × Cursor) : Prop :=
  Clears c (fun read _ => AllValid read) r

theorem Vets.pure (a : α) : Vets c (a, c) :=
  Clears.pure nofun

theorem Vets.bind {p : Parser α} {f : α → Parser β} (hp : Vets c (p c))
    (hf : ∀ a d, Vets d (f a d)) :
    Vets c ((p >>= f) c) :=
  Clears.trans hp ((hf _ _).mono fun _ _ h' _ h => h.append h')

theorem Vets.next (hkind : c.AtContent) (hvalid : c.current.kind ≠ .invalid) :
    Vets c (Parser.next c) := by
  refine (clears_advance hkind).mono ?_
  rintro _ _ rfl
  exact forall_mem_singleton.2 hvalid

theorem Vets.reportHere (fault : Fault) : Vets c (Parser.reportHere fault c) :=
  Clears.of_lt (Nat.lt_succ_self _)

/-- Where a run stops that reports nothing, nothing invalid was passed. -/
theorem Vets.before {r : α × Cursor} {stops : Token.Kind → Bool} (h : Vets c r)
    (hclean : r.2.diagnostics = c.diagnostics) (hstop : stops r.2.current.kind) :
    AllValid (c.before stops) := by
  obtain ⟨read, hrest, hvalid⟩ := h.clean (congrArg length hclean)
  have hnone : r.2.rest.takeWhile (fun t => !stops t.kind) = [] := by
    cases hr : r.2.rest with
    | nil => rfl
    | cons u us =>
      rw [Cursor.current_of_rest hr] at hstop
      exact takeWhile_cons_of_neg (by simp [hstop])
  intro t ht
  unfold Cursor.before at ht
  rw [hrest, takeWhile_append, hnone, append_nil] at ht
  split at ht
  · exact hvalid t ht
  · exact hvalid t (takeWhile_subset _ ht)

theorem vets_iterate {σ : Type} {step : σ → Parser (σ × Bool)}
    (hstep : ∀ s c, Vets c (step s c)) (s : σ) (c : Cursor) : Vets c (iterate step s c) := by
  fun_induction iterate step s c with
  | case1 s c result _ ih => exact Clears.trans (hstep s c) (ih.mono fun _ _ h' _ h => h.append h')
  | case2 s c result _ => exact ⟨(hstep s c).diagnostics, (hstep s c).clean⟩

theorem vets_variableStep (names : List Expression) (c : Cursor) :
    Vets c (variableStep names c) := by
  change Vets c
      ((if c.current.kind = .identifier then _ else _ : Parser (List Expression × Bool)) c)
  split
  · next hname =>
    refine .bind (.next (.of_kind hname rfl) (by rw [hname]; decide)) fun _ d => ?_
    change Vets d
        ((if d.current.isPunctuation "," then _ else _ : Parser (List Expression × Bool)) d)
    split
    · next hcomma =>
      have hkind := Token.kind_of_isPunctuation hcomma
      exact .bind (.next (.of_kind hkind rfl) (by rw [hkind]; decide)) fun _ _ => .pure _
    · exact .pure _
  · exact .bind (.reportHere _) fun _ _ => .pure _

theorem vets_collection (levels : Nat) (c : Cursor) :
    Vets c (collection (expression levels .condition) c) := by
  change Vets c ((if c.current.isOperator "in" then _ else _ : Parser Expression) c)
  split
  · next hin =>
    have hkind := Token.kind_of_isOperator hin
    refine .bind (.next (.of_kind hkind rfl) (by rw [hkind]; decide)) fun _ d => ?_
    change Vets d ((if d.current.kind.isBoundary then _ else _ : Parser Expression) d)
    split
    · exact .bind (.reportHere _) fun _ _ => .pure _
    · refine ⟨(reads_expression levels .condition d.fresh
        d.fresh.supplied_anything).line.diagnostics, fun hclean => ?_⟩
      obtain ⟨read, n, -, hrest, hderives⟩ := derives_read (c := d.fresh) rfl hclean
      exact ⟨read, hrest, hderives.allValid⟩
  · exact .bind (.reportHere _) fun _ _ => .pure _

/-- An argument that is read without a report, up to the first boundary. -/
theorem allValid_rereading {isLoop : Bool}
    (hclean : (rereading levels isLoop c).2.diagnostics = c.diagnostics) :
    AllValid (c.before Token.Kind.isBoundary) := by
  cases isLoop with
  | false =>
    obtain ⟨n, -, hderives⟩ := @derives_standalone _ _ .condition hclean
    exact hderives.allValid
  | true =>
    have hread : Vets c
        ((loop [] variableStep >>= fun _ => collection (expression levels .condition)) c) :=
      .bind (vets_iterate vets_variableStep [] c) fun _ => vets_collection levels
    generalize hd : (loop [] variableStep >>= fun _ => collection (expression levels .condition))
      c = r at hread
    have hend : (rereading levels true c).2 = (expectEnd r.2).2 := by rw [← hd]; rfl
    rw [hend] at hclean
    have hbound :=
      isBoundary_of_expectEnd ((congrArg length hclean).le.trans hread.diagnostics)
    rw [diagnostics_expectEnd hbound] at hclean
    exact hread.before hclean hbound

theorem allValid_textContent
    (hclean : (textContent (expression levels) c).2.diagnostics = c.diagnostics) :
    AllValid (c.before Token.Kind.isStructural) := by
  have hread : Vets c (textContent (expression levels) c) :=
    (clears_textContent levels c).mono fun _ _ h => h.allValid
  exact hread.before hclean (endsLine_textContent levels c)

/-- The argument of a header that is not cut into tokens anew. -/
theorem allValid_headerArgument {name : String} {isSub : Bool}
    (hclean : (headerArgument (expression levels) name isSub c).2.diagnostics = c.diagnostics)
    (hplain : c.current.kind = .colon → c.advance.AtContent →
      Vocabulary.takesExpression (lower name) isSub = false) : AllValid
        (c.before Token.Kind.isStructural) := by
  rw [headerArgument_eq] at hclean
  split at hclean
  · next hkind =>
    have hnext : c.before Token.Kind.isStructural = c.current ::
        c.advance.before Token.Kind.isStructural := by
      unfold Cursor.before
      rw [Cursor.rest_eq_cons (.of_kind hkind rfl), takeWhile_cons_of_pos (by rw [hkind]; rfl)]
    rw [hnext]
    refine forall_mem_cons.2 ⟨by rw [hkind]; decide, ?_⟩
    rw [argument_eq] at hclean
    split at hclean
    · next hend => exact (Vets.pure ()).before rfl hend
    · next hcontent =>
      rw [hplain hkind (by simpa using hcontent)] at hclean
      exact allValid_textContent (hclean.trans c.diagnostics_advance.symm)
  · split at hclean
    · next hend => exact (Vets.pure ()).before rfl hend
    · exact absurd hclean (cons_ne_self _ _)

end Clean

section Lines

variable {p : Position} {line : List Char} {k : KeywordLine}

theorem before_row (h : r.Holds p line) (hts : ∀ t ∈ ts, t ∈ r.first :: r.more)
    (hrest : c.rest = ts ++ r.after) : c.before Token.Kind.isStructural = ts :=
  before_append hrest (fun t ht => (isCut_of_mem_row h (hts t ht)).1) h.layout

theorem valid_comment (h : r.Holds p line) (hkind : r.first.kind = .commentStart) :
    AllValid (r.first :: r.more) := by
  obtain ⟨-, text, -, hplace⟩ := h.comment (.inl hkind)
  rw [hplace]
  simp [AllValid, ofComment, place]

theorem valid_textContent (h : r.Holds p line) (hrest : c.rest = r.tokens)
    (hclean : (textContent (expression levels) c).2.diagnostics = c.diagnostics) :
    AllValid (r.first :: r.more) := by
  rw [← before_row h (fun _ ht => ht) hrest]
  exact allValid_textContent hclean

theorem valid_expressionLine (h : r.Holds p line) (hrest : c.rest = r.tokens)
    (hkind : r.first.kind = .expressionStart)
    (hclean : (expressionLine (expression levels) c).2.diagnostics = c.diagnostics) :
    AllValid (r.first :: r.more) := by
  obtain ⟨q, text, hmore⟩ := h.expression hkind
  have hnext : c.advance.rest = r.more ++ r.after := by rw [Cursor.rest_advance, hrest]; rfl
  have hclean : (standalone (expression levels .statement) c.advance).2.diagnostics =
      c.advance.diagnostics :=
    hclean.trans c.diagnostics_advance.symm
  obtain ⟨n, -, hderives⟩ := derives_standalone hclean
  refine forall_mem_cons.2 ⟨by rw [hkind]; decide, ?_⟩
  rw [hmore]
  refine allValid_ofExpression text q fun t ht => hderives.allValid t ?_
  rw [hnext, hmore, takeWhile_append]
  split
  · exact mem_append_left _ (takeWhile_subset _ ht)
  · exact ht

/-- Cut into tokens anew, an argument that is read without a report has no invalid token. -/
theorem valid_retokenized (h : r.Holds p line) (hinline : OneLine line)
    (hk : keywordLine? p line = some k) (htakes : k.takesExpression) (hrest : c.rest = r.tokens)
    (hclean : (header (expression levels) c).2.diagnostics = c.diagnostics) :
    AllValid k.retokenized := by
  have hargument : OneLine k.argument := fun d hd => hinline d (mem_of_mem_argument hk hd)
  have hrecord : (header (expression levels) c).2.diagnostics = _ ++ c.diagnostics :=
    congrArg Prod.snd (h.header_of_takesExpression hk htakes hrest levels).2
  have hnone := reverse_eq_nil_iff.1 (self_eq_append_left.1 (hclean.symm.trans hrecord))
  have hread := allValid_rereading (reverse_eq_nil_iff.1 hnone)
  have htokens : k.retokenized = place k.anchor (ofExpression true (filledText k.argument)) :=
    tokenizeExpression_of_inline (isLineEnd_filledText hargument)
  rw [htokens]
  refine allValid_ofExpression _ _ ?_
  rw [← htokens]
  exact hread

/-- A header that reports nothing is read from valid tokens. -/
theorem valid_header (h : r.Holds p line) (hinline : OneLine line) (hrest : c.rest = r.tokens)
    (hkind : IsHeaderStart r.first.kind)
    (hclean : (header (expression levels) c).2.diagnostics = c.diagnostics) :
    AllValid (workedTokens ((keywordLine? p line).filter KeywordLine.takesExpression)
      (r.first :: r.more)) := by
  obtain ⟨k, hk, hstart⟩ := h.exists_keyword hkind
  obtain ⟨rest, -, hargument, -, hmore⟩ := h.keyword hk
  have hname : (if k.isSub then Token.Kind.subKeyword else .keyword) ≠ .invalid := by
    split <;> decide
  cases htakes : k.takesExpression with
  | true =>
    rw [hk, Option.filter_some_pos htakes]
    refine AllValid.append (fun t ht => ?_) (valid_retokenized h hinline hk htakes hrest hclean)
    obtain ⟨ht, hbefore⟩ := mem_filter.1 ht
    obtain ⟨start, name, colon, hmark, -, -, hname', hcolon, htokens⟩ := h.argument hk
      (by simp [KeywordLine.takesExpression] at htakes; exact htakes.2)
    have hline : r.first :: r.more = start :: name :: colon :: place k.anchor (ofText k.argument) :=
      append_cancel_right (show (r.first :: r.more) ++ r.after = _ ++ r.after from htokens)
    rw [hline] at ht
    rcases mem_cons.1 ht with rfl | ht
    · rw [hmark]; decide
    rcases mem_cons.1 ht with rfl | ht
    · rwa [hname']
    rcases mem_cons.1 ht with rfl | ht
    · rw [hcolon]; decide
    · have hbounds := (offset_bounds_of_mem_place ht).1
      have hbefore : t.span.start.offset < k.anchor.offset := by simpa using hbefore
      omega
  | false =>
    rw [hk, Option.filter_some_neg (by simp [htakes])]
    obtain ⟨hnext, hheader⟩ := h.header_eq hk hmore hrest (expression levels)
    rw [hheader] at hclean
    have hbefore :=
      before_row h (fun t ht => by rw [hmore]; exact mem_cons_of_mem _ (mem_cons_of_mem _ ht)) hnext
    refine forall_mem_cons.2 ⟨by rw [hstart]; decide, ?_⟩
    rw [hmore, ← hbefore]
    refine forall_mem_cons.2
      ⟨hname, allValid_headerArgument (hclean.trans ?_) fun hcolon hcontent => ?_⟩
    · rw [Cursor.diagnostics_advance, Cursor.diagnostics_advance]
    · have hne := argumentAfter_ne_nil hnext h.layout hcolon hcontent
      simpa [KeywordLine.takesExpression, hargument, hne] using htakes

end Lines
end Parser

/-- The keyword on the line of a site, if its argument is an expression. -/
def Site.rescanned? (site : Site) : Option KeywordLine :=
  (keywordLine? site.start site.content).filter KeywordLine.takesExpression

/-- What the line of a site is read from. -/
def Site.worked (site : Site) : List Token :=
  workedTokens site.rescanned?
    (place (site.start.advance (replicate (tabCount site.content) '\t')) (ofWritten site.content))

theorem Tally.eq_zero {α β : Type} {n : Nat} {as : List α} {bs : List β}
    (h : Tally (fun n _ _ => n = 0) n as bs) :
    n = 0 := by
  induction h with
  | nil => rfl
  | cons head _ ih => rw [head, ih]

section Pairing

open ScriptLint.Parser

variable (line : Nat) {n : Nat} {d : Cursor} {r' : Row}

/-- The line of the site, if it is the one with the number and is read from an invalid token. -/
def Site.faults (site : Site) : Nat :=
  if site.start.line = line ∧ ∃ t ∈ site.worked, t.kind = .invalid then 1 else 0

/-- If there were such lines, a fault is reported on the line with the number. -/
def Noted (n : Nat) (s : Position × List Diagnostic) : Prop :=
  n ≠ 0 → ∃ d ∈ s.2, d.span.start.line = line

variable {line}

theorem Noted.step (h : Noted line n c.record) (hreports : c.Reports site.start.line d)
    (hvalid : d.diagnostics = c.diagnostics → AllValid site.worked) :
    Noted line (site.faults line + n) d.record := by
  obtain ⟨new, hnew, hlines⟩ := hreports
  intro hpos
  have hkept : ∀ x ∈ new ++ c.diagnostics, x ∈ d.record.2 :=
    fun x hx => (show d.record.2 = _ from hnew) ▸ hx
  by_cases hn : n = 0
  · have hfault : site.start.line = line ∧ ∃ t ∈ site.worked, t.kind = .invalid := by
      by_contra hnone
      rw [Site.faults, if_neg hnone, hn] at hpos
      exact hpos rfl
    obtain ⟨rfl, t, ht, hkind⟩ := hfault
    cases new with
    | nil => exact absurd hkind (hvalid hnew t ht)
    | cons x new => exact ⟨x, hkept x mem_cons_self, hlines x mem_cons_self⟩
  · obtain ⟨x, hx, hline⟩ := h hn
    exact ⟨x, hkept x (mem_append_right _ hx), hline⟩

theorem Site.Held.worked_eq (h : site.Held r r') (hkind : ¬ IsHeaderStart r.first.kind) :
    site.worked = r.first :: r.more := by
  rw [worked, rescanned?, h.left.keywordLine?_eq_none hkind, h.left.place]
  rfl

variable (line)

/-- The lines of a source beside themselves, with the faulty ones counted. -/
def faultPairing : LinePairing Nat where
  left := .anything
  right := .anything
  line l n r r' := ∃ site : Site, site.levels = l ∧ n = site.faults line ∧ site.Held r r'
  record n s _ := Noted line n s
  indent _ _ := True
  place _ _ := True
  header n _ _ := n = 0
  content n _ _ := n = 0
  statement n _ _ := n = 0
  subKeyword n _ _ := n = 0
  alike := by
    rintro l n r r' ⟨site, -, -, hheld⟩
    exact hheld.alike
  start _ := trivial
  lastEnd _ := trivial
  stray := by
    intro n s s' t t' h _ hn
    obtain ⟨d, hd, hline⟩ := h hn
    exact ⟨d, mem_cons_of_mem _ hd, hline⟩
  reads_header := by
    rintro l n m r r' c c' ⟨site, rfl, rfl, hheld⟩ hrecord hrest - hkind
    obtain ⟨-, -, hstart⟩ := hheld.left.exists_keyword hkind
    refine ⟨0, _, zero_add _, rfl, hrecord.step
      (reached_header hheld.left hheld.inline hrest hstart).reports fun hclean => ?_⟩
    rw [Site.worked, ← hheld.left.place]
    exact valid_header hheld.left hheld.inline hrest hkind hclean
  reads_content := by
    rintro l n m r r' c c' ⟨site, rfl, rfl, hheld⟩ hrecord hrest - hkind
    refine ⟨0, _, zero_add _, rfl, hrecord.step
      (reached_textContent hheld.left hheld.inline hrest).reports fun hclean => ?_⟩
    rw [hheld.worked_eq hkind.not_header]
    exact valid_textContent hheld.left hrest hclean
  reads_expression := by
    rintro l n m r r' c c' ⟨site, rfl, rfl, hheld⟩ hrecord hrest - hkind
    refine ⟨0, _, zero_add _, rfl, hrecord.step
      (reached_expressionLine hheld.left hheld.inline hrest).reports fun hclean => ?_⟩
    rw [hheld.worked_eq (by simp [hkind, IsHeaderStart])]
    exact valid_expressionLine hheld.left hrest hkind hclean
  reads_comment := by
    rintro l n m r r' c c' ⟨site, rfl, rfl, hheld⟩ hrecord hrest - hkind
    have hstart := (hheld.left.comment hkind).1
    refine ⟨0, _, zero_add _, rfl, hrecord.step
      (reached_comment hheld.left hheld.inline hrest hstart).reports fun _ => ?_⟩
    rw [hheld.worked_eq (by simp [hstart, IsHeaderStart])]
    exact valid_comment hheld.left hstart
  keyword := by
    rintro x y z h h' subs subs' body body' p p' q q' rfl hsubs hbody - -
    rw [hsubs.eq_zero, hbody.eq_zero]
    rfl
  sub := by
    rintro x z h h' body body' p p' q q' rfl hbody - -
    rw [hbody.eq_zero]
  text h := h
  answer := by
    rintro x z t t' body body' q q' rfl - hbody -
    rw [hbody.eq_zero]

end Pairing

section Sources

variable {source : String} {t : Token}

/-- The line of a site that is read from an invalid token is reported. -/
theorem Site.reported (hsite : site ∈ sites source) (ht : t ∈ site.worked)
    (hkind : t.kind = .invalid) :
    ∃ d ∈ (parse source).diagnostics, d.span.start.line = site.start.line := by
  generalize hline : site.start.line = line
  have hmeets : (faultPairing line).Meets maxDepth ((sites source).map (Site.faults line)).sum
      (Cursor.ofSource source) (Cursor.ofSource source) :=
    ⟨_, 0, add_zero _, paired_sites (fun site _ _ _ hheld => ⟨site, rfl, rfl, hheld⟩)
      fun _ _ => trivial, fun hne => absurd rfl hne⟩
  obtain ⟨x, y, hxy, hbody, hend⟩ := (faultPairing line).gives_programBody hmeets
    ⟨Cursor.supplied_anything _, Cursor.supplied_anything _⟩
  have hx : x = 0 := Tally.eq_zero hbody
  have hy : y ≠ 0 := by
    rintro rfl
    rw [hx] at hxy
    have hle := single_le_sum (fun _ _ => Nat.zero_le _) _
        (mem_map_of_mem (f := Site.faults line) hsite)
    rw [Site.faults, if_pos ⟨hline, t, ht, hkind⟩, ← hxy] at hle
    cases hle
  obtain ⟨d, hd, hreported⟩ := hend hy
  exact ⟨d, mem_reverse.2 hd, hreported⟩

theorem exists_site_of_mem_ofLines {ls : List Line} (hkind : t.kind.isStructural = false)
    (levels : List Nat) (left : Nat) (p : Position) (h : t ∈ place p (ofLines levels ls)) :
    ∃ site ∈ sitesFrom levels left p ls, site.start.line = t.span.start.line ∧
      t ∈ place (site.start.advance (replicate (tabCount site.content) '\t'))
        (ofWritten site.content) := by
  induction ls generalizing levels left p with
  | nil =>
    rw [isStructural_of_mem_ofLines_nil h] at hkind
    cases hkind
  | cons ln ls ih =>
    rw [sitesFrom]
    rcases (mem_ofLines_cons hkind).1 h with h | h
    · have hline := line_of_mem_ofLineContent h
      unfold ofLineContent at h
      split
      · next hblank =>
        rw [if_pos hblank] at h
        cases h
      · next hwritten =>
        rw [if_neg hwritten] at h
        rw [place_append, last_ofIndentation] at h
        refine ⟨_, mem_cons_self, hline.symm, (mem_append.1 h).resolve_left fun hindentation => ?_⟩
        rw [isStructural_of_mem_ofIndentation hindentation] at hkind
        cases hkind
    · unfold levelsAfter at h
      split
      · next hblank =>
        rw [if_pos hblank] at h
        exact ih _ _ _ h
      · next hwritten =>
        rw [if_neg hwritten] at h
        obtain ⟨site, hsite, hsame⟩ := ih _ _ _ h
        exact ⟨site, mem_cons_of_mem _ hsite, hsame⟩

/-- The keyword on a line of a source, if its argument is an expression. -/
def rescannedOn (source : String) (line : Nat) : List KeywordLine :=
  (sites source).filterMap fun site => if site.start.line = line then site.rescanned? else none

/-- What a line of a source is read from: its tokens, and in place of those of the argument that is
an expression what it is cut into anew. -/
def tokensOn (source : String) (line : Nat) : List Token :=
  ((tokenize source).filter fun t => t.span.start.line = line ∧
      ∀ k ∈ rescannedOn source line, t.span.start.offset < k.anchor.offset) ++
    (rescannedOn source line).flatMap KeywordLine.retokenized

/-- An invalid token that a line is read from stands on a site. -/
theorem exists_site_of_mem_tokensOn {line : Nat} (h : t ∈ tokensOn source line)
    (hkind : t.kind = .invalid) :
    ∃ site ∈ sites source, site.start.line = line ∧ t ∈ site.worked := by
  rcases mem_append.1 h with h | h
  · obtain ⟨ht, hline⟩ := mem_filter.1 h
    obtain ⟨hline, hbefore⟩ := of_decide_eq_true hline
    rw [tokenize_eq_firstLine] at ht
    obtain ⟨site, hsite, hsame, hmem⟩ :=
      exists_site_of_mem_ofLines (by rw [hkind]; rfl) [] maxDepth _ ht
    refine ⟨site, hsite, hsame.trans hline, ?_⟩
    unfold Site.worked
    cases hk : site.rescanned? with
    | none => exact hmem
    | some k =>
      have hrescanned : k ∈ rescannedOn source line :=
        mem_filterMap.2 ⟨site, hsite, by rw [if_pos (hsame.trans hline), hk]⟩
      exact mem_append_left _ (mem_filter.2 ⟨hmem, decide_eq_true (hbefore k hrescanned)⟩)
  · obtain ⟨k, hk, ht⟩ := mem_flatMap.1 h
    obtain ⟨site, hsite, hk⟩ := mem_filterMap.1 hk
    obtain ⟨hline, hk⟩ := Option.ite_none_right_eq_some.1 hk
    refine ⟨site, hsite, hline, ?_⟩
    rw [Site.worked, hk]
    exact mem_append_right _ ht

end Sources

/-- **No invalid token goes unreported.**  If a line is read from an invalid token, a fault is
reported on it. -/
theorem invalid_reported (source : String) (line : Nat)
    (h : ∃ t ∈ tokensOn source line, t.kind = .invalid) :
    ∃ d ∈ (parse source).diagnostics, d.span.start.line = line := by
  obtain ⟨t, ht, hkind⟩ := h
  obtain ⟨site, hsite, rfl, hworked⟩ := exists_site_of_mem_tokensOn ht hkind
  exact Site.reported hsite hworked hkind

/-- The string is not closed; the argument of the keyword is cut into tokens anew. -/
theorem invalid_reported_unclosed :
    (∃ t ∈ tokensOn "ab\n*if: x + \"y" 2, t.kind = .invalid) ∧
      ∃ d ∈ (parse "ab\n*if: x + \"y").diagnostics, d.span.start.line = 2 := by
  have h : ∃ t ∈ tokensOn "ab\n*if: x + \"y" 2, t.kind = .invalid := by decide +kernel
  exact ⟨h, invalid_reported _ 2 h⟩

end ScriptLint

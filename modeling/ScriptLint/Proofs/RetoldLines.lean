import ScriptLint.Proofs.ArgumentReading
import ScriptLint.Proofs.Retelling

/-!
# Programs told again

The lines of a source are told again one by one.  A line that is not that of a keyword is told again
token by token.  On the line of a keyword the name may be another one, if it means the same; what
follows the name is told again, as tokens and, for an argument that is an expression, as text.

**Results.**
* `Retelling.pairing`: lines that are told again are paired.
* `Retelling.parse_told`: the programs of the two sources, and the faults that are found in them.
-/

namespace ScriptLint

open List Text Cursor

open Piece

variable {rest : List Char} {c : Cursor} {n : Nat}

namespace Parser

section Header

variable {e : Mode → Parser Expression} {name : String} {isSub : Bool}

/-- What follows the name of a keyword: an argument behind a colon, or nothing. -/
theorem headerArgument_eq :
    headerArgument e name isSub c =
      if c.current.kind = .colon then argument e (lower name) isSub c.advance
      else if c.current.kind.isStructural then (none, c)
      else (none, c.report (.missingColon name) c.current.span) := by
  show (if (c.current.kind == .colon) = true then _ else _ : Parser (Option Argument)) c = _
  by_cases hcolon : c.current.kind = .colon
  · rw [if_pos (by simp [hcolon]), if_pos hcolon]
    rfl
  · rw [if_neg (by simpa using hcolon)]
    show (if c.current.kind.isStructural = true then _ else _ : Parser (Option Argument)) c = _
    split <;> rfl

theorem argument_eq :
    argument e name isSub c =
      if c.current.kind.isStructural then (none, c)
      else if Vocabulary.takesExpression name isSub then
        expressionArgument e (!isSub && name == Vocabulary.loopKeyword) c
      else (some (.text (textContent e c).1), (textContent e c).2) := by
  show (if c.current.kind.isStructural = true then _ else _ : Parser (Option Argument)) c = _
  split
  · rfl
  · split <;> rfl

end Header

/-- Behind the colon of a keyword, content is that of its argument. -/
theorem argumentAfter_ne_nil {q : Position} {d : Cursor} {after : List Token}
    (hrest : d.rest = place q (ofArgument rest) ++ after)
    (hafter : ∀ u ∈ after.head?, u.kind.isStructural) (hcolon : d.current.kind = .colon)
    (hnext : d.advance.AtContent) : argumentAfter rest ≠ [] := by
  have hlayout : ∀ {e : Cursor}, e.rest = after → e.current.kind.isStructural := by
    intro e he
    unfold Cursor.current
    rw [he]
    cases hhead : after with
    | nil => rfl
    | cons u us =>
      rw [hhead] at hafter
      exact hafter u rfl
  intro hnil
  by_cases hmark : ∃ more, rest.dropWhile isGap = ':' :: more
  · obtain ⟨more, hmark⟩ := hmark
    rw [argumentAfter_of_colon hmark] at hnil
    rw [ofArgument_of_colon hmark, hnil] at hrest
    have hend := hlayout (e := d.advance) (by rw [rest_advance, hrest]; simp [place, ofText])
    rw [hnext] at hend
    cases hend
  · rw [ofArgument_of_ne_colon fun more heq => hmark ⟨more, heq⟩] at hrest
    change d.rest = place _ (ofText _) ++ _ at hrest
    generalize hts : place _ (ofText _) = ts at hrest
    cases ts with
    | nil =>
      have hend := hlayout hrest
      rw [hcolon] at hend
      cases hend
    | cons t ts =>
      have hfirst := kind_head_ofText hts.symm
      rw [← current_of_rest hrest, hcolon] at hfirst
      revert hfirst
      decide

end Parser

namespace Retelling

variable (T : Retelling)

/-- Two texts correspond. -/
structure Contents (n : Nat) (content content' : TextContent) : Prop where
  weighs : T.Weighs n content.nodes (content.reshape T.before = content'.reshape T.after)
  start : T.near content.span.start content'.span.start

/-- Two headers correspond. -/
def Headers (n : Nat) (header header' : Header) : Prop :=
  T.Weighs n header.nodes (header.reshape T.before = header'.reshape T.after)

/-- Two statements correspond. -/
def Statements (n : Nat) (s s' : Statement) : Prop :=
  T.Weighs n s.nodes (s.reshape T.before = s'.reshape T.after)

/-- Two sub-keywords correspond. -/
def SubKeywords (n : Nat) (s s' : SubKeyword) : Prop :=
  T.Weighs n s.nodes (s.reshape T.before = s'.reshape T.after)

/-- What two cursors keep between lines corresponds. -/
structure Records (n : Nat) (s s' : Position × List Diagnostic) : Prop where
  lastEnd : T.near s.1 s'.1
  diagnostics : ∃ m, m ≤ n ∧ Tally T.Diagnostics m s.2 s'.2

/-- What came in from two cursors to two others corresponds, and weighs so much. -/
structure Adds (n : Nat) (c c' d d' : Cursor) : Prop where
  lastEnd : T.near d.lastEnd d'.lastEnd
  diagnostics : ∃ new new', d.diagnostics = new ++ c.diagnostics ∧
    d'.diagnostics = new' ++ c'.diagnostics ∧ Tally T.Diagnostics n new new'

variable {T} {line : Nat}

theorem weighs_parts {parts parts' : List TextPart}
    (h : Tally (T.coupling line).Part n parts parts') :
    T.Weighs n (parts.flatMap TextPart.nodes)
      (parts.map (TextPart.reshape T.before) = parts'.map (TextPart.reshape T.after)) := by
  induction h with
  | nil => exact .nil rfl
  | @cons m n part part' parts parts' head _ ih =>
    have hpart : T.Weighs m part.nodes (part.reshape T.before = part'.reshape T.after) := by
      cases part with
      | run text span =>
        cases part' with
        | interpolation e => exact head.elim
        | run text' span' =>
          obtain ⟨t, t', ht, -, rfl, ⟨rfl, rfl⟩, rfl, rfl⟩ := head
          refine ⟨Nat.zero_le _, fun hfull => ?_⟩
          have hspan : T.Spans line t.span t'.span := (T.coupling line).span_token ht
          rw [TextPart.reshape, TextPart.reshape, (T.coupling line).same ht (Nat.le_zero.1 hfull),
            hspan.span_eq]
      | interpolation e =>
        cases part' with
        | run text' span' => exact head.elim
        | interpolation e' =>
          have he : T.Expressions line m e e' := head
          refine he.weighs.imp fun hsame => ?_
          rw [TextPart.reshape, TextPart.reshape, hsame]
    refine (hpart.append ih).imp ?_
    rintro ⟨hfirst, hrest⟩
    rw [map_cons, map_cons, hfirst, hrest]

theorem contents_of_content {content content' : TextContent}
    (h : (T.coupling line).Content n content content') : T.Contents n content content' := by
  have hspan : T.Spans line content.span content'.span := h.span
  refine ⟨.cons ((weighs_parts h.parts).imp fun hparts => ?_) rfl, hspan.start⟩
  rw [TextContent.reshape, TextContent.reshape, hparts, hspan.span_eq]

theorem weighs_argument {argument argument' : Option Argument}
    (h : (T.coupling line).Argument n argument argument') (name : String) (s : Span) :
    T.Weighs n (Header.mk name s argument).nodes
      (argument.map (Argument.reshape T.before) = argument'.map (Argument.reshape T.after)) := by
  rcases argument with _ | (content | e | ⟨names, e, s⟩) <;>
    rcases argument' with _ | (content' | e' | ⟨names', e', s'⟩) <;> try exact h.elim
  · exact ⟨Nat.zero_le _, fun _ => rfl⟩
  · refine .cons ((contents_of_content h).weighs.imp fun hsame => ?_) rfl
    rw [Option.map_some, Option.map_some, Argument.reshape, Argument.reshape, hsame]
  · have he : T.Expressions line n e e' := h
    refine .cons (he.weighs.imp fun hsame => ?_) rfl
    rw [Option.map_some, Option.map_some, Argument.reshape, Argument.reshape, hsame]
  · obtain ⟨x, y, rfl, hnames, he, hspan⟩ := h
    have hlist := weighs_nodesOfList hnames
    rw [Expression.nodesOfList_eq_flatMap, Expression.reshapeList_eq_map,
      Expression.reshapeList_eq_map] at hlist
    refine .cons ((hlist.append he.weighs).imp ?_) rfl
    rintro ⟨hnames, hsame⟩
    rw [Option.map_some, Option.map_some, Argument.reshape, Argument.reshape,
      hnames, hsame, hspan.span_eq]

theorem statements_of_single {s s' : Statement} (h : (T.coupling line).Single n s s') :
    T.Statements n s s' := by
  cases s <;> cases s' <;> try exact h.elim
  · next e s e' s' =>
    have he : T.Expressions line n e e' := h.1
    have hspan : T.Spans line s s' := h.2
    refine .cons (he.weighs.imp fun hsame => ?_) rfl
    rw [Statement.reshape, Statement.reshape, hsame, hspan.span_eq]
  · next text s text' s' =>
    have hspan : T.Spans line s s' := h.2
    refine ⟨Nat.zero_le _, fun hfull => ?_⟩
    rw [Statement.reshape, Statement.reshape, h.1 (Nat.le_zero.1 hfull), hspan.span_eq]

theorem weighs_statements {body body' : List Statement} (h : Tally T.Statements n body body') :
    T.Weighs n (Statement.nodesOfList body)
      (Statement.reshapeList T.before body = Statement.reshapeList T.after body') := by
  induction h with
  | nil => exact .nil rfl
  | cons head _ ih =>
    refine (head.append ih).imp ?_
    rintro ⟨hfirst, hrest⟩
    rw [Statement.reshapeList, Statement.reshapeList, hfirst, hrest]

theorem weighs_subKeywords {subs subs' : List SubKeyword} (h : Tally T.SubKeywords n subs subs') :
    T.Weighs n (SubKeyword.nodesOfList subs)
      (SubKeyword.reshapeList T.before subs = SubKeyword.reshapeList T.after subs') := by
  induction h with
  | nil => exact .nil rfl
  | cons head _ ih =>
    refine (head.append ih).imp ?_
    rintro ⟨hfirst, hrest⟩
    rw [SubKeyword.reshapeList, SubKeyword.reshapeList, hfirst, hrest]

end Retelling

/-- The tokens of what stands on a line behind its white space. -/
def lineTokens (p : Position) (content : List Char) : List Token :=
  place (p.advance (content.takeWhile isGap))
    (ofContent (0 < tabCount content) (content.dropWhile isGap))

/-- Where the ending of a line stops, if it has one. -/
def endingStop (q : Position) (ending : List Char) : Position :=
  if ending = [] then q else stop q .newline ending

namespace Retelling

variable (T : Retelling)

/-- Two lines correspond token by token, and are not those of keywords. -/
structure PlainLines (n : Nat) (p : Position) (content : List Char) (p' : Position)
    (content' : List Char) : Prop where
  plain : keywordLine? p content = none
  plain' : keywordLine? p' content' = none
  tokens : Forall₂ T.token (lineTokens p content) (lineTokens p' content')
  load : 2 * ((lineTokens p content).map T.load).sum ≤ n

/-- Two lines of keywords correspond: the names mean the same, and what follows them corresponds. -/
structure KeywordLines (n : Nat) (p : Position) (content : List Char) (p' : Position)
    (content' : List Char) (k k' : KeywordLine) (rest rest' : List Char) : Prop where
  keyword : keywordLine? p content = some k
  keyword' : keywordLine? p' content' = some k'
  body : content.dropWhile isGap = '*' :: (k.name ++ rest)
  body' : content'.dropWhile isGap = '*' :: (k'.name ++ rest')
  margin : T.near (p.advance (content.takeWhile isGap))
    (p'.advance (content'.takeWhile isGap))
  isSub : k'.isSub = k.isSub
  lower : lower (String.ofList k'.name) = lower (String.ofList k.name)
  name : T.before.keyword (String.ofList k.name) = T.after.keyword (String.ofList k'.name)
  start : T.near k.nameSpan.start k'.nameSpan.start
  stop : T.near k.nameSpan.stop k'.nameSpan.stop
  tokens : Forall₂ T.token (place k.nameSpan.stop (ofArgument rest))
    (place k'.nameSpan.stop (ofArgument rest'))
  load : 2 * ((place k.nameSpan.stop (ofArgument rest)).map T.load).sum ≤ n
  argument : T.told k.anchor k.argument k'.anchor k'.argument
  argument_load : 2 * T.textLoad k.anchor k.argument ≤ n

/-- Two lines correspond; of the first, so much is told in another word. -/
structure Lines (n : Nat) (p : Position) (ln : Line) (p' : Position) (ln' : Line) :
    Prop where
  start : T.near p p'
  tabs : T.near (p.advance (replicate (tabCount ln.content) '\t'))
    (p'.advance (replicate (tabCount ln'.content) '\t'))
  stop : T.near (p.advance ln.content) (p'.advance ln'.content)
  ending : T.near (endingStop (p.advance ln.content) ln.ending)
    (endingStop (p'.advance ln'.content) ln'.ending)
  content : T.PlainLines n p ln.content p' ln'.content ∨
    ∃ k k' rest rest', T.KeywordLines n p ln.content p' ln'.content k k' rest rest'

/-- Two rows hold lines that correspond. -/
structure Rows (n : Nat) (r r' : Row) (p : Position) (ln : Line) (p' : Position)
    (ln' : Line) : Prop where
  lines : T.Lines n p ln p' ln'
  left : r.Holds p ln.content
  right : r'.Holds p' ln'.content
  ends : r.Ends (p.advance ln.content) ln.ending
  ends' : r'.Ends (p'.advance ln'.content) ln'.ending
  kinds : r'.after.head?.map Token.kind = r.after.head?.map Token.kind

variable {T} {r r' : Row} {p p' : Position} {ln ln' : Line} {c' : Cursor}

section Reading

open ScriptLint.Parser

/-- What comes behind corresponding lines is layout of the same kind, at corresponding places. -/
theorem Rows.after (h : T.Rows n r r' p ln p' ln') :
    ∃ u us u' us', r.after = u :: us ∧ r'.after = u' :: us' ∧ u.kind.isStructural ∧
      (T.coupling p.line).token u u' := by
  obtain ⟨u, us, hafter, hspan⟩ := h.ends
  obtain ⟨u', us', hafter', hspan'⟩ := h.ends'
  obtain ⟨v, vs, hv, hkind, -⟩ := h.left.ending
  obtain ⟨rfl, rfl⟩ := cons.inj (hafter.symm.trans hv)
  have hkinds := h.kinds
  rw [hafter, hafter'] at hkinds
  refine ⟨u, us, u', us', hafter, hafter', hkind, Option.some.inj hkinds, ?_, ?_⟩
  · have hstop := h.lines.ending
    rw [hspan, hspan']
    refine ⟨h.lines.stop, hstop, rfl, ?_⟩
    split
    · rfl
    · rfl
  · intro hcontent
    rw [hkind] at hcontent
    cases hcontent

theorem Rows.coupled (h : T.Rows n r r' p ln p' ln') {ts ts' : List Token}
    {q q' : Position} (hrest : c.rest = ts ++ r.after) (hrest' : c'.rest = ts' ++ r'.after)
    (hts : Forall₂ T.token ts ts') (hcontent : ∀ t ∈ ts, t.kind.isStructural = false)
    (hline : ∀ t ∈ ts, t.span.start.line = p.line ∧ t.span.stop.line = p.line)
    (hq : T.near q q') (hqline : q.line = p.line) :
    (c.endingAt q).Coupled (T.coupling p.line) false (2 * (ts.map T.load).sum)
      (c'.endingAt q') := by
  obtain ⟨u, us, u', us', hafter, hafter', hkind, htoken⟩ := h.after
  refine ⟨?_, ⟨hq, hqline⟩, nofun⟩
  show (T.coupling p.line).Ahead c.stop c'.stop _ c.rest c'.rest
  rw [hrest, hrest']
  refine ahead_tokens hts hcontent hline ?_ ?_
  · rw [hafter]
    exact hkind
  · rw [hafter, hafter']
    exact htoken

theorem mem_lineTokens {content : List Char} {t : Token} (h : t ∈ lineTokens p content) :
    t.kind.isStructural = false ∧ t.span.start.line = p.line ∧ t.span.stop.line = p.line := by
  obtain ⟨xs, ys, -, hspan⟩ := isCut_of_mem_place (fun _ => isInline_of_mem_ofContent) h
  rw [hspan]
  exact ⟨isStructural_of_mem_place (fun _ => isInline_of_mem_ofContent) h, rfl, rfl⟩

/-- On lines that are not those of keywords, the cursors stand at corresponding tokens. -/
theorem Rows.coupled_plain (h : T.Rows n r r' p ln p' ln')
    (hplain : T.PlainLines n p ln.content p' ln'.content) (hrest : c.rest = r.tokens)
    (hrest' : c'.rest = r'.tokens) :
    (c.endingAt p).Coupled (T.coupling p.line) false
      (2 * ((lineTokens p ln.content).map T.load).sum) (c'.endingAt p') := by
  have htokens : ∀ {r : Row} {p content}, r.Holds p content →
      r.tokens = lineTokens p content ++ r.after := by
    intro r p content hr
    rw [lineTokens, ← hr.place_body]
    rfl
  exact h.coupled (hrest.trans (htokens h.left)) (hrest'.trans (htokens h.right)) hplain.tokens
    (fun t ht => (mem_lineTokens ht).1) (fun t ht => (mem_lineTokens ht).2) h.lines.start rfl

variable (T) in
/-- What a parser gives for two lines corresponds, and weighs no more than they do. -/
def MatchingRuns {α : Type} (n : Nat) (V : Nat → α → α → Prop) (p : Parser α)
    (c c' : Cursor) : Prop :=
  ∃ m j, m + j ≤ n ∧ V m (p c).1 (p c').1 ∧ T.Adds j c c' (p c).2 (p c').2

/-- What an outcome leaves for the lines that follow. -/
theorem matchingRuns_of_outcome {α : Type} {line budget : Nat} {V : Nat → α → α → Prop}
    {q q' : Position} {p : Parser α}
    (h : Outcome (T.coupling line) false (0 + budget) V (c.endingAt q)
      (c'.endingAt q') (p c) (p c'))
    (hbudget : budget ≤ n) : T.MatchingRuns n V p c c' := by
  obtain ⟨m, k, y, hvalue, hcoupled, hpass, hpaid⟩ := h
  exact ⟨m, k, by omega, hvalue, hcoupled.lastEnd.1, hpass.diagnostics⟩

/-- What comes in is added to what was kept. -/
theorem Records.add {g : Nat} {d d' : Cursor} (hrecord : T.Records g c.record c'.record)
    (h : T.Adds n c c' d d') : T.Records (n + g) d.record d'.record := by
  obtain ⟨new, new', hnew, hnew', htally⟩ := h.diagnostics
  obtain ⟨j, hj, hold⟩ := hrecord.diagnostics
  refine ⟨h.lastEnd, n + j, by omega, ?_⟩
  show Tally T.Diagnostics (n + j) d.diagnostics d'.diagnostics
  rw [hnew, hnew']
  exact htally.append hold

/-- At the end of the line nothing is left that weighs. -/
theorem coupled_skipLine {line x : Nat} {d d' : Cursor}
    (h : d.Coupled (T.coupling line) false x d') :
    (d.skipTo Token.Kind.isStructural).Coupled (T.coupling line) false 0
      (d'.skipTo Token.Kind.isStructural) ∧
      Passes (T.coupling line) 0 d d' (d.skipTo Token.Kind.isStructural)
        (d'.skipTo Token.Kind.isStructural) := by
  obtain ⟨y, -, hcoupled, hpass⟩ := h.skipTo fun _ hkind => hkind
  have hend := isStructural_current_skipTo d
  have hzero : y = 0 := by
    have hahead := hcoupled.ahead
    unfold Cursor.current at hend
    generalize (d.skipTo Token.Kind.isStructural).rest = ts at hahead hend
    generalize (d'.skipTo Token.Kind.isStructural).rest = ts' at hahead
    cases hahead with
    | ends _ _ => rfl
    | cons hkind _ _ =>
      rw [headD_cons, hkind] at hend
      cases hend
  subst hzero
  exact ⟨hcoupled, hpass⟩

/-- What follows the names of two keywords is read to arguments that correspond. -/
theorem outcome_headerArgument (levels : Nat) (isSub : Bool) {line x budget : Nat} {d d' : Cursor}
    {name name' : String} (hd : d.Coupled (T.coupling line) false x d') (hx : x ≤ budget)
    (hlower : lower name' = lower name) (hname : T.before.keyword name = T.after.keyword name')
    (hargument : d.current.kind = .colon → d.advance.AtContent →
      ∃ q u q' u', u ≠ [] ∧ u' ≠ [] ∧ q.line = line ∧
        d.advance.before Token.Kind.isStructural = place q (ofText u) ∧
        d'.advance.before Token.Kind.isStructural = place q' (ofText u') ∧
        T.told q u q' u' ∧ 2 * T.textLoad q u ≤ budget) :
    Outcome (T.coupling line) false budget (T.coupling line).Argument d d'
      (headerArgument (expression levels) name isSub d)
        (headerArgument (expression levels) name' isSub d') := by
  have hcurrent := hd.current
  have hkind := (T.coupling line).kind hcurrent
  have hnone : (T.coupling line).Argument 0 none none := trivial
  rw [headerArgument_eq, headerArgument_eq, hkind, hlower]
  by_cases hcolon : d.current.kind = .colon
  · rw [if_pos hcolon, if_pos hcolon]
    have hcontent : d.AtContent := .of_kind hcolon rfl
    have hcontent' : d'.AtContent := .of_kind hkind hcontent
    obtain ⟨y, hy, hnext⟩ := hd.advance hcontent
    refine Outcome.of_passes (passes_advance hcontent hcontent') ?_ (Nat.le_refl budget)
    rw [argument_eq, argument_eq, (T.coupling line).kind hnext.current]
    by_cases hend : d.advance.current.kind.isStructural
    · rw [if_pos hend, if_pos hend]
      exact ⟨0, 0, y, hnone, hnext, .refl, by omega⟩
    rw [if_neg hend, if_neg hend]
    by_cases htakes : Vocabulary.takesExpression (lower name) isSub
    · obtain ⟨q, u, q', u', hne, hne', rfl, hbefore, hbefore', htold, hload⟩ :=
        hargument hcolon (by simpa using hend)
      obtain ⟨hfilled, hfill⟩ := T.told_filled htold
      rw [if_pos htakes, if_pos htakes, expressionArgument_eq _ hne hbefore,
        expressionArgument_eq _ hne' hbefore']
      obtain ⟨m, k, hpaid, hvalue, htally⟩ := readArgument_told hfilled levels
        (!isSub && lower name == Vocabulary.loopKeyword)
      obtain ⟨hskip, hpass⟩ := coupled_skipLine hnext
      refine ⟨m, k, 0, hvalue, ⟨hskip.ahead, hskip.lastEnd, nofun⟩,
        ⟨hpass.left, _, _, rfl, rfl, htally⟩, by omega⟩
    · rw [if_neg htakes, if_neg htakes]
      obtain ⟨m, k, z, hvalue, hcoupled, hpass, hpaid⟩ :=
        (couples_textContent (T.couples_expression line levels)).run hnext
      exact ⟨m, k, z, hvalue, hcoupled, hpass, by omega⟩
  · rw [if_neg hcolon, if_neg hcolon]
    by_cases hend : d.current.kind.isStructural
    · rw [if_pos hend, if_pos hend]
      exact ⟨0, 0, x, hnone, hd, .refl, by omega⟩
    · rw [if_neg hend, if_neg hend]
      have hspan : T.Spans line d.current.span d'.current.span := hcurrent.2.1
      have hfault : T.Diagnostics 0 ⟨.missingColon name, d.current.span⟩
          ⟨.missingColon name', d'.current.span⟩ :=
        ⟨hspan.start, fun _ => ⟨.inr ⟨name, name', rfl, rfl, hname⟩, hspan.span_eq⟩⟩
      exact ⟨0, 0, x, hnone, ⟨hd.ahead, hd.lastEnd, hd.operations⟩,
        passes_report hfault, by omega⟩

/-- Behind the name on the line of a keyword. -/
theorem advance_keyword {content : List Char} {k : KeywordLine}
    (h : r.Holds p content) (hk : keywordLine? p content = some k) (hrest : c.rest = r.tokens)
    (hargument : k.argument = argumentAfter rest)
    (hbehind : c.advance.advance.rest = place k.nameSpan.stop (ofArgument rest) ++ r.after) :
    c.advance.advance.lastEnd = k.nameSpan.stop ∧
      (c.advance.advance.current.kind = .colon →
        c.advance.advance.advance.AtContent → k.argument ≠ [] ∧
          c.advance.advance.advance.before Token.Kind.isStructural =
            place k.anchor (ofText k.argument)) := by
  obtain ⟨_, -, -, -, hmore⟩ := h.keyword hk
  refine ⟨?_, fun hcolon hnext => ?_⟩
  · have hname : c.advance.rest = r.more ++ r.after := by
      rw [rest_advance, hrest]
      rfl
    rw [hmore] at hname
    have hcontent : c.advance.AtContent :=
      .of_current (current_of_rest hname) (by cases k.isSub <;> rfl)
    rw [advance.eq_def c.advance, if_neg (by simp [hcontent]), current_of_rest hname]
  · have hne : k.argument ≠ [] := by
      rw [hargument]
      exact argumentAfter_ne_nil hbehind h.layout hcolon hnext
    obtain ⟨start, name, colon, -, -, -, -, -, hline⟩ := h.argument hk hne
    refine ⟨hne, before_append ?_ ?_ h.layout⟩
    · rw [rest_advance, rest_advance, rest_advance, hrest, hline]
      rfl
    · intro t ht
      exact isStructural_of_mem_place (fun _ => isInline_of_mem_ofText) ht

/-- The lines of two keywords are read to headers that correspond. -/
theorem Rows.keyword_told (levels : Nat) {k k' : KeywordLine} {rest' : List Char}
    (h : T.Rows n r r' p ln p' ln')
    (hkeyword : T.KeywordLines n p ln.content p' ln'.content k k' rest rest')
    (hrest : c.rest = r.tokens) (hrest' : c'.rest = r'.tokens) :
    T.MatchingRuns n T.Headers (header (expression levels)) c c' := by
  obtain ⟨rest₀, hbody, hafter, -, hmore⟩ := h.left.keyword hkeyword.keyword
  obtain ⟨rest₁, hbody', hafter', -, hmore'⟩ := h.right.keyword hkeyword.keyword'
  obtain rfl : rest = rest₀ := append_cancel_left (cons.inj (hkeyword.body.symm.trans hbody)).2
  obtain rfl : rest' = rest₁ :=
    append_cancel_left (cons.inj (hkeyword.body'.symm.trans hbody')).2
  obtain ⟨hbehind, hvalue⟩ := h.left.header_eq hkeyword.keyword hmore hrest (expression levels)
  obtain ⟨hbehind', hvalue'⟩ := h.right.header_eq hkeyword.keyword' hmore' hrest'
    (expression levels)
  obtain ⟨hlast, hargument⟩ := advance_keyword h.left hkeyword.keyword hrest hafter hbehind
  obtain ⟨hlast', hargument'⟩ := advance_keyword h.right hkeyword.keyword' hrest' hafter' hbehind'
  rw [hkeyword.isSub] at hvalue'
  have hline : k.nameSpan.stop.line = p.line := by
    obtain ⟨-, -, -, hstart, -⟩ := keywordLine?_eq_some hkeyword.keyword
    show (k.nameStart.advance k.name).line = p.line
    rw [hstart]
    rfl
  have hinline : ∀ piece ∈ ofArgument rest, piece.isInline := fun _ => isInline_of_mem_ofArgument
  have hcoupled : c.advance.advance.Coupled (T.coupling p.line) false
      (2 * ((place k.nameSpan.stop (ofArgument rest)).map T.load).sum) c'.advance.advance := by
    have hends := h.coupled hbehind hbehind' hkeyword.tokens
      (fun t ht => isStructural_of_mem_place hinline ht) (fun t ht => ?_) hkeyword.stop hline
    · have hself : c.advance.advance.endingAt k.nameSpan.stop = c.advance.advance := by
        rw [← hlast]
        rfl
      have hself' : c'.advance.advance.endingAt k'.nameSpan.stop = c'.advance.advance := by
        rw [← hlast']
        rfl
      rwa [hself, hself'] at hends
    · obtain ⟨xs, ys, -, hspan⟩ := isCut_of_mem_place hinline ht
      rw [hspan]
      exact ⟨hline, hline⟩
  obtain ⟨m, j, y, harg, hafter, hpass, hpaid⟩ := outcome_headerArgument levels
    k.isSub hcoupled hkeyword.load hkeyword.lower hkeyword.name (by
      intro hcolon hnext
      have hcolon' := ((T.coupling p.line).kind hcoupled.current).trans hcolon
      obtain ⟨z, -, hcolons⟩ := hcoupled.advance (.of_kind hcolon rfl)
      have hnext' :=
        (congrArg Token.Kind.isStructural ((T.coupling p.line).kind hcolons.current)).trans hnext
      obtain ⟨hne, hbefore⟩ := hargument hcolon hnext
      obtain ⟨hne', hbefore'⟩ := hargument' hcolon' hnext'
      exact ⟨_, _, _, _, hne, hne', line_anchor hkeyword.keyword, hbefore,
        hbefore', hkeyword.argument, hkeyword.argument_load⟩)
  obtain ⟨new, new', hnew, hnew', htally⟩ := hpass.diagnostics
  rw [diagnostics_advance, diagnostics_advance] at hnew hnew'
  refine ⟨m, j, by omega, ?_, ?_, new, new', ?_, ?_, htally⟩
  · rw [hvalue, hvalue']
    refine (weighs_argument harg _ _).imp fun hsame => ?_
    rw [Header.reshape, Header.reshape, hsame, hkeyword.name,
      T.span_eq hkeyword.start hkeyword.stop]
  · rw [hvalue, hvalue']
    exact (coupled_skipLine hafter).1.lastEnd.1
  · rw [hvalue]
    exact hnew
  · rw [hvalue']
    exact hnew'

end Reading

section Pairing

open ScriptLint.Parser

theorem Rows.first (h : T.Rows n r r' p ln p' ln') :
    r'.first.kind = r.first.kind ∧ T.near r.first.span.start r'.first.span.start := by
  rcases h.lines.content with hplain | ⟨k, k', rest, rest', hkeyword⟩
  · have htokens := hplain.tokens
    rw [lineTokens, lineTokens, ← h.left.place_body, ← h.right.place_body] at htokens
    cases htokens with
    | cons hfirst _ => exact ⟨T.kind hfirst, T.near_start hfirst⟩
  · obtain ⟨-, -, -, hfirst, -⟩ := h.left.keyword hkeyword.keyword
    obtain ⟨-, -, -, hfirst', -⟩ := h.right.keyword hkeyword.keyword'
    rw [hfirst, hfirst']
    exact ⟨rfl, hkeyword.margin⟩

theorem Rows.alike (h : T.Rows n r r' p ln p' ln') : r.Alike r' := by
  refine ⟨h.left.fills, h.right.fills, h.first.1, fun hkind => ?_⟩
  rcases h.lines.content with hplain | ⟨k, k', rest, rest', hkeyword⟩
  · exact absurd (.inl hkind) (h.left.no_keyword hplain.plain)
  · obtain ⟨_, -, -, -, hmore⟩ := h.left.keyword hkeyword.keyword
    obtain ⟨_, -, -, -, hmore'⟩ := h.right.keyword hkeyword.keyword'
    rw [hmore, hmore', hkeyword.isSub]
    rfl

/-- Lines that do not begin as those of keywords do correspond token by token. -/
theorem Rows.plain (h : T.Rows n r r' p ln p' ln') (hkind : ¬ IsHeaderStart r.first.kind) :
    T.PlainLines n p ln.content p' ln'.content := by
  rcases h.lines.content with hplain | ⟨k, k', rest, rest', hkeyword⟩
  · exact hplain
  · obtain ⟨-, -, -, hfirst, -⟩ := h.left.keyword hkeyword.keyword
    refine absurd ?_ hkind
    rw [hfirst]
    exact .inl rfl

section MatchingRuns

variable (h : T.Rows n r r' p ln p' ln') (levels : Nat) (hrest : c.rest = r.tokens)
  (hrest' : c'.rest = r'.tokens)

include h hrest hrest'

theorem Rows.header_told (hkind : IsHeaderStart r.first.kind) :
    T.MatchingRuns n T.Headers (header (expression levels)) c c' := by
  rcases h.lines.content with hplain | ⟨k, k', rest, rest', hkeyword⟩
  · exact absurd hkind (h.left.no_keyword hplain.plain)
  · exact h.keyword_told levels hkeyword hrest hrest'

theorem Rows.content_told (hkind : IsTextStart r.first.kind) :
    T.MatchingRuns n T.Contents (textContent (expression levels)) c c' := by
  have hplain := h.plain hkind.not_header
  have hkind' : c'.AtContent :=
    .of_current (current_of_rest hrest') (by rw [h.alike.kind]; exact hkind.content)
  have hread := (couples_textContent (T.couples_expression p.line levels)).run
    (h.coupled_plain hplain hrest hrest')
  rw [textContent_endingAt (.of_current (current_of_rest hrest) hkind.content),
    textContent_endingAt hkind'] at hread
  obtain ⟨m, j, hpaid, hvalue, hadds⟩ := matchingRuns_of_outcome hread hplain.load
  exact ⟨m, j, hpaid, contents_of_content hvalue, hadds⟩

theorem Rows.expression_told (hkind : r.first.kind = .expressionStart) :
    T.MatchingRuns n (T.coupling p.line).Single (expressionLine (expression levels)) c c' := by
  have hplain := h.plain (by simp [hkind, IsHeaderStart])
  have hcontent : c.AtContent :=
    .of_current (current_of_rest hrest) (by rw [hkind]; rfl)
  have hcontent' : c'.AtContent :=
    .of_current (current_of_rest hrest') (by rw [h.alike.kind, hkind]; rfl)
  have hcoupled := h.coupled_plain hplain hrest hrest'
  have hread := couplesAt_expressionLine (T.couples_expression p.line levels)
      hcoupled.current hcontent
    _ _ _ hcoupled rfl rfl
  rw [expressionLine_endingAt hcontent, expressionLine_endingAt hcontent'] at hread
  exact matchingRuns_of_outcome hread hplain.load

theorem Rows.comment_told (hkind : r.first.kind = .commentStart ∨ r.first.kind = .comment) :
    T.MatchingRuns n (T.coupling p.line).Single comment c c' := by
  have hstart := (h.left.comment hkind).1
  have hplain := h.plain (by simp [hstart, IsHeaderStart])
  have hread := (couples_comment (C := T.coupling p.line)).run (h.coupled_plain hplain hrest hrest')
  rw [comment_endingAt (by rw [current_of_rest hrest, hstart]),
    comment_endingAt (by rw [current_of_rest hrest', h.alike.kind, hstart])] at hread
  exact matchingRuns_of_outcome hread hplain.load

end MatchingRuns

variable (T) in
/-- Lines that are told again are paired. -/
def pairing : LinePairing Nat where
  left := .anything
  right := .anything
  line _ n r r' := ∃ p ln p' ln', T.Rows n r r' p ln p' ln'
  record := T.Records
  indent t t' := T.near t.span.start t'.span.start ∧ T.near t.span.stop t'.span.stop
  place := T.near
  header := T.Headers
  content := T.Contents
  statement := T.Statements
  subKeyword := T.SubKeywords
  alike := by
    rintro l n r r' ⟨p, ln, p', ln', hrows⟩
    exact hrows.alike
  start := by
    rintro l n r r' ⟨p, ln, p', ln', hrows⟩
    exact hrows.first.2
  lastEnd h := h.lastEnd
  stray := by
    rintro g s s' t t' ⟨hlast, m, hm, htally⟩ ⟨hstart, hstop⟩
    have hfault : T.Diagnostics 0 ⟨.unexpectedIndentation, t.span⟩
        ⟨.unexpectedIndentation, t'.span⟩ :=
      ⟨hstart, fun _ => ⟨.inl rfl, T.span_eq hstart hstop⟩⟩
    refine ⟨hlast, 0 + m, by omega, .cons hfault htally⟩
  reads_header := by
    rintro l g h r r' c c' ⟨p, ln, p', ln', hrows⟩ hrecord hrest hrest' hkind
    obtain ⟨m, j, hpaid, hheader, hadds⟩ := hrows.header_told l hrest hrest' hkind
    exact ⟨g - j, j + h, by omega, hheader.mono (by omega), hrecord.add hadds⟩
  reads_content := by
    rintro l g h r r' c c' ⟨p, ln, p', ln', hrows⟩ hrecord hrest hrest' hkind
    obtain ⟨m, j, hpaid, hcontent, hadds⟩ := hrows.content_told l hrest hrest' hkind
    exact ⟨g - j, j + h, by omega, ⟨hcontent.weighs.mono (by omega), hcontent.start⟩,
      hrecord.add hadds⟩
  reads_expression := by
    rintro l g h r r' c c' ⟨p, ln, p', ln', hrows⟩ hrecord hrest hrest' hkind
    obtain ⟨m, j, hpaid, hvalue, hadds⟩ := hrows.expression_told l hrest hrest' hkind
    exact ⟨g - j, j + h, by omega, (statements_of_single hvalue).mono (by omega), hrecord.add hadds⟩
  reads_comment := by
    rintro l g h r r' c c' ⟨p, ln, p', ln', hrows⟩ hrecord hrest hrest' hkind
    obtain ⟨m, j, hpaid, hvalue, hadds⟩ := hrows.comment_told hrest hrest' hkind
    exact ⟨g - j, j + h, by omega, (statements_of_single hvalue).mono (by omega), hrecord.add hadds⟩
  keyword := by
    intro x y z h h' subs subs' body body' p p' q q' hheader hsubs hbody hp hq
    have hall := hheader.append ((weighs_subKeywords hsubs).append (weighs_statements hbody))
    rw [← append_assoc] at hall
    refine .cons (hall.imp ?_) rfl
    rintro ⟨hheader, hsubs, hbody⟩
    rw [Statement.reshape, Statement.reshape, hheader, hsubs, hbody, T.between_eq hp.1 hq.1]
  sub := by
    intro x z h h' body body' p p' q q' hheader hbody hp hq
    refine .cons ((hheader.append (weighs_statements hbody)).imp ?_) rfl
    rintro ⟨hheader, hbody⟩
    rw [SubKeyword.reshape, SubKeyword.reshape, hheader, hbody, T.between_eq hp.1 hq.1]
  text := by
    intro x t t' ht
    refine .cons ((Weighs.of_cons ht.weighs rfl).imp fun hsame => ?_) rfl
    rw [Statement.reshape, Statement.reshape, hsame]
  answer := by
    intro x z t t' body body' q q' ht _ hbody hq
    refine .cons ((ht.weighs.append (weighs_statements hbody)).imp ?_) rfl
    rintro ⟨hlabel, hbody⟩
    rw [Statement.reshape, Statement.reshape, hlabel, hbody, T.between_eq ht.start hq.1]

end Pairing

section Sources

variable {source source' : String}

theorem tally_reverse {ds ds' : List Diagnostic} (h : Tally T.Diagnostics n ds ds') :
    Tally T.Diagnostics n ds.reverse ds'.reverse := by
  induction h with
  | nil => exact .nil
  | cons head _ ih =>
    rw [reverse_cons, reverse_cons, Nat.add_comm]
    exact ih.snoc head

/-- Two lines at their places correspond, or are both blank. -/
structure Placed (T : Retelling) (n : Nat) (line line' : Position × Line) : Prop where
  ending : line'.2.ending = [] ↔ line.2.ending = []
  content : (n = 0 ∧ allBlank line.2.content ∧ allBlank line'.2.content) ∨
    (allBlank line.2.content = false ∧ allBlank line'.2.content = false ∧
      tabCount line'.2.content = tabCount line.2.content ∧
      T.Lines n line.1 line.2 line'.1 line'.2)

/-- Lines that correspond one by one are rows that do, whatever it is that makes two lines
correspond. -/
theorem rows_of_tally {R : Nat → Position × Line → Position × Line → Prop}
    {lines : Nat → Position → Line → Position → Line → Prop}
    (hR : ∀ {n line line'}, R n line line' → (line'.2.ending = [] ↔ line.2.ending = []) ∧
      ((n = 0 ∧ allBlank line.2.content ∧ allBlank line'.2.content) ∨
        (allBlank line.2.content = false ∧ allBlank line'.2.content = false ∧
          tabCount line'.2.content = tabCount line.2.content ∧
          lines n line.1 line.2 line'.1 line'.2)))
    {levels : List Nat} {left : Nat} {p p' : Position} {ls ls' : List Line}
    (h : Tally R n (placedLines p ls) (placedLines p' ls'))
    (hending : Ended ls) :
    ScriptLint.Rows (fun _ => lines) levels left n p ls p' ls' := by
  induction ls generalizing levels left n p p' ls' with
  | nil =>
    cases ls' with
    | nil =>
      cases h
      exact .nil
    | cons => cases h
  | cons line ls ih =>
    have hlast := eq_nil_of_ending_eq_nil hending
    cases ls' with
    | nil => cases h
    | cons line' ls' =>
      cases h with
      | cons head tail =>
        obtain ⟨hends, hcontent⟩ := hR head
        have hlast' : line'.ending = [] → ls' = [] := by
          intro hnil
          rw [hlast (hends.1 hnil)] at tail
          cases ls' with
          | nil => rfl
          | cons => cases tail
        rcases hcontent with ⟨rfl, hblank, hblank'⟩ | ⟨hwritten, hwritten', htabs, hlines⟩
        · rw [Nat.zero_add]
          exact .blank_left hblank hlast (.blank_right hblank' hlast' (ih tail hending.of_cons))
        · exact .line hwritten hwritten' htabs hlast hlast' hends hlines (ih tail hending.of_cons)

/-- **A source told again.**  If the lines of two sources correspond, their programs and the faults
that are found in them do: the identifiers of the first program and its faults carry no more than
the lines, and where all is carried by the identifiers the programs are the same up to the two
reshapes. -/
theorem parse_told (T : Retelling) (hlines : Tally T.Placed n (linesOf source) (linesOf source'))
    (hstart : T.near (ofSource source).lastEnd (ofSource source').lastEnd) :
    ∃ x y, x + y = n ∧
      T.Weighs x (Statement.nodesOfList (parse source).program.body)
        (Statement.reshapeList T.before (parse source).program.body =
          Statement.reshapeList T.after (parse source').program.body) ∧
      ∃ m, m ≤ y ∧ Tally T.Diagnostics m (parse source).diagnostics
        (parse source').diagnostics := by
  have hpaired : Paired T.pairing.line T.pairing.indent maxDepth n (tokenize source)
      (tokenize source') := by
    rw [tokenize_eq_firstLine, tokenize_eq_firstLine source']
    refine paired_ofLines (Nat.le_refl maxDepth) ?_ ?_
      (rows_of_tally (fun h => ⟨h.ending, h.content⟩) hlines (pairwise_ending_lines _))
    · intro l n p ln p' ln' r r' hlines hleft hright hends hends' hkinds
      exact ⟨p, ln, p', ln', hlines, hleft, hright, hends, hends', hkinds⟩
    · intro l n p ln p' ln' hlines
      exact ⟨hlines.start, hlines.tabs⟩
  have hrecord : T.Records 0 (ofSource source).record (ofSource source').record :=
    ⟨hstart, 0, Nat.le_refl 0, .nil⟩
  obtain ⟨x, y, hxy, hbody, hend⟩ := T.pairing.gives_programBody
    ⟨n, 0, rfl, hpaired, hrecord⟩ ⟨supplied_anything _, supplied_anything _⟩
  obtain ⟨m, hm, htally⟩ := hend.diagnostics
  exact ⟨x, y, hxy, weighs_statements hbody, m, hm, tally_reverse htally⟩

end Sources

end Retelling
end ScriptLint

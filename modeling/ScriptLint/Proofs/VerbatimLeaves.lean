import ScriptLint.Proofs.WordPlaces
import Mathlib.Algebra.Order.PUnit

/-!
# Leaves as they are written

The names, numbers, runs of text and comments of a program are texts of the source, each at the
place that the program gives for it.  They come into the program by three ways.  Tokens of a line
are cut from the line.  What is between the braces of a string is cut once more, from the place
behind the brace.  An argument that is an expression is put together again from its tokens before it
is cut, and then spaces may stand where the source has tabs; but names and numbers hold no white
space.

**Results.**
* `Parser.isWritten_textContent`, `Parser.isWritten_header`, …: what is read from one line.
* `slice?_of_mem_leaves`: the leaves of a program.
-/

namespace ScriptLint

open List Text

open Piece

/-- What a node itself holds of the source, with the places it gives.  The mark of a comment is not
a part of its text, but its place begins there. -/
def Node.leaves : Node → List (String × Span)
  | .expression (.identifier name span) => [(name, span)]
  | .expression (.member _ name _ _) => [(name.text, name.span)]
  | .expression (.literal (.number _) raw _ span) => [(raw, span)]
  | .statement (.keyword header _ _ _) => [(header.name, header.nameSpan)]
  | .subKeyword (.mk header _ _) => [(header.name, header.nameSpan)]
  | .statement (.text words) => words.passages
  | .content words => words.passages
  | .statement (.comment text span) => [("--" ++ text, span)]
  | _ => []

/-- The text stands in the source at the place. -/
def IsWritten (source : String) (leaf : String × Span) : Prop :=
  slice? source.toList leaf.2.start.offset leaf.2.stop.offset = some leaf.1.toList

/-- The node holds what is written in the source. -/
def Node.IsWritten (source : String) (node : Node) : Prop :=
  ∀ leaf ∈ node.leaves, ScriptLint.IsWritten source leaf

section Cuts

variable {source : String} {before u w after : List Char} {p : Position} {t : Token}

/-- A token that is cut from a part of the source stands in the source. -/
theorem isWritten_of_isCut (hsource : source.toList = before ++ u ++ after)
    (hp : p.offset = byteLength before) (h : t.IsCut u p) : IsWritten source (t.text, t.span) := by
  obtain ⟨xs, ys, rfl, hspan⟩ := h
  have hstart : t.span.start.offset = byteLength (before ++ xs) := by
    rw [hspan, byteLength_append, ← hp]
    rfl
  have hstop : t.span.stop.offset = byteLength (before ++ xs) + byteLength t.text.toList := by
    rw [hspan, byteLength_append, Nat.add_assoc, ← byteLength_append, ← hp]
    rfl
  have hsplit : source.toList = (before ++ xs) ++ t.text.toList ++ (ys ++ after) := by
    rw [hsource]
    simp
  show slice? source.toList t.span.start.offset t.span.stop.offset = some t.text.toList
  rw [hstart, hstop, hsplit]
  exact slice?_append _ _ _

/-- A token without spaces is cut from a text as it is from the text with spaces for tabs. -/
theorem Token.IsCut.of_fills (h : t.IsCut w p) (hfills : Fills u w)
    (hspace : ' ' ∉ t.text.toList) :
    t.IsCut u p := by
  obtain ⟨xs, ys, rfl, hspan⟩ := h
  obtain ⟨us, ys', rfl, hus, -⟩ := hfills.of_append
  obtain ⟨xs', text', rfl, hxs, htext⟩ := hus.of_append
  obtain rfl := htext.eq_of_not_mem hspace
  refine ⟨xs', ys', rfl, ?_⟩
  rw [hspan, Position.advance_eq_of_widths_eq hxs.widths,
    Position.advance_eq_of_widths_eq hus.widths]

/-- Words and numbers hold no spaces. -/
def Token.IsCompact (t : Token) : Prop :=
  t.kind = .identifier ∨ t.kind = .number → ' ' ∉ t.text.toList

theorem space_not_mem_number {c : Char} {rest : List Char} (h : (tokenShape c rest).1 = .number) :
    ' ' ∉ c :: rest.take (tokenShape c rest).2 := by
  have hdigit : c.isDigit := by
    by_contra hnot
    rw [tokenShape, if_neg hnot] at h
    split at h
    · split at h <;> cases h
    · split at h
      · dsimp only at h
        split at h <;> cases h
      · split at h
        · cases h
        · split at h
          · cases h
          · split at h <;> cases h
  rw [tokenShape, if_pos hdigit]
  intro hmem
  rcases mem_cons.1 hmem with rfl | hmem
  · cases hdigit
  · rcases isDigit_of_mem_number rest ' ' hmem with hspace | hspace <;> cases hspace

theorem space_not_mem_of_mem_ofExpression {comments : Bool} {cs text : List Char}
    (h : token .number text ∈ ofExpression comments cs) : ' ' ∉ text := by
  rcases mem_ofExpression h with ⟨_, _, ⟨⟩⟩ | ⟨-, _, h⟩ | ⟨c, rest, -, h⟩
  · simp [ofComment] at h
  · obtain ⟨hkind, rfl⟩ := token.inj h
    exact space_not_mem_number hkind.symm

theorem isCompact_of_mem_tokenizeExpression {run : List Char} (hrun : OneLine run)
    (h : t ∈ tokenizeExpression (String.ofList run) p) : t.IsCompact := by
  rw [tokenizeExpression_of_inline hrun] at h
  obtain ⟨xs, kind, cs, ys, hpieces, rfl⟩ := mem_place h
  show kind = .identifier ∨ kind = .number → ' ' ∉ (String.ofList cs).toList
  rw [String.toList_ofList]
  rintro (rfl | rfl)
  · obtain ⟨hword, -⟩ := separates_ofExpression true run xs cs ys hpieces
    exact fun hspace => absurd (hword.chars ' ' hspace) (by decide)
  · have hmem : token .number cs ∈ ofExpression true run := by
      rw [hpieces]
      simp
    exact space_not_mem_of_mem_ofExpression hmem

end Cuts

section Leaves

variable {S : Supply} {node : Node} {leaf : String × Span}

/-- What a part of an expression holds is a word or a number. -/
theorem exists_token_of_isTerm (h : node.IsCut S) (hterm : node.isTerm)
    (hleaf : leaf ∈ node.leaves) :
    ∃ t, S.token t ∧ (t.kind = .identifier ∨ t.kind = .number) ∧ leaf = (t.text, t.span) := by
  cases node with
  | expression e =>
    cases e with
    | identifier name span =>
      obtain ⟨t, ht, hkind, rfl, rfl⟩ := h
      exact ⟨t, ht, .inl hkind, mem_singleton.1 hleaf⟩
    | member object property namespaced span =>
      obtain ⟨t, ht, hkind, htext, hspan⟩ := h
      exact ⟨t, ht, .inl hkind, by rw [← htext, ← hspan]; exact mem_singleton.1 hleaf⟩
    | literal value raw inside span =>
      cases value with
      | number n =>
        obtain ⟨t, ht, hkind, rfl, rfl⟩ := h
        exact ⟨t, ht, .inr hkind, mem_singleton.1 hleaf⟩
      | _ => cases hleaf
    | _ => cases hleaf
  | property property => cases hleaf
  | _ => cases hterm

/-- What a part of a line holds is a token of the line. -/
theorem exists_token_of_isInner (h : node.IsCut S) (hinner : node.isInner)
    (hleaf : leaf ∈ node.leaves) :
    ∃ t, S.token t ∧ t.kind.isStructural = false ∧ leaf = (t.text, t.span) := by
  cases hterm : node.isTerm with
  | true =>
    obtain ⟨t, ht, hkind, rfl⟩ := exists_token_of_isTerm h hterm hleaf
    exact ⟨t, ht, by rcases hkind with hkind | hkind <;> rw [hkind] <;> rfl, rfl⟩
  | false =>
    cases node with
    | content content => exact h leaf hleaf
    | argument argument => cases hleaf
    | expression e => cases hterm
    | property property => cases hterm
    | _ => cases hinner

end Leaves

/-- An argument that is put together again holds no text, but an expression. -/
theorem isTerm_of_mem_readArgument {levels : Nat} {isLoop : Bool} {text : List Char}
    {p : Position} {node : Node}
    (h : node ∈ (readArgument levels isLoop text p).1.nodes) {leaf : String × Span}
    (hleaf : leaf ∈ node.leaves) : node.isTerm := by
  rcases mem_cons.1 h with rfl | h
  · cases hleaf
  · have hterm : ∀ {e : Expression}, node ∈ e.nodes → node.isTerm := fun {e} hmem =>
      all_eq_true.1 e.isTerm_nodes node hmem
    cases isLoop with
    | true =>
      rcases mem_append.1 h with h | h
      · obtain ⟨e, -, hmem⟩ := mem_flatMap.1 h
        exact hterm hmem
      · exact hterm h
    | false => exact hterm h

namespace Parser

section Lines

variable {source : String} {site : Site} {r : Row} {c : Cursor} {levels : Nat} {ts : List Token}

theorem comment_of_rest {mark body : Token} {after : List Token}
    (hrest : c.rest = mark :: body :: after)
    (hmark : mark.kind = .commentStart) (hbody : body.kind = .comment) :
    (comment c).1 = .comment body.text (Span.between mark.span.start body.span.stop) := by
  have hrest' : c.advance.rest = body :: after := by
    rw [Cursor.rest_advance, hrest]
    rfl
  have hcurrent : c.advance.current = body := Cursor.current_of_rest hrest'
  have htext : commentText c.advance = (body.text, c.advance.advance) := by
    show (if (c.advance.current.kind == .comment) = true then _ else _ : Parser String)
        c.advance = _
    rw [if_pos (by rw [hcurrent, hbody]; rfl)]
    show (c.advance.current.text, c.advance.advance) = _
    rw [hcurrent]
  have hend : c.advance.advance.lastEnd = body.span.stop := by
    have hadvance : c.advance.advance = { c.advance.drop 1 with lastEnd :=
        c.advance.current.span.stop } :=
      if_neg (by rw [hcurrent, hbody]; exact nofun)
    rw [hadvance, hcurrent]
  unfold comment peek
  simp only [bind]
  rw [skipKind_of_kind (by rw [Cursor.current_of_rest hrest, hmark]), htext]
  show Statement.comment body.text (Span.between c.current.span.start c.advance.advance.lastEnd) = _
  rw [hend, Cursor.current_of_rest hrest]

variable (hsite : site ∈ sites source)

/-- The tokens of a line of the source. -/
def lineSupply : Supply :=
  .ofCuts site.content site.start (isLineEnd_of_mem_sites hsite) (fun _ => True)
    fun _ _ _ => trivial

include hsite

theorem isWritten_of_isCut_line {node : Node} (hinner : node.isInner)
    (h : node.IsCut (lineSupply hsite)) : node.IsWritten source := by
  intro leaf hleaf
  obtain ⟨t, ht, hkind, rfl⟩ := exists_token_of_isInner h hinner hleaf
  obtain ⟨before, after, hsource, hoffset⟩ := split_of_mem_sites hsite
  exact isWritten_of_isCut hsource hoffset (ht hkind).1

variable (h : r.Holds site.start site.content)

include h

/-- Tokens from the end of a line are of its supply. -/
theorem suppliedLine_lineSupply (hts : ∀ t ∈ ts, t ∈ r.first :: r.more)
    (hrest : c.rest = ts ++ r.after) : c.SuppliedLine (lineSupply hsite) := by
  obtain ⟨u, us, hafter, hkind, -, -⟩ := h.ending
  refine Cursor.suppliedLine_of_tokens hrest (fun t ht => ?_) ⟨u, us, hafter, hkind, ?_⟩
    (fun _ _ => trivial) trivial
  · obtain ⟨hlayout, hcut⟩ := isCut_of_mem_row h (hts t ht)
    exact ⟨hlayout, fun _ => ⟨hcut, trivial⟩⟩
  · exact fun hnot => absurd (hkind.symm.trans hnot) nofun

theorem isWritten_textContent (hts : ∀ t ∈ ts, t ∈ r.first :: r.more)
    (hrest : c.rest = ts ++ r.after) :
    ∀ node ∈ (textContent (expression levels) c).1.nodes, node.IsWritten source := by
  have hread := runs_textContent levels (suppliedLine_lineSupply hsite h hts hrest)
  intro node hnode
  exact isWritten_of_isCut_line hsite (all_eq_true.1 (TextContent.isInner_nodes _) node hnode)
    (hread.value.1.nodes node hnode).cut

theorem isWritten_expressionLine (hrest : c.rest = r.tokens)
    (hkind : r.first.kind.isStructural = false) :
    ∀ node ∈ (expressionLine (expression levels) c).1.nodes, node.IsWritten source := by
  have hread := runs_expressionLine levels (by rwa [← Cursor.current_of_rest hrest] at hkind)
    (suppliedLine_lineSupply hsite h (fun t ht => ht) hrest)
  refine forall_mem_cons.2 ⟨nofun, fun node hnode => ?_⟩
  exact isWritten_of_isCut_line hsite (all_eq_true.1 (Expression.isInner_nodes _) node hnode)
    (hread.value node (mem_cons_of_mem _ hnode)).cut

/-- The text of a comment stands behind its mark, up to the end of the line. -/
theorem isWritten_comment (hrest : c.rest = r.tokens) (hkind : r.first.kind = .commentStart) :
    ∀ node ∈ (comment c).1.nodes, node.IsWritten source := by
  obtain ⟨-, text, hbody, hplace⟩ := h.comment (.inl hkind)
  obtain ⟨before, after, hsource, hoffset⟩ := split_of_mem_sites hsite
  let q := site.start.advance (site.content.takeWhile isGap)
  let stop := q.advance ('-' :: '-' :: text)
  have hvalue : (comment c).1 = .comment (String.ofList text) ⟨q, stop⟩ := by
    have hstop : (q.advance ['-', '-']).advance text = stop := Position.advance_advance _ _ _
    have htokens : c.rest = ⟨.commentStart, "--", ⟨q, q.advance ['-', '-']⟩⟩ ::
        ⟨.comment, String.ofList text, ⟨q.advance ['-', '-'], stop⟩⟩ :: r.after := by
      have hrest : c.rest = (r.first :: r.more) ++ r.after := hrest
      rw [hrest, hplace, ← hstop]
      rfl
    have hle : ¬ stop.offset < q.offset := Nat.not_lt.2 (Nat.le_add_right _ _)
    rw [comment_of_rest htokens rfl rfl, Span.between, if_neg hle]
  have hcut : Token.IsCut site.content site.start
      ⟨.comment, "--" ++ String.ofList text, ⟨q, stop⟩⟩ := by
    have htext : ("--" ++ String.ofList text).toList = '-' :: '-' :: text := by simp
    refine ⟨site.content.takeWhile isGap, [], ?_, ?_⟩
    · rw [htext, append_nil, ← hbody, takeWhile_append_dropWhile]
    · rw [htext, ← Position.advance_advance]
  rw [hvalue]
  intro node hnode leaf hleaf
  obtain rfl := mem_singleton.1 hnode
  obtain rfl := mem_singleton.1 hleaf
  exact isWritten_of_isCut hsource hoffset hcut

omit h in
/-- An argument that is put together again holds names and numbers as they are written. -/
theorem isWritten_readArgument {k : KeywordLine}
    (hk : keywordLine? site.start site.content = some k) (isLoop : Bool) :
    ∀ node ∈ (readArgument levels isLoop (filledText k.argument) k.anchor).1.nodes,
      node.IsWritten source := by
  obtain ⟨before, after, hsource, hoffset⟩ := split_of_keywordLine? hsite hk
  have hinline : OneLine (filledText k.argument) :=
    isLineEnd_filledText fun d hd => isLineEnd_of_mem_sites hsite d (mem_of_mem_argument hk hd)
  let S : Supply := .ofCuts (filledText k.argument) k.anchor hinline Token.IsCompact
    fun hrun _ hu => isCompact_of_mem_tokenizeExpression hrun hu
  have htokens : ∀ u ∈ tokenizeExpression (String.ofList (filledText k.argument)) k.anchor,
      S.token u :=
    fun u hu _ =>
      ⟨isCut_of_mem_tokenizeExpression hinline hu, isCompact_of_mem_tokenizeExpression hinline hu⟩
  have hread := (readArgument_supplied htokens (fun _ _ => trivial) trivial levels isLoop).1
  intro node hnode leaf hleaf
  obtain ⟨t, ht, hkind, rfl⟩ :=
    exists_token_of_isTerm (hread node hnode).cut (isTerm_of_mem_readArgument hnode hleaf) hleaf
  obtain ⟨hcut, hcompact⟩ := ht (by rcases hkind with hkind | hkind <;> rw [hkind] <;> rfl)
  exact isWritten_of_isCut hsource hoffset (hcut.of_fills (fills_filledText _) (hcompact hkind))

/-- The argument of a keyword that is a text holds what is written on the line. -/
theorem isWritten_headerArgument {k : KeywordLine} (htakes : k.takesExpression = false)
    {rest : List Char} {q : Position} (hargument : k.argument = argumentAfter rest)
    (htokens : ∀ t ∈ place q (ofArgument rest), t ∈ r.first :: r.more)
    (hrest : c.rest = place q (ofArgument rest) ++ r.after) {argument : Argument}
    (hvalue : (headerArgument (expression levels) (String.ofList k.name) k.isSub c).1 =
      some argument) :
    ∀ node ∈ argument.nodes, node.IsWritten source := by
  obtain ⟨u, us, hafter, hlayout, -⟩ := h.ending
  rw [headerArgument_eq] at hvalue
  split at hvalue
  · next hcolon =>
    rw [argument_eq] at hvalue
    split at hvalue
    · cases hvalue
    · next hnext =>
      have hne := argumentAfter_ne_nil hrest h.layout hcolon (Bool.eq_false_iff.2 hnext)
      split at hvalue
      · next hexpression =>
        rw [KeywordLine.takesExpression, hexpression, hargument] at htakes
        simp [hne] at htakes
      · cases hvalue
        cases hplace : place q (ofArgument rest) with
        | nil =>
          rw [hplace, hafter] at hrest
          rw [Cursor.current_of_rest hrest] at hcolon
          rw [hcolon] at hlayout
          cases hlayout
        | cons colon ts =>
          have hrest' : c.advance.rest = ts ++ r.after := by
            rw [Cursor.rest_advance, hrest, hplace]
            rfl
          refine forall_mem_cons.2 ⟨by rintro _ ⟨⟩, isWritten_textContent hsite h ?_ hrest'⟩
          intro t ht
          exact htokens t (by rw [hplace]; exact mem_cons_of_mem colon ht)
  · split at hvalue <;> cases hvalue

/-- The name of a header and what its argument holds stand on the line. -/
theorem isWritten_header (hrest : c.rest = r.tokens) (hkind : IsHeaderStart r.first.kind) :
    ScriptLint.IsWritten source ((header (expression levels) c).1.name,
      (header (expression levels) c).1.nameSpan) ∧
      ∀ node ∈ (header (expression levels) c).1.nodes, node.IsWritten source := by
  obtain ⟨k, hk, -⟩ := h.exists_keyword hkind
  obtain ⟨before, after, hsource, hoffset⟩ := split_of_mem_sites hsite
  obtain ⟨rest, -, hargument, -, hmore⟩ := h.keyword hk
  have hname : ScriptLint.IsWritten source (String.ofList k.name, k.nameSpan) := by
    let name : Token :=
      ⟨if k.isSub then .subKeyword else .keyword, String.ofList k.name, k.nameSpan⟩
    have hmem : name ∈ r.first :: r.more := by
      rw [hmore]
      exact mem_cons_of_mem _ mem_cons_self
    exact isWritten_of_isCut hsource hoffset (isCut_of_mem_row h hmem).2
  cases htakes : k.takesExpression with
  | true =>
    rw [(h.header_of_takesExpression hk htakes hrest levels).1]
    exact ⟨hname, isWritten_readArgument hsite hk k.isLoop⟩
  | false =>
    obtain ⟨hbehind, hheader⟩ := h.header_eq hk hmore hrest (expression levels)
    rw [hheader]
    refine ⟨hname, ?_⟩
    unfold Header.nodes
    split
    · exact forall_mem_nil _
    · next argument hvalue =>
      refine isWritten_headerArgument hsite h htakes hargument (fun t ht => ?_) hbehind hvalue
      rw [hmore]
      exact mem_cons_of_mem _ (mem_cons_of_mem _ ht)

end Lines

end Parser

section Programs

variable {source : String}

theorem isWritten_nodesOfList {g : Unit} {body body' : List Statement}
    (h : Tally (fun _ s _ => ∀ node ∈ s.nodes, node.IsWritten source) g body body') :
    ∀ node ∈ Statement.nodesOfList body, node.IsWritten source := by
  induction h with
  | nil => exact nofun
  | cons head _ ih => exact forall_mem_append.2 ⟨head, ih⟩

theorem isWritten_subKeywords {g : Unit} {subs subs' : List SubKeyword}
    (h : Tally (fun _ s _ => ∀ node ∈ s.nodes, node.IsWritten source) g subs subs') :
    ∀ node ∈ SubKeyword.nodesOfList subs, node.IsWritten source := by
  induction h with
  | nil => exact nofun
  | cons head _ ih => exact forall_mem_append.2 ⟨head, ih⟩

/-- The lines of a source beside themselves, and what is read from them. -/
def writtenLines (source : String) : Parser.LinePairing Unit where
  left := .anything
  right := .anything
  line l _ r r' := ∃ site ∈ sites source, site.levels = l ∧ site.Held r r'
  record _ _ _ := True
  indent _ _ := True
  place _ _ := True
  header _ h _ := IsWritten source (h.name, h.nameSpan) ∧ ∀ node ∈ h.nodes, node.IsWritten source
  content _ t _ := ∀ node ∈ t.nodes, node.IsWritten source
  statement _ s _ := ∀ node ∈ s.nodes, node.IsWritten source
  subKeyword _ s _ := ∀ node ∈ s.nodes, node.IsWritten source
  alike := by
    rintro l g r r' ⟨site, -, -, hheld⟩
    exact hheld.alike
  start _ := trivial
  lastEnd _ := trivial
  stray _ _ := trivial
  reads_header := by
    rintro l g h r r' c c' ⟨site, hsite, rfl, hheld⟩ - hrest - hkind
    exact ⟨(), (), rfl, Parser.isWritten_header hsite hheld.left hrest hkind, trivial⟩
  reads_content := by
    rintro l g h r r' c c' ⟨site, hsite, rfl, hheld⟩ - hrest - hkind
    exact ⟨(), (), rfl, Parser.isWritten_textContent hsite hheld.left
      (fun t ht => ht) hrest, trivial⟩
  reads_expression := by
    rintro l g h r r' c c' ⟨site, hsite, rfl, hheld⟩ - hrest - hkind
    exact ⟨(), (), rfl, Parser.isWritten_expressionLine hsite hheld.left hrest
      (by rw [hkind]; rfl), trivial⟩
  reads_comment := by
    rintro l g h r r' c c' ⟨site, hsite, rfl, hheld⟩ - hrest - hkind
    have hstart := (hheld.left.comment hkind).1
    exact ⟨(), (), rfl, Parser.isWritten_comment hsite hheld.left hrest hstart, trivial⟩
  keyword := by
    rintro x y z h h' subs subs' body body' p p' q q' ⟨hname, hnodes⟩ hsubs hbody - -
    refine forall_mem_cons.2 ⟨forall_mem_singleton.2 hname, ?_⟩
    exact forall_mem_append.2 ⟨forall_mem_append.2 ⟨hnodes, isWritten_subKeywords hsubs⟩,
      isWritten_nodesOfList hbody⟩
  sub := by
    rintro x z h h' body body' p p' q q' ⟨hname, hnodes⟩ hbody - -
    refine forall_mem_cons.2 ⟨forall_mem_singleton.2 hname, ?_⟩
    exact forall_mem_append.2 ⟨hnodes, isWritten_nodesOfList hbody⟩
  text := by
    intro x t t' h
    obtain ⟨hruns, hparts⟩ := forall_mem_cons.1 h
    exact forall_mem_cons.2 ⟨hruns, hparts⟩
  answer := by
    rintro x z t t' body body' q q' h - hbody -
    exact forall_mem_cons.2 ⟨nofun, forall_mem_append.2 ⟨h, isWritten_nodesOfList hbody⟩⟩

/-- **Leaves are written in the source.**  What a node of a program holds of the source, a name, the
characters of a number, a run of text or a comment with its mark, is the text of the source at the
place that the node gives. -/
theorem slice?_of_mem_leaves (source : String) :
    ∀ node ∈ (parse source).program.nodes, ∀ leaf ∈ node.leaves,
      Text.slice? source.toList leaf.2.start.offset leaf.2.stop.offset = some leaf.1.toList := by
  have hpaired : Paired (writtenLines source).line (writtenLines source).indent maxDepth
      ((sites source).map fun _ => ()).sum (tokenize source) (tokenize source) :=
    paired_sites (fun site hsite _ _ hheld => ⟨site, hsite, rfl, hheld⟩) fun _ _ => trivial
  have hmeets : (writtenLines source).Meets maxDepth ((sites source).map fun _ => ()).sum
      (Cursor.ofSource source) (Cursor.ofSource source) := ⟨_, (), rfl, hpaired, trivial⟩
  obtain ⟨x, y, -, hbody, -⟩ := (writtenLines source).gives_programBody hmeets
    ⟨Cursor.supplied_anything _, Cursor.supplied_anything _⟩
  exact forall_mem_cons.2 ⟨nofun, isWritten_nodesOfList hbody⟩

/-- The name of a member between the braces of a string, behind a letter of two bytes. -/
theorem slice?_of_mem_leaves_member :
    let source := "*if: \"é \x7ba.size\x7d\""
    let leaf : String × Span := ("size", ⟨⟨1, 12, 12⟩, ⟨1, 16, 16⟩⟩)
    (∃ node ∈ (parse source).program.nodes, leaf ∈ node.leaves) ∧
      Text.slice? source.toList 12 16 = some "size".toList := by
  intro source leaf
  have hmem : leaf ∈ (parse source).program.nodes.flatMap Node.leaves := by decide +kernel
  obtain ⟨node, hnode, hleaf⟩ := mem_flatMap.1 hmem
  exact ⟨⟨node, hnode, hleaf⟩, slice?_of_mem_leaves source node hnode leaf hleaf⟩

end Programs

end ScriptLint

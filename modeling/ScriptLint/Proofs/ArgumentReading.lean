import ScriptLint.Proofs.LineReports
import Mathlib.Algebra.Order.Group.Multiset
import Mathlib.Algebra.Group.Prod

/-!
# The arguments of a program

The headers of a program are those of the lines of keywords in its source, one for each such line.
One line with an argument that is an expression is looked at more closely: its argument, and the
faults that are reported in it, are those of reading the text of the argument by itself.

**Focus.**  The lines of a source add up to the headers of its program.  Of the line in focus the
argument counts too, and whether its faults are among the diagnostics.

**Results.**
* `headers_perm`: names and places of all headers.
* `argument_reads_filledText`: the argument on the line in focus, and what is reported in it.
-/

namespace ScriptLint

open List Text ScriptLint.Parser

open Piece

variable {g : Inventory} {k : KeywordLine} {site : Site} {r r' : Row} {c : Cursor}

theorem Node.filterMap_header?_of_isInner {nodes : List Node} (h : nodes.all isInner) :
    nodes.filterMap header? = [] := by
  refine filterMap_eq_nil_iff.2 fun node hnode => ?_
  have hinner := all_eq_true.1 h node hnode
  cases node with
  | program _ | statement _ | subKeyword _ => cases hinner
  | _ => rfl

/-- The rows hold the line of the site. -/
structure Site.Held (site : Site) (r r' : Row) : Prop where
  left : r.Holds site.start site.content
  right : r'.Holds site.start site.content
  ending : r'.after.head?.map Token.kind = r.after.head?.map Token.kind
  inline : OneLine site.content

theorem Site.Held.same (h : site.Held r r') : r'.first = r.first ∧ r'.more = r.more :=
  cons.inj (h.right.place.trans h.left.place.symm)

theorem Site.Held.alike (h : site.Held r r') : r.Alike r' := by
  obtain ⟨hfirst, hmore⟩ := h.same
  refine ⟨h.left.fills, h.right.fills, by rw [hfirst], fun _ => ?_⟩
  rw [hmore]
  cases r.more with
  | nil => rw [nil_append, nil_append, h.ending]
  | cons t ts => rfl

/-- The line that is looked at: its number, the offset where its argument starts, the argument, and
what is reported in it. -/
structure Focus where
  line : Nat
  anchor : Nat
  argument : Argument
  diagnostics : List Diagnostic

/-- A header: its name, the place of the name, and the argument on the line in focus. -/
abbrev Label := String × Span × Option Argument

/-- Labels of headers, and how often the line in focus was read. -/
abbrev Inventory := Multiset Label × Nat

namespace Focus

variable (F : Focus)

/-- The label of a header. -/
def label (h : Header) : Label :=
  (h.name, h.nameSpan, if h.nameSpan.start.line = F.line then h.argument else none)

/-- The label of the line of a keyword. -/
def siteLabel? (site : Site) : Option Label :=
  (keywordLine? site.start site.content).map fun k =>
    (String.ofList k.name, k.nameSpan, if site.start.line = F.line then some F.argument else none)

/-- What a line adds to the inventory. -/
def weight (site : Site) : Inventory :=
  (↑(F.siteLabel? site).toList, if site.start.line = F.line then 1 else 0)

/-- The labels among nodes. -/
def labels (nodes : List Node) : Inventory :=
  (↑((nodes.filterMap Node.header?).map F.label), 0)

/-- The line in focus is that of a keyword with an expression for its argument. -/
def Sees (site : Site) : Prop :=
  ∃ k, keywordLine? site.start site.content = some k ∧ k.takesExpression = true ∧
    k.anchor.offset = F.anchor ∧
    readArgument site.levels k.isLoop (filledText k.argument) k.anchor = (F.argument, F.diagnostics)

/-- The diagnostic is reported in the argument on the line in focus. -/
def holds (d : Diagnostic) : Bool :=
  d.span.start.line = F.line && F.anchor ≤ d.span.start.offset

/-- The diagnostics so far, the newest first, are as they should be if the line in focus was read so
often. -/
structure Records (g : Inventory) (s : Position × List Diagnostic) : Prop where
  labels : g.1 = 0
  before : g.2 = 0 → s.2.filter F.holds = []
  after : g.2 = 1 → s.2.filter F.holds = F.diagnostics.reverse

variable {F}

theorem labels_append (xs ys : List Node) : F.labels (xs ++ ys) = F.labels xs + F.labels ys := by
  simp [labels]

theorem labels_of_isInner {nodes : List Node} (h : nodes.all Node.isInner) :
    F.labels nodes = 0 := by
  rw [labels, Node.filterMap_header?_of_isInner h]
  rfl

/-- A header and what stands inside its line add one label. -/
theorem labels_cons_of_header {node : Node} {h : Header} (hnode : node.header? = some h)
    (rest : List Node) :
    F.labels (node :: (h.nodes ++ rest)) = ({F.label h}, 0) + F.labels rest := by
  have hfirst : F.labels [node] = ({F.label h}, 0) := by
    rw [labels, filterMap_cons_some hnode]
    rfl
  rw [← singleton_append, labels_append, labels_append, hfirst,
    labels_of_isInner h.isInner_nodes, zero_add]

theorem labels_cons_of_none {node : Node} (hnode : node.header? = none) (rest : List Node) :
    F.labels (node :: rest) = F.labels rest := by
  rw [labels, filterMap_cons_none hnode]
  rfl

theorem labels_nodesOfList {body body' : List Statement}
    (h : Tally (fun x (s : Statement) _ => x = F.labels s.nodes) g body body') :
    g = F.labels (Statement.nodesOfList body) := by
  induction h with
  | nil => rfl
  | cons head _ ih => rw [Statement.nodesOfList, labels_append, head, ih]

theorem labels_subKeywords {subs subs' : List SubKeyword}
    (h : Tally (fun x (s : SubKeyword) _ => x = F.labels s.nodes) g subs subs') :
    g = F.labels (SubKeyword.nodesOfList subs) := by
  induction h with
  | nil => rfl
  | cons head _ ih => rw [SubKeyword.nodesOfList, labels_append, head, ih]

end Focus

section Text

variable {text : List Char} (htext : OneLine text)

include htext

theorem isLineEnd_filledText : OneLine (filledText text) := by
  intro c hc
  obtain ⟨piece, hpiece, hc⟩ := mem_flatMap.1 hc
  have htexts : OneLine piece.text := by
    intro d hd
    refine htext d ?_
    rw [← join_ofText text]
    exact mem_flatMap.2 ⟨piece, hpiece, hd⟩
  cases piece with
  | gap cs =>
    rw [eq_of_mem_replicate hc]
    rfl
  | mark => exact htexts c hc
  | token kind cs => exact htexts c hc

variable (levels : Nat) (isLoop : Bool) (p : Position)

/-- The raw text of a string literal stands in the text of the argument where its span says. -/
theorem split_of_mem_readArgument {value raw : String} {es : List Expression} {span : Span}
    (h : .expression (.literal (.string value) raw es span) ∈
      (readArgument levels isLoop text p).1.nodes) :
    ∃ xs ys, text = xs ++ raw.toList ++ ys ∧ span.start.offset = p.offset + byteLength xs ∧
      span.stop.offset = p.offset + (byteLength xs + byteLength raw.toList) := by
  have hread := readArgument_supplied
      (S := .ofCuts text p htext (fun _ => True) fun _ _ _ => trivial)
    (fun u hu _ => ⟨isCut_of_mem_tokenizeExpression htext hu, trivial⟩)
    (fun _ _ => trivial) trivial levels isLoop
  obtain ⟨t, ht, hkind, rfl, rfl⟩ := (hread.1 _ h).cut
  obtain ⟨⟨xs, ys, hcut, hspan⟩, -⟩ := ht (by rw [hkind]; rfl)
  refine ⟨xs, ys, hcut, by rw [hspan]; rfl, ?_⟩
  rw [hspan, ← byteLength_append]
  rfl

/-- Faults in an argument are reported on its line, and not before it. -/
theorem start_of_mem_readArgument {d : Diagnostic} (h : d ∈ (readArgument levels isLoop text p).2) :
    d.span.start.line = p.line ∧ p.offset ≤ d.span.start.offset := by
  have hp : p.IsBehind p := ⟨rfl, Nat.le_refl _⟩
  have hread := readArgument_supplied (S := .behind p)
    (fun u hu => (isCut_of_mem_tokenizeExpression htext hu).isBehind htext hp)
    (fun _ _ => trivial) (hp.advance text)
    levels isLoop
  have hstart := (hread.2 d h).start
  exact ⟨hstart.line, hstart.offset⟩

end Text

/-- The line of a keyword: its name, and the argument behind it. -/
theorem Parser.header_of_name {c : Cursor} {e : Mode → Parser Expression}
    {start named : Token} {more : List Token}
    (hrest : c.rest = start :: named :: more) (hstart : start.kind = .keywordStart)
    (hname : named.kind = .keyword ∨ named.kind = .subKeyword) :
    let r := headerArgument e named.text (named.kind == .subKeyword) c.advance.advance
    header e c = (⟨named.text, named.span, r.1⟩, r.2.skipTo Token.Kind.isStructural) := by
  have hrest' : c.advance.rest = named :: more := by
    rw [Cursor.rest_advance, hrest]
    rfl
  have hnamed := headerName_of_name (c := c.advance) (by rwa [Cursor.current_of_rest hrest'])
  rw [Cursor.current_of_rest hrest'] at hnamed
  have hskip := skipKind_of_kind (c := c) (by rw [Cursor.current_of_rest hrest, hstart])
  unfold header
  simp only [bind]
  rw [hskip, hnamed]
  rfl

theorem KeywordLine.kind_name (isSub : Bool) :
    (if isSub then Token.Kind.subKeyword else .keyword) = .keyword ∨
      (if isSub then Token.Kind.subKeyword else .keyword) = .subKeyword := by
  cases isSub
  · exact .inl rfl
  · exact .inr rfl

section Keywords

variable {p : Position} {line : List Char}

/-- What the line of a keyword is read to: a header with the name and what is read behind it. -/
theorem Row.Holds.header_eq (h : r.Holds p line) (hk : keywordLine? p line = some k)
    {more : List Token}
    (hmore : r.more = ⟨if k.isSub then .subKeyword else .keyword, String.ofList k.name,
      k.nameSpan⟩ :: more)
    (hrest : c.rest = r.tokens) (e : Mode → Parser Expression) :
    let x := headerArgument e (String.ofList k.name) k.isSub c.advance.advance
    c.advance.advance.rest = more ++ r.after ∧
      header e c = (⟨String.ofList k.name, k.nameSpan, x.1⟩,
        x.2.skipTo Token.Kind.isStructural) := by
  obtain ⟨_, -, -, hfirst, -⟩ := h.keyword hk
  have htokens : c.rest = r.first :: (r.more ++ r.after) := hrest
  rw [hmore] at htokens
  constructor
  · rw [Cursor.rest_advance, Cursor.rest_advance, htokens]
    rfl
  · have hsub : ((if k.isSub then Token.Kind.subKeyword else .keyword) == .subKeyword) =
        k.isSub := by
      cases k.isSub <;> rfl
    have hheader := header_of_name (e := e) htokens (by rw [hfirst])
        (KeywordLine.kind_name k.isSub)
    rwa [hsub] at hheader

/-- What the line of a keyword is read to, if its argument is an expression. -/
theorem Row.Holds.header_of_takesExpression (h : r.Holds p line) (hk : keywordLine? p line = some k)
    (htakes : k.takesExpression = true) (hrest : c.rest = r.tokens) (levels : Nat) :
    (Parser.header (Parser.expression levels) c).1 = ⟨String.ofList k.name, k.nameSpan,
        some (readArgument levels k.isLoop (filledText k.argument) k.anchor).1⟩ ∧
      (Parser.header (Parser.expression levels) c).2.record = (k.anchor.advance k.argument,
        (readArgument levels k.isLoop (filledText k.argument) k.anchor).2.reverse ++
          c.diagnostics) := by
  simp only [KeywordLine.takesExpression, Bool.and_eq_true, Bool.not_eq_true',
    isEmpty_eq_false_iff] at htakes
  obtain ⟨start, name, colon, hstart, hname, hspan, hkind, hcolon, htokens⟩ :=
    h.argument hk htakes.2
  have hsub : (name.kind == .subKeyword) = k.isSub := by
    rw [hkind]
    cases k.isSub <;> rfl
  have hloop : k.isLoop =
      (!(name.kind == .subKeyword) && lower name.text == Vocabulary.loopKeyword) := by
    rw [hsub, hname]
    rfl
  rw [← hname, ← hspan]
  exact Parser.header_of_expression (hrest.trans htokens) hstart
    (by rw [hkind]; exact KeywordLine.kind_name _) hcolon htakes.2 h.layout
    (by rw [hsub, hname]; exact htakes.1) hloop

end Keywords

namespace Focus

variable {F : Focus}

/-- A line that is not in focus reports nothing that counts. -/
theorem Records.of_reports {c d : Cursor} {line : Nat} (h : F.Records g c.record)
    (hreports : c.Reports line d) (hline : line ≠ F.line) : F.Records g d.record := by
  obtain ⟨new, hnew, hstart⟩ := hreports
  have hnone : new.filter F.holds = [] := by
    refine filter_eq_nil_iff.2 fun x hx => ?_
    simp [holds, hstart x hx, hline]
  have hsame : d.record.2.filter F.holds = c.record.2.filter F.holds := by
    show d.diagnostics.filter F.holds = c.diagnostics.filter F.holds
    rw [hnew, filter_append, hnone, nil_append]
  exact ⟨h.labels, fun h0 => by rw [hsame]; exact h.before h0,
    fun h1 => by rw [hsame]; exact h.after h1⟩

/-- The rows hold one line of the source; in focus it is the line that is looked at. -/
structure HeldRows (F : Focus) (site : Site) (r r' : Row) : Prop extends site.Held r r' where
  sees : site.start.line = F.line → F.Sees site

section Lines

variable {h : Inventory}

/-- A line that is not that of a keyword adds nothing. -/
theorem HeldRows.weight_eq_zero (hline : F.HeldRows site r r')
    (hkind : ¬ IsHeaderStart r.first.kind) :
    F.weight site = 0 ∧ site.start.line ≠ F.line := by
  have hnone := hline.left.keywordLine?_eq_none hkind
  have hfocus : site.start.line ≠ F.line := by
    intro heq
    obtain ⟨k, hk, -⟩ := hline.sees heq
    rw [hnone] at hk
    cases hk
  simp [weight, siteLabel?, hnone, hfocus]

theorem line_nameSpan (hk : keywordLine? site.start site.content = some k) :
    k.nameSpan.start.line = site.start.line := by
  obtain ⟨-, -, -, hstart, -⟩ := keywordLine?_eq_some hk
  show k.nameStart.line = _
  rw [hstart]
  rfl

/-- The argument in focus is read from its text, and the line reports nothing else. -/
theorem HeldRows.header_in_focus (hline : F.HeldRows site r r') (hrest : c.rest = r.tokens)
    (hk : keywordLine? site.start site.content = some k) (hfocus : site.start.line = F.line) :
    (header (expression site.levels) c).1 =
      ⟨String.ofList k.name, k.nameSpan, some F.argument⟩ ∧
      (header (expression site.levels) c).2.diagnostics =
        F.diagnostics.reverse ++ c.diagnostics ∧
      ∀ d ∈ F.diagnostics, F.holds d = true := by
  obtain ⟨k', hk', htakes, hanchor, hread⟩ := hline.sees hfocus
  obtain rfl : k' = k := Option.some.inj (hk'.symm.trans hk)
  obtain ⟨hvalue, hrecord⟩ := hline.left.header_of_takesExpression hk htakes hrest site.levels
  rw [hread] at hvalue hrecord
  refine ⟨hvalue, congrArg Prod.snd hrecord, fun d hd => ?_⟩
  have hinline : OneLine k'.argument := fun x hx => hline.inline x (mem_of_mem_argument hk hx)
  have hplace := @start_of_mem_readArgument _ (isLineEnd_filledText hinline) site.levels k'.isLoop
    k'.anchor d (by rw [hread]; exact hd)
  rw [holds, hplace.1, line_anchor hk, hfocus, ← hanchor]
  simp [hplace.2]

/-- The line of a keyword adds its label; in focus, its faults count too. -/
theorem HeldRows.reads_header (hline : F.HeldRows site r r') (hrecord : F.Records h c.record)
    (hrest : c.rest = r.tokens) (hkind : IsHeaderStart r.first.kind) :
    ∃ x y, x + y = F.weight site + h ∧
      x = ({F.label (header (expression site.levels) c).1}, 0) ∧
      F.Records y (header (expression site.levels) c).2.record := by
  obtain ⟨k, hk, hstart⟩ := hline.left.exists_keyword hkind
  by_cases hfocus : site.start.line = F.line
  · obtain ⟨hvalue, hdiagnostics, hholds⟩ := hline.header_in_focus hrest hk hfocus
    have hlabel : F.label (header (expression site.levels) c).1 =
        (String.ofList k.name, k.nameSpan, some F.argument) := by
      rw [hvalue, label, if_pos ((line_nameSpan hk).trans hfocus)]
    have hall : F.diagnostics.reverse.filter F.holds = F.diagnostics.reverse :=
      filter_eq_self.2 fun d hd => hholds d (mem_reverse.1 hd)
    refine ⟨_, (0, h.2 + 1), ?_, rfl, rfl, nofun, fun hone => ?_⟩
    · rw [hlabel, weight, siteLabel?, hk]
      simp [hfocus, hrecord.labels, Prod.ext_iff, Nat.add_comm]
    · show (header (expression site.levels) c).2.diagnostics.filter F.holds = _
      have hbefore : c.diagnostics.filter F.holds = [] := hrecord.before (by simpa using hone)
      rw [hdiagnostics, filter_append, hall, hbefore, append_nil]
  · obtain ⟨_, -, -, -, hmore⟩ := hline.left.keyword hk
    obtain ⟨-, hheader⟩ := hline.left.header_eq hk hmore hrest (expression site.levels)
    have hlabel : F.label (header (expression site.levels) c).1 =
        (String.ofList k.name, k.nameSpan, none) := by
      rw [hheader, label, if_neg (by rwa [line_nameSpan hk])]
    refine ⟨_, h, ?_, rfl,
      hrecord.of_reports
        (reached_header hline.left hline.inline hrest hstart).reports hfocus⟩
    rw [hlabel, weight, siteLabel?, hk]
    simp [hfocus]

end Lines

/-- The lines of a source beside themselves, with what they add to the inventory. -/
def pairing (F : Focus) : LinePairing Inventory where
  left := .anything
  right := .anything
  line l g r r' := ∃ site, site.levels = l ∧ g = F.weight site ∧ F.HeldRows site r r'
  record g s _ := F.Records g s
  indent t _ := F.holds ⟨.unexpectedIndentation, t.span⟩ = false
  place _ _ := True
  header g h _ := g = ({F.label h}, 0)
  content g _ _ := g = 0
  statement g s _ := g = F.labels s.nodes
  subKeyword g s _ := g = F.labels s.nodes
  alike := by
    rintro l g r r' ⟨site, -, -, hline⟩
    exact hline.alike
  start _ := trivial
  lastEnd _ := trivial
  stray := by
    intro g s s' t t' h hindent
    have hsame : (⟨.unexpectedIndentation, t.span⟩ :: s.2).filter F.holds = s.2.filter F.holds :=
      filter_cons_of_neg (by simp [hindent])
    exact ⟨h.labels, fun h0 => hsame.trans (h.before h0), fun h1 => hsame.trans (h.after h1)⟩
  reads_header := by
    rintro l g h r r' c c' ⟨site, rfl, rfl, hline⟩ hrecord hrest - hkind
    exact hline.reads_header hrecord hrest hkind
  reads_content := by
    rintro l g h r r' c c' ⟨site, rfl, rfl, hline⟩ hrecord hrest - hkind
    obtain ⟨hweight, hfocus⟩ := hline.weight_eq_zero hkind.not_header
    refine ⟨0, h, by rw [hweight], rfl, hrecord.of_reports ?_ hfocus⟩
    exact (reached_textContent hline.left hline.inline hrest).reports
  reads_expression := by
    rintro l g h r r' c c' ⟨site, rfl, rfl, hline⟩ hrecord hrest - hkind
    obtain ⟨hweight, hfocus⟩ := hline.weight_eq_zero (by simp [hkind, IsHeaderStart])
    refine ⟨0, h, by rw [hweight], ?_, hrecord.of_reports ?_ hfocus⟩
    · exact (labels_of_isInner (Expression.isInner_nodes _)).symm
    · exact (reached_expressionLine hline.left hline.inline hrest).reports
  reads_comment := by
    rintro l g h r r' c c' ⟨site, rfl, rfl, hline⟩ hrecord hrest - hkind
    have hstart := (hline.left.comment hkind).1
    obtain ⟨hweight, hfocus⟩ := hline.weight_eq_zero (by simp [hstart, IsHeaderStart])
    refine ⟨0, h, by rw [hweight], rfl, hrecord.of_reports ?_ hfocus⟩
    exact (reached_comment hline.left hline.inline hrest hstart).reports
  keyword := by
    rintro x y z h h' subs subs' body body' p p' q q' rfl hsubs hbody - -
    rw [Statement.nodes, append_assoc, labels_cons_of_header rfl, labels_append,
      labels_subKeywords hsubs, labels_nodesOfList hbody]
  sub := by
    rintro x z h h' body body' p p' q q' rfl hbody - -
    rw [SubKeyword.nodes, labels_cons_of_header rfl, labels_nodesOfList hbody]
  text := by
    rintro x t t' rfl
    rw [Statement.nodes, labels_cons_of_none rfl, labels_of_isInner t.isInner_parts]
  answer := by
    rintro x z t t' body body' q q' rfl - hbody -
    rw [Statement.nodes, labels_cons_of_none rfl, labels_append, labels_of_isInner t.isInner_nodes,
      labels_nodesOfList hbody]

end Focus

/-- The cursor at the start of a source. -/
def Cursor.ofSource (source : String) : Cursor :=
  Cursor.start (tokenize source)
    (((tokenize source).getLast?.map (·.span.stop)).getD Position.origin)

theorem lastEnd_ofSource (source : String) : (Cursor.ofSource source).lastEnd =
    (firstLine source).advance (lead (ofLines [] (lines (withoutMark source.toList)))) := by
  obtain ⟨ts, q, hlast⟩ := tokenize_last source
  cases htokens : tokenize source with
  | nil =>
    rw [htokens] at hlast
    cases ts <;> cases hlast
  | cons t us =>
    have hstart : (Cursor.ofSource source).lastEnd = t.span.start := by
      unfold Cursor.ofSource
      rw [htokens]
      rfl
    rw [tokenize_eq_firstLine] at htokens
    rw [hstart]
    exact start_head_place (mark_not_mem_ofLines _ _) htokens

section Sources

variable {F : Focus} {source : String}

theorem sum_weight (F : Focus) (sites : List Site) :
    (sites.map F.weight).sum =
      (↑(sites.filterMap F.siteLabel?), sites.countP fun site => site.start.line = F.line) := by
  induction sites with
  | nil => rfl
  | cons site sites ih =>
    rw [map_cons, sum_cons, ih, Focus.weight]
    cases hlabel : F.siteLabel? site with
    | none =>
      rw [filterMap_cons_none hlabel, countP_cons]
      by_cases hline : site.start.line = F.line <;> simp [Nat.add_comm]
    | some label =>
      rw [filterMap_cons_some hlabel, countP_cons]
      by_cases hline : site.start.line = F.line <;> simp [Nat.add_comm]

theorem isLineEnd_of_mem_sites {site : Site} (h : site ∈ sites source) : OneLine site.content := by
  obtain ⟨line, hline, hcontent, -⟩ := exists_line_of_mem_sitesFrom h
  rw [hcontent]
  exact (isLineEnd_of_mem_lines (snd_mem_of_mem_linesOf hline)).1

theorem offset_lt_anchor {p : Position} {content : List Char}
    (hk : keywordLine? p content = some k) : p.offset < k.anchor.offset := by
  obtain ⟨xs, -, hanchor⟩ := keywordLine?_split hk
  have hpos := Char.utf8Size_pos '*'
  rw [hanchor]
  show p.offset < p.offset + byteLength (_ ++ '*' :: _)
  rw [byteLength_append, byteLength_cons]
  omega

/-- The lines of a source are paired with themselves. -/
theorem paired_sites {G : Type} [AddCommMonoid G] {row : Nat → G → Row → Row → Prop}
    {indent : Token → Token → Prop} {weight : Site → G}
    (hrow : ∀ site ∈ sites source, ∀ {r r' : Row}, site.Held r r' →
      row site.levels (weight site) r r')
    (hindent : ∀ site ∈ sites source, indent (indentAt site.start site.content)
      (indentAt site.start site.content)) :
    Paired row indent maxDepth ((sites source).map weight).sum (tokenize source)
      (tokenize source) := by
  have hrows : Rows (fun l g p ln p' ln' => p' = p ∧ ln' = ln ∧ ⟨p, l, ln.content⟩ ∈ sites source ∧
      g = weight ⟨p, l, ln.content⟩) [] maxDepth ((sites source).map weight).sum
      (firstLine source) (lines (withoutMark source.toList)) (firstLine source)
      (lines (withoutMark source.toList)) :=
    rows_sitesFrom (pairwise_ending_lines _) fun site hsite _ => ⟨rfl, rfl, hsite, rfl⟩
  rw [tokenize_eq_firstLine]
  refine paired_ofLines (Nat.le_refl maxDepth) ?_ ?_ hrows
  · rintro l g p ln _ _ r r' ⟨rfl, rfl, hsite, rfl⟩ hleft hright - - hending
    exact hrow _ hsite ⟨hleft, hright, hending, isLineEnd_of_mem_sites hsite⟩
  · rintro l g _ _ p ln ⟨rfl, rfl, hsite, -⟩
    exact hindent _ hsite

/-- The tokens of a source are paired with themselves. -/
theorem Focus.paired_tokenize
    (hsees : ∀ site ∈ sites source, site.start.line = F.line → F.Sees site) :
    Paired F.pairing.line F.pairing.indent maxDepth ((sites source).map F.weight).sum
      (tokenize source) (tokenize source) := by
  refine paired_sites (fun site hsite _ _ hheld => ⟨site, rfl, rfl, hheld, hsees site hsite⟩)
    fun site hsite => ?_
  show (decide (site.start.line = F.line) && decide (F.anchor ≤ site.start.offset)) = false
  by_cases hline : site.start.line = F.line
  · obtain ⟨k, hk, -, hanchor, -⟩ := hsees site hsite hline
    have hlt : site.start.offset < k.anchor.offset := offset_lt_anchor hk
    have hbefore : ¬ F.anchor ≤ site.start.offset := by omega
    rw [decide_eq_false hbefore, Bool.and_false]
  · rw [decide_eq_false hline, Bool.false_and]

/-- The headers of a program are those of the lines of its source, and the line in focus, if it is
there, reports what its argument does. -/
theorem Focus.inventory (hsees : ∀ site ∈ sites source, site.start.line = F.line → F.Sees site) :
    (((parse source).program.nodes.filterMap Node.header?).map F.label).Perm
      ((sites source).filterMap F.siteLabel?) ∧
      ((sites source).countP (fun site => site.start.line = F.line) = 1 →
        (parse source).diagnostics.filter F.holds = F.diagnostics) := by
  have hrecord : F.Records 0 (Cursor.ofSource source).record := by
    exact ⟨rfl, fun _ => rfl, by rintro ⟨⟩⟩
  have hmeets : F.pairing.Meets maxDepth ((sites source).map F.weight).sum (Cursor.ofSource source)
      (Cursor.ofSource source) :=
    ⟨_, 0, add_zero _, F.paired_tokenize hsees, hrecord⟩
  obtain ⟨x, y, hxy, hbody, hend⟩ := F.pairing.gives_programBody hmeets
    ⟨Cursor.supplied_anything _, Cursor.supplied_anything _⟩
  have hlabels : x = F.labels (Statement.nodesOfList (parse source).program.body) :=
    Focus.labels_nodesOfList hbody
  rw [sum_weight, hlabels] at hxy
  constructor
  · have hfirst := congrArg Prod.fst hxy
    rw [Prod.fst_add, hend.labels, add_zero] at hfirst
    exact Multiset.coe_eq_coe.1 hfirst
  · intro hcount
    have hsecond := congrArg Prod.snd hxy
    rw [hcount] at hsecond
    have hone : y.2 = 1 := by simpa [Focus.labels] using hsecond
    have hfilter := hend.after hone
    show (programBody (Cursor.ofSource source)).2.diagnostics.reverse.filter F.holds = _
    rw [filter_reverse]
    exact (congrArg reverse hfilter).trans (reverse_reverse _)

/-- The headers of a program are those of the lines of keywords in its source. -/
theorem headers_perm (source : String) :
    (((parse source).program.nodes.filterMap Node.header?).map fun h => (h.name, h.nameSpan)).Perm
      ((sites source).filterMap fun site => (keywordLine? site.start site.content).map
        fun k => (String.ofList k.name, k.nameSpan)) := by
  let nowhere : Focus := ⟨0, 0, .expression default, []⟩
  have hlines : ∀ site ∈ sites source, site.start.line ≠ 0 := by
    intro site hsite
    have hle := (pairwise_sitesFrom (pairwise_ending_lines _)).1 site hsite
    have hfirst : (firstLine source).line = 1 := by
      unfold firstLine
      split <;> rfl
    omega
  have hperm := (@Focus.inventory nowhere source fun site hsite hline =>
    absurd hline (hlines site hsite)).1.map fun label => (label.1, label.2.1)
  have hright : ((sites source).filterMap nowhere.siteLabel?).map
      (fun label => (label.1, label.2.1)) =
      (sites source).filterMap fun site => (keywordLine? site.start site.content).map
        fun k => (String.ofList k.name, k.nameSpan) := by
    rw [map_filterMap]
    refine filterMap_congr fun site _ => ?_
    rw [Focus.siteLabel?, Option.map_map]
    rfl
  rw [map_map, hright] at hperm
  exact hperm

end Sources

section Line

variable {source : String}

/-- The argument of a keyword stands in the source where its position says. -/
theorem split_of_keywordLine? (hsite : site ∈ sites source)
    (hk : keywordLine? site.start site.content = some k) :
    ∃ before after, source.toList = before ++ k.argument ++ after ∧
      k.anchor.offset = byteLength before := by
  obtain ⟨before, after, hsource, hoffset⟩ := split_of_mem_sites hsite
  obtain ⟨xs, hbody, hanchor⟩ := keywordLine?_split hk
  have hcontent : site.content = site.content.takeWhile isGap ++ '*' ::
      (k.name ++ xs) ++ k.argument := by
    conv_lhs => rw [← takeWhile_append_dropWhile (p := isGap) (l := site.content), hbody]
    simp
  refine ⟨before ++ (site.content.takeWhile isGap ++ '*' :: (k.name ++ xs)), after, ?_, ?_⟩
  · conv_lhs => rw [hsource, hcontent]
    simp only [append_assoc]
  · rw [hanchor, byteLength_append, ← hoffset]
    rfl

/-- The focus on the line of a keyword with an expression for its argument. -/
def KeywordLine.focus (k : KeywordLine) (levels : Nat) : Focus where
  line := k.anchor.line
  anchor := k.anchor.offset
  argument := (readArgument levels k.isLoop (filledText k.argument) k.anchor).1
  diagnostics := (readArgument levels k.isLoop (filledText k.argument) k.anchor).2

/-- There is one site on a line. -/
theorem filter_sites (hsite : site ∈ sites source) :
    (sites source).filter (fun other => other.start.line = site.start.line) = [site] := by
  have hpairwise : (sites source).Pairwise fun a b => a.start.line < b.start.line :=
    (pairwise_sitesFrom (pairwise_ending_lines _)).2
  have hnodup : ((sites source).map (·.start.line)).Nodup :=
    pairwise_map.2 (hpairwise.imp fun hlt => Nat.ne_of_lt hlt)
  have hfilter : (sites source).filter (fun other => other.start.line = site.start.line) =
      (sites source).filter fun other => other = site := by
    refine filter_congr fun other hother => ?_
    rw [decide_eq_decide]
    constructor
    · exact fun hline => inj_on_of_nodup_map hnodup hother hsite hline
    · rintro rfl
      rfl
  rw [hfilter, filter_eq, count_eq_one_of_mem hnodup.of_map hsite]
  rfl

theorem sees_focus (hsite : site ∈ sites source)
    (hk : keywordLine? site.start site.content = some k) (htakes : k.takesExpression = true) :
    ∀ other ∈ sites source, other.start.line = (k.focus site.levels).line →
      (k.focus site.levels).Sees other := by
  intro other hother hline
  have hmem : other ∈ (sites source).filter fun x => x.start.line = site.start.line :=
    mem_filter.2 ⟨hother, decide_eq_true (hline.trans (line_anchor hk))⟩
  rw [filter_sites hsite] at hmem
  obtain rfl := mem_singleton.1 hmem
  exact ⟨k, hk, htakes, rfl, rfl⟩

/-- The header of the line in focus is the only one on the line. -/
theorem filter_headers (hsite : site ∈ sites source)
    (hk : keywordLine? site.start site.content = some k) (htakes : k.takesExpression = true) :
    ((parse source).program.nodes.filterMap Node.header?).filter
        (fun header => header.nameSpan.start.line = site.start.line) =
      [⟨String.ofList k.name, k.nameSpan, some (k.focus site.levels).argument⟩] := by
  have hperm := (Focus.inventory (sees_focus hsite hk htakes)).1
  have hfocus : (k.focus site.levels).line = site.start.line := line_anchor hk
  have honly : ((sites source).filterMap (k.focus site.levels).siteLabel?).filter
      (fun label => label.2.1.start.line = site.start.line) =
      [(String.ofList k.name, k.nameSpan, some (k.focus site.levels).argument)] := by
    have hlabel : (k.focus site.levels).siteLabel? site =
        some (String.ofList k.name, k.nameSpan, some (k.focus site.levels).argument) := by
      rw [Focus.siteLabel?, hk, Option.map_some, if_pos hfocus.symm]
    have hsites : ((sites source).filter fun other => other.start.line = site.start.line).filterMap
        (k.focus site.levels).siteLabel? =
        [(String.ofList k.name, k.nameSpan, some (k.focus site.levels).argument)] := by
      rw [filter_sites hsite, filterMap_cons_some hlabel, filterMap_nil]
    rw [filter_filterMap, ← hsites, filterMap_filter]
    refine filterMap_congr fun other _ => ?_
    unfold Focus.siteLabel?
    cases hother : keywordLine? other.start other.content with
    | none => simp
    | some k' =>
      have hline := Focus.line_nameSpan hother
      simp [Option.filter, hline]
  have hfiltered := hperm.filter fun label => label.2.1.start.line = site.start.line
  rw [honly, perm_singleton, filter_map] at hfiltered
  obtain ⟨header, hheaders, hlabel⟩ := map_eq_singleton_iff.1 hfiltered
  obtain ⟨hname, hrest⟩ := Prod.mk.inj hlabel
  obtain ⟨hspan, hargument⟩ := Prod.mk.inj hrest
  have hline : header.nameSpan.start.line = (k.focus site.levels).line := by
    rw [hspan, Focus.line_nameSpan hk, hfocus]
  rw [if_pos hline] at hargument
  have hheader : header =
      ⟨String.ofList k.name, k.nameSpan, some (k.focus site.levels).argument⟩ := by
    rw [← hname, ← hspan, ← hargument]
  rw [← hheader]
  exact hheaders

/-- **Arguments are read from their text.**  The line of a keyword whose argument is an expression
gives one header, and its argument and the faults reported from the argument on are those of reading
the text of the argument by itself, with spaces for white space between the tokens of its braces.
String literals hold that text; it is the source unless there is a tab in such white space. -/
theorem argument_reads_filledText (source : String) (site : Site) (k : KeywordLine)
    (hsite : site ∈ sites source) (hk : keywordLine? site.start site.content = some k)
    (htakes : k.takesExpression = true) :
    let reading := readArgument site.levels k.isLoop (filledText k.argument) k.anchor
    Text.slice? source.toList k.anchor.offset
        (k.anchor.offset + Text.byteLength k.argument) = some k.argument ∧
    ((parse source).program.nodes.filterMap Node.header?).filter
        (fun header => header.nameSpan.start.line = site.start.line) =
      [⟨String.ofList k.name, k.nameSpan, some reading.1⟩] ∧
    (parse source).diagnostics.filter (fun d => d.span.start.line = site.start.line &&
        k.anchor.offset ≤ d.span.start.offset) = reading.2 ∧
    (∀ value raw es span,
      .expression (.literal (.string value) raw es span) ∈ reading.1.nodes →
        Text.slice? (filledText k.argument) (span.start.offset - k.anchor.offset)
            (span.stop.offset - k.anchor.offset) = some raw.toList ∧
        (filledText k.argument = k.argument →
          Text.slice? source.toList span.start.offset span.stop.offset = some raw.toList)) ∧
    (filledText k.argument = k.argument ↔
      ∀ text, gap text ∈ ofText k.argument → '\t' ∉ text) := by
  dsimp only
  obtain ⟨before, after, hsource, hoffset⟩ := split_of_keywordLine? hsite hk
  refine ⟨?_, filter_headers hsite hk htakes, ?_, ?_, filledText_eq_iff k.argument⟩
  · rw [hsource, hoffset]
    exact slice?_append _ _ _
  · have hcount : (sites source).countP
        (fun other => other.start.line = (k.focus site.levels).line) = 1 := by
      have hfocus : (k.focus site.levels).line = site.start.line := line_anchor hk
      rw [hfocus, countP_eq_length_filter, filter_sites hsite]
      rfl
    have hdiagnostics := (Focus.inventory (sees_focus hsite hk htakes)).2 hcount
    rw [← line_anchor hk]
    exact hdiagnostics
  · intro value raw es span hliteral
    have hinline : ∀ c ∈ k.argument, isLineEnd c = false := by
      intro c hc
      obtain ⟨xs, hbody, -⟩ := keywordLine?_split hk
      refine isLineEnd_of_mem_sites hsite c ((dropWhile_suffix isGap).subset ?_)
      rw [hbody]
      simp [hc]
    obtain ⟨xs, ys, htext, hstart, hstop⟩ :=
      split_of_mem_readArgument (isLineEnd_filledText hinline) site.levels
        k.isLoop k.anchor hliteral
    rw [hstart, hstop]
    constructor
    · rw [Nat.add_sub_cancel_left, Nat.add_sub_cancel_left, htext]
      exact slice?_append _ _ _
    · intro hsame
      have hsplit : source.toList = (before ++ xs) ++ raw.toList ++ (ys ++ after) := by
        rw [hsource, ← hsame, htext]
        simp
      rw [hsplit, hoffset, ← Nat.add_assoc, ← byteLength_append]
      exact slice?_append _ _ _

/-- A sub-keyword whose argument is a string with a tab between braces. -/
def savedTab : String :=
  "*question: q\n\t*save: \"\x7b\tx\x7d\""

/-- The line of the sub-keyword. -/
def savedTabSite : Site :=
  ⟨⟨2, 1, 13⟩, 99, ['\t', '*', 's', 'a', 'v', 'e', ':', ' ', '"', '{', '\t', 'x', '}', '"']⟩

theorem argument_reads_filledText_savedTab :
    savedTabSite ∈ sites savedTab ∧
    ((parse savedTab).program.nodes.filterMap Node.header?).filter
        (fun header => header.nameSpan.start.line = 2) =
      [⟨"save", ⟨⟨2, 3, 15⟩, ⟨2, 7, 19⟩⟩,
        some (readArgument 99 false ['"', '{', ' ', 'x', '}', '"'] ⟨2, 9, 21⟩).1⟩] := by
  have hsite : savedTabSite ∈ sites savedTab := by decide +kernel
  have hline : keywordLine? savedTabSite.start savedTabSite.content =
      some ⟨['s', 'a', 'v', 'e'], true, ⟨2, 3, 15⟩, ['"', '{', '\t', 'x', '}', '"'],
        ⟨2, 9, 21⟩⟩ := by
    decide +kernel
  have hfilled : filledText ['"', '{', '\t', 'x', '}', '"'] = ['"', '{', ' ', 'x', '}', '"'] := by
    decide +kernel
  have hheader := (argument_reads_filledText savedTab savedTabSite _ hsite hline
    (by decide +kernel)).2.1
  rw [hfilled] at hheader
  exact ⟨hsite, hheader⟩

/-- A tab between braces is lost: a string literal does not hold the source that its span names. -/
theorem tab_between_braces_becomes_space :
    ((parse "*if: \"\x7b\t\x7d\"").program.nodes.filterMap Node.header?).map Header.argument =
      [some (.expression (.literal (.string "\x7b \x7d") "\"\x7b \x7d\"" []
        ⟨⟨1, 6, 5⟩, ⟨1, 11, 10⟩⟩))] ∧
    Span.slice ⟨⟨1, 6, 5⟩, ⟨1, 11, 10⟩⟩ "*if: \"\x7b\t\x7d\"" = "\"\x7b\t\x7d\"" := by
  have hread : (((parse "*if: \"\x7b\t\x7d\"").program.nodes.filterMap Node.header?).map
      Header.argument).map (fun argument =>
        (argument.bind Argument.expression?).bind Expression.plainLiteral?) =
      [some (.string "\x7b \x7d", "\"\x7b \x7d\"", ⟨⟨1, 6, 5⟩, ⟨1, 11, 10⟩⟩)] := by decide +kernel
  refine ⟨?_, by decide +kernel⟩
  obtain ⟨argument, hargument, hliteral⟩ := map_eq_singleton_iff.1 hread
  obtain ⟨e, he, hliteral⟩ := Option.bind_eq_some_iff.1 hliteral
  obtain ⟨argument, rfl, he⟩ := Option.bind_eq_some_iff.1 he
  rw [hargument]
  cases argument with
  | expression e' =>
      cases he
      rw [Expression.eq_of_plainLiteral? hliteral]
  | text _ | loop _ _ _ => cases he

end Line
end ScriptLint

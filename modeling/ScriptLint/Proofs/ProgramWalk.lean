import ScriptLint.Proofs.Lockstep

/-!
# The way through a program

The parsers of blocks are followed from left to right.  A walk says where a cursor stands, by a
mark, and what is read between two marks.  What a block holds is then a chain: each statement or
sub-keyword is read from the mark where the one before it ended.

**Results.**
* `Walk.reaches_statement`, `Walk.reaches_body`: one depth from the next.
* `Walk.reaches_programBody`: the statements of a whole program.
* `supplyWalk`: what is known of a supply, said of blocks.
-/

namespace ScriptLint

open List

variable {M : Type} {n : M} {c : Cursor}

namespace Node

/-- The statement, if the node is one. -/
def statement? : Node → Option Statement
  | statement s => some s
  | _ => none

/-- The sub-keyword, if the node is one. -/
def subKeyword? : Node → Option SubKeyword
  | subKeyword s => some s
  | _ => none

end Node

/-- Nodes are read one after another, each from one mark to the next. -/
inductive Chain {M : Type} (reads : M → M → Node → Prop) : M → M → List Node → Prop
  | nil (n : M) : Chain reads n n []
  | cons {n m k : M} {x : Node} {xs : List Node} (head : reads n m x) (tail : Chain reads m k xs) :
      Chain reads n k (x :: xs)

namespace Chain

variable {reads : M → M → Node → Prop} {m k : M} {xs ys : List Node}

theorem append (h : Chain reads n m xs) (h' : Chain reads m k ys) : Chain reads n k (xs ++ ys) := by
  induction h with
  | nil => exact h'
  | cons head _ ih => exact .cons head (ih h')

theorem snoc {x : Node} (h : Chain reads n m xs) (h' : reads m k x) : Chain reads n k (xs ++ [x]) :=
  h.append (.cons h' (.nil k))

theorem mono {reads' : M → M → Node → Prop} (h : Chain reads n m xs)
    (hreads : ∀ {n m x}, reads n m x → reads' n m x) : Chain reads' n m xs := by
  induction h with
  | nil => exact .nil _
  | cons head _ ih => exact .cons (hreads head) ih

theorem forall_mem {R : Node → Prop} (h : Chain reads n m xs) (hR : ∀ {n m x}, reads n m x → R x) :
    ∀ x ∈ xs, R x := by
  induction h with
  | nil => exact nofun
  | cons head _ ih => exact forall_mem_cons.2 ⟨hR head, ih⟩

theorem sublist_statements (xs : List Node) :
    ((xs.filterMap Node.statement?).map Node.statement).Sublist xs := by
  induction xs with
  | nil => exact .slnil
  | cons x xs ih =>
    cases x with
    | statement s => exact ih.cons_cons _
    | _ => exact ih.cons _

theorem sublist_subKeywords (xs : List Node) :
    ((xs.filterMap Node.subKeyword?).map Node.subKeyword).Sublist xs := by
  induction xs with
  | nil => exact .slnil
  | cons x xs ih =>
    cases x with
    | subKeyword s => exact ih.cons_cons _
    | _ => exact ih.cons _

theorem mem_of_statement {b : Statement} (h : b ∈ xs.filterMap Node.statement?) :
    Node.statement b ∈ xs :=
  (sublist_statements xs).subset (mem_map_of_mem h)

theorem mem_of_subKeyword {s : SubKeyword} (h : s ∈ xs.filterMap Node.subKeyword?) :
    Node.subKeyword s ∈ xs :=
  (sublist_subKeywords xs).subset (mem_map_of_mem h)

end Chain

namespace Parser

/-- What is known of the cursors on the way through a program, and of what is read between them. -/
structure Walk (M : Type) where
  /-- The cursor stands at a mark. -/
  stands : M → Cursor → Prop
  /-- A statement or a sub-keyword is read between two marks, with a number of levels left. -/
  reads : Nat → M → M → Node → Prop
  mono : ∀ {i l n m x}, i ≤ l → reads i n m x → reads l n m x
  layout : ∀ {n c}, stands n c →
    c.current.kind = .newline ∨ c.current.kind = .indent ∨ c.current.kind = .dedent →
      stands n c.advance
  stray : ∀ {n c}, stands n c → c.current.kind = .indent →
    stands n (c.advance.report .unexpectedIndentation c.current.span)
  header : ∀ {n c} (l : Nat), stands n c → IsHeaderStart c.current.kind →
    ∃ m, stands m (Parser.header (expression l) c).2 ∧
      ∀ i {k d xs}, i < l ∨ xs = [] → stands k d → Chain (reads i) m k xs →
      reads l n k (.statement
        (.keyword (Parser.header (expression l) c).1 (xs.filterMap Node.subKeyword?)
        (xs.filterMap Node.statement?) (Span.between c.current.span.start d.lastEnd))) ∧
      (xs.filterMap Node.subKeyword? = [] →
        reads l n k (.subKeyword
          (.mk (Parser.header (expression l) c).1 (xs.filterMap Node.statement?)
          (Span.between c.current.span.start d.lastEnd))))
  content : ∀ {n c} (l : Nat), stands n c → IsTextStart c.current.kind →
    ∃ m, stands m (textContent (expression l) c).2 ∧
      reads l n m (.statement (.text (textContent (expression l) c).1)) ∧
      ∀ i {k d xs}, i < l → stands k d → Chain (reads i) m k xs →
        xs.filterMap Node.subKeyword? = [] →
        reads l n k (.statement
          (.answer (textContent (expression l) c).1 (xs.filterMap Node.statement?)
          (Span.between (textContent (expression l) c).1.span.start d.lastEnd)))
  expressionLine : ∀ {n c} (l : Nat), stands n c → c.current.kind = .expressionStart →
    ∃ m, stands m (Parser.expressionLine (expression l) c).2 ∧
      reads l n m (.statement (Parser.expressionLine (expression l) c).1)
  comment : ∀ {n c} (l : Nat), stands n c → c.current.kind = .commentStart ∨
    c.current.kind = .comment →
    ∃ m, stands m (Parser.comment c).2 ∧ reads l n m (.statement (Parser.comment c).1)

namespace Walk

variable {W : Walk M} {levels : Nat}

/-- A statement was read. -/
def Reaches (W : Walk M) (l : Nat) (n : M) (r : Statement × Cursor) : Prop :=
  ∃ m, W.stands m r.2 ∧ W.reads l n m (.statement r.1)

/-- The statements of a block were read. -/
def ReachesBody (W : Walk M) (l : Nat) (n : M) (r : List Statement × Cursor) : Prop :=
  ∃ m, W.stands m r.2 ∧ Chain (W.reads l) n m (r.1.map .statement)

/-- The sub-keywords and the statements of a body were read, in the order of some nodes, of which
sub-keywords are only where they may stand. -/
def ReachesItems (W : Walk M) (inKeyword : Bool) (l : Nat) (n : M)
    (r : BodyItems × Cursor) : Prop :=
  ∃ m xs, W.stands m r.2 ∧ Chain (W.reads l) n m xs ∧
    (inKeyword = false → xs = r.1.2.map .statement) ∧
    xs.filterMap Node.subKeyword? = r.1.1 ∧ xs.filterMap Node.statement? = r.1.2

/-- The parsers under an indent walk on, with fewer levels left. -/
def Deepens (W : Walk M) (levels : Nat) : Prop :=
  ∀ inside, Parser.inside levels = some inside → ∃ i < levels, ∀ {n c}, W.stands n c →
    W.ReachesBody i n (inside.block c) ∧ W.ReachesItems true i n (inside.keywordBody c)

theorem filterMap_statement? (body : List Statement) :
    (body.map Node.statement).filterMap Node.statement? = body := by
  rw [filterMap_map]
  exact filterMap_some

theorem filterMap_subKeyword? (body : List Statement) :
    (body.map Node.statement).filterMap Node.subKeyword? = [] := by
  rw [filterMap_map]
  exact filterMap_eq_nil_iff.2 fun _ _ => rfl

/-- Blank lines and an indent keep the mark. -/
theorem stands_enterBlock (levels : Nat) (h : W.stands n c) :
    enterBlock (inside levels) c = (none, c) ∨
    ∃ inside d, Parser.inside levels = some inside ∧
      enterBlock (Parser.inside levels) c = (some inside, d) ∧ W.stands n d := by
  have hblank : W.stands n (c.drop c.blank.length) :=
    Cursor.drop_blank (P := W.stands n) (fun _ hd hkind => W.layout hd (.inl hkind)) h
  by_cases hindent : (c.drop c.blank.length).current.kind = .indent
  · cases hinside : inside levels with
    | none => exact .inl (by simp [enterBlock])
    | some inside =>
      have hnext := W.layout hblank (.inr (.inl hindent))
      rw [Cursor.advance_drop (by rw [hindent]; rfl)] at hnext
      exact .inr ⟨inside, _, rfl, enterBlock_opened hindent, hnext⟩
  · exact .inl (enterBlock_closed hindent)

section Depth

variable (hdeeper : W.Deepens levels) (h : W.stands n c)

include hdeeper h

theorem reaches_keywordStatement (hkind : IsHeaderStart c.current.kind) :
    W.Reaches levels n (keywordStatement (expression levels) (inside levels) c) := by
  obtain ⟨m, hm, hreads⟩ := W.header levels h hkind
  rcases stands_enterBlock levels hm with hclosed | ⟨inside, d, hinside, hopened, hd⟩
  · rw [keywordStatement_closed hclosed]
    exact ⟨m, hm, (hreads levels (.inr rfl) hm (.nil m)).1⟩
  · obtain ⟨i, hi, hwalk⟩ := hdeeper inside hinside
    obtain ⟨k, xs, hk, hchain, -, hsubs, hbody⟩ := (hwalk hd).2
    rw [keywordStatement_opened hopened, ← hsubs, ← hbody]
    exact ⟨k, hk, (hreads i (.inl hi) hk hchain).1⟩

theorem reaches_subKeyword (hkind : IsHeaderStart c.current.kind) :
    ∃ m, W.stands m (subKeyword (expression levels) (inside levels) c).2 ∧
      W.reads levels n m (.subKeyword (subKeyword (expression levels) (inside levels) c).1) := by
  obtain ⟨m, hm, hreads⟩ := W.header levels h hkind
  rcases stands_enterBlock levels hm with hclosed | ⟨inside, d, hinside, hopened, hd⟩
  · rw [subKeyword_closed hclosed]
    exact ⟨m, hm, (hreads levels (.inr rfl) hm (.nil m)).2 rfl⟩
  · obtain ⟨i, hi, hwalk⟩ := hdeeper inside hinside
    obtain ⟨k, hk, hchain⟩ := (hwalk hd).1
    rw [subKeyword_opened hopened, ← filterMap_statement? (inside.block d).1]
    exact ⟨k, hk, (hreads i (.inl hi) hk hchain).2 (filterMap_subKeyword? _)⟩

theorem reaches_textLine (hkind : IsTextStart c.current.kind) :
    W.Reaches levels n (textLine (expression levels) (inside levels) c) := by
  obtain ⟨m, hm, htext, hreads⟩ := W.content levels h hkind
  rcases stands_enterBlock levels hm with hclosed | ⟨inside, d, hinside, hopened, hd⟩
  · rw [textLine_closed hclosed]
    exact ⟨m, hm, htext⟩
  · obtain ⟨i, hi, hwalk⟩ := hdeeper inside hinside
    obtain ⟨k, hk, hchain⟩ := (hwalk hd).1
    rw [textLine_opened hopened, ← filterMap_statement? (inside.block d).1]
    exact ⟨k, hk, hreads i hi hk hchain (filterMap_subKeyword? _)⟩

/-- **One statement.** -/
theorem reaches_statement (hcontent : c.AtContent) :
    W.Reaches levels n (statement (expression levels) (inside levels) c) := by
  obtain ⟨p, hform, ⟨hkind, rfl⟩ | ⟨hkind, rfl⟩ | ⟨hkind, rfl⟩ | ⟨hkind, rfl⟩⟩ :=
    statement_cases (expression levels) (inside levels) hcontent
  all_goals rw [hform c rfl]
  · exact reaches_keywordStatement hdeeper h hkind
  · exact W.expressionLine levels h hkind
  · exact W.comment levels h hkind
  · exact reaches_textLine hdeeper h hkind

theorem reaches_strayBlock (hkind : c.current.kind = .indent) :
    W.ReachesBody levels n (strayBlock (inside levels) c) := by
  have hstray := W.stray h hkind
  cases hinside : inside levels with
  | none => exact ⟨n, hstray, .nil n⟩
  | some inside =>
    obtain ⟨i, hi, hwalk⟩ := hdeeper inside hinside
    obtain ⟨k, hk, hchain⟩ := (hwalk hstray).1
    exact ⟨k, hk, hchain.mono (W.mono hi.le)⟩

end Depth

section Loops

variable (hlevels : levels ≤ maxDepth) (hdeeper : W.Deepens levels)

include hlevels hdeeper

omit hlevels in
theorem reaches_item {inKeyword : Bool} {items : BodyItems} {d : Cursor}
    (h : W.ReachesItems inKeyword levels n (items, d)) (hcontent : d.AtContent) :
    W.ReachesItems inKeyword levels n
      (item (expression levels) (inside levels) inKeyword items d) := by
  obtain ⟨m, xs, hm, hchain, hall, hsubs, hbody⟩ := h
  cases hat : inKeyword && (atSubKeyword d).1 with
  | true =>
    obtain ⟨k, hk, hsub⟩ :=
      reaches_subKeyword hdeeper hm (isHeaderStart_of_atSubKeyword (Bool.and_eq_true_iff.1 hat).2)
    rw [item_subKeyword items hat]
    generalize subKeyword (expression levels) (inside levels) d = r at hk hsub ⊢
    refine ⟨k, _, hk, hchain.snoc hsub, ?_, ?_, ?_⟩
    · rintro rfl
      cases hat
    · rw [filterMap_append, hsubs]
      rfl
    · rw [filterMap_append, hbody]
      exact append_nil _
  | false =>
    obtain ⟨k, hk, hstatement⟩ := reaches_statement hdeeper hm hcontent
    rw [item_statement items hat]
    generalize statement (expression levels) (inside levels) d = r at hk hstatement ⊢
    refine ⟨k, _, hk, hchain.snoc hstatement, ?_, ?_, ?_⟩
    · intro hnone
      rw [map_append, hall hnone]
      rfl
    · rw [filterMap_append, hsubs]
      exact append_nil _
    · rw [filterMap_append, hbody]
      rfl

/-- **The body of a keyword or of another block**, by induction over its steps. -/
theorem reaches_body (inKeyword isNested : Bool) (h : W.stands n c) :
    W.ReachesItems inKeyword levels n
    (loop ([], []) (bodyStep (expression levels) (inside levels) inKeyword isNested) c) := by
  have hstep : ∀ items d, W.ReachesItems inKeyword levels n (items, d) →
      W.ReachesItems inKeyword levels n
      ((bodyStep (expression levels) (inside levels) inKeyword isNested items d).1.1,
        (bodyStep (expression levels) (inside levels) inKeyword isNested items d).2) := by
    rintro items d hitems
    obtain ⟨m, xs, hm, hchain, hrest⟩ := hitems
    rcases layout_or_content d.current.kind with hkind | hkind | hkind | hkind | hkind
    · rw [bodyStep_end items hkind]
      exact ⟨m, xs, hm, hchain, hrest⟩
    · rw [bodyStep_newline items hkind]
      exact ⟨m, xs, W.layout hm (.inl hkind), hchain, hrest⟩
    · rw [bodyStep_dedent items hkind]
      exact ⟨m, xs, W.layout hm (.inr (.inr hkind)), hchain, hrest⟩
    · obtain ⟨k, hk, hstray⟩ := reaches_strayBlock hdeeper hm hkind
      obtain ⟨hall, hsubs, hbody⟩ := hrest
      rw [bodyStep_indent items hkind]
      refine ⟨k, _, hk, hchain.append hstray, ?_, ?_, ?_⟩
      · exact fun hnone => by rw [map_append, hall hnone]
      · rw [filterMap_append, hsubs, filterMap_subKeyword?, append_nil]
      · rw [filterMap_append, hbody, filterMap_statement?]
    · rw [bodyStep_content items hkind]
      exact reaches_item hdeeper ⟨m, xs, hm, hchain, hrest⟩ hkind
  exact iterate_ends (I := fun items d => W.ReachesItems inKeyword levels n (items, d))
    (E := fun items d => W.ReachesItems inKeyword levels n (items, d))
    (proceeds_body inKeyword isNested hlevels)
    (fun items d hd _ => hstep items d hd) (fun items d hd _ => hstep items d hd)
    ⟨n, [], h, .nil n, fun _ => rfl, rfl, rfl⟩

theorem reaches_block (isNested : Bool) (h : W.stands n c) :
    W.ReachesBody levels n (block (expression levels) (inside levels) isNested c) := by
  have hbody := reaches_body hlevels hdeeper false isNested h
  rw [body_eq_block] at hbody
  obtain ⟨m, xs, hm, hchain, hall, -⟩ := hbody
  rw [hall rfl] at hchain
  exact ⟨m, hm, hchain⟩

end Loops

/-- Blocks of every depth, by induction on the levels left. -/
theorem deepens (W : Walk M) (hlevels : levels ≤ maxDepth) : W.Deepens levels := by
  induction levels with
  | zero => exact nofun
  | succ l ih =>
    have hle := Nat.le_of_succ_le hlevels
    rintro _ ⟨⟩
    refine ⟨l, Nat.lt_succ_self l, fun {n c} h => ?_⟩
    exact ⟨reaches_block hle (ih hle) true h, reaches_body hle (ih hle) true true h⟩

/-- **The statements of a program** are a chain. -/
theorem reaches_programBody (W : Walk M) (h : W.stands n c) :
    W.ReachesBody maxDepth n (programBody c) :=
  reaches_block (Nat.le_refl maxDepth) (W.deepens (Nat.le_refl maxDepth)) false h

end Walk

section OfSupply

variable {S : Supply}

/-- The statement or the sub-keyword, with all that is inside it, is of the supply. -/
def ReadFrom (S : Supply) : Node → Prop
  | .statement s => s.IsSupplied S
  | .subKeyword s => s.IsSupplied S
  | _ => True

/-- The cursor is supplied, and all faults before it were reported at spans of the supply. -/
structure StandsIn (S : Supply) (c : Cursor) : Prop where
  supplied : c.Supplied S
  reported : ∀ d ∈ c.diagnostics, S.span d.span

theorem StandsIn.line (h : StandsIn S c) : c.SuppliedLine S :=
  h.supplied.line

theorem StandsIn.advance (h : StandsIn S c) : StandsIn S c.advance :=
  ⟨h.supplied.advance, c.diagnostics_advance.symm ▸ h.reported⟩

theorem StandsIn.reach {α : Type} {Q : α → Prop} {r : α × Cursor} (h : StandsIn S c)
    (hr : Reached S c Q r) :
    StandsIn S r.2 := by
  obtain ⟨new, hnew, hspans⟩ := hr.line.reports
  exact ⟨hr.keeps h.supplied, hnew ▸ forall_mem_append.2 ⟨hspans, h.reported⟩⟩

/-- The walk by the supply. -/
def supplyWalk (S : Supply) [S.Rereads] : Walk Unit where
  stands _ := StandsIn S
  reads _ _ _ := ReadFrom S
  mono _ h := h
  layout h _ := h.advance
  stray h _ := ⟨h.advance.supplied.report _ _,
    forall_mem_cons.2 ⟨S.span_token h.line.current, h.advance.reported⟩⟩
  header := by
    intro _ c l h _
    have hread := reads_header l c h.line
    refine ⟨(), h.reach hread, fun i {_ d xs} _ hd hchain => ?_⟩
    have hxs := hchain.forall_mem id
    have hspan := S.span_between (S.start_token h.line.current) (S.stop_start hd.supplied.lastEnd)
    have hbody := fun s (hs : s ∈ xs.filterMap Node.statement?) => hxs _ (Chain.mem_of_statement hs)
    exact ⟨Statement.isSupplied_keyword hspan hread.value
      (fun s hs => hxs _ (Chain.mem_of_subKeyword hs)) hbody,
      fun _ => SubKeyword.isSupplied_mk hspan hread.value hbody⟩
  content := by
    intro _ c l h _
    have hread := runs_textContent l h.line
    refine ⟨(), h.reach hread, Statement.isSupplied_text hread.value.1,
      fun i {_ d xs} _ hd hchain _ => ?_⟩
    have hspan := S.span_between (S.start_span hread.value.1.span)
        (S.stop_start hd.supplied.lastEnd)
    exact Statement.isSupplied_answer hspan hread.value.1 fun s hs =>
      hchain.forall_mem id _ (Chain.mem_of_statement hs)
  expressionLine := by
    intro _ c l h hkind
    have hread := runs_expressionLine l (.of_kind hkind rfl) h.line
    exact ⟨(), h.reach hread, hread.value⟩
  comment := by
    intro _ c l h _
    have hread := reads_comment c h.line
    exact ⟨(), h.reach hread, hread.value⟩

end OfSupply

end Parser

end ScriptLint

import ScriptLint.Proofs.Grouping
import ScriptLint.Proofs.OperandConsumption
import Mathlib.Algebra.Ring.Int.Defs

/-!
# Derivations of expressions

The grammar of expressions as a relation: which tokens are read as which value, with how many
operations, when so many levels are left for brackets.

**Forms.**  A run of tokens is read as an operand, as the operations of some layers, as an
expression in a mode, as what stands in brackets or as a list of such items.  Each form has its own
type of values.  There is one rule for each production, and the places of the values are those that
the parser gives; only the place of a property is left open.

**Levels.**  One rule, that for an expression inside brackets, uses up a level.

**Results.**
* `Derives`: the derivations.
* `Kept.derived`: what is read in a run without a report derives its value, one production after
  another.
* `derives_of_clean`, `derives_standalone`: runs up to a boundary.
-/

namespace ScriptLint

open List

open Lexeme

variable {levels k : Nat} {n : Nat} {form : Form}
  {ts : List Token} {c : Cursor} {mode : Mode} {l : Lexeme}

/-- What stands in brackets between commas. -/
inductive Item where
  | expression
  | property

/-- The values of the items. -/
@[reducible]
def Item.Value : Item → Type
  | expression => Expression
  | property => Property

/-- What a run of tokens is read as. -/
inductive Form where
  /-- An operand with all that follows it. -/
  | operand
  /-- Operations of the layers; without any, an operand with the operators before it. -/
  | layered (layers : List (List BinaryOp))
  /-- Operands of assignments, each with an equals sign before it. -/
  | assigned
  /-- An expression in a mode. -/
  | inMode (mode : Mode)
  /-- One item in brackets. -/
  | item (item : Item)
  /-- Items with commas between them, and maybe after the last. -/
  | list (item : Item)

/-- The values that runs of the form are read as. -/
@[reducible]
def Form.Value : Form → Type
  | operand | layered _ | inMode _ => Expression
  | assigned => List Expression
  | item x => x.Value
  | list x => List x.Value

/-- With a number of levels left for brackets, the tokens are read as the value of the form, and so
many operations are counted. -/
inductive Derives : (levels : Nat) → (form : Form) → List Token → Nat → form.Value → Prop
  | identifier {levels : Nat} {t : Token} (ht : t.kind = .identifier) :
      Derives levels .operand [t] 0 (Expression.identifier t.text t.span)
  | number {levels : Nat} {t : Token} (ht : t.kind = .number) :
      Derives levels .operand [t] 0
        (Expression.literal (Parser.numberValue t.text) t.text [] t.span)
  | string {levels : Nat} {t : Token} (ht : t.kind = .string) :
      Derives levels .operand [t] 0
        (Expression.literal (.string (Parser.stringValue t.text)) t.text
          (Parser.interpolations (Parser.innerAt levels) t) t.span)
  | group {levels n : Nat} {first last : Token} {ts : List Token} {e : Expression}
      (hfirst : first.lexeme = mark "(") (h : Derives levels (.item .expression) ts n e)
      (hlast : last.lexeme = mark ")") :
      Derives levels .operand (first :: (ts ++ [last])) n e
  | array {levels n : Nat} {first last : Token} {ts : List Token} {es : List Expression}
      (hfirst : first.lexeme = mark "[") (h : Derives levels (.list .expression) ts n es)
      (hlast : last.lexeme = mark "]") :
      Derives levels .operand (first :: (ts ++ [last])) n
        (Expression.array es (Span.between first.span.start last.span.stop))
  | object {levels n : Nat} {first last : Token} {ts : List Token} {ps : List Property}
      (hfirst : first.lexeme = mark "\x7b") (h : Derives levels (.list .property) ts n ps)
      (hlast : last.lexeme = mark "\x7d") :
      Derives levels .operand (first :: (ts ++ [last])) n
        (Expression.object ps (Span.between first.span.start last.span.stop))
  | member {levels n : Nat} {t name : Token} {ts : List Token} {e : Expression} {namespaced : Bool}
      (h : Derives levels .operand ts n e) (ht : t.lexeme = PropertyName.separator namespaced)
      (hname : name.kind = .identifier) :
      Derives levels .operand (ts ++ [t, name]) (n + 1)
        (Expression.member e ⟨name.text, name.span⟩ namespaced
          (Span.between e.span.start name.span.stop))
  | call {levels m n : Nat} {first last : Token} {ts us : List Token} {e : Expression}
      {es : List Expression} (h : Derives levels .operand ts m e) (hfirst : first.lexeme = mark "(")
      (harguments : Derives levels (.list .expression) us n es) (hlast : last.lexeme = mark ")") :
      Derives levels .operand (ts ++ first :: (us ++ [last])) (m + (n + 1))
        (Expression.call e es (Span.between e.span.start last.span.stop))
  | index {levels m n : Nat} {first last : Token} {ts us : List Token} {e i : Expression}
      (h : Derives levels .operand ts m e) (hfirst : first.lexeme = mark "[")
      (hi : Derives levels (.item .expression) us n i) (hlast : last.lexeme = mark "]") :
      Derives levels .operand (ts ++ first :: (us ++ [last])) (m + (n + 1))
        (Expression.index e i (Span.between e.span.start last.span.stop))
  | bare {levels n : Nat} {ts : List Token} {e : Expression} (h : Derives levels .operand ts n e) :
      Derives levels (.layered []) ts n e
  | unary {levels n : Nat} {t : Token} {ts : List Token} {e : Expression} {op : UnaryOp}
      (ht : t.lexeme = op.lexeme) (h : Derives levels (.layered []) ts n e) :
      Derives levels (.layered []) (t :: ts) (n + 1)
        (Expression.unary op e (Span.between t.span.start e.span.stop))
  | tighter {levels n : Nat} {ops : List BinaryOp} {layers : List (List BinaryOp)}
      {ts : List Token} {e : Expression} (h : Derives levels (.layered layers) ts n e) :
      Derives levels (.layered (ops :: layers)) ts n e
  | binary {levels m n : Nat} {ops : List BinaryOp} {layers : List (List BinaryOp)} {op : BinaryOp}
      {t : Token} {ts us : List Token} {left right : Expression}
      (hleft : Derives levels (.layered (ops :: layers)) ts m left) (hop : op ∈ ops)
      (ht : t.lexeme = op.lexeme) (hright : Derives levels (.layered layers) us n right) :
      Derives levels (.layered (ops :: layers)) (ts ++ t :: us) (m + (n + 1))
        (Expression.join op left right)
  | unassigned {levels : Nat} : Derives levels .assigned [] 0 []
  | assign {levels m n : Nat} {t : Token} {ts us : List Token} {e : Expression}
      {rest : List Expression} (ht : t.lexeme = BinaryOp.assign.lexeme)
      (h : Derives levels (.layered Mode.statement.layers) ts m e)
      (hrest : Derives levels .assigned us n rest) :
      Derives levels .assigned (t :: ts ++ us) (m + 1 + n) (e :: rest)
  | statement {levels m n : Nat} {ts us : List Token} {first : Expression}
      {operands : List Expression} (h : Derives levels (.layered Mode.statement.layers) ts m first)
      (hoperands : Derives levels .assigned us n operands) :
      Derives levels (.inMode .statement) (ts ++ us) (m + n) (Parser.assignAll first operands)
  | condition {levels n : Nat} {ts : List Token} {e : Expression}
      (h : Derives levels (.layered Mode.condition.layers) ts n e) :
      Derives levels (.inMode .condition) ts n e
  | nested {levels n : Nat} {ts : List Token} {e : Expression}
      (h : Derives levels (.inMode .condition) ts n e) :
      Derives (levels + 1) (.item .expression) ts n e
  | property {levels m n : Nat} {t : Token} {ts us : List Token} {key value : Expression}
      (hkey : Derives levels (.item .expression) ts m key) (ht : t.lexeme = operator "->")
      (hvalue : Derives levels (.item .expression) us n value) (span : Span) :
      Derives levels (.item .property) (ts ++ t :: us) (m + n) (Property.mk key value span)
  | empty {levels : Nat} {x : Item} : Derives levels (.list x) [] 0 []
  | last {levels n : Nat} {x : Item} {ts : List Token} {a : x.Value}
      (h : Derives levels (.item x) ts n a) : Derives levels (.list x) ts n [a]
  | more {levels m n : Nat} {x : Item} {t : Token} {ts us : List Token} {a : x.Value}
      {rest : List x.Value} (h : Derives levels (.item x) ts m a) (ht : t.lexeme = mark ",")
      (hrest : Derives levels (.list x) us n rest) :
      Derives levels (.list x) (ts ++ t :: us) (m + n) (a :: rest)

variable {a : form.Value}

theorem Derives.cast {n' : Nat}
    (h : Derives levels form ts n a) (hn : n = n') : Derives levels form ts n' a :=
  hn ▸ h

/-- What is derived from tokens holds no boundary. -/
theorem Derives.isPart (h : Derives levels form ts n a) : ∀ t ∈ ts, t.lexeme.isPart := by
  have hkind : ∀ {t : Token} {l : Lexeme}, t.lexeme = l → l.isPart → t.lexeme.isPart :=
    fun heq hl => heq ▸ hl
  have hbracket : ∀ {us : List Token} {first last : Token} {l l' : Lexeme}, first.lexeme = l →
      last.lexeme = l' → l.isPart → l'.isPart → (∀ t ∈ us, t.lexeme.isPart) →
      ∀ t ∈ first :: (us ++ [last]), t.lexeme.isPart := by
    intro us first last l l' hfirst hlast hl hl' hus
    refine forall_mem_cons.2 ⟨hkind hfirst hl, forall_mem_append.2 ⟨hus, ?_⟩⟩
    exact forall_mem_singleton.2 (hkind hlast hl')
  have hoperand : ∀ {t : Token} {kind : Token.Kind}, t.kind = kind →
      (⟨kind, t.text⟩ : Lexeme).isPart → t.lexeme.isPart := by
    rintro t kind rfl h
    exact h
  induction h with
  | identifier ht | number ht | string ht => exact forall_mem_singleton.2 (hoperand ht rfl)
  | group hfirst _ hlast ih | array hfirst _ hlast ih | object hfirst _ hlast ih =>
    exact hbracket hfirst hlast rfl rfl ih
  | @member _ _ _ _ _ _ namespaced _ ht hname ih =>
    refine forall_mem_append.2 ⟨ih, forall_mem_cons.2 ⟨hkind ht ?_, ?_⟩⟩
    · cases namespaced <;> rfl
    · exact forall_mem_singleton.2 (hoperand hname rfl)
  | call _ hfirst _ hlast ih ih' | index _ hfirst _ hlast ih ih' =>
    exact forall_mem_append.2 ⟨ih, hbracket hfirst hlast rfl rfl ih'⟩
  | bare _ ih | tighter _ ih | condition _ ih | nested _ ih | last _ ih => exact ih
  | unary ht _ ih => exact forall_mem_cons.2 ⟨hkind ht rfl, ih⟩
  | binary _ _ ht _ ih ih' | property _ ht _ _ ih ih' | more _ ht _ ih ih' =>
    exact forall_mem_append.2 ⟨ih, forall_mem_cons.2 ⟨hkind ht rfl, ih'⟩⟩
  | assign ht _ _ ih ih' =>
    exact forall_mem_append.2 ⟨forall_mem_cons.2 ⟨hkind ht rfl, ih⟩, ih'⟩
  | statement _ _ ih ih' => exact forall_mem_append.2 ⟨ih, ih'⟩
  | unassigned | empty => exact forall_mem_nil _

namespace Lexeme

/-- What a lexeme adds to the number of open brackets. -/
def bracketStep (l : Lexeme) : Int :=
  if l.opens then 1 else if l.closes then -1 else 0

/-- How many more brackets a run opens than it closes. -/
def openBrackets (run : List Lexeme) : Int :=
  (run.map bracketStep).sum

/-- With some brackets open before the run, no more than the levels are open around any lexeme that
closes none. -/
def fits (levels : Nat) : (depth : Int) → List Lexeme → Bool
  | _, [] => true
  | depth, l :: rest => (l.closes || depth ≤ levels) && fits levels (depth + l.bracketStep) rest

variable {run run' : List Lexeme}

@[simp]
theorem openBrackets_nil : openBrackets [] = 0 := rfl

@[simp]
theorem openBrackets_cons : openBrackets (l :: run) = l.bracketStep + openBrackets run := by
  simp [openBrackets]

@[simp]
theorem openBrackets_append :
    openBrackets (run ++ run') = openBrackets run + openBrackets run' := by
  simp [openBrackets]

@[simp]
theorem bracketStep_operator (text : String) : (operator text).bracketStep = 0 := rfl

@[simp]
theorem bracketStep_binaryOp (op : BinaryOp) : op.lexeme.bracketStep = 0 := rfl

@[simp]
theorem bracketStep_unaryOp (op : UnaryOp) : op.lexeme.bracketStep = 0 := rfl

@[simp]
theorem bracketStep_separator (namespaced : Bool) :
    (PropertyName.separator namespaced).bracketStep = 0 := by
  cases namespaced <;> rfl

theorem fits_append (levels : Nat) (depth : Int) : fits levels depth (run ++ run') =
    (fits levels depth run && fits levels (depth + openBrackets run) run') := by
  induction run generalizing depth with
  | nil => simp [fits]
  | cons l run ih =>
    rw [cons_append, fits, fits, ih, openBrackets_cons, Bool.and_assoc, Int.add_assoc]

/-- A level more, and a bracket more around the run. -/
theorem fits_succ (levels : Nat) (depth : Int) :
    fits (levels + 1) (depth + 1) run = fits levels depth run := by
  induction run generalizing depth with
  | nil => rfl
  | cons l run ih =>
    have hdepth : depth + 1 + l.bracketStep = depth + l.bracketStep + 1 := by omega
    have hle : decide (depth + 1 ≤ ((levels + 1 : Nat) : Int)) =
        decide (depth ≤ (levels : Int)) := decide_eq_decide.2 (by omega)
    rw [fits, fits, hdepth, ih, hle]

end Lexeme

theorem bracketStep_of_kind {t : Token} {kind : Token.Kind} (ht : t.kind = kind)
    (hne : kind ≠ .punctuation) : t.lexeme.bracketStep = 0 := by
  have hkind : (t.lexeme.kind == .punctuation) = false := beq_eq_false_iff_ne.2 (ht.trans_ne hne)
  simp [bracketStep, opens, closes, hkind]

/-- What is read as one value closes as many brackets as it opens. -/
theorem Derives.openBrackets_eq_zero
    (h : Derives levels form ts n a) : openBrackets (ts.map Token.lexeme) = 0 := by
  induction h with
  | identifier ht | number ht | string ht => simp [bracketStep_of_kind ht nofun]
  | group hfirst _ hlast ih | array hfirst _ hlast ih | object hfirst _ hlast ih =>
    simp [hfirst, hlast, ih]
    rfl
  | member _ ht hname ih => simp [ht, ih, bracketStep_of_kind hname nofun]
  | call _ hfirst _ hlast ih ih' | index _ hfirst _ hlast ih ih' =>
    simp [hfirst, hlast, ih, ih']
    rfl
  | bare _ ih | tighter _ ih | condition _ ih | nested _ ih | last _ ih => exact ih
  | unary ht _ ih => simp [ht, ih]
  | binary _ _ ht _ ih ih' | assign ht _ _ ih ih' | property _ ht _ _ ih ih' =>
    simp [ht, ih, ih']
  | more _ ht _ ih ih' =>
    simp [ht, ih, ih']
    rfl
  | statement _ _ ih ih' => simp [ih, ih']
  | unassigned | empty => rfl

/-- How many brackets are open around a run of the form. -/
def Form.around : Form → Int
  | .operand | .layered _ | .assigned | .inMode _ => 0
  | .item _ | .list _ => 1

section Levels

variable {us : List Token} {a : form.Value} {depth : Int}

/-- Behind what is read as one value as many brackets are open as before it. -/
theorem Derives.fits_append (h : Derives levels form ts n a) :
    fits k depth ((ts ++ us).map Token.lexeme) =
      (fits k depth (ts.map Token.lexeme) && fits k depth (us.map Token.lexeme)) := by
  rw [map_append, Lexeme.fits_append, h.openBrackets_eq_zero, Int.add_zero]

theorem fits_plain {t : Token} {l : Lexeme} (ht : t.lexeme = l) (hstep : l.bracketStep = 0)
    (hdepth : depth ≤ k) :
    fits k depth ((t :: us).map Token.lexeme) = fits k depth (us.map Token.lexeme) := by
  rw [map_cons, fits, ht, hstep]
  simp [hdepth]

/-- In brackets one more is open. -/
theorem Derives.fits_bracketed (h : Derives levels form ts n a) {first last : Token} {l l' : Lexeme}
    (hfirst : first.lexeme = l) (hopens : l.opens) (hlast : last.lexeme = l')
    (hcloses : l'.closes) :
    fits k 0 ((first :: (ts ++ [last])).map Token.lexeme) = fits k 1 (ts.map Token.lexeme) := by
  have hstep : l.bracketStep = 1 := by simp [bracketStep, hopens]
  rw [map_cons, fits, hfirst, hstep, h.fits_append, map_singleton, fits, hlast, hcloses]
  simp [fits]

end Levels

section Lists

variable {x : Item}

/-- Items with a comma after each: what is read next goes on with them. -/
def ItemsBefore (levels : Nat) (x : Item) (before : List Token) (m : Nat)
    (items : List x.Value) : Prop :=
  ∀ ts n rest, Derives levels (.list x) ts n rest →
    Derives levels (.list x) (before ++ ts) (m + n) (items ++ rest)

theorem itemsBefore_nil : ItemsBefore levels x [] 0 [] := by
  intro ts n rest h
  rwa [Nat.zero_add]

variable {before read : List Token} {m : Nat} {items : List x.Value} {a : x.Value} {t : Token}

theorem ItemsBefore.derives (h : ItemsBefore levels x before m items) :
    Derives levels (.list x) before m items := by
  have hall := h [] 0 [] .empty
  rwa [append_nil, append_nil] at hall

/-- One more item, and the comma after it. -/
theorem ItemsBefore.more (h : ItemsBefore levels x before m items)
    (ha : Derives levels (.item x) read k a)
    (ht : t.lexeme = mark ",") :
    ItemsBefore levels x (before ++ (read ++ [t])) (m + k) (items ++ [a]) := by
  intro ts n rest hrest
  have hall := h _ _ _ (.more ha ht hrest)
  simpa only [append_assoc, singleton_append, Nat.add_assoc] using hall

end Lists

namespace Cursor

/-- At a boundary there is nothing before the first boundary. -/
theorem takeWhile_rest (h : c.current.kind.isBoundary) :
    c.rest.takeWhile (fun t => !t.kind.isBoundary) = [] := by
  unfold current at h
  cases hrest : c.rest with
  | nil => rfl
  | cons t rest =>
    rw [hrest] at h
    have hkind : t.kind.isBoundary := h
    simp [hkind]

/-- From one cursor to another these tokens were read, and so many operations were paid for. -/
structure Took (c : Cursor) (read : List Token) (n : Nat) (d : Cursor) : Prop where
  rest : c.rest = read ++ d.rest
  spent : c.spent + n ≤ d.spent

theorem Took.trans {d e : Cursor} {read read' : List Token} {n' : Nat} (h : c.Took read n d)
    (h' : d.Took read' n' e) : c.Took (read ++ read') (n + n') e := by
  refine ⟨by rw [h.rest, h'.rest, append_assoc], ?_⟩
  have hspent := h.spent
  have hspent' := h'.spent
  omega

end Cursor

namespace Parser

open Token

/-- What is read between two cursors, if the run is sound. -/
structure Yields {α : Type} (R : List Token → Nat → α → Prop) (c d : Cursor) (a : α) : Prop where
  counted : Counted .anything c d
  derives : c.Sound d → ∃ read n, c.Took read n d ∧ R read n a

section Yields

variable {α β : Type} {R : List Token → Nat → α → Prop} {R' : List Token → Nat → β → Prop}
  {d e : Cursor} {a : α} {b : β}

/-- The tokens of two values, one after the other. -/
inductive Both (R : List Token → Nat → α → Prop) (R' : List Token → Nat → β → Prop) :
    List Token → Nat → α × β → Prop
  | intro {ts us : List Token} {i j : Nat} {a : α} {b : β} (first : R ts i a) (second : R' us j b) :
      Both R R' (ts ++ us) (i + j) (a, b)

/-- The token has the lexeme and ends at the position, and so many operations are paid for it. -/
inductive Single (l : Lexeme) (stop : Position) (paid : Nat) : List Token → Nat → Token → Prop
  | intro {t : Token} (lexeme : t.lexeme = l) (hstop : stop = t.span.stop) :
      Single l stop paid [t] paid t

theorem Yields.mono (h : Yields R c d a) (hR : ∀ {ts n}, R ts n a → R' ts n b) :
    Yields R' c d b := by
  refine ⟨h.counted, fun hsound => ?_⟩
  obtain ⟨ts, n, htook, hts⟩ := h.derives hsound
  exact ⟨ts, n, htook, hR hts⟩

theorem Yields.and (h : Yields R c d a) (h' : Yields R' d e b) : Yields (Both R R') c e (a, b) := by
  refine ⟨h.counted.trans h'.counted, fun hsound => ?_⟩
  obtain ⟨hfirst, hsecond⟩ := h.counted.sound h'.counted hsound
  obtain ⟨ts, m, htook, hts⟩ := h.derives hfirst
  obtain ⟨us, n, htook', hus⟩ := h'.derives hsecond
  exact ⟨ts ++ us, m + n, htook.trans htook', .intro hts hus⟩

theorem Pays.yields (h : Pays .anything l c d) : Yields (Single l d.lastEnd 1) c d c.current :=
  ⟨h.counted, fun _ => ⟨[c.current], 1, ⟨h.rest, h.paid⟩, .intro h.lexeme h.lastEnd⟩⟩

theorem Expected.yields (h : Expected .anything l c d) :
    Yields (Single l d.lastEnd 0) c d c.current := by
  refine ⟨h.toCounted, fun hsound => ?_⟩
  have hsteps := h.steps hsound
  exact ⟨[c.current], 0, ⟨hsteps.rest, h.spent⟩, .intro hsteps.lexeme hsteps.lastEnd⟩

theorem yields_advance (hgoes : Counted .anything c c.advance)
    (ht : c.current.kind.isBoundary = false)
    (hl : c.current.lexeme = l) : Yields (Single l c.advance.lastEnd 0) c c.advance c.current :=
  Expected.yields ⟨hgoes, fun _ => hl ▸ steps_advance ht⟩

/-- Items up to where they are read, or up to the mark that closes them and ends at the position. -/
inductive UpTo (levels : Nat) (x : Item) (close : String) (stop : Position) :
    Bool → List Token → Nat → List x.Value → Prop
  | open {ts : List Token} {n : Nat} {items : List x.Value}
      (before : ItemsBefore levels x ts n items) :
      UpTo levels x close stop false ts n items
  | closed {ts : List Token} {n : Nat} {items : List x.Value} {last : Token}
      (derives : Derives levels (.list x) ts n items) (lexeme : last.lexeme = mark close)
      (hstop : stop = last.span.stop) : UpTo levels x close stop true (ts ++ [last]) n items

theorem CommaList.yields {x : Item} {P : Cursor → Cursor → x.Value → Prop}
    {close : String} {closed : Bool}
    {items : List x.Value} (hP : ∀ {c d a}, P c d a → Yields (Derives levels (.item x)) c d a)
    (h : CommaList .anything close P c closed d items) :
    Yields (UpTo levels x close d.lastEnd closed) c d items := by
  induction h with
  | nil h => exact ⟨.refl h, fun _ => ⟨[], 0, ⟨rfl, Nat.le_refl _⟩, .open itemsBefore_nil⟩⟩
  | more _ ha hcomma ih =>
    refine (ih.and ((hP ha).and hcomma.yields)).mono ?_
    rintro _ _ ⟨⟨hbefore⟩, ⟨ha, ⟨ht, -⟩⟩⟩
    exact .open (hbefore.more ha ht)
  | last _ ha hclose ih =>
    refine (ih.and ((hP ha).and hclose.yields)).mono ?_
    rintro _ _ ⟨⟨hbefore⟩, ⟨ha, ⟨ht, hstop⟩⟩⟩
    rw [← append_assoc]
    exact .closed (hbefore _ _ _ (.last ha)) ht hstop
  | close _ hclose ih =>
    refine (ih.and hclose.yields).mono ?_
    rintro _ _ ⟨⟨hbefore⟩, ⟨ht, hstop⟩⟩
    exact .closed hbefore.derives ht hstop

end Yields

/-- What a sound run derives, by the grade of the expression. -/
def Derived : Grade → Nat → List Token → Nat → Expression → Prop
  | .item, levels => Derives levels (.item .expression)
  | .operand, levels + 1 => Derives levels .operand
  | .layered layers, levels + 1 => Derives levels (.layered layers)
  | .inMode mode, levels + 1 => Derives levels (.inMode mode)
  | _, 0 => fun _ _ _ => False

/-- Sound runs of the parsers derive their values. -/
def Kept.derived : Kept .anything where
  expression levels grade := Yields (Derived grade levels)
  property levels := Yields (Derives levels (.item .property))
  earlier {levels grade c c' d e} hrests h := by
    refine ⟨hrests.toCounted.trans h.counted, fun hsound => ?_⟩
    obtain ⟨hfirst, hsecond⟩ := hrests.sound h.counted hsound
    obtain rfl := hrests.same hfirst
    exact h.derives hsecond
  later {levels grade c d d' e} h hrests := by
    refine ⟨h.counted.trans hrests.toCounted, fun hsound => ?_⟩
    obtain ⟨hfirst, hsecond⟩ := h.counted.sound hrests.toCounted hsound
    obtain rfl := hrests.same hsecond
    exact h.derives hfirst
  null hgoes hgoes' _ := by
    refine ⟨?_, fun hsound => absurd hsound (hgoes.reported hgoes')⟩
    exact (hgoes.trans (counted_report hgoes.supplied _ trivial)).trans hgoes'
  identifier hgoes hkind := by
    refine (yields_advance hgoes (by rw [hkind]; rfl) rfl).mono ?_
    rintro _ _ ⟨⟩
    exact .identifier hkind
  number hgoes hkind := by
    refine (yields_advance hgoes (by rw [hkind]; rfl) rfl).mono ?_
    rintro _ _ ⟨⟩
    exact .number hkind
  string hgoes hkind _ := by
    refine (yields_advance hgoes (by rw [hkind]; rfl) rfl).mono ?_
    rintro _ _ ⟨⟩
    exact .string hkind
  group {levels c d g e} hlexeme hgoes h hmarks := by
    refine ((yields_advance hgoes (isBoundary_of_mark hlexeme) hlexeme).and
      (h.and hmarks.yields)).mono ?_
    rintro _ _ ⟨⟨hfirst, -⟩, ⟨he, ⟨hlast, -⟩⟩⟩
    exact (Derives.group hfirst he hlast).cast (by omega)
  array {levels c d es} hlexeme hgoes _ hes := by
    refine ((yields_advance hgoes (isBoundary_of_mark hlexeme) hlexeme).and (hes.yields id)).mono ?_
    rintro _ _ ⟨⟨hfirst, -⟩, _ | ⟨hes, hlast, hstop⟩⟩
    exact hstop ▸ (Derives.array hfirst hes hlast).cast (by omega)
  object {levels c d ps} hlexeme hgoes _ hps := by
    refine ((yields_advance hgoes (isBoundary_of_mark hlexeme) hlexeme).and (hps.yields id)).mono ?_
    rintro _ _ ⟨⟨hfirst, -⟩, _ | ⟨hps, hlast, hstop⟩⟩
    exact hstop ▸ (Derives.object hfirst hps hlast).cast (by omega)
  pair {levels c d d' g e f} hgoes he harrow hsteps hf := by
    refine ⟨hgoes, fun hsound => ?_⟩
    have hsteps := hsteps (he.counted.sound (harrow.trans hf.counted) hsound).2
    have hyields := he.and ((Expected.yields ⟨harrow, fun _ => hsteps⟩).and hf)
    refine (hyields.mono ?_).derives hsound
    rintro _ _ ⟨he, ⟨⟨ht, -⟩, hf⟩⟩
    exact (Derives.property he ht hf _).cast (by omega)
  member {levels c d d' e namespaced} he hpays hgoes hkind := by
    refine (he.and (hpays.yields.and (yields_advance hgoes (by rw [hkind]; rfl) rfl))).mono ?_
    rintro _ _ ⟨he, ⟨⟨ht, -⟩, ⟨⟩⟩⟩
    exact (Derives.member he ht hkind).cast (by omega)
  call {levels c d d' g e es} he hpays _ hes := by
    refine (he.and (hpays.yields.and (hes.yields id))).mono ?_
    rintro _ _ ⟨he, ⟨⟨ht, -⟩, _ | ⟨hes, hlast, hstop⟩⟩⟩
    exact hstop ▸ (Derives.call he ht hes hlast).cast (by omega)
  index {levels c d d' g h e i} he hpays hi hmarks := by
    refine (he.and (hpays.yields.and (hi.and hmarks.yields))).mono ?_
    rintro _ _ ⟨he, ⟨⟨ht, -⟩, ⟨hi, ⟨hlast, hstop⟩⟩⟩⟩
    exact hstop ▸ (Derives.index he ht hi hlast).cast (by omega)
  bare h := h.mono .bare
  unary {levels c d g op e} hpays he := by
    refine (hpays.yields.and he).mono ?_
    rintro _ _ ⟨⟨ht, -⟩, he⟩
    exact (Derives.unary ht he).cast (by omega)
  tighter h := h.mono .tighter
  binary {levels ops layers c d d' g op e f} he hop hpays hf := by
    refine (he.and (hpays.yields.and hf)).mono ?_
    rintro _ _ ⟨he, ⟨⟨ht, -⟩, hf⟩⟩
    exact (Derives.binary he hop ht hf).cast (by omega)
  unassigned h := h.mono fun {ts _} h => append_nil ts ▸ .statement h .unassigned
  assign {levels c d d' g e f} he hpays hf := by
    refine (he.and (hpays.yields.and hf)).mono ?_
    rintro _ _ ⟨he, ⟨⟨ht, -⟩, hf⟩⟩
    cases hf with
    | statement hfirst hrest =>
      exact (Derives.statement he (.assign ht hfirst hrest)).cast (by omega)
  condition h := h.mono .condition
  inside h := h.mono .nested

/-- An expression that is read without a report derives its value from what was read. -/
theorem derives_read (hzero : c.operations = 0)
    (hclean : (expression levels mode c).2.diagnostics.length = c.diagnostics.length) :
    ∃ read n, n ≤ maxOperations ∧ c.rest = read ++ (expression levels mode c).2.rest ∧
      Derives levels (.inMode mode) read n (expression levels mode c).1 := by
  have hyields := (Kept.derived.cost_expression (k := 0) levels mode c.supplied_anything).1.2
  obtain ⟨read, n, htook, hderives⟩ :=
    hyields.derives ⟨by rw [hzero]; exact Nat.zero_le _, hclean.le⟩
  refine ⟨read, n, ?_, htook.rest, hderives⟩
  have hspent := htook.spent
  have hle : (expression levels mode c).2.spent ≤ maxOperations := Nat.min_le_right _ _
  omega

/-- A clean run of an expression up to a boundary derives its value from the tokens before the
boundary. -/
theorem derives_of_clean (hzero : c.operations = 0)
    (hclean : (expression levels mode c).2.diagnostics.length = c.diagnostics.length)
    (hbound : (expression levels mode c).2.current.kind.isBoundary) :
    ∃ n, n ≤ maxOperations ∧
    c.rest = (c.rest.takeWhile fun t => !t.kind.isBoundary) ++ (expression levels mode c).2.rest ∧
      Derives levels (.inMode mode) (c.rest.takeWhile fun t => !t.kind.isBoundary) n
        (expression levels mode c).1 := by
  obtain ⟨read, n, hn, hrest, hderives⟩ := derives_read hzero hclean
  have hread : c.rest.takeWhile (fun t => !t.kind.isBoundary) = read := by
    rw [hrest, takeWhile_append_of_pos, Cursor.takeWhile_rest hbound, append_nil]
    intro t ht
    have hkind : t.kind.isBoundary = false := isBoundary_of_isPart (hderives.isPart t ht)
    rw [hkind]
    rfl
  rw [hread]
  exact ⟨n, hn, hrest, hderives⟩

/-- An expression that fills the rest of its line derives its value from what stands up to the first
boundary. -/
theorem derives_standalone
    (hclean : (standalone (expression levels mode) c).2.diagnostics = c.diagnostics) :
    ∃ n, n ≤ maxOperations ∧
    Derives levels (.inMode mode) (c.rest.takeWhile fun t => !t.kind.isBoundary) n
      (standalone (expression levels mode) c).1 := by
  have hgrows : c.diagnostics.length ≤ (expression levels mode c.fresh).2.diagnostics.length :=
    (reads_expression levels mode c.fresh c.fresh.supplied_anything).line.diagnostics
  obtain ⟨heq, hbound, hnone⟩ := standalone_of_clean hgrows hclean
  obtain ⟨n, hn, -, hderives⟩ :=
    derives_of_clean (c := c.fresh) rfl (congrArg length hnone) hbound
  rw [heq]
  exact ⟨n, hn, hderives⟩

end Parser
end ScriptLint

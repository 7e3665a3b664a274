import ScriptLint.Proofs.WrittenForm
import Mathlib.Data.List.Forall2

/-!
# Lexemes without grouping

Parentheses around an operand, and a comma before a closing bracket, say nothing that the tree of
an expression holds.  `Lexeme.ungroup` deletes them.  Whether a parenthesis groups or begins the
arguments of a call is seen from what stands before it: after an operand it begins arguments.

**Results.**  `Grouped read target` says that a run of lexemes, read where an operand is expected,
becomes the target when the grouping is deleted, and ends an operand.  There is one lemma for each
form of an expression, and `Itemized` says the same of the items up to a closing bracket.
-/

namespace ScriptLint

open List

variable {l close : Lexeme}
namespace Lexeme

/-- A token of the kind is an operand by itself. -/
def isOperand (l : Lexeme) : Bool :=
  l.kind == .identifier || l.kind == .number || l.kind == .string

/-- The lexeme may stand in an expression. -/
def isPart (l : Lexeme) : Bool :=
  l.isOperand || l.kind == .operator || l.kind == .punctuation

theorem isBoundary_of_isPart (h : l.isPart) : l.kind.isBoundary = false := by
  obtain ⟨kind, text⟩ := l
  cases kind <;> first | rfl | cases h

/-- Deletes grouping parentheses and commas before a closing bracket.  `operand` says that an
operand stands just before, and `groups` says of each open bracket whether it groups. -/
def ungroup : (operand : Bool) → (groups : List Bool) → List Lexeme → List Lexeme
  | _, _, [] => []
  | operand, groups, l :: rest =>
    if l.opens then
      if l = mark "(" && !operand then ungroup false (true :: groups) rest
      else l :: ungroup false (false :: groups) rest
    else if l.closes then
      if groups.headD false then ungroup true groups.tail rest
      else l :: ungroup true groups.tail rest
    else if l = mark "," && rest.head?.any closes then
      ungroup false groups rest
    else
      l :: ungroup l.isOperand groups rest

section Steps

variable {operand : Bool} {groups : List Bool} {rest : List Lexeme}

theorem ungroup_group :
    ungroup false groups (mark "(" :: rest) = ungroup false (true :: groups) rest :=
  rfl

theorem ungroup_arguments :
    ungroup true groups (mark "(" :: rest) = mark "(" :: ungroup false (false :: groups) rest :=
  rfl

theorem ungroup_index :
    ungroup true groups (mark "[" :: rest) = mark "[" :: ungroup false (false :: groups) rest :=
  rfl

theorem ungroup_close (h : l.closes) (group : Bool) :
    ungroup operand (group :: groups) (l :: rest) =
      if group then ungroup true groups rest else l :: ungroup true groups rest := by
  rcases (closes_iff l).1 h with rfl | rfl | rfl <;> rfl

theorem ungroup_comma (h : rest.head?.any closes = false) :
    ungroup operand groups (mark "," :: rest) = mark "," :: ungroup false groups rest := by
  have hopens : (mark ",").opens = false := rfl
  have hcloses : (mark ",").closes = false := rfl
  have hoperand : (mark ",").isOperand = false := rfl
  simp [ungroup, hopens, hcloses, hoperand, h]

theorem ungroup_last_comma (h : rest.head?.any closes) :
    ungroup operand groups (mark "," :: rest) = ungroup false groups rest := by
  have hopens : (mark ",").opens = false := rfl
  have hcloses : (mark ",").closes = false := rfl
  simp [ungroup, hopens, hcloses, h]

/-- What is no punctuation mark stays. -/
theorem ungroup_plain (h : l.kind ≠ .punctuation) :
    ungroup operand groups (l :: rest) = l :: ungroup l.isOperand groups rest := by
  have hopens : l.opens = false := by simp [opens, h]
  have hcloses : l.closes = false := by simp [closes, h]
  have hcomma : l ≠ mark "," := fun heq => h (by rw [heq]; rfl)
  simp [ungroup, hopens, hcloses, hcomma]

end Steps

/-- Read where an operand is expected, the first run becomes the second one without its grouping,
and ends an operand. -/
structure Grouped (read target : List Lexeme) : Prop where
  head : ∃ l rest, read = l :: rest ∧ l.closes = false
  isPart : ∀ l ∈ read, l.isPart
  ungroup : ∀ groups rest,
    Lexeme.ungroup false groups (read ++ rest) = target ++ Lexeme.ungroup true groups rest

/-- Items up to a closing bracket: a run that becomes the targets with commas between them, and the
bracket. -/
structure Itemized (close : Lexeme) (read : List Lexeme) (targets : List (List Lexeme)) : Prop where
  isPart : ∀ l ∈ read, l.isPart
  ungroup : ∀ groups rest, Lexeme.ungroup false (false :: groups) (read ++ rest) =
    commas targets ++ close :: Lexeme.ungroup true groups rest

section Forms

variable {read read' target target' : List Lexeme}

theorem grouped_operand (h : l.isOperand) : Grouped [l] [l] := by
  have hkind : l.kind = .identifier ∨ l.kind = .number ∨ l.kind = .string := by
    simpa [isOperand, or_assoc] using h
  have hplain : l.kind ≠ .punctuation := by rcases hkind with h | h | h <;> rw [h] <;> decide
  refine ⟨⟨l, [], rfl, by simp [closes, hplain]⟩, ?_, ?_⟩
  · intro m hm
    obtain rfl := mem_singleton.1 hm
    simp [isPart, h]
  · intro groups rest
    rw [singleton_append, ungroup_plain hplain, h]
    rfl

/-- An operator in front of an operand. -/
theorem Grouped.prefixed (hl : l.kind = .operator) (h : Grouped read target) :
    Grouped (l :: read) (l :: target) := by
  have hplain : l.kind ≠ .punctuation := by rw [hl]; decide
  refine ⟨⟨l, read, rfl, by simp [closes, hplain]⟩, ?_, ?_⟩
  · exact forall_mem_cons.2 ⟨by simp [Lexeme.isPart, hl], h.isPart⟩
  · intro groups rest
    have hoperand : l.isOperand = false := by simp [isOperand, hl]
    rw [cons_append, ungroup_plain hplain, hoperand, h.ungroup]
    rfl

/-- Two runs with an operator between them. -/
theorem Grouped.infixed (hl : l.kind = .operator) (h : Grouped read target)
    (h' : Grouped read' target') : Grouped (read ++ l :: read') (target ++ l :: target') := by
  have htail := h'.prefixed hl
  obtain ⟨first, rest, rfl, hfirst⟩ := h.head
  refine ⟨⟨first, _, rfl, hfirst⟩, forall_mem_append.2 ⟨h.isPart, htail.isPart⟩, ?_⟩
  intro groups rest
  have hplain : l.kind ≠ .punctuation := by rw [hl]; decide
  have hoperand : l.isOperand = false := by simp [isOperand, hl]
  rw [append_assoc, h.ungroup, cons_append, ungroup_plain hplain, hoperand, h'.ungroup]
  simp

/-- A run in parentheses. -/
theorem Grouped.enclosed (h : Grouped read target) :
    Grouped (mark "(" :: (read ++ [mark ")"])) target := by
  refine ⟨⟨_, _, rfl, rfl⟩, ?_, ?_⟩
  · refine forall_mem_cons.2 ⟨rfl, forall_mem_append.2 ⟨h.isPart, ?_⟩⟩
    exact forall_mem_singleton.2 rfl
  · intro groups rest
    rw [cons_append, ungroup_group, append_assoc, h.ungroup]
    rfl

/-- An operand with a property. -/
theorem Grouped.property (h : Grouped read target) (namespaced : Bool) {name : Lexeme}
    (hname : name.kind = .identifier) :
    Grouped (read ++ [PropertyName.separator namespaced, name])
      (target ++ [PropertyName.separator namespaced, name]) := by
  obtain ⟨first, tail, rfl, hfirst⟩ := h.head
  have hplain : name.kind ≠ .punctuation := by rw [hname]; decide
  have hoperand : name.isOperand := by simp [isOperand, hname]
  refine ⟨⟨first, _, rfl, hfirst⟩, forall_mem_append.2 ⟨h.isPart, ?_⟩, ?_⟩
  · refine forall_mem_cons.2 ⟨?_, forall_mem_singleton.2 ?_⟩
    · cases namespaced <;> rfl
    · simp [Lexeme.isPart, hoperand]
  · intro groups rest
    have hseparator : ∀ tail,
        Lexeme.ungroup true groups (PropertyName.separator namespaced :: tail) =
          PropertyName.separator namespaced :: Lexeme.ungroup false groups tail := by
      intro tail
      cases namespaced <;> rfl
    rw [append_assoc, h.ungroup, cons_append, hseparator, singleton_append,
      ungroup_plain hplain, hoperand]
    simp

/-- An operand with arguments. -/
theorem Grouped.arguments {targets : List (List Lexeme)} (h : Grouped read target)
    (h' : Itemized (mark ")") read' targets) :
    Grouped (read ++ mark "(" :: read') (target ++ mark "(" :: (commas targets ++ [mark ")"])) := by
  obtain ⟨first, tail, rfl, hfirst⟩ := h.head
  refine ⟨⟨first, _, rfl, hfirst⟩, forall_mem_append.2 ⟨h.isPart, ?_⟩, ?_⟩
  · exact forall_mem_cons.2 ⟨rfl, h'.isPart⟩
  · intro groups rest
    rw [append_assoc, h.ungroup, cons_append, ungroup_arguments, h'.ungroup]
    simp

/-- An operand with an index. -/
theorem Grouped.index (h : Grouped read target) (h' : Grouped read' target') :
    Grouped (read ++ mark "[" :: (read' ++ [mark "]"]))
      (target ++ mark "[" :: (target' ++ [mark "]"])) := by
  obtain ⟨first, tail, rfl, hfirst⟩ := h.head
  refine ⟨⟨first, _, rfl, hfirst⟩, forall_mem_append.2 ⟨h.isPart, ?_⟩, ?_⟩
  · refine forall_mem_cons.2 ⟨rfl, forall_mem_append.2 ⟨h'.isPart, ?_⟩⟩
    exact forall_mem_singleton.2 rfl
  · intro groups rest
    rw [append_assoc, h.ungroup, cons_append, ungroup_index,
      append_assoc, h'.ungroup, singleton_append, ungroup_close rfl]
    simp

/-- Items in square brackets or braces, which do not group. -/
theorem Itemized.bracketed {targets : List (List Lexeme)} (h : Itemized close read targets)
    (hl : l = mark "[" ∨ l = mark "\x7b") :
    Grouped (l :: read) (l :: (commas targets ++ [close])) := by
  have hopen : ∀ groups rest, Lexeme.ungroup false groups (l :: rest) =
      l :: Lexeme.ungroup false (false :: groups) rest := by
    intro groups rest
    rcases hl with rfl | rfl <;> rfl
  refine ⟨⟨l, read, rfl, ?_⟩, forall_mem_cons.2 ⟨?_, h.isPart⟩, ?_⟩
  · rcases hl with rfl | rfl <;> rfl
  · rcases hl with rfl | rfl <;> rfl
  · intro groups rest
    rw [cons_append, hopen, h.ungroup]
    simp

end Forms

section Items

variable {reads targets : List (List Lexeme)}

theorem head_append {read target : List Lexeme} (h : Grouped read target) (rest : List Lexeme) :
    (read ++ rest).head?.any closes = false := by
  obtain ⟨l, tail, rfl, hl⟩ := h.head
  simpa using hl

theorem isPart_of_items (h : Forall₂ Grouped reads targets) :
    ∀ l ∈ reads.flatMap (· ++ [mark ","]), l.isPart := by
  induction h with
  | nil => simp
  | cons h _ ih =>
    refine forall_mem_append.2 ⟨forall_mem_append.2 ⟨h.isPart, ?_⟩, ih⟩
    exact forall_mem_singleton.2 rfl

/-- Commas between items stay: what follows each of them is no closing bracket. -/
theorem ungroup_items (h : Forall₂ Grouped reads targets) (groups : List Bool)
    {rest : List Lexeme} (hrest : rest.head?.any closes = false) :
    ungroup false groups (reads.flatMap (· ++ [mark ","]) ++ rest) =
      targets.flatMap (· ++ [mark ","]) ++ ungroup false groups rest := by
  induction h with
  | nil => rfl
  | @cons read target reads targets h htail ih =>
    have hnext : (reads.flatMap (· ++ [mark ","]) ++ rest).head?.any closes = false := by
      cases htail with
      | nil => exact hrest
      | cons h' _ =>
        rw [flatMap_cons, append_assoc, append_assoc]
        exact head_append h' _
    rw [flatMap_cons, append_assoc, append_assoc, h.ungroup, singleton_append,
      ungroup_comma hnext, ih]
    simp

/-- A comma before a closing bracket goes. -/
theorem ungroup_last_items (h : Forall₂ Grouped reads targets) (groups : List Bool)
    {rest : List Lexeme} (hrest : rest.head?.any closes) :
    ungroup false groups (reads.flatMap (· ++ [mark ","]) ++ rest) =
      commas targets ++ ungroup false groups rest := by
  induction h with
  | nil => rfl
  | @cons read target reads targets h htail ih =>
    rw [flatMap_cons, append_assoc, append_assoc, h.ungroup, singleton_append]
    cases htail with
    | nil => exact congrArg (target ++ ·) (ungroup_last_comma hrest)
    | @cons read' target' reads targets h' _ =>
      have hnext : ((read' :: reads).flatMap (· ++ [mark ","]) ++ rest).head?.any closes =
          false := by
        rw [flatMap_cons, append_assoc, append_assoc]
        exact head_append h' _
      rw [ungroup_comma hnext, ih]
      simp [commas]

theorem isPart_of_closes (h : close.closes) : close.isPart := by
  rcases (closes_iff close).1 h with rfl | rfl | rfl <;> rfl

/-- Items with a comma after each of them. -/
theorem itemized_commas (h : Forall₂ Grouped reads targets) (hclose : close.closes) :
    Itemized close (reads.flatMap (· ++ [mark ","]) ++ [close]) targets := by
  refine ⟨forall_mem_append.2 ⟨isPart_of_items h, ?_⟩, ?_⟩
  · exact forall_mem_singleton.2 (isPart_of_closes hclose)
  · intro groups rest
    rw [append_assoc, ungroup_last_items h _ (by simpa using hclose), singleton_append,
      ungroup_close hclose]
    rfl

/-- Items of which no comma follows the last. -/
theorem itemized_append {read target : List Lexeme} (h : Forall₂ Grouped reads targets)
    (hlast : Grouped read target) (hclose : close.closes) :
    Itemized close (reads.flatMap (· ++ [mark ","]) ++ (read ++ [close]))
      (targets ++ [target]) := by
  refine ⟨forall_mem_append.2 ⟨isPart_of_items h, ?_⟩, ?_⟩
  · refine forall_mem_append.2 ⟨hlast.isPart, ?_⟩
    exact forall_mem_singleton.2 (isPart_of_closes hclose)
  · intro groups rest
    rw [append_assoc, append_assoc, ungroup_items h _ (head_append hlast _),
      hlast.ungroup, singleton_append, ungroup_close hclose, commas_append_singleton]
    simp

end Items

end Lexeme
end ScriptLint

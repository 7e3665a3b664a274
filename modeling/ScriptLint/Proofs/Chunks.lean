import ScriptLint.Proofs.Splicing
import Mathlib.Data.List.Nodup

/-!
# Fixes on the chunks of a text

A text is cut into chunks, some of which are to be swapped for others.  When no such chunk is empty,
the fixes that swap them do not conflict, and in whatever order they are given all of them are
applied.

**Result.** `applyFixes_of_mends`: the output is the text with every swap made.
-/

namespace ScriptLint

open List Text

/-- A part of a text, which stays as it is or is swapped for another. -/
inductive Chunk where
  | keep (text : List Char)
  | swap (old new : List Char)

namespace Chunk

/-- What the text holds. -/
def old : Chunk → List Char
  | keep text => text
  | swap old _ => old

/-- What the text holds after the swap. -/
def new : Chunk → List Char
  | keep text => text
  | swap _ new => new

/-- The fixes that make the swaps in chunks from an offset on. -/
def fixes : Nat → List Chunk → List Fix
  | _, [] => []
  | offset, keep text :: chunks => fixes (offset + byteLength text) chunks
  | offset, swap old new :: chunks =>
    ⟨offset, offset + byteLength old, String.ofList new⟩ ::
      fixes (offset + byteLength old) chunks

/-- No swap is an insertion. -/
def IsSolid (chunks : List Chunk) : Prop :=
  ∀ old new, swap old new ∈ chunks → old ≠ []

theorem IsSolid.tail {chunk : Chunk} {chunks : List Chunk} (h : IsSolid (chunk :: chunks)) :
    IsSolid chunks :=
  fun old new hmem => h old new (mem_cons_of_mem chunk hmem)

variable {offset : Nat} {chunks : List Chunk}

theorem fixes_append (xs ys : List Chunk) :
    fixes offset (xs ++ ys) =
      fixes offset xs ++ fixes (offset + byteLength (xs.flatMap old)) ys := by
  induction xs generalizing offset with
  | nil => simp [fixes]
  | cons chunk xs ih => cases chunk <;> simp [fixes, ih, old, Nat.add_assoc]

theorem le_start_of_mem_fixes {fix : Fix} (h : fix ∈ fixes offset chunks) : offset ≤ fix.start := by
  induction chunks generalizing offset with
  | nil => cases h
  | cons chunk chunks ih =>
    cases chunk with
    | keep text => exact Nat.le_trans (Nat.le_add_right _ _) (ih h)
    | swap old new =>
      rcases mem_cons.1 h with rfl | h
      · exact Nat.le_refl _
      · exact Nat.le_trans (Nat.le_add_right _ _) (ih h)

theorem pairwise_fixes (offset : Nat) (h : IsSolid chunks) :
    (fixes offset chunks).Pairwise Fix.Follows := by
  induction chunks generalizing offset with
  | nil => exact .nil
  | cons chunk chunks ih =>
    cases chunk with
    | keep text => exact ih _ h.tail
    | swap old new =>
      refine pairwise_cons.2 ⟨fun fix hfix => ?_, ih _ h.tail⟩
      have hpos := byteLength_pos (h old new mem_cons_self)
      have hle := le_start_of_mem_fixes hfix
      exact ⟨hle, by dsimp only; omega⟩

/-- Sorting brings the fixes into the order of the text. -/
theorem mergeSort_eq {given : List Fix} (h : IsSolid chunks)
    (hperm : given.Perm (fixes offset chunks)) :
    given.mergeSort Fix.comesBefore = fixes offset chunks := by
  have hfollows := pairwise_fixes offset h
  have hsorted := pairwise_mergeSort Fix.comesBefore_trans Fix.comesBefore_total given
  have hstarts : ((fixes offset chunks).map Fix.start).Nodup :=
    pairwise_map.2 (hfollows.imp fun hab => Nat.ne_of_lt hab.2)
  refine Perm.eq_of_pairwise ?_ hsorted ?_
    ((mergeSort_perm given Fix.comesBefore).trans hperm)
  · intro a b ha hb hab hba
    rw [Fix.comesBefore_iff] at hab hba
    exact inj_on_of_nodup_map hstarts (hperm.subset (mem_mergeSort.1 ha)) hb (by omega)
  · refine hfollows.imp fun {a b} hab => ?_
    rw [Fix.comesBefore_iff]
    exact .inl hab.2

/-- All fixes are taken. -/
theorem select_fixes (pre : List Char) (last : Option Fix) (h : IsSolid chunks)
    (hlast : ∀ a ∈ last, a.stop ≤ byteLength pre ∧ a.start < byteLength pre) :
    Fix.select (pre ++ chunks.flatMap old) last (fixes (byteLength pre) chunks) =
      (fixes (byteLength pre) chunks, []) := by
  induction chunks generalizing pre last with
  | nil => rfl
  | cons chunk chunks ih =>
    have hpre : byteLength pre + byteLength chunk.old =
        byteLength (pre ++ chunk.old) := (byteLength_append _ _).symm
    have htext : pre ++ (chunk :: chunks).flatMap old = pre ++ chunk.old ++ chunks.flatMap old := by
      simp
    cases chunk with
    | keep text =>
      rw [fixes, htext]
      dsimp only [old] at hpre ⊢
      rw [hpre]
      refine ih _ _ h.tail fun a ha => ?_
      obtain ⟨hstop, hstart⟩ := hlast a ha
      omega
    | swap xs ys =>
      have hpos := byteLength_pos (h xs ys mem_cons_self)
      have hfits : Fix.fits (pre ++ xs ++ chunks.flatMap old)
          ⟨byteLength pre, byteLength pre + byteLength xs, String.ofList ys⟩ := by
        rw [Fix.fits, slice?_append]
        rfl
      have hfree : (last.any (Fix.conflicts · ⟨byteLength pre,
          byteLength pre + byteLength xs, String.ofList ys⟩)) = false := by
        cases last with
        | none => rfl
        | some a =>
          obtain ⟨hstop, hstart⟩ := hlast a rfl
          simp only [Option.any_some, Fix.conflicts, Bool.or_eq_false_iff,
            decide_eq_false_iff_not, beq_eq_false_iff_ne]
          omega
      rw [fixes, htext]
      dsimp only [old] at hpre ⊢
      rw [Fix.select, if_pos (by rw [hfits, hfree]; rfl), hpre]
      rw [ih _ _ h.tail]
      rintro _ ⟨⟩
      dsimp only
      omega

/-- Splicing makes the swaps. -/
theorem splice_fixes (offset : Nat) (pre : List Char) (chunks : List Chunk) :
    Fix.splice offset (pre ++ chunks.flatMap old) (fixes (offset + byteLength pre) chunks) =
      pre ++ chunks.flatMap new := by
  induction chunks generalizing offset pre with
  | nil => rfl
  | cons chunk chunks ih =>
    cases chunk with
    | keep text =>
      have hrest := ih offset (pre ++ text)
      rw [byteLength_append, ← Nat.add_assoc] at hrest
      simpa [fixes, old, new] using hrest
    | swap xs ys =>
      have hrest := ih (offset + byteLength pre + byteLength xs) []
      rw [fixes, flatMap_cons, flatMap_cons]
      dsimp only [new]
      rw [Fix.splice_cons rfl rfl]
      simpa using hrest

end Chunk

open Chunk

/-- The fixes are the swaps that turn a text, which starts at an offset, into another. -/
def Mends (offset : Nat) (text mended : List Char) (given : List Fix) : Prop :=
  ∃ chunks, chunks.flatMap old = text ∧ IsSolid chunks ∧ chunks.flatMap new = mended ∧
    fixes offset chunks = given

namespace Mends

variable {offset : Nat} {xs ys xs' ys' : List Char} {given given' : List Fix}

theorem keep (offset : Nat) (xs : List Char) : Mends offset xs xs [] :=
  ⟨[.keep xs], append_nil xs, fun _ _ hmem => by simp at hmem, append_nil xs, rfl⟩

theorem swap (ys : List Char) (hxs : xs ≠ []) :
    Mends offset xs ys [⟨offset, offset + byteLength xs, String.ofList ys⟩] := by
  refine ⟨[.swap xs ys], append_nil xs, fun old new hmem => ?_, append_nil ys, rfl⟩
  obtain ⟨rfl, rfl⟩ := Chunk.swap.inj (mem_singleton.1 hmem)
  exact hxs

theorem swapIf {swaps : Bool} (ys : List Char) (hxs : swaps = true → xs ≠ []) :
    Mends offset xs (if swaps then ys else xs)
      (if swaps then [⟨offset, offset + byteLength xs, String.ofList ys⟩] else []) := by
  cases swaps with
  | false => exact keep offset xs
  | true => exact swap ys (hxs rfl)

theorem append (h : Mends offset xs ys given) (h' : Mends (offset + byteLength xs) xs' ys' given') :
    Mends offset (xs ++ xs') (ys ++ ys') (given ++ given') := by
  obtain ⟨chunks, rfl, hsolid, rfl, rfl⟩ := h
  obtain ⟨chunks', rfl, hsolid', rfl, rfl⟩ := h'
  refine ⟨chunks ++ chunks', flatMap_append, fun old new hmem => ?_, flatMap_append,
    fixes_append chunks chunks'⟩
  rcases mem_append.1 hmem with hmem | hmem
  · exact hsolid old new hmem
  · exact hsolid' old new hmem

end Mends

/-- **Swaps do not conflict.**  Fixes that swap parts of a source, in any order, are all applied,
and the output is the source with the swaps made. -/
theorem applyFixes_of_mends {source : String} {mended : List Char} {given given' : List Fix}
    (h : Mends 0 source.toList mended given') (hperm : given.Perm given') :
    applyFixes source given = ⟨String.ofList mended, given.length, []⟩ := by
  obtain ⟨chunks, hsource, hsolid, rfl, rfl⟩ := h
  have hselect := select_fixes [] none hsolid nofun
  have hsplice := splice_fixes 0 [] chunks
  rw [nil_append, byteLength_nil] at hselect
  rw [nil_append, byteLength_nil, nil_append] at hsplice
  unfold applyFixes
  dsimp only
  rw [mergeSort_eq hsolid hperm, ← hsource, hselect]
  rw [hsplice, hperm.length_eq]

end ScriptLint

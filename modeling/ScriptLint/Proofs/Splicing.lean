import ScriptLint.Edit
import ScriptLint.Proofs.CanonicalPosition
import Mathlib.Data.Option.Basic

/-!
# Applying fixes is one splice

**Verdicts.**  The fixes are put in order by start and then by end, and the sort is stable.  Each of
them is taken or skipped where it stands in that order, so that the list of fixes with their
verdicts gives both the fixes taken and the fixes skipped.

**Sorting.**  A stable sort can be done item by item: an item goes before those of the sorted rest
that do not come before it.  Hence sorting commutes with picking out.

**Pieces.**  The output is put together from left to right: the untouched piece of the source before
a fix, its replacement, and so on up to the piece after the last fix.  Putting the replacements into
the source one by one, from the last fix to the first, gives the same text.

**Results.**
* `filter_mergeSort`: what is picked out of a sorted list.
* `isStableSort_mergeSort`: the order in which the fixes are tried.
* `conflict_of_skipped`: why a fix is skipped.
* `pairwise_follows`: a fix that is compared with the last one taken is compared with all of them.
* `pieces?_eq_splice`, `foldrM_replaceIn?`: the two ways to the output.
-/

namespace ScriptLint

open List Text

variable {fixes : List Fix} {fix : Fix} {last : Option Fix}

section Sorting

variable {α : Type} {le : α → α → Bool} (trans : ∀ a b c, le a b → le b c → le a c)
  (total : ∀ a b, le a b || le b a)

include trans total

/-- One more item cuts the sorted rest in two, and goes between the parts. -/
theorem mergeSort_cons_filter (a : α) (l : List α) :
    (l.mergeSort le).filter (!le a ·) ++ (l.mergeSort le).filter (le a ·) = l.mergeSort le ∧
      (a :: l).mergeSort le =
        (l.mergeSort le).filter (!le a ·) ++ a :: (l.mergeSort le).filter (le a ·) := by
  obtain ⟨front, back, hcons, hrest, hfront⟩ := mergeSort_cons trans total a l
  have hsorted := pairwise_mergeSort trans total (a :: l)
  rw [hcons] at hsorted
  have hback := (pairwise_cons.1 (pairwise_append.1 hsorted).2.1).1
  have hle : (front ++ back).filter (le a ·) = back := by
    rw [filter_append, filter_eq_self.2 hback, filter_eq_nil_iff.2, nil_append]
    exact fun b hb => by simpa using hfront b hb
  have hnot : (front ++ back).filter (!le a ·) = front := by
    rw [filter_append, filter_eq_self.2 hfront, filter_eq_nil_iff.2, append_nil]
    exact fun b hb => by simpa using hback b hb
  rw [hrest, hle, hnot]
  exact ⟨rfl, hcons⟩

/-- **Sorting commutes with picking out.** -/
theorem filter_mergeSort (p : α → Bool) (l : List α) :
    (l.mergeSort le).filter p = (l.filter p).mergeSort le := by
  induction l with
  | nil => simp
  | cons a l ih =>
    obtain ⟨hsplit, hcons⟩ := mergeSort_cons_filter trans total a l
    rw [hcons, filter_append, filter_cons, filter_cons]
    split
    · rw [(mergeSort_cons_filter trans total a (l.filter p)).2, ← ih, filter_filter, filter_filter,
        filter_filter, filter_filter]
      simp only [Bool.and_comm]
    · rw [← filter_append, hsplit, ih]

end Sorting

/-- The shorter one of two first parts of a text begins the longer one. -/
theorem Text.exists_eq_append_of_byteLength_le {xs ys xs' ys' : List Char}
    (h : xs ++ ys = xs' ++ ys')
    (hle : byteLength xs ≤ byteLength xs') : ∃ mid, xs' = xs ++ mid ∧ ys = mid ++ ys' := by
  rcases append_eq_append_iff.1 h with ⟨mid, hxs, hys⟩ | ⟨mid, hxs, hys⟩
  · exact ⟨mid, hxs, hys⟩
  · have hmid : mid.length = 0 := by
      have hlength := length_le_byteLength mid
      rw [hxs, byteLength_append] at hle
      omega
    obtain rfl := length_eq_zero_iff.1 hmid
    exact ⟨[], by simpa using hxs.symm, by simpa using hys.symm⟩

namespace Fix

/-- The range of the fix is in order, ends inside the text and cuts no character. -/
structure HasValidRange (cs : List Char) (fix : Fix) : Prop where
  start_le_stop : fix.start ≤ fix.stop
  stop_le : fix.stop ≤ byteLength cs
  start : Position.IsBoundary cs fix.start
  stop : Position.IsBoundary cs fix.stop

/-- A list holds the fixes of another one in order of their starts and then of their stops, and the
fixes with the same range in the order in which they are given. -/
structure IsStableSort (fixes sorted : List Fix) : Prop where
  perm : sorted.Perm fixes
  ordered : sorted.Pairwise fun a b => a.start < b.start ∨ a.start = b.start ∧ a.stop ≤ b.stop
  stable : ∀ start stop, sorted.filter (fun fix => fix.start == start && fix.stop == stop) =
    fixes.filter (fun fix => fix.start == start && fix.stop == stop)

/-- The fixes with a verdict, in order. -/
def withVerdict (verdict : Bool) (verdicts : List (Fix × Bool)) : List Fix :=
  (verdicts.filter (·.2 == verdict)).map Prod.fst

/-- The pieces of a text from an offset on that no fix touches, with the replacements between
them. -/
def pieces? (cs : List Char) : (offset : Nat) → List Fix → Option (List Char)
  | offset, [] => slice? cs offset (byteLength cs)
  | offset, fix :: rest => do
    let before ← slice? cs offset fix.start
    let after ← pieces? cs fix.stop rest
    return before ++ fix.replacement.toList ++ after

/-- The text with the range of one fix replaced, if the range fits the text. -/
def replaceIn? (fix : Fix) (cs : List Char) : Option (List Char) := do
  guard (fix.start ≤ fix.stop)
  let (before, onward) ← splitAtByte? cs fix.start
  let (_, after) ← splitAtByte? onward (fix.stop - fix.start)
  return before ++ fix.replacement.toList ++ after

theorem comesBefore_iff (a b : Fix) :
    a.comesBefore b ↔ a.start < b.start ∨ a.start = b.start ∧ a.stop ≤ b.stop := by
  simp [comesBefore]

theorem comesBefore_trans (a b c : Fix) (hab : a.comesBefore b) (hbc : b.comesBefore c) :
    a.comesBefore c := by
  rw [comesBefore_iff] at hab hbc ⊢
  omega

theorem comesBefore_total (a b : Fix) : a.comesBefore b || b.comesBefore a := by
  rw [Bool.or_eq_true, comesBefore_iff, comesBefore_iff]
  omega

/-- Fixes with the same range stay in the order in which they are given. -/
theorem filter_range_mergeSort (fixes : List Fix) (start stop : Nat) :
    (fixes.mergeSort comesBefore).filter (fun fix => fix.start == start && fix.stop == stop) =
      fixes.filter (fun fix => fix.start == start && fix.stop == stop) := by
  rw [filter_mergeSort comesBefore_trans comesBefore_total]
  refine mergeSort_of_pairwise (pairwise_of_forall_mem_list fun a ha b hb => ?_)
  have ha' : a.start = start ∧ a.stop = stop := by simpa using (mem_filter.1 ha).2
  have hb' : b.start = start ∧ b.stop = stop := by simpa using (mem_filter.1 hb).2
  rw [comesBefore_iff]
  omega

theorem isStableSort_mergeSort (fixes : List Fix) :
    IsStableSort fixes (fixes.mergeSort comesBefore) where
  perm := mergeSort_perm fixes comesBefore
  ordered := by
    have hsorted := pairwise_mergeSort comesBefore_trans comesBefore_total fixes
    exact hsorted.imp fun {a b} h => (comesBefore_iff a b).1 h
  stable := filter_range_mergeSort fixes

/-- When fixes with the same range are the same, the order in which they are tried does not depend
on the order in which they are given. -/
theorem mergeSort_eq_of_perm {xs ys : List Fix} (h : xs.Perm ys)
    (hrange : ∀ a ∈ xs, ∀ b ∈ xs, a.start = b.start → a.stop = b.stop → a = b) :
    xs.mergeSort comesBefore = ys.mergeSort comesBefore := by
  have hsorted := pairwise_mergeSort comesBefore_trans comesBefore_total
  refine Perm.eq_of_pairwise (fun a b ha hb hab hba => ?_) (hsorted xs) (hsorted ys)
    (((mergeSort_perm xs _).trans h).trans (mergeSort_perm ys _).symm)
  rw [comesBefore_iff] at hab hba
  exact hrange a (mem_mergeSort.1 ha) b (h.mem_iff.2 (mem_mergeSort.1 hb)) (by omega) (by omega)

section Range

variable {cs : List Char}

/-- A fix fits a text when the text splits at both ends of its range. -/
theorem hasValidRange_iff_split : fix.HasValidRange cs ↔
    ∃ before touched after, cs = before ++ touched ++ after ∧
      fix.start = byteLength before ∧
      fix.stop = byteLength before + byteLength touched := by
  constructor
  · rintro ⟨hle, -, ⟨before, onward, rfl, hstart⟩, ⟨before', after, heq, hstop⟩⟩
    obtain ⟨touched, rfl, rfl⟩ := exists_eq_append_of_byteLength_le heq (by omega)
    refine ⟨before, touched, after, by rw [append_assoc], hstart, ?_⟩
    rw [hstop, byteLength_append]
  · rintro ⟨before, touched, after, rfl, hstart, hstop⟩
    refine ⟨by omega, ?_, ?_, ?_⟩
    · simp only [byteLength_append]
      omega
    · exact ⟨before, touched ++ after, by rw [append_assoc], hstart⟩
    · exact ⟨before ++ touched, after, rfl, by rw [hstop, byteLength_append]⟩

theorem fits_iff : fix.fits cs ↔ fix.HasValidRange cs := by
  rw [hasValidRange_iff_split]
  unfold fits
  constructor
  · intro h
    obtain ⟨touched, hslice⟩ := Option.isSome_iff_exists.1 h
    unfold slice? at hslice
    split at hslice
    · next hle =>
      split at hslice
      · cases hslice
      · next parts hparts =>
        obtain ⟨⟨touched', after⟩, hsplit, rfl⟩ := Option.map_eq_some_iff.1 hslice
        obtain ⟨rfl, hstart⟩ := splitAtByte?_eq_some hparts
        obtain ⟨honward, hstop⟩ := splitAtByte?_eq_some hsplit
        refine ⟨parts.1, touched', after, ?_, hstart.symm, by omega⟩
        rw [honward, append_assoc]
    · cases hslice
  · rintro ⟨before, touched, after, rfl, hstart, hstop⟩
    rw [hstart, hstop, slice?_append]
    rfl

end Range

section Verdicts

variable (cs : List Char)

/-- Fixes in order, each with the verdict that it is taken; `last` is the last one taken before
them. -/
def verdicts : (last : Option Fix) → List Fix → List (Fix × Bool)
  | _, [] => []
  | last, fix :: rest =>
    if fix.fits cs && !last.any (conflicts · fix) then (fix, true) :: verdicts (some fix) rest
    else (fix, false) :: verdicts last rest

theorem map_fst_verdicts (last : Option Fix) (fixes : List Fix) :
    (verdicts cs last fixes).map Prod.fst = fixes := by
  fun_induction verdicts cs last fixes with
  | case1 => rfl
  | case2 last fix rest _ ih => rw [map_cons, ih]
  | case3 last fix rest _ ih => rw [map_cons, ih]

/-- Selecting fixes sorts them by their verdicts. -/
theorem select_eq_withVerdict (last : Option Fix) (fixes : List Fix) :
    select cs last fixes =
      (withVerdict true (verdicts cs last fixes), withVerdict false (verdicts cs last fixes)) := by
  fun_induction verdicts cs last fixes with
  | case1 => rfl
  | case2 last fix rest htaken ih => simp [select, htaken, ih, withVerdict]
  | case3 last fix rest hskipped ih => simp [select, hskipped, ih, withVerdict]

/-- The fixes taken and the fixes skipped are all the fixes. -/
theorem perm_withVerdict (vs : List (Fix × Bool)) :
    (withVerdict true vs ++ withVerdict false vs).Perm (vs.map Prod.fst) := by
  induction vs with
  | nil => exact .refl _
  | cons v vs ih =>
    obtain ⟨fix, verdict⟩ := v
    cases verdict with
    | true => simpa [withVerdict] using ih
    | false =>
      have hmiddle : (withVerdict true vs ++ fix :: withVerdict false vs).Perm
          (fix :: (withVerdict true vs ++ withVerdict false vs)) := perm_middle
      simpa [withVerdict] using hmiddle.trans (ih.cons fix)

variable {cs}

/-- A fix is skipped because it does not fit the text, or because of a fix taken before it. -/
theorem conflict_of_skipped
    {before after : List (Fix × Bool)}
    (h : verdicts cs last fixes = before ++ (fix, false) :: after) :
    ¬ fix.fits cs ∨ ∃ p, (p ∈ last ∨ (p, true) ∈ before) ∧ conflicts p fix := by
  induction fixes generalizing last before with
  | nil => simp [verdicts] at h
  | cons first rest ih =>
    rw [verdicts] at h
    split at h
    · next htaken =>
      cases before with
      | nil => simp at h
      | cons v before =>
        obtain ⟨rfl, hrest⟩ := cons.inj h
        rcases ih hrest with hfits | ⟨p, hp, hconflict⟩
        · exact .inl hfits
        · refine .inr ⟨p, .inr ?_, hconflict⟩
          rcases hp with hp | hp
          · obtain rfl : first = p := by simpa using hp
            exact mem_cons_self
          · exact mem_cons_of_mem _ hp
    · next hskipped =>
      cases before with
      | nil =>
        obtain ⟨hfix, -⟩ := cons.inj h
        obtain rfl : first = fix := (Prod.mk.inj hfix).1
        rw [Bool.and_eq_true, Decidable.not_and_iff_or_not] at hskipped
        rcases hskipped with hfits | hconflict
        · exact .inl hfits
        · obtain ⟨p, hp, hconflict⟩ : ∃ p ∈ last, conflicts p first := by
            simpa [Option.any_eq_true] using hconflict
          exact .inr ⟨p, .inl hp, hconflict⟩
      | cons v before =>
        obtain ⟨rfl, hrest⟩ := cons.inj h
        rcases ih hrest with hfits | ⟨p, hp, hconflict⟩
        · exact .inl hfits
        · exact .inr ⟨p, hp.imp id (mem_cons_of_mem _), hconflict⟩

theorem mem_of_mem_withVerdict {vs : List (Fix × Bool)} {verdict : Bool}
    (h : fix ∈ withVerdict verdict vs) : (fix, verdict) ∈ vs := by
  obtain ⟨⟨fix', verdict'⟩, hfilter, rfl⟩ := mem_map.1 h
  obtain ⟨hmem, hverdict⟩ := mem_filter.1 hfilter
  obtain rfl : verdict' = verdict := by simpa using hverdict
  exact hmem

theorem fits_of_taken
    (h : (fix, true) ∈ verdicts cs last fixes) : fix.fits cs := by
  fun_induction verdicts cs last fixes with
  | case1 => cases h
  | case2 last first rest htaken ih =>
    rcases mem_cons.1 h with heq | h
    · obtain rfl : fix = first := (Prod.mk.inj heq).1
      exact (Bool.and_eq_true_iff.1 htaken).1
    · exact ih h
  | case3 last first rest _ ih =>
    rcases mem_cons.1 h with heq | h
    · cases (Prod.mk.inj heq).2
    · exact ih h

/-- A fix lies after another one, and does not start where that one starts. -/
def Follows (a b : Fix) : Prop :=
  a.stop ≤ b.start ∧ a.start < b.start

/-- A fix without a conflict with an earlier one in order follows it. -/
theorem follows_of_not_conflicts {a b : Fix} (horder : a.start ≤ b.start)
    (h : conflicts a b = false) : Follows a b := by
  simp only [conflicts, Bool.or_eq_false_iff, decide_eq_false_iff_not, beq_eq_false_iff_ne] at h
  unfold Follows
  omega

/-- Each fix is compared with the last one taken only.  As the ranges taken are in order, it follows
the earlier ones too. -/
theorem pairwise_follows
    (hsorted : fixes.Pairwise fun a b => a.start ≤ b.start)
    (hlast : ∀ a ∈ last, ∀ b ∈ fixes, a.start ≤ b.start) :
    (∀ a ∈ last, ∀ b ∈ withVerdict true (verdicts cs last fixes), Follows a b) ∧
      (withVerdict true (verdicts cs last fixes)).Pairwise Follows := by
  fun_induction verdicts cs last fixes with
  | case1 => exact ⟨by simp [withVerdict], .nil⟩
  | case2 last fix rest htaken ih =>
    obtain ⟨hfirst, hrest⟩ := pairwise_cons.1 hsorted
    obtain ⟨hfits, hnone⟩ := Bool.and_eq_true_iff.1 htaken
    obtain ⟨hafter, hpairs⟩ := ih hrest (by simpa using hfirst)
    have hafter' : ∀ b ∈ withVerdict true (verdicts cs (some fix) rest), Follows fix b :=
      hafter fix rfl
    have hnext : ∀ a ∈ last, Follows a fix := by
      intro a ha
      refine follows_of_not_conflicts (hlast a ha fix mem_cons_self) ?_
      simp only [Option.mem_def] at ha
      simpa [ha] using hnone
    refine ⟨?_, pairwise_cons.2 ⟨hafter', hpairs⟩⟩
    intro a ha b hb
    have hfix := hnext a ha
    rcases mem_cons.1 hb with rfl | hb
    · exact hfix
    · have hb' := hafter' b hb
      unfold Follows at hfix hb' ⊢
      omega
  | case3 last fix rest _ ih =>
    exact ih (pairwise_cons.1 hsorted).2 fun a ha b hb =>
      hlast a ha b (mem_cons_of_mem _ hb)

end Verdicts

/-- What the ranges of fixes are in a text: valid, in order, and none before a first part of it. -/
structure InOrder (cs : List Char) (offset : Nat) (fixes : List Fix) : Prop where
  valid : ∀ fix ∈ fixes, fix.HasValidRange cs
  follows : fixes.Pairwise Follows
  after : ∀ fix ∈ fixes, offset ≤ fix.start

theorem InOrder.tail {cs : List Char} {offset : Nat}
    (h : InOrder cs offset (fix :: fixes)) : InOrder cs fix.stop fixes := by
  obtain ⟨hfix, hfixes⟩ := pairwise_cons.1 h.follows
  exact ⟨fun f hf => h.valid f (mem_cons_of_mem _ hf), hfixes, fun f hf => (hfix f hf).1⟩

variable {pre source : List Char}

/-- The first fix cuts what is left of the text into a part before it, its range, and a rest in
which the other fixes are in order. -/
theorem InOrder.split_head (h : InOrder (pre ++ source) (byteLength pre) (fix :: fixes)) :
    ∃ before touched after, source = before ++ (touched ++ after) ∧
      fix.start = byteLength pre + byteLength before ∧
      fix.stop = fix.start + byteLength touched ∧
      fix.stop = byteLength (pre ++ before ++ touched) ∧
      InOrder (pre ++ before ++ touched ++ after) (byteLength (pre ++ before ++ touched))
        fixes := by
  obtain ⟨head, touched, after, heq, hstart, hstop⟩ :=
    hasValidRange_iff_split.1 (h.valid fix mem_cons_self)
  have hafter := h.after fix mem_cons_self
  have htail := h.tail
  rw [append_assoc] at heq
  obtain ⟨before, rfl, rfl⟩ := exists_eq_append_of_byteLength_le heq (by omega)
  have hlength : fix.stop = byteLength (pre ++ before ++ touched) := by
    rw [hstop, ← byteLength_append]
  rw [hlength] at htail
  simp only [← append_assoc] at htail
  rw [byteLength_append] at hstart hstop
  exact ⟨before, touched, after, rfl, hstart, by omega, hlength, htail⟩

theorem splice_cons {offset : Nat} {before touched after : List Char}
    (hstart : fix.start = offset + byteLength before)
    (hstop : fix.stop = fix.start + byteLength touched) (fixes : List Fix) :
    splice offset (before ++ (touched ++ after)) (fix :: fixes) =
      before ++ fix.replacement.toList ++ splice fix.stop after fixes := by
  have hbefore : fix.start - offset = byteLength before := by omega
  have htouched : fix.stop - fix.start = byteLength touched := by omega
  simp only [splice, hbefore, htouched, splitAtByte?_append]

/-- Fixes in order meet none of the ranges that a splice gives up on: the output is put together
from the pieces between them. -/
theorem pieces?_eq_splice (h : InOrder (pre ++ source) (byteLength pre) fixes) :
    pieces? (pre ++ source) (byteLength pre) fixes =
      some (splice (byteLength pre) source fixes) := by
  induction fixes generalizing pre source with
  | nil =>
    have hslice := slice?_append pre source []
    rw [append_nil] at hslice
    rw [pieces?, splice, byteLength_append, hslice]
  | cons fix fixes ih =>
    obtain ⟨before, touched, after, rfl, hstart, hstop, hlength, htail⟩ := h.split_head
    have hslice : slice? (pre ++ (before ++ (touched ++ after))) (byteLength pre)
        fix.start = some before := by
      rw [hstart, ← append_assoc]
      exact slice?_append pre before (touched ++ after)
    have hrest := ih htail
    rw [← hlength] at hrest
    simp only [append_assoc] at hrest
    rw [pieces?, hslice, hrest, splice_cons hstart hstop]
    rfl

theorem replaceIn?_append {before touched : List Char} (hstart : fix.start = byteLength before)
    (hstop : fix.stop = fix.start + byteLength touched) (after : List Char) :
    fix.replaceIn? (before ++ touched ++ after) =
      some (before ++ fix.replacement.toList ++ after) := by
  have hrange : fix.start ≤ fix.stop := by omega
  have htouched : fix.stop - fix.start = byteLength touched := by omega
  rw [replaceIn?, htouched, hstart, append_assoc, splitAtByte?_append]
  simp [guard, ← hstart, hrange, splitAtByte?_append]

/-- Replacing the ranges one by one, from the last to the first, gives the same text: a replacement
moves nothing that lies before it. -/
theorem foldrM_replaceIn? (h : InOrder (pre ++ source) (byteLength pre) fixes) :
    fixes.foldrM replaceIn? (pre ++ source) =
      some (pre ++ splice (byteLength pre) source fixes) := by
  induction fixes generalizing pre source with
  | nil => simp [splice]
  | cons fix fixes ih =>
    obtain ⟨before, touched, after, rfl, hstart, hstop, hlength, htail⟩ := h.split_head
    have hrest := ih htail
    rw [← hlength] at hrest
    have hreplace : fix.replaceIn? (pre ++ before ++ touched ++ splice fix.stop after fixes) = _ :=
      replaceIn?_append (by rw [hstart, byteLength_append]) hstop _
    rw [foldrM_cons, splice_cons hstart hstop]
    simp only [append_assoc] at hrest hreplace ⊢
    rw [hrest]
    exact hreplace

end Fix

open ScriptLint.Fix in
/-- **Applying fixes is one splice.**  Every fix, in the stable order of the ranges, is taken or
skipped.  The ranges of the fixes taken are valid and lie apart; the output holds their replacements
and between them what the source holds, whether it is put together from left to right or changed in
place from the last fix to the first.  A fix is skipped only for a range that is not valid or for a
conflict with a fix taken before it in the order. -/
theorem applyFixes_splices (source : String) (fixes : List Fix) :
    ∃ verdicts : List (Fix × Bool),
      IsStableSort fixes (verdicts.map Prod.fst) ∧
      (applyFixes source fixes).applied = (withVerdict true verdicts).length ∧
      (applyFixes source fixes).skipped = withVerdict false verdicts ∧
      (withVerdict true verdicts ++ (applyFixes source fixes).skipped).Perm fixes ∧
      (∀ fix ∈ withVerdict true verdicts, fix.HasValidRange source.toList) ∧
      (withVerdict true verdicts).Pairwise (fun a b => a.stop ≤ b.start ∧ a.start ≠ b.start) ∧
      pieces? source.toList 0 (withVerdict true verdicts) =
        some (applyFixes source fixes).output.toList ∧
      (withVerdict true verdicts).foldrM replaceIn? source.toList =
        some (applyFixes source fixes).output.toList ∧
      ∀ before fix after, verdicts = before ++ (fix, false) :: after →
        ¬ fix.HasValidRange source.toList ∨
        ∃ p, (p, true) ∈ before ∧ (fix.start < p.stop ∨ fix.start = p.start) := by
  let sorted := fixes.mergeSort comesBefore
  let vs := verdicts source.toList none sorted
  have hsorted : IsStableSort fixes sorted := isStableSort_mergeSort fixes
  have hfst : vs.map Prod.fst = sorted := map_fst_verdicts _ _ _
  have happly : applyFixes source fixes =
      ⟨String.ofList (splice 0 source.toList (withVerdict true vs)),
        (withVerdict true vs).length, withVerdict false vs⟩ := by
    simp only [applyFixes, select_eq_withVerdict]
    rfl
  have hstarts : sorted.Pairwise fun a b => a.start ≤ b.start :=
    hsorted.ordered.imp fun h => by omega
  have hfollows : (withVerdict true vs).Pairwise Follows :=
    (pairwise_follows hstarts (by simp)).2
  have hvalid : ∀ fix ∈ withVerdict true vs, fix.HasValidRange source.toList :=
    fun fix hfix => fits_iff.1 (fits_of_taken (mem_of_mem_withVerdict hfix))
  have horder : InOrder ([] ++ source.toList) (byteLength []) (withVerdict true vs) :=
    ⟨hvalid, hfollows, fun _ _ => Nat.zero_le _⟩
  refine ⟨vs, ?_, ?_, ?_, ?_, hvalid, ?_, ?_, ?_, ?_⟩
  · rwa [hfst]
  · rw [happly]
  · rw [happly]
  · rw [happly]
    refine (perm_withVerdict vs).trans ?_
    rw [hfst]
    exact hsorted.perm
  · exact hfollows.imp fun h => ⟨h.1, Nat.ne_of_lt h.2⟩
  · rw [happly, String.toList_ofList]
    exact pieces?_eq_splice horder
  · rw [happly, String.toList_ofList]
    exact foldrM_replaceIn? horder
  · intro before fix after hvs
    rcases conflict_of_skipped hvs with hfits | ⟨p, hp, hconflict⟩
    · exact .inl fun hrange => hfits (fits_iff.2 hrange)
    · have hbefore : (p, true) ∈ before := by simpa using hp
      exact .inr ⟨p, hbefore, by simpa [conflicts] using hconflict⟩

/-- **The order of the fixes does not matter:** output, number of fixes applied and skipped fixes
are the same for the same fixes in any order, if those with the same range are the same. -/
theorem applyFixes_perm (source : String) {xs ys : List Fix} (h : xs.Perm ys)
    (hrange : ∀ a ∈ xs, ∀ b ∈ xs, a.start = b.start → a.stop = b.stop → a = b) :
    applyFixes source xs = applyFixes source ys := by
  unfold applyFixes
  rw [Fix.mergeSort_eq_of_perm h hrange]

/-- Two equal fixes, one that overlaps them, an insertion where one of them stops, and a range past
the end. -/
theorem applyFixes_perm_overlaps :
    let fixes : List Fix :=
      [⟨6, 11, "there"⟩, ⟨3, 8, "x"⟩, ⟨0, 5, "Hi"⟩, ⟨5, 5, ","⟩, ⟨0, 5, "Hi"⟩, ⟨9, 20, ""⟩]
    fixes.reverse.Perm fixes ∧
      (∀ a ∈ fixes.reverse, ∀ b ∈ fixes.reverse, a.start = b.start → a.stop = b.stop → a = b) ∧
      applyFixes "hello world" fixes.reverse = applyFixes "hello world" fixes :=
  ⟨reverse_perm _, by decide, applyFixes_perm _ (reverse_perm _) (by decide)⟩

end ScriptLint

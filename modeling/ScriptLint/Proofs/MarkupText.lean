import ScriptLint.Markup
import Mathlib.Data.Option.Basic

/-!
# Texts that are the same markup

Whether an issue in raw markup is kept hangs on the braces around it, and on colons, quotes and
brackets between them.  Other characters are plain: one run of them stands for another, and at the
end of a line there may as well be none.

**Result.** `any_enclosingBraces?_retouched`: the braces around a place hold an expression in both
texts, or in neither.
-/

namespace ScriptLint

open List Text

variable {ws xs ys us vs : List Char}
namespace Markup

/-- The number of open braces after a character, if it closes none that is not open. -/
def depthStep (depth : Nat) (c : Char) : Option Nat :=
  if c = '{' then some (depth + 1)
  else if c = '}' then (if depth = 0 then none else some (depth - 1))
  else some depth

/-- The number of open braces after a text, if it closes none that is not open. -/
def depthAfter (depth : Nat) (cs : List Char) : Option Nat :=
  cs.foldlM depthStep depth

theorem depthAfter_cons (depth : Nat) (c : Char) (cs : List Char) :
    depthAfter depth (c :: cs) = (depthStep depth c).bind fun d => depthAfter d cs :=
  foldlM_cons

theorem depthAfter_append (depth : Nat) (us vs : List Char) :
    depthAfter depth (us ++ vs) = (depthAfter depth us).bind fun d => depthAfter d vs :=
  foldlM_append

@[simp]
theorem depthStep_opening (depth : Nat) : depthStep depth '{' = some (depth + 1) := rfl

@[simp]
theorem depthStep_closing (depth : Nat) : depthStep (depth + 1) '}' = some depth := rfl

theorem depthStep_of_ne {c : Char} (hopen : c ≠ '{') (hclose : c ≠ '}') (depth : Nat) :
    depthStep depth c = some depth := by
  rw [depthStep, if_neg hopen, if_neg hclose]

/-- The search back stops at a brace, or goes on as if the character had been read forward. -/
theorem sinceOpening_step (depth : Nat) (c : Char) :
    (c = '{' ∧ depth = 0 ∧ ∀ seen cs, sinceOpening depth seen (c :: cs) = some seen) ∨
      ∃ d, depthStep d c = some depth ∧
        ∀ seen cs, sinceOpening depth seen (c :: cs) = sinceOpening d (c :: seen) cs := by
  by_cases hclose : c = '}'
  · subst hclose
    exact .inr ⟨depth + 1, rfl, fun _ _ => rfl⟩
  · by_cases hopen : c = '{'
    · subst hopen
      cases depth with
      | zero => exact .inl ⟨rfl, rfl, fun _ _ => rfl⟩
      | succ depth => exact .inr ⟨depth, rfl, fun _ _ => rfl⟩
    · refine .inr ⟨depth, depthStep_of_ne hopen hclose depth, fun seen cs => ?_⟩
      rw [sinceOpening.eq_def]
      simp [hclose, hopen]

theorem untilClosing_step (depth : Nat) (c : Char) (cs : List Char) : untilClosing depth (c :: cs) =
    (depthStep depth c).elim (some []) fun d => (untilClosing d cs).map (c :: ·) := by
  by_cases hopen : c = '{'
  · subst hopen
    rfl
  · by_cases hclose : c = '}'
    · subst hclose
      cases depth <;> rfl
    · rw [depthStep_of_ne hopen hclose, untilClosing.eq_def]
      simp [hopen, hclose]

/-- A text whose braces pair up is passed over. -/
theorem untilClosing_append_of_depthAfter {depth d : Nat} {us : List Char}
    (h : depthAfter depth us = some d) (rest : List Char) :
    untilClosing depth (us ++ rest) = (untilClosing d rest).map (us ++ ·) := by
  induction us generalizing depth with
  | nil =>
    obtain rfl : depth = d := Option.some.inj h
    simp
  | cons c us ih =>
    obtain ⟨depth', hstep, hrest⟩ := Option.bind_eq_some_iff.1 h
    rw [cons_append, untilClosing_step, hstep, Option.elim_some, ih hrest, Option.map_map]
    rfl

/-- A character that plays no part in markup. -/
def isPlain (c : Char) : Bool :=
  !(Piece.isQuote c || ['(', ')', '[', ']', '{', '}', ':', '\n'].contains c)

/-- Two pieces of a line that differ in runs of plain characters. -/
inductive Similar : List Char → List Char → Prop
  | nil : Similar [] []
  | cons (c : Char) {xs ys : List Char} (rest : Similar xs ys) : Similar (c :: xs) (c :: ys)
  | plain {us vs xs ys : List Char} (hus : us ≠ []) (hvs : vs ≠ []) (hplain : ∀ c ∈ us, isPlain c)
      (hplain' : ∀ c ∈ vs, isPlain c) (rest : Similar xs ys) : Similar (us ++ xs) (vs ++ ys)

theorem of_isPlain {c : Char} (h : isPlain c) :
    Piece.isQuote c = false ∧ c ≠ '{' ∧ c ≠ '}' ∧ c ≠ ':' ∧ c ≠ '\n' ∧
      (c ≠ '(' ∧ c ≠ '[' ∧ c ≠ ')' ∧ c ≠ ']') := by
  simp only [isPlain, Bool.not_eq_true', Bool.or_eq_false_iff] at h
  obtain ⟨hquote, hother⟩ := h
  simp only [contains_eq_mem] at hother
  grind

namespace Similar

theorem refl (xs : List Char) : Similar xs xs := by
  induction xs with
  | nil => exact .nil
  | cons c xs ih => exact .cons c ih

theorem append (h : Similar xs ys) (h' : Similar us vs) : Similar (xs ++ us) (ys ++ vs) := by
  induction h with
  | nil => exact h'
  | cons c _ ih => exact .cons c ih
  | plain hus hvs hplain hplain' _ ih =>
    rw [append_assoc, append_assoc]
    exact .plain hus hvs hplain hplain' ih

theorem reverse (h : Similar xs ys) : Similar xs.reverse ys.reverse := by
  induction h with
  | nil => exact .nil
  | cons c _ ih =>
    rw [reverse_cons, reverse_cons]
    exact ih.append (.refl [c])
  | @plain us vs xs ys hus hvs hplain hplain' _ ih =>
    have hrun : Similar us.reverse vs.reverse := by
      have hrun := Similar.plain (by simpa using hus) (by simpa using hvs)
        (fun c hc => hplain c (mem_reverse.1 hc))
        (fun c hc => hplain' c (mem_reverse.1 hc)) .nil
      rwa [append_nil, append_nil] at hrun
    rw [reverse_append, reverse_append]
    exact ih.append hrun

end Similar

section Scans

variable (hus : ∀ c ∈ us, isPlain c)

include hus

theorem sinceOpening_plain (depth : Nat) (seen rest : List Char) :
    sinceOpening depth seen (us ++ rest) = sinceOpening depth (us.reverse ++ seen) rest := by
  induction us generalizing seen with
  | nil => rfl
  | cons c us ih =>
    obtain ⟨hc, hrest⟩ := forall_mem_cons.1 hus
    obtain ⟨-, hopen, hclose, -⟩ := of_isPlain hc
    rw [cons_append, sinceOpening.eq_def]
    dsimp only
    rw [if_neg hclose, if_neg hopen, ih hrest, reverse_cons, append_assoc]
    rfl

theorem untilClosing_plain (depth : Nat) (rest : List Char) :
    untilClosing depth (us ++ rest) = (untilClosing depth rest).map (us ++ ·) := by
  refine untilClosing_append_of_depthAfter ?_ rest
  induction us with
  | nil => rfl
  | cons c us ih =>
    obtain ⟨hc, hrest⟩ := forall_mem_cons.1 hus
    obtain ⟨-, hopen, hclose, -⟩ := of_isPlain hc
    rw [depthAfter_cons, depthStep_of_ne hopen hclose]
    exact ih hrest

theorem hasTopColon_plain (depth : Nat) (quote : Option Char)
    (hquote : ∀ q ∈ quote, Piece.isQuote q) (rest : List Char) :
    hasTopColon depth quote (us ++ rest) = hasTopColon depth quote rest := by
  induction us with
  | nil => rfl
  | cons c us ih =>
    obtain ⟨hc, hrest⟩ := forall_mem_cons.1 hus
    obtain ⟨hnot, hopen, hclose, hcolon, -, hbrackets⟩ := of_isPlain hc
    rw [← ih hrest]
    cases quote with
    | none =>
      rw [hasTopColon.eq_def]
      simp [hnot, hopen, hclose, hcolon, hbrackets]
    | some q =>
      have hne : c ≠ q := by
        rintro rfl
        rw [hquote c rfl] at hnot
        cases hnot
      rw [hasTopColon.eq_def]
      simp [hne]

end Scans

theorem sinceOpening_similar (h : Similar xs ys) (depth : Nat) {seen seen' : List Char}
    (hseen : Similar seen seen') :
    Option.Rel Similar (sinceOpening depth seen xs) (sinceOpening depth seen' ys) := by
  induction h generalizing depth seen seen' with
  | nil => exact .none
  | cons c rest ih =>
    rcases sinceOpening_step depth c with ⟨-, -, hfound⟩ | ⟨d, -, hnext⟩
    · rw [hfound, hfound]
      exact .some hseen
    · rw [hnext, hnext]
      exact ih d (.cons c hseen)
  | @plain us vs xs ys hus hvs hplain hplain' _ ih =>
    rw [sinceOpening_plain hplain, sinceOpening_plain hplain']
    refine ih _ (.plain (by simpa using hus) (by simpa using hvs) ?_ ?_ hseen)
    · exact fun c hc => hplain c (mem_reverse.1 hc)
    · exact fun c hc => hplain' c (mem_reverse.1 hc)

theorem rel_map {f g : List Char → List Char} {a b : Option (List Char)}
    (h : Option.Rel Similar a b) (hfg : ∀ {xs ys}, Similar xs ys → Similar (f xs) (g ys)) :
    Option.Rel Similar (a.map f) (b.map g) := by
  cases h with
  | none => exact .none
  | some h => exact .some (hfg h)

theorem untilClosing_similar (h : Similar xs ys) (depth : Nat) :
    Option.Rel Similar (untilClosing depth xs) (untilClosing depth ys) := by
  induction h generalizing depth with
  | nil => exact .none
  | cons c rest ih =>
    rw [untilClosing_step, untilClosing_step]
    cases depthStep depth c with
    | none => exact .some .nil
    | some d => exact rel_map (ih d) fun h => .cons c h
  | plain hus hvs hplain hplain' _ ih =>
    rw [untilClosing_plain hplain, untilClosing_plain hplain']
    exact rel_map (ih _) fun h => .plain hus hvs hplain hplain' h

/-- Plain characters at the start of a line open no brace. -/
theorem sinceOpening_append (hws : ∀ c ∈ ws, isPlain c) (depth : Nat)
    (seen xs : List Char) : sinceOpening depth seen (xs ++ ws) = sinceOpening depth seen xs := by
  induction xs generalizing depth seen with
  | nil =>
    have hend := sinceOpening_plain hws depth seen []
    rwa [append_nil] at hend
  | cons c xs ih =>
    rw [cons_append, sinceOpening.eq_def, sinceOpening.eq_def depth seen (c :: xs)]
    cases depth <;> simp only [ih]

/-- Plain characters at the end of a line close no brace. -/
theorem untilClosing_append (hws : ∀ c ∈ ws, isPlain c) (depth : Nat)
    (xs : List Char) : untilClosing depth (xs ++ ws) = untilClosing depth xs := by
  induction xs generalizing depth with
  | nil =>
    have hend := untilClosing_plain hws depth []
    rwa [append_nil] at hend
  | cons c xs ih =>
    rw [cons_append, untilClosing.eq_def, untilClosing.eq_def depth (c :: xs)]
    cases depth <;> simp only [ih]

/-- What is left to ask once a colon was seen. -/
def afterColon (depth : Nat) : List Char → Bool
  | ':' :: rest => hasTopColon depth none rest
  | rest => depth == 0 || hasTopColon depth none rest

theorem afterColon_cons {c : Char} (hc : c ≠ ':') (depth : Nat) (rest : List Char) :
    afterColon depth (c :: rest) = (depth == 0 || hasTopColon depth none (c :: rest)) := by
  rw [afterColon]
  rintro rest' ⟨rfl, -⟩
  exact hc rfl

theorem hasTopColon_cons (depth : Nat) (quote : Option Char) (c : Char) (rest : List Char) :
    hasTopColon depth quote (c :: rest) =
      match quote with
      | some q => hasTopColon depth (if c = q then none else some q) rest
      | none =>
        if Piece.isQuote c then hasTopColon depth (some c) rest
        else if c = '(' || c = '[' || c = '{' then hasTopColon (depth + 1) none rest
        else if c = ')' || c = ']' || c = '}' then hasTopColon (depth - 1) none rest
        else if c = ':' then afterColon depth rest
        else hasTopColon depth none rest := by
  rw [hasTopColon.eq_def]
  rfl

/-- A colon that follows a colon is part of it, so the two questions are answered together. -/
theorem hasTopColon_similar (h : Similar xs ys) (depth : Nat) :
    (∀ quote : Option Char, (∀ q ∈ quote, Piece.isQuote q) →
      hasTopColon depth quote ys = hasTopColon depth quote xs) ∧
    afterColon depth ys = afterColon depth xs := by
  induction h generalizing depth with
  | nil => exact ⟨fun _ _ => rfl, rfl⟩
  | @cons c xs ys rest ih =>
    have hscan : ∀ quote : Option Char, (∀ q ∈ quote, Piece.isQuote q) →
        hasTopColon depth quote (c :: ys) = hasTopColon depth quote (c :: xs) := by
      intro quote hquote
      rw [hasTopColon_cons, hasTopColon_cons]
      cases quote with
      | some q =>
        refine (ih depth).1 _ fun q' hq' => ?_
        split at hq'
        · cases hq'
        · exact hquote q' hq'
      | none =>
        dsimp only
        split
        · next hc =>
          refine (ih depth).1 _ fun q hq => ?_
          cases hq
          exact hc
        · rw [(ih (depth + 1)).1 none (by simp), (ih (depth - 1)).1 none (by simp),
            (ih depth).1 none (by simp), (ih depth).2]
    refine ⟨hscan, ?_⟩
    by_cases hc : c = ':'
    · subst hc
      exact (ih depth).1 none (by simp)
    · rw [afterColon_cons hc, afterColon_cons hc, hscan none (by simp)]
  | @plain us vs xs ys hus hvs hplain hplain' rest ih =>
    have hscan : ∀ quote : Option Char, (∀ q ∈ quote, Piece.isQuote q) →
        hasTopColon depth quote (vs ++ ys) = hasTopColon depth quote (us ++ xs) := by
      intro quote hquote
      rw [hasTopColon_plain hplain depth quote hquote,
        hasTopColon_plain hplain' depth quote hquote, (ih depth).1 quote hquote]
    refine ⟨hscan, ?_⟩
    obtain ⟨c, us, rfl⟩ := exists_cons_of_ne_nil hus
    obtain ⟨d, vs, rfl⟩ := exists_cons_of_ne_nil hvs
    have hc := (of_isPlain (hplain c (by simp))).2.2.2.1
    have hd := (of_isPlain (hplain' d (by simp))).2.2.2.1
    rw [cons_append, cons_append] at hscan ⊢
    rw [afterColon_cons hc, afterColon_cons hd, hscan none (by simp)]

/-- A text and the text after a change of plain characters: in a line a run stands for a run, and
before a line feed it may be gone. -/
inductive Retouched : List Char → List Char → Prop
  | nil : Retouched [] []
  | cons (c : Char) {xs ys : List Char} (rest : Retouched xs ys) : Retouched (c :: xs) (c :: ys)
  | plain {us vs xs ys : List Char} (hus : us ≠ []) (hvs : vs ≠ []) (hplain : ∀ c ∈ us, isPlain c)
      (hplain' : ∀ c ∈ vs, isPlain c) (rest : Retouched xs ys) : Retouched (us ++ xs) (vs ++ ys)
  | trim {us xs ys : List Char} (hplain : ∀ c ∈ us, isPlain c) (rest : Retouched xs ys) :
      Retouched (us ++ '\n' :: xs) ('\n' :: ys)

namespace Retouched

theorem refl (xs : List Char) : Retouched xs xs := by
  induction xs with
  | nil => exact .nil
  | cons c xs ih => exact .cons c ih

theorem append (h : Retouched xs ys) (h' : Retouched us vs) : Retouched (xs ++ us) (ys ++ vs) := by
  induction h with
  | nil => exact h'
  | cons c _ ih => exact .cons c ih
  | plain hus hvs hplain hplain' _ ih =>
    rw [append_assoc, append_assoc]
    exact .plain hus hvs hplain hplain' ih
  | trim hplain _ ih =>
    rw [append_assoc]
    exact .trim hplain ih

theorem newline_not_mem (hus : ∀ c ∈ us, isPlain c) : '\n' ∉ us :=
  fun h => (of_isPlain (hus _ h)).2.2.2.2.1 rfl

/-- The last lines of the two texts are similar. -/
theorem last_line (h : Retouched xs ys) :
    ('\n' ∉ xs ∧ '\n' ∉ ys ∧ Similar xs ys) ∨
      ∃ before line before' line', xs = before ++ '\n' :: line ∧ ys = before' ++ '\n' :: line' ∧
        '\n' ∉ line ∧ '\n' ∉ line' ∧ Similar line line' := by
  induction h with
  | nil => exact .inl ⟨by simp, by simp, .nil⟩
  | @cons c xs ys _ ih =>
    obtain ⟨hxs, hys, hline⟩ | ⟨before, line, before', line', rfl, rfl, hrest⟩ := ih
    · by_cases hc : c = '\n'
      · exact .inr ⟨[], xs, [], ys, by rw [hc]; rfl, by rw [hc]; rfl, hxs, hys, hline⟩
      · exact .inl ⟨by simp [hxs, Ne.symm hc], by simp [hys, Ne.symm hc], .cons c hline⟩
    · exact .inr ⟨c :: before, line, c :: before', line', rfl, rfl, hrest⟩
  | @plain us vs xs ys hus hvs hplain hplain' _ ih =>
    obtain ⟨hxs, hys, hline⟩ | ⟨before, line, before', line', rfl, rfl, hrest⟩ := ih
    · exact .inl ⟨by simp [hxs, newline_not_mem hplain], by simp [hys, newline_not_mem hplain'],
        .plain hus hvs hplain hplain' hline⟩
    · exact .inr ⟨us ++ before, line, vs ++ before', line', by simp, by simp, hrest⟩
  | @trim us xs ys _ _ ih =>
    obtain ⟨hxs, hys, hline⟩ | ⟨before, line, before', line', rfl, rfl, hrest⟩ := ih
    · exact .inr ⟨us, xs, [], ys, rfl, rfl, hxs, hys, hline⟩
    · exact .inr ⟨us ++ '\n' :: before, line, '\n' :: before', line', by simp, rfl, hrest⟩

theorem takeWhile_newline {line : List Char} (hline : '\n' ∉ line) (rest : List Char) :
    (line ++ rest).takeWhile (· ≠ '\n') = line ++ rest.takeWhile (· ≠ '\n') := by
  refine takeWhile_append_of_pos fun c hc => ?_
  simpa using ne_of_mem_of_not_mem hc hline

theorem takeWhile_reverse (h : Retouched xs ys) :
    Similar (xs.reverse.takeWhile (· ≠ '\n')) (ys.reverse.takeWhile (· ≠ '\n')) := by
  obtain ⟨hxs, hys, hline⟩ | ⟨before, line, before', line', rfl, rfl, hxs, hys, hline⟩ :=
    h.last_line
  · have htake := takeWhile_newline (by simpa using hxs : '\n' ∉ xs.reverse) []
    have htake' := takeWhile_newline (by simpa using hys : '\n' ∉ ys.reverse) []
    rw [append_nil] at htake htake'
    rw [htake, htake']
    simpa using hline.reverse
  · rw [reverse_append, reverse_append, reverse_cons, reverse_cons,
      append_assoc, append_assoc,
      takeWhile_newline (by simpa using hxs : '\n' ∉ line.reverse),
      takeWhile_newline (by simpa using hys : '\n' ∉ line'.reverse)]
    simpa using hline.reverse

/-- The first line of the one text is similar to that of the other but for plain characters at its
end. -/
theorem takeWhile (h : Retouched xs ys) (hws : ∀ c ∈ ws, isPlain c) :
    ∃ line blanks, (xs ++ ws).takeWhile (· ≠ '\n') = line ++ blanks ∧ (∀ c ∈ blanks, isPlain c) ∧
      Similar line (ys.takeWhile (· ≠ '\n')) := by
  induction h with
  | nil =>
    refine ⟨[], ws, ?_, hws, .nil⟩
    simpa using takeWhile_newline (newline_not_mem hws) []
  | @cons c xs ys _ ih =>
    obtain ⟨line, blanks, htake, hblanks, hline⟩ := ih
    by_cases hc : c = '\n'
    · exact ⟨[], [], by simp [hc], by simp, by simpa [hc] using Similar.nil⟩
    · refine ⟨c :: line, blanks, ?_, hblanks, ?_⟩
      · rw [cons_append, takeWhile_cons_of_pos (by simpa using hc), htake]
        rfl
      · rw [takeWhile_cons_of_pos (by simpa using hc)]
        exact .cons c hline
  | @plain us vs xs ys hus hvs hplain hplain' _ ih =>
    obtain ⟨line, blanks, htake, hblanks, hline⟩ := ih
    refine ⟨us ++ line, blanks, ?_, hblanks, ?_⟩
    · rw [append_assoc, takeWhile_newline (newline_not_mem hplain), htake, append_assoc]
    · rw [takeWhile_newline (newline_not_mem hplain')]
      exact .plain hus hvs hplain hplain' hline
  | @trim us xs ys hplain _ _ =>
    refine ⟨[], us, ?_, hplain, by simpa using Similar.nil⟩
    rw [append_assoc, takeWhile_newline (newline_not_mem hplain)]
    simp

end Retouched

/-- The inside of the innermost braces around a place is similar in the two texts. -/
theorem enclosingBraces?_retouched {before before' after after' : List Char}
    (hbefore : Retouched before before') (hafter : Retouched after after')
    (hws : ∀ c ∈ ws, isPlain c) :
    Option.Rel Similar
      (enclosingBraces? (before ++ (after ++ ws)) (byteLength before))
      (enclosingBraces? (before' ++ after') (byteLength before')) := by
  obtain ⟨line, blanks, htake, hblanks, hline⟩ := hafter.takeWhile hws
  have hsince := sinceOpening_similar hbefore.takeWhile_reverse 0 .nil
  rw [enclosingBraces?, enclosingBraces?, splitAtByte?_append, splitAtByte?_append]
  dsimp only
  revert hsince
  generalize sinceOpening 0 [] (before.reverse.takeWhile (· ≠ '\n')) = a
  generalize sinceOpening 0 [] (before'.reverse.takeWhile (· ≠ '\n')) = b
  rintro (hinside | -)
  · dsimp only
    rw [htake, ← append_assoc, untilClosing_append hblanks]
    exact untilClosing_similar (hinside.append hline) 0
  · exact .none

/-- The braces around a place hold an expression in both texts or in neither. -/
theorem any_enclosingBraces?_retouched {before before' after after' : List Char}
    (hbefore : Retouched before before') (hafter : Retouched after after')
    (hws : ∀ c ∈ ws, isPlain c) :
    (enclosingBraces? (before' ++ after') (byteLength before')).any
      (fun inside => !hasTopColon 0 none inside) =
      (enclosingBraces? (before ++ (after ++ ws)) (byteLength before)).any
        fun inside => !hasTopColon 0 none inside := by
  have hrel := enclosingBraces?_retouched hbefore hafter hws
  revert hrel
  generalize enclosingBraces? (before ++ (after ++ ws)) (byteLength before) = a
  generalize enclosingBraces? (before' ++ after') (byteLength before') = b
  rintro (hinside | -)
  · rw [Option.any_some, Option.any_some, (hasTopColon_similar hinside 0).1 none (by simp)]
  · rfl

end Markup
end ScriptLint

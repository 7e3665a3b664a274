import ScriptLint.Check
import ScriptLint.Proofs.LineSites
import ScriptLint.Proofs.MarkupText
import ScriptLint.Proofs.Splicing

/-!
# Interpolations in raw markup

In raw markup an issue is kept if it starts inside braces that hold no colon.  The braces are sought
from the place of the issue to both sides, and every brace counts; the tokenizer seeks the end of an
interpolation from its start, and leaves out braces in quotes.  Where the braces in the quotes of an
interpolation pair up, both agree: the search stays in the interpolation.

**Depths.**  `depthAfter` counts open braces, and `quoted` is what stands in quotes.  The braces
outside quotes pair up by the tokenizer, those in quotes by assumption, and depths add, so that all
of them pair up.

**Results.**
* `depthAfter_of_splitAtClosing`: the braces of an interpolation pair up.
* `exists_enclosingBraces?`: the search around a place in a text with paired braces stays in the
  text.
* `keeps_in_interpolation`: an issue in an interpolation is kept.
-/

namespace ScriptLint

open List Text

open Piece

variable {cs us vs : List Char}

namespace Markup

/-- All braces of a text pair up. -/
def pairs (cs : List Char) : Bool :=
  depthAfter 0 cs == some 0

/-- What stands in quotes; `quote` is the open quote. -/
def quoted (quote : Option Char) : List Char → List Char
  | [] => []
  | c :: rest =>
    match quote with
    | none => quoted (if isQuote c then some c else none) rest
    | some q => if c = q then quoted none rest else c :: quoted quote rest

section Depth

variable {c : Char} {depth k : Nat}

/-- A step taken with more braces open. -/
theorem depthStep_add (h : depthStep depth c = some k) (more : Nat) :
    depthStep (more + depth) c = some (more + k) := by
  unfold depthStep at h ⊢
  split at h
  · next hopen => rw [if_pos hopen, ← Option.some.inj h, Nat.add_assoc]
  · next hopen =>
    rw [if_neg hopen]
    split at h
    · next hclose =>
      split at h
      · cases h
      · obtain rfl := Option.some.inj h
        rw [if_pos hclose, if_neg (by omega)]
        exact congrArg some (by omega)
    · next hclose => rw [if_neg hclose, Option.some.inj h]

theorem depthAfter_add (h : depthAfter depth cs = some k) (more : Nat) :
    depthAfter (more + depth) cs = some (more + k) := by
  induction cs generalizing depth with
  | nil => exact congrArg (fun d => some (more + d)) (Option.some.inj h)
  | cons c cs ih =>
    rw [depthAfter_cons] at h ⊢
    obtain ⟨d, hstep, hrest⟩ := Option.bind_eq_some_iff.1 h
    rw [depthStep_add hstep]
    exact ih hrest

theorem isQuote_ne_brace (h : isQuote c) : c ≠ '{' ∧ c ≠ '}' := by
  constructor <;> rintro rfl <;> cases h

/-- **The braces of an interpolation.**  The tokenizer pairs the braces outside quotes; with those
in quotes paired too, all are.  `depth` braces are open outside quotes, and `inQuotes` in quotes. -/
theorem depthAfter_of_splitAtClosing {quote : Option Char} {inQuotes : Nat}
    {inner after : List Char}
    (hquote : ∀ q ∈ quote, isQuote q) (h : splitAtClosing depth quote cs = some (inner, after))
    (hquoted : depthAfter inQuotes (quoted quote inner) = some 0) :
    depthAfter (depth + inQuotes) inner = some 0 := by
  induction cs generalizing depth quote inQuotes inner with
  | nil => simp [splitAtClosing] at h
  | cons c rest ih =>
    have hkeep : ∀ {depth' quote'},
        (splitAtClosing depth' quote' rest).map (fun parts => (c :: parts.1, parts.2)) =
          some (inner, after) →
        (∀ q ∈ quote', isQuote q) →
        (∀ inner', depthAfter inQuotes (quoted quote (c :: inner')) = some 0 →
          ∃ inQuotes', depthAfter inQuotes' (quoted quote' inner') = some 0 ∧
            depthStep (depth + inQuotes) c = some (depth' + inQuotes')) →
        depthAfter (depth + inQuotes) inner = some 0 := by
      intro depth' quote' hmap hquote' hrest
      obtain ⟨⟨inner', after'⟩, hsplit, heq⟩ := Option.map_eq_some_iff.1 hmap
      obtain ⟨rfl, rfl⟩ := Prod.mk.inj heq
      obtain ⟨inQuotes', hleft, hstep⟩ := hrest inner' hquoted
      rw [depthAfter_cons, hstep]
      exact ih hquote' hsplit hleft
    simp only [splitAtClosing] at h
    cases quote with
    | some q =>
      dsimp only at h
      have hq := isQuote_ne_brace (hquote q rfl)
      by_cases hc : c = q
      · subst hc
        refine hkeep h (by simp) fun inner' hleft => ⟨inQuotes, ?_, depthStep_of_ne hq.1 hq.2 _⟩
        simpa [quoted] using hleft
      · rw [if_neg hc] at h
        refine hkeep h hquote fun inner' hleft => ?_
        rw [quoted, if_neg hc] at hleft
        obtain ⟨inQuotes', hstep, hleft⟩ := Option.bind_eq_some_iff.1 hleft
        exact ⟨inQuotes', hleft, depthStep_add hstep depth⟩
    | none =>
      dsimp only at h
      split at h
      · next hc =>
        have hne := isQuote_ne_brace hc
        refine hkeep h (by simpa using hc) fun inner' hleft =>
          ⟨inQuotes, ?_, depthStep_of_ne hne.1 hne.2 _⟩
        simpa [quoted, hc] using hleft
      · next hc =>
        have hsame : ∀ inner', quoted none (c :: inner') = quoted none inner' := by
          simp [quoted, hc]
        simp only [hsame] at hkeep
        split at h
        · next hopen =>
          subst hopen
          refine hkeep h (by simp) fun inner' hleft => ⟨inQuotes, hleft, ?_⟩
          rw [depthStep_opening, Nat.add_right_comm]
        · split at h
          · next hclose =>
            subst hclose
            split at h
            · obtain ⟨rfl, -⟩ := Prod.mk.inj (Option.some.inj h)
              rw [Nat.zero_add]
              exact hquoted
            · refine hkeep h (by simp) fun inner' hleft => ⟨inQuotes, hleft, ?_⟩
              rw [Nat.succ_add, depthStep_closing]
          · next hopen hclose =>
            exact hkeep h (by simp) fun inner' hleft =>
              ⟨inQuotes, hleft, depthStep_of_ne hopen hclose _⟩

end Depth

section Search

variable {depth k : Nat}

theorem depthAfter_concat (h : depthAfter depth us = some k) (c : Char) :
    depthAfter depth (us ++ [c]) = depthStep k c := by
  rw [depthAfter_append, h]
  exact Option.bind_fun_some _

/-- Back from a place with braces open, the search stops in the text or at the brace in front of it;
between the brace and the place, all braces pair up but the `depth` that were closed behind the
place. -/
theorem sinceOpening_of_depthAfter (h : depthAfter 0 us = some k) (hdepth : depth ≤ k)
    (seen rest : List Char) :
    ∃ inside, sinceOpening depth seen (us.reverse ++ '{' :: rest) = some (inside ++ seen) ∧
      inside <:+ us ∧ depthAfter 0 inside = some depth := by
  induction us using reverseRecOn generalizing depth k seen with
  | nil =>
    obtain rfl : k = 0 := by simpa [depthAfter] using h.symm
    obtain rfl : depth = 0 := by omega
    exact ⟨[], rfl, nil_suffix, rfl⟩
  | append_singleton us c ih =>
    obtain ⟨j, hus, -⟩ := Option.bind_eq_some_iff.1 ((depthAfter_append _ _ _).symm.trans h)
    rw [depthAfter_concat hus] at h
    rw [reverse_append, reverse_singleton, singleton_append, cons_append]
    obtain ⟨rfl, rfl, hfound⟩ | ⟨d, hback, hnext⟩ := sinceOpening_step depth c
    · exact ⟨[], hfound _ _, nil_suffix, rfl⟩
    · have hle : d ≤ j := by grind [depthStep]
      obtain ⟨inside, hfound, ⟨before, rfl⟩, hinside⟩ := ih hus hle (c :: seen)
      refine ⟨inside ++ [c], ?_, ⟨before, (append_assoc _ _ _).symm⟩,
        (depthAfter_concat hinside c).trans hback⟩
      rw [hnext, hfound, append_assoc]
      rfl

/-- The search forward stops at the first brace that closes one which is not opened behind its
start. -/
theorem untilClosing_cases (depth : Nat) (cs : List Char) :
    (∃ inside after, untilClosing depth cs = some inside ∧ cs = inside ++ '}' :: after ∧
      depthAfter depth inside = some 0) ∨ untilClosing depth cs = none ∧
        ∃ k, depthAfter depth cs = some k := by
  induction cs generalizing depth with
  | nil => exact .inr ⟨rfl, depth, rfl⟩
  | cons c cs ih =>
    rw [untilClosing_step]
    cases hstep : depthStep depth c with
    | none =>
      obtain ⟨rfl, rfl⟩ : c = '}' ∧ depth = 0 := by grind [depthStep]
      exact .inl ⟨[], cs, rfl, rfl, rfl⟩
    | some d =>
      obtain ⟨inside, after, hfound, rfl, hinside⟩ | ⟨hnone, k, hk⟩ := ih d
      · refine .inl ⟨c :: inside, after, by rw [Option.elim_some, hfound]; rfl, rfl, ?_⟩
        rw [depthAfter_cons, hstep]
        exact hinside
      · refine .inr ⟨by rw [Option.elim_some, hnone]; rfl, k, ?_⟩
        rw [depthAfter_cons, hstep]
        exact hk

/-- With braces open, the search forward stops in the text or at the brace behind it. -/
theorem untilClosing_of_depthAfter (h : depthAfter (depth + k) vs = some 0) (rest : List Char) :
    ∃ inside, untilClosing depth (vs ++ '}' :: rest) = some inside ∧ inside <+: vs := by
  have hstop : ∀ xs, depthAfter depth (vs ++ '}' :: xs) = none := by
    intro xs
    rw [depthAfter_append]
    cases hvs : depthAfter depth vs with
    | none => rfl
    | some j =>
      have hmore := depthAfter_add hvs k
      rw [Nat.add_comm, h] at hmore
      obtain rfl : j = 0 := by have := Option.some.inj hmore; omega
      rfl
  obtain ⟨inside, after, hfound, heq, hinside⟩ | ⟨-, k, hk⟩ :=
    untilClosing_cases depth (vs ++ '}' :: rest)
  · refine ⟨inside, hfound, ?_⟩
    rcases append_eq_append_iff.1 heq with ⟨xs, rfl, hxs⟩ | ⟨xs, rfl, -⟩
    · cases xs with
      | nil => simp
      | cons x xs =>
        rw [← (cons.inj hxs).1, hstop] at hinside
        cases hinside
    · exact prefix_append _ _
  · rw [hstop] at hk
    cases hk

theorem enclosingBraces?_append (before after : List Char) :
    enclosingBraces? (before ++ after) (byteLength before) =
    (sinceOpening 0 [] (before.reverse.takeWhile (· ≠ '\n'))).bind fun inside =>
      untilClosing 0 (inside ++ after.takeWhile (· ≠ '\n')) := by
  rw [enclosingBraces?, splitAtByte?_append]
  dsimp only
  cases sinceOpening 0 [] (before.reverse.takeWhile (· ≠ '\n')) <;> rfl

/-- The search back from a place on the line of a brace. -/
theorem sinceOpening_line (h : depthAfter 0 us = some k) (hline : '\n' ∉ us) (before : List Char) :
    ∃ inside, sinceOpening 0 [] ((before ++ '{' :: us).reverse.takeWhile (· ≠ '\n')) = some inside ∧
    inside <:+ us ∧
      depthAfter 0 inside = some 0 := by
  have hrev : (before ++ '{' :: us).reverse = (us.reverse ++ ['{']) ++ before.reverse := by simp
  have hback := sinceOpening_of_depthAfter h (Nat.zero_le k) []
      (before.reverse.takeWhile (· ≠ '\n'))
  rw [hrev, Retouched.takeWhile_newline (by simpa using hline), append_assoc]
  simpa only [append_nil, singleton_append] using hback

/-- **The search around a place stays in a text with paired braces.** -/
theorem exists_enclosingBraces? {before us vs after : List Char} (hpairs : pairs (us ++ vs))
    (hline : '\n' ∉ us ++ vs) :
    ∃ inside, inside ⊆ us ++ vs ∧
      enclosingBraces? (before ++ '{' :: (us ++ vs ++ '}' :: after))
        (byteLength (before ++ '{' :: us)) = some inside := by
  have hdepth : depthAfter 0 (us ++ vs) = some 0 := by simpa [pairs] using hpairs
  rw [depthAfter_append] at hdepth
  obtain ⟨k, hus, hvs⟩ := Option.bind_eq_some_iff.1 hdepth
  have hplain : '\n' ∉ us ∧ '\n' ∉ vs := by simpa using hline
  have hforth : (vs ++ '}' :: after).takeWhile (· ≠ '\n') = vs ++ '}' ::
      after.takeWhile (· ≠ '\n') := by
    rw [Retouched.takeWhile_newline hplain.2]
    rfl
  obtain ⟨back, hfound, hsuffix, hback⟩ := sinceOpening_line hus hplain.1 before
  rw [← Nat.zero_add k] at hvs
  obtain ⟨forth, hfound', hbegins⟩ := untilClosing_of_depthAfter hvs (after.takeWhile (· ≠ '\n'))
  refine ⟨back ++ forth, ?_, ?_⟩
  · exact append_subset.2 ⟨fun c hc => mem_append_left _ (hsuffix.subset hc),
      fun c hc => mem_append_right _ (hbegins.subset hc)⟩
  · have hsource : before ++ '{' :: (us ++ vs ++ '}' :: after) =
        (before ++ '{' :: us) ++ (vs ++ '}' :: after) := by simp
    rw [hsource, enclosingBraces?_append, hfound, Option.bind_some, hforth,
      untilClosing_append_of_depthAfter hback, hfound']
    rfl

end Search

theorem hasTopColon_of_not_mem (h : ':' ∉ cs) (depth : Nat) (quote : Option Char) :
    hasTopColon depth quote cs = false := by
  induction cs generalizing depth quote with
  | nil => rfl
  | cons c cs ih =>
    obtain ⟨hc, hcs⟩ := ne_and_not_mem_of_not_mem_cons h
    rw [hasTopColon_cons]
    cases quote with
    | some q => exact ih hcs _ _
    | none => simp only [if_neg hc.symm, ih hcs, ite_self]

end Markup

namespace Piece

/-- A brace of an interpolation, or one that is never closed. -/
def isBrace : Piece → Bool
  | token .interpolationStart _ | token .interpolationEnd _ => true
  | token .invalid cs => cs.head? == some '{'
  | _ => false

theorem tokenShape_of_brace {c : Char} (h : c = '{' ∨ c = '}') (rest : List Char) :
    tokenShape c rest = (.punctuation, 0) := by
  rcases h with rfl | rfl <;> cases rest <;> rfl

theorem isBrace_of_mem_ofExpression {comments : Bool} {piece : Piece}
    (h : piece ∈ ofExpression comments cs) : piece.isBrace = false := by
  rcases mem_ofExpression h with ⟨_, _, rfl⟩ | ⟨-, _, h⟩ | ⟨c, rest, -, rfl⟩
  · rfl
  · rcases mem_cons.1 h with rfl | h <;> simp_all [isBrace]
  · have hkind := kind_tokenShape c rest
    have hinvalid : (tokenShape c rest).1 = .invalid → c ≠ '{' := by
      rintro hinvalid rfl
      rw [tokenShape_of_brace (.inl rfl)] at hinvalid
      cases hinvalid
    revert hkind hinvalid
    cases (tokenShape c rest).1 <;> simp [isBrace, tokenKinds]

/-- Every interpolation runs from its brace to the one that closes it, and a brace that is never
closed to the end of its line. -/
inductive Interpolates : List Piece → Prop
  | nil : Interpolates []
  | cons {piece : Piece} {rest : List Piece} :
      piece.isBrace = false → Interpolates rest → Interpolates (piece :: rest)
  | region {inner after : List Char} {rest : List Piece} :
      splitBraces (inner ++ '}' :: after) = some (inner, after) →
      OneLine inner → Interpolates rest →
      Interpolates (token .interpolationStart ['{'] ::
        (ofExpression false inner ++ token .interpolationEnd ['}'] :: rest))
  | unclosed {cs : List Char} {rest : List Piece} :
      OneLine cs → (∀ c ∈ (join rest).head?, isLineEnd c) →
      Interpolates rest → Interpolates (token .invalid ('{' :: cs) :: rest)

namespace Interpolates

variable {pieces rest : List Piece}

theorem append (hpieces : ∀ piece ∈ pieces, piece.isBrace = false) (hrest : Interpolates rest) :
    Interpolates (pieces ++ rest) := by
  induction pieces with
  | nil => exact hrest
  | cons piece pieces ih =>
    obtain ⟨hpiece, hpieces⟩ := forall_mem_cons.1 hpieces
    exact cons hpiece (ih hpieces)

/-- What begins with a brace that opens begins an interpolation or is never closed. -/
theorem of_suffix {piece : Piece} (h : Interpolates pieces) (hsuffix : piece :: rest <:+ pieces)
    (hbrace : piece.isBrace) (hopen : piece ≠ token .interpolationEnd ['}']) :
    Interpolates (piece :: rest) := by
  have hskip : ∀ {xs ys}, (∀ x ∈ xs, x ≠ piece) → piece :: rest <:+ xs ++ ys →
      piece :: rest <:+ ys := by
    intro xs ys hxs hsuffix
    induction xs with
    | nil => exact hsuffix
    | cons x xs ih =>
      obtain ⟨hx, hxs⟩ := forall_mem_cons.1 hxs
      rcases suffix_cons_iff.1 hsuffix with heq | hsuffix
      · exact absurd (cons.inj heq).1.symm hx
      · exact ih hxs hsuffix
  have hfree : ∀ x : Piece, x.isBrace = false → x ≠ piece := by
    rintro x hx rfl
    simp [hx] at hbrace
  induction h with
  | nil => simp at hsuffix
  | cons hpiece _ ih => exact ih (@hskip [_] _ (by simpa using hfree _ hpiece) hsuffix)
  | region hsplit hline hrest ih =>
    rcases suffix_cons_iff.1 hsuffix with heq | hsuffix
    · rw [heq]
      exact region hsplit hline hrest
    · have hend := hskip (fun x hx => hfree x (isBrace_of_mem_ofExpression hx)) hsuffix
      exact ih (@hskip [_] _ (by simpa using hopen.symm) hend)
  | unclosed hline hnext hrest ih =>
    rcases suffix_cons_iff.1 hsuffix with heq | hsuffix
    · rw [heq]
      exact unclosed hline hnext hrest
    · exact ih hsuffix

theorem exists_region (h : Interpolates pieces)
    (hsuffix : token .interpolationStart cs :: rest <:+ pieces) : ∃ inner after zs, cs = ['{'] ∧
      rest = ofExpression false inner ++ token .interpolationEnd ['}'] :: zs ∧
      splitBraces (inner ++ '}' :: after) = some (inner, after) ∧ OneLine inner ∧
      Interpolates zs := by
  cases h.of_suffix hsuffix rfl (by simp) with
  | cons hpiece => cases hpiece
  | region hsplit hline hrest => exact ⟨_, _, _, rfl, rfl, hsplit, hline, hrest⟩

section Line

variable (hrest : Interpolates rest) (hnext : ∀ c ∈ (join rest).head?, isLineEnd c)
include hrest hnext

theorem ofText (hline : OneLine cs) : Interpolates (ofText cs ++ rest) := by
  fun_induction Piece.ofText cs with
  | case1 => exact hrest
  | case2 text inner after hsplit ih =>
    obtain rfl := splitBraces_eq_some hsplit
    rw [cons_append, append_assoc]
    exact region hsplit (fun c hc => hline c (by simp [hc])) (ih fun c hc => hline c (by simp [hc]))
  | case3 text _ => exact unclosed (fun c hc => hline c (mem_cons_of_mem _ hc)) hnext hrest
  | case4 c text _ ih =>
    refine cons rfl (ih fun d hd => hline d (mem_cons_of_mem c ?_))
    exact (dropWhile_sublist _).subset hd

theorem ofArgument (hline : OneLine cs) : Interpolates (ofArgument cs ++ rest) := by
  have hgap : OneLine (cs.dropWhile isGap) :=
    fun c hc => hline c ((dropWhile_sublist _).subset hc)
  unfold Piece.ofArgument
  split
  · next text heq =>
    rw [heq] at hgap
    refine cons rfl (cons rfl (cons rfl (hrest.ofText hnext fun c hc => ?_)))
    exact hgap c (mem_cons_of_mem _ ((dropWhile_sublist _).subset hc))
  · exact cons rfl (hrest.ofText hnext hgap)

theorem ofContent (indented : Bool) (hline : OneLine cs) :
    Interpolates (ofContent indented cs ++ rest) := by
  unfold Piece.ofContent
  split
  · exact cons rfl (cons rfl hrest)
  · exact cons rfl (append (fun _ => isBrace_of_mem_ofExpression) hrest)
  · unfold ofKeywordLine
    dsimp only
    split
    · exact hrest.ofText hnext hline
    · refine cons rfl (cons ?_ (hrest.ofArgument hnext fun c hc => hline c (mem_of_mem_drop hc)))
      split <;> rfl
  · exact hrest.ofText hnext hline

theorem ofLineContent (levels : List Nat) (hline : OneLine cs) :
    Interpolates (ofLineContent levels cs ++ rest) := by
  unfold Piece.ofLineContent
  split
  · exact cons rfl hrest
  · rw [append_assoc]
    refine append ?_ (cons rfl (hrest.ofContent hnext _ fun c hc => ?_))
    · refine forall_mem_append.2 ⟨forall_mem_map.2 fun _ _ => rfl, forall_mem_singleton.2 ?_⟩
      split <;> rfl
    · exact hline c (mem_of_mem_drop ((dropWhile_sublist _).subset hc))

end Line

theorem ofLines {ls : List Line} (hending : Ended ls)
    (hline : ∀ line ∈ ls, OneLine line.content ∧ ∀ c ∈ line.ending, isLineEnd c)
    (levels : List Nat) : Interpolates (ofLines levels ls) := by
  induction ls generalizing levels with
  | nil => exact append (by simp [dedents, isBrace]) (cons rfl nil)
  | cons line ls ih =>
    obtain ⟨hfirst, hlater⟩ := forall_mem_cons.1 hline
    rw [Piece.ofLines, append_assoc]
    refine ofLineContent (append ?_ (ih hending.of_cons hlater _)) ?_ levels hfirst.1
    · unfold ofEnding
      split <;> simp [isBrace]
    · cases htext : line.ending with
      | nil =>
        obtain rfl := eq_nil_of_ending_eq_nil hending htext
        simp [join_ofLines]
      | cons c text => simpa using hfirst.2 c (by simp [htext])

theorem ofSource (cs : List Char) : Interpolates (ofSource cs) := by
  have hlines : ∀ text, Interpolates (Piece.ofLines [] (lines text)) :=
    fun text => ofLines (pairwise_ending_lines text) (fun _ => isLineEnd_of_mem_lines) []
  unfold Piece.ofSource
  split
  · exact cons rfl (hlines _)
  · exact hlines _

end Interpolates

end Piece

section Sources

variable {source : String} {before mid after : List Token} {opening closing : Token}

/-- **Interpolations of a source.**  Between the two braces of an interpolation stands a text
without line ends that the tokenizer cuts there. -/
theorem exists_interpolation
    (htokens : tokenize source = before ++ opening :: (mid ++ closing :: after))
    (hopening : opening.kind = .interpolationStart) (hclosing : closing.kind = .interpolationEnd)
    (hmid : ∀ t ∈ mid, t.kind ≠ .interpolationEnd) :
    ∃ pre inner post rest, source.toList = pre ++ '{' :: (inner ++ '}' :: post) ∧
      opening.span.stop.offset = byteLength pre + byteLength ['{'] ∧
      closing.span.start.offset = opening.span.stop.offset + byteLength inner ∧
      splitBraces (inner ++ '}' :: rest) = some (inner, rest) ∧ '\n' ∉ inner := by
  obtain ⟨xs, kind, cs, ys, hpieces, rfl, hrest⟩ := exists_of_place_eq htokens
  obtain rfl : kind = .interpolationStart := hopening
  obtain ⟨inner, rest, zs, rfl, rfl, hsplit, hline, -⟩ :=
    (Interpolates.ofSource source.toList).exists_region ⟨xs, hpieces.symm⟩
  rw [place_append] at hrest
  have hskip : ∀ (ts : List Token) (t : Token) (us : List Token),
      (∀ t ∈ ts, t.kind ≠ .interpolationEnd) →
      t.kind = .interpolationEnd →
        (ts ++ t :: us).find? (·.kind == .interpolationEnd) = some t := by
    intro ts t us hts ht
    rw [find?_append, find?_eq_none.2 (by simpa using hts), Option.none_or,
      find?_cons_of_pos (by simpa using ht)]
  have hinside : ∀ t ∈ place (next (last Position.origin xs) (token .interpolationStart ['{']))
      (ofExpression false inner), t.kind ≠ .interpolationEnd := by
    intro t ht hkind
    exact absurd (hkind ▸ kind_mem_of_mem_place ht) (by decide)
  have hfound := hskip mid closing after hmid hclosing
  rw [hrest] at hfound
  have hend := (hskip _ _ _ hinside rfl).symm.trans hfound
  obtain rfl := Option.some.inj hend
  have hjoin : source.toList = join xs ++ '{' :: (inner ++ '}' :: join zs) := by
    rw [← join_ofSource source.toList, hpieces]
    simp
  refine ⟨join xs, inner, join zs, rest, hjoin, ?_, ?_, hsplit, ?_⟩
  · rw [offset_stop, offset_last]
    simp [Position.origin]
  · rw [offset_last, join_ofExpression]
    rfl
  · intro hmem
    exact absurd (hline _ hmem) (by decide)

/-- **Issues in interpolations are kept.**  In an interpolation without colons, whose braces in
quotes pair up, an issue that starts at a character is kept, in raw markup as elsewhere. -/
theorem keeps_in_interpolation
    (htokens : tokenize source = before ++ opening :: (mid ++ closing :: after))
    (hopening : opening.kind = .interpolationStart) (hclosing : closing.kind = .interpolationEnd)
    (hmid : ∀ t ∈ mid, t.kind ≠ .interpolationEnd) {content : List Char}
    (hcontent : Text.slice? source.toList opening.span.stop.offset closing.span.start.offset =
      some content)
    (hcolon : ':' ∉ content) (hquoted : Markup.pairs (Markup.quoted none content)) {issue : Issue}
    (hissue : Position.IsBoundary source.toList issue.span.start.offset)
    (hstart : opening.span.stop.offset ≤ issue.span.start.offset)
    (hstop : issue.span.start.offset ≤ closing.span.start.offset) (ranges : List (Nat × Nat)) :
    Markup.keeps source.toList ranges issue = true := by
  obtain ⟨pre, inner, post, rest, hsource, hopened, hclosed, hsplit, hline⟩ :=
    exists_interpolation htokens hopening hclosing hmid
  obtain rfl : inner = content := by
    have hslice := slice?_append (pre ++ ['{']) inner ('}' :: post)
    rw [byteLength_append, ← hopened, ← hclosed, append_assoc, append_assoc,
      singleton_append, ← hsource, hcontent] at hslice
    exact (Option.some.inj hslice).symm
  obtain ⟨head, tail, hhead, hoffset⟩ := hissue
  obtain ⟨us, vs, rfl, hplace⟩ : ∃ us vs, inner = us ++ vs ∧ head = pre ++ '{' :: us := by
    have hsplit' : (pre ++ ['{']) ++ (inner ++ '}' :: post) = head ++ tail := by
      rw [← hhead, hsource, append_assoc, singleton_append]
    obtain ⟨us, rfl, hus⟩ := exists_eq_append_of_byteLength_le hsplit' (by
      rw [byteLength_append]
      omega)
    obtain ⟨vs, rfl, -⟩ := exists_eq_append_of_byteLength_le hus.symm (by
      rw [byteLength_append, byteLength_append] at hoffset
      omega)
    exact ⟨us, vs, rfl, by simp⟩
  have hpairs : Markup.pairs (us ++ vs) := by
    have hdepth := Markup.depthAfter_of_splitAtClosing (by simp) hsplit
        (by simpa [Markup.pairs] using hquoted)
    simpa [Markup.pairs] using hdepth
  obtain ⟨inside, hinside, hfound⟩ := @Markup.exists_enclosingBraces? pre us vs post hpairs hline
  rw [← hsource, ← hplace, ← hoffset] at hfound
  have hplain := Markup.hasTopColon_of_not_mem (fun hmem => hcolon (hinside hmem)) 0 none
  rw [Markup.keeps, hfound, Option.any_some, hplain]
  simp

/-- The issue that a variable is not defined, from one place of a source to another. -/
def undefinedIssue (start stop : Position) : Issue :=
  ⟨"GT002", "no-undefined-vars", .error, "`bad` is used but never defined", ⟨start, stop⟩, none⟩

/-- Markup in which the braces in quotes pair up. -/
def pairedMarkup : String :=
  "*html\n\t\x7b\"\x7b\x7d\" + bad\x7d\n"

theorem keeps_in_interpolation_pairedMarkup :
    Markup.keeps pairedMarkup.toList (Markup.lineRanges (parse pairedMarkup).program.nodes)
      (undefinedIssue ⟨2, 10, 15⟩ ⟨2, 13, 18⟩) = true := by
  have htokens : tokenize pairedMarkup = (tokenize pairedMarkup).take 4 ++
      ⟨.interpolationStart, "\x7b", ⟨⟨2, 2, 7⟩, ⟨2, 3, 8⟩⟩⟩ ::
      (((tokenize pairedMarkup).drop 5).take 3 ++
        ⟨.interpolationEnd, "\x7d", ⟨⟨2, 13, 18⟩, ⟨2, 14, 19⟩⟩⟩ ::
        (tokenize pairedMarkup).drop 9) := by
    decide +kernel
  have hcontent : slice? pairedMarkup.toList 8 18 = some "\"\x7b\x7d\" + bad".toList := by
    decide +kernel
  exact keeps_in_interpolation htokens rfl rfl (by decide +kernel) hcontent (by decide +kernel)
    (by decide +kernel) ⟨pairedMarkup.toList.take 15, pairedMarkup.toList.drop 15,
      by decide +kernel, by decide +kernel⟩
    (by decide) (by decide) _

/-- Markup with a brace in quotes that closes none. -/
def strayMarkup : String :=
  "*html\n\t\x7b\"\x7d\" + bad\x7d\n"

/-- A brace in quotes hides an issue: it starts in an interpolation without colons, and it is
dropped. -/
theorem strayMarkup_drops_issue : ∃ linter, Linter.ofConfig {} = .ok linter ∧
    undefinedIssue ⟨2, 9, 14⟩ ⟨2, 12, 17⟩ ∈
      linter.rawIssues "a.gt" strayMarkup (parse strayMarkup)
        (DirectiveTable.ofSource strayMarkup) ∧
    (∃ before mid after, tokenize strayMarkup = before ++
      ⟨.interpolationStart, "\x7b", ⟨⟨2, 2, 7⟩, ⟨2, 3, 8⟩⟩⟩ :: (mid ++
        ⟨.interpolationEnd, "\x7d", ⟨⟨2, 12, 17⟩, ⟨2, 13, 18⟩⟩⟩ :: after) ∧
          ∀ t ∈ mid, t.kind ≠ .interpolationEnd) ∧
    Text.slice? strayMarkup.toList 8 17 = some "\"\x7d\" + bad".toList ∧
    Markup.keeps strayMarkup.toList (Markup.lineRanges (parse strayMarkup).program.nodes)
      (undefinedIssue ⟨2, 9, 14⟩ ⟨2, 12, 17⟩) = false := by
  refine ⟨⟨Preset.default.configuredRules {}, {}⟩, rfl, by decide +kernel,
    ⟨(tokenize strayMarkup).take 4,
    ((tokenize strayMarkup).drop 5).take 3, (tokenize strayMarkup).drop 9, by decide +kernel,
    by decide +kernel⟩, by decide +kernel, by decide +kernel⟩

end Sources
end ScriptLint

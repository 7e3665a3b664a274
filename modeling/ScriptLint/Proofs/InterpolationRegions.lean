import ScriptLint.Proofs.InterpolationMarkup
import ScriptLint.Proofs.InterpolationReads
import ScriptLint.Proofs.CommentLines

/-!
# Interpolations among the tokens

An interpolation is cut out of its line before its inside is cut into tokens, and the two ways of
reading must agree on where strings and braces are.  They do: what the search for the closing brace
skips in quotes is a string of the inside, and every brace that it counts is a token of its own.

**Results.**
* `splitAtClosing_token`: the search for the closing brace goes from token to token.
* `balanced_inside`: the braces among the tokens of the inside pair up, and no string stays open.
* `interpolations_closed`: every interpolation is closed on its line, and a brace that is not takes
  the rest of it.
-/

namespace ScriptLint

open List Text

open Piece

namespace Token

/-- How often the tokens hold a punctuation mark. -/
def countMark (mark : String) (tokens : List Token) : Nat :=
  tokens.countP fun t => t.kind == .punctuation && t.text == mark

/-- The braces among the tokens close `depth` open ones and pair up otherwise. -/
structure Balanced (depth : Nat) (tokens : List Token) : Prop where
  covered : ∀ us, us <+: tokens → countMark "\x7d" us ≤ depth + countMark "\x7b" us
  settled : countMark "\x7d" tokens = depth + countMark "\x7b" tokens

theorem Balanced.cons {depth depth' : Nat} {t : Token} {tokens : List Token}
    (h : Balanced depth' tokens)
    (hdepth : depth' + countMark "\x7d" [t] = depth + countMark "\x7b" [t]) :
    Balanced depth (t :: tokens) := by
  have hcons : ∀ mark us, countMark mark (t :: us) = countMark mark us + countMark mark [t] := by
    simp [countMark, countP_cons]
  constructor
  · intro us hus
    rcases prefix_cons_iff.1 hus with rfl | ⟨vs, rfl, hvs⟩
    · simp [countMark]
    · have hcovered := h.covered vs hvs
      rw [hcons _ vs, hcons _ vs]
      omega
  · have hsettled := h.settled
    rw [hcons _ tokens, hcons _ tokens]
    omega

end Token

namespace Piece

open Token

section Closing

variable {c : Char} {depth : Nat} {quote : Option Char} {xs ys zs : List Char}

theorem splitAtClosing_tail
    (h : (splitAtClosing depth quote (xs ++ '}' :: ys)).map (fun parts => (c :: parts.1, parts.2)) =
      some (c :: xs, ys)) : splitAtClosing depth quote (xs ++ '}' :: ys) = some (xs, ys) := by
  obtain ⟨parts, hparts, heq⟩ := Option.map_eq_some_iff.1 h
  simp only [Prod.mk.injEq, cons.injEq, true_and] at heq
  rw [hparts, ← heq.1, ← heq.2]

/-- Behind an open quote, the search goes to the next quote. -/
theorem splitAtClosing_quoted
    (h : splitAtClosing depth (some c) (xs ++ '}' :: ys) = some (xs, ys)) :
    ∃ us vs, xs = us ++ c :: vs ∧ c ∉ us ∧
    splitAtClosing depth none (vs ++ '}' :: ys) = some (vs, ys) := by
  induction xs with
  | nil => simp [splitAtClosing] at h
  | cons x xs ih =>
    have hrest := splitAtClosing_tail h
    by_cases hx : x = c
    · subst hx
      rw [if_pos rfl] at hrest
      exact ⟨[], xs, rfl, not_mem_nil, hrest⟩
    · rw [if_neg hx] at hrest
      obtain ⟨us, vs, rfl, hus, hvs⟩ := ih hrest
      exact ⟨x :: us, vs, rfl, by simp [hus, Ne.symm hx], hvs⟩

/-- The search passes over what is neither a quote nor a brace. -/
theorem splitAtClosing_plain (hxs : ∀ x ∈ xs, isQuote x = false ∧ x ≠ '{' ∧ x ≠ '}')
    (h : splitAtClosing depth none (xs ++ (zs ++ '}' :: ys)) = some (xs ++ zs, ys)) :
    splitAtClosing depth none (zs ++ '}' :: ys) = some (zs, ys) := by
  induction xs with
  | nil => exact h
  | cons x xs ih =>
    obtain ⟨⟨hquote, hopen, hclose⟩, hxs⟩ := forall_mem_cons.1 hxs
    rw [cons_append, splitAtClosing.eq_def] at h
    simp only [hquote, hopen, hclose] at h
    rw [← append_assoc] at h
    have hrest := splitAtClosing_tail h
    exact ih hxs (by rwa [append_assoc] at hrest)

/-- A token that begins with no quote holds none, and no brace behind its first character. -/
theorem plain_of_mem_token {rest : List Char} (hquote : isQuote c = false) :
    ∀ d ∈ rest.take (tokenShape c rest).2, isQuote d = false ∧ d ≠ '{' ∧ d ≠ '}' := by
  have hclass : ∀ d, isWordChar d ∨ d ∈ ['.', '=', '>', ':'] → isQuote d = false ∧
      d ≠ '{' ∧ d ≠ '}' := by
    intro d hd
    refine ⟨?_, ?_, ?_⟩
    · rcases hd with hd | hd
      · exact isQuote_of_isWordChar hd
      · revert d
        simp [isQuote]
    all_goals
      rintro rfl
      exact absurd hd (by decide)
  intro d hd
  apply hclass
  unfold tokenShape at hd
  split at hd
  · exact (isDigit_of_mem_number rest d hd).imp isWordChar_of_isDigit (by simp [·])
  split at hd
  · next hc => simp [hquote] at hc
  split at hd
  · rw [take_length_takeWhile] at hd
    exact .inl (all_eq_true.1 all_takeWhile d hd)
  split at hd
  · next hpair =>
    cases rest with
    | nil => cases hpair
    | cons e more =>
      obtain rfl : d = e := by simpa using hd
      simp only [head?_cons, Option.any_some, isOperatorPair, Bool.or_eq_true, Bool.and_eq_true,
        beq_iff_eq] at hpair
      rcases hpair with (⟨-, rfl⟩ | ⟨-, rfl⟩) | ⟨-, rfl⟩ <;> exact .inr (by simp)
  split at hd
  · simp at hd
  split at hd <;> simp at hd

/-- **One token.**  The search for the closing brace goes over a token of the inside to the next,
and counts it if it is a brace; a string is closed in the inside. -/
theorem splitAtClosing_token {rest : List Char}
    (h : splitAtClosing depth none (c :: rest ++ '}' :: ys) = some (c :: rest, ys)) :
    ∃ depth', (c = '{' ∧ depth' = depth + 1 ∨ c = '}' ∧ depth = depth' + 1 ∨
      c ≠ '{' ∧ c ≠ '}' ∧ depth' = depth) ∧ ((tokenShape c rest).1 = .invalid → isQuote c = false) ∧
      splitAtClosing depth' none (rest.drop (tokenShape c rest).2 ++ '}' :: ys) =
        some (rest.drop (tokenShape c rest).2, ys) := by
  by_cases hquote : isQuote c
  · have hne := Markup.isQuote_ne_brace hquote
    rw [cons_append, splitAtClosing.eq_def] at h
    simp only [hquote] at h
    obtain ⟨us, vs, rfl, hus, hvs⟩ := splitAtClosing_quoted (splitAtClosing_tail h)
    have hshape : tokenShape c (us ++ c :: vs) = (.string, us.length + 1) := by
      have hdigit : c.isDigit = false := by
        rw [Bool.eq_false_iff]
        intro hdigit
        simp [isQuote_of_isWordChar (isWordChar_of_isDigit hdigit)] at hquote
      have hnone := idxOf?_eq_none_iff.2 hus
      unfold idxOf? at hnone
      rw [tokenShape, if_neg (by simp [hdigit]), if_pos hquote, idxOf?, findIdx?_append, hnone]
      simp [findIdx?_cons]
    refine ⟨depth, .inr (.inr ⟨hne.1, hne.2, rfl⟩), by simp [hshape], ?_⟩
    rw [hshape, drop_length_add_append]
    exact hvs
  · have hplain : isQuote c = false := Bool.eq_false_iff.2 hquote
    by_cases hbrace : c = '{' ∨ c = '}'
    · rw [cons_append, splitAtClosing.eq_def] at h
      simp only [hplain] at h
      rw [tokenShape_of_brace hbrace]
      rcases hbrace with rfl | rfl
      · exact ⟨depth + 1, .inl ⟨rfl, rfl⟩, fun _ => rfl, splitAtClosing_tail h⟩
      · cases depth with
        | zero => simp at h
        | succ depth => exact ⟨depth, .inr (.inl ⟨rfl, rfl⟩), fun _ => rfl, splitAtClosing_tail h⟩
    · obtain ⟨hopen, hclose⟩ := not_or.1 hbrace
      refine ⟨depth, .inr (.inr ⟨hopen, hclose, rfl⟩), fun _ => hplain, ?_⟩
      refine @splitAtClosing_plain depth (c :: rest.take (tokenShape c rest).2) ys _ ?_ ?_
      · exact forall_mem_cons.2 ⟨⟨hplain, hopen, hclose⟩, plain_of_mem_token hplain⟩
      · rw [← append_assoc, cons_append, take_append_drop]
        exact h

end Closing

/-- A brace is a punctuation mark where a token begins with it. -/
theorem countMark_token {brace c : Char} {rest : List Char} {span : Span}
    (hbrace : brace = '{' ∨ brace = '}') :
    countMark (String.ofList [brace])
      [⟨(tokenShape c rest).1, String.ofList (c :: rest.take (tokenShape c rest).2), span⟩] =
      if c = brace then 1 else 0 := by
  by_cases hc : c = brace
  · subst hc
    simp [countMark, tokenShape_of_brace hbrace]
  · have htext : String.ofList (c :: rest.take (tokenShape c rest).2) ≠ String.ofList [brace] :=
      fun heq => hc (cons.inj (String.ofList_inj.1 heq)).1
    rw [if_neg hc, countMark]
    simpa using fun _ => htext

/-- **The inside of an interpolation.**  Its braces pair up, and each of its strings is closed. -/
theorem balanced_inside (inner after : List Char) :
    ∀ depth, splitAtClosing depth none (inner ++ '}' :: after) = some (inner, after) → ∀ p,
      Balanced depth (place p (ofExpression false inner)) ∧
      ∀ t ∈ place p (ofExpression false inner),
        t.kind ∈ tokenKinds ∧
        (t.kind = .invalid → ∀ c ∈ t.text.toList.head?, isQuote c = false) := by
  fun_induction ofExpression false inner with
  | case1 =>
    intro depth h p
    cases depth with
    | zero => exact ⟨⟨by simp [place, countMark], rfl⟩, by simp [place]⟩
    | succ depth => simp [splitAtClosing, isQuote] at h
  | case2 c rest hgap ih =>
    intro depth h p
    refine ih depth (@splitAtClosing_plain depth [c] after rest (forall_mem_singleton.2 ?_) h) _
    rcases (by simpa [isGap] using hgap : c = ' ' ∨ c = '\t') with rfl | rfl <;> decide
  | case3 c rest _ hcomment => cases hcomment
  | case4 c rest _ _ shape ih =>
    intro depth h p
    obtain ⟨depth', hdepth, hquote, hrest⟩ := splitAtClosing_token h
    obtain ⟨hbalanced, htokens⟩ := ih depth' hrest (next p (token shape.1 (c :: rest.take shape.2)))
    refine ⟨hbalanced.cons ?_, forall_mem_cons.2 ⟨⟨kind_tokenShape c rest, ?_⟩, htokens⟩⟩
    · have hopening := @countMark_token '{' c rest ⟨p, stop p shape.1 (c :: rest.take shape.2)⟩
          (.inl rfl)
      have hclosing := @countMark_token '}' c rest ⟨p, stop p shape.1 (c :: rest.take shape.2)⟩
          (.inr rfl)
      refine (congrArg (depth' + ·) hclosing).trans (.trans ?_ (congrArg (depth + ·) hopening).symm)
      rcases hdepth with ⟨rfl, rfl⟩ | ⟨rfl, rfl⟩ | ⟨hopen, hclose, rfl⟩
      · rfl
      · rfl
      · simp [hopen, hclose]
    · simpa using hquote

/-- Behind an interpolation, the next brace opens one. -/
theorem Interpolates.closes_none {pieces : List Piece} (h : Interpolates pieces) (p : Position) :
    ∀ t ∈ (place p pieces).takeWhile (·.kind ≠ .interpolationStart),
      t.kind ≠ .interpolationEnd := by
  induction h generalizing p with
  | nil => simp [place]
  | @cons piece rest hpiece _ ih =>
    cases piece with
    | mark => exact ih _
    | gap cs => exact ih _
    | token kind cs =>
      rw [place, takeWhile_cons]
      split
      · refine forall_mem_cons.2 ⟨?_, ih _⟩
        rintro rfl
        cases hpiece
      · simp
  | region => simp [place]
  | unclosed _ _ _ ih => exact forall_mem_cons.2 ⟨by simp, ih _⟩

end Piece

/-- **Interpolations are closed.**  Behind the start of an interpolation, on its line, comes its end
before another one starts, and no other end before that; the tokens between are those of an
expression, with every string closed and the braces paired.  A brace that is not closed takes the
rest of its line. -/
theorem interpolations_closed (source : String) :
    (∀ before opening after, tokenize source = before ++ opening :: after →
      opening.kind = .interpolationStart →
      ∃ inside closing rest, after = inside ++ closing :: rest ∧
        closing.kind = .interpolationEnd ∧ closing.text = "\x7d" ∧
        (∀ t ∈ closing :: inside, t.span.start.line = opening.span.start.line) ∧
        (∀ t ∈ inside, t.kind ∈ tokenKinds ∧
          (t.kind = .invalid → ∀ c ∈ t.text.toList.head?, isQuote c = false)) ∧
        Token.Balanced 0 inside ∧
        ∀ t ∈ rest.takeWhile (·.kind ≠ .interpolationStart), t.kind ≠ .interpolationEnd) ∧
    ∀ t ∈ tokenize source, t.kind = .invalid → t.text.toList.head? = some '{' →
      ∃ xs ys, source.toList = xs ++ (t.text.toList ++ ys) ∧
      t.span.start.offset = Text.byteLength xs ∧
        (∀ c ∈ t.text.toList, Text.isLineEnd c = false) ∧ ∀ c ∈ ys.head?, Text.isLineEnd c := by
  have hsource := Interpolates.ofSource source.toList
  constructor
  · intro before opening after htokens hkind
    obtain ⟨xs, kind, cs, ys, hpieces, rfl, rfl⟩ := exists_of_place_eq htokens
    obtain rfl : kind = .interpolationStart := hkind
    obtain ⟨inner, later, zs, rfl, rfl, hsplit, -, hzs⟩ := hsource.exists_region ⟨xs, hpieces.symm⟩
    generalize hp : next (last Position.origin xs) (token .interpolationStart ['{']) = p
    have hline : p.line = (last Position.origin xs).line := by
      rw [← hp]
      rfl
    have hinline : (last p (ofExpression false inner)).line = p.line := by
      rw [last_eq_advance fun piece => isInline_of_mem_ofExpression]
      rfl
    obtain ⟨hbalanced, hinside⟩ := balanced_inside inner later 0 hsplit p
    refine ⟨_, _, _, place_append _ _ _, rfl, rfl, ?_, hinside, hbalanced, hzs.closes_none _⟩
    refine forall_mem_cons.2 ⟨hinline.trans hline, fun t ht => ?_⟩
    have hbounds := line_bounds_of_mem_place ht
    rw [hinline] at hbounds
    exact (Nat.le_antisymm hbounds.2 hbounds.1).trans hline
  · intro t ht hkind hhead
    obtain ⟨xs, kind, cs, ys, hpieces, rfl⟩ := mem_place ht
    obtain rfl : kind = .invalid := hkind
    obtain ⟨cs, rfl⟩ := head?_eq_some_iff.1 (by simpa using hhead)
    have hjoin : source.toList = join xs ++ ('{' :: cs ++ join ys) := by
      rw [← join_ofSource source.toList, hpieces]
      simp
    refine ⟨join xs, join ys, by simpa using hjoin, ?_, ?_⟩
    · rw [offset_last]
      simp [Position.origin]
    · cases hsource.of_suffix ⟨xs, hpieces.symm⟩ rfl (by simp) with
      | cons hpiece => cases hpiece
      | unclosed hline hnext => exact ⟨by simpa [OneLine, isLineEnd] using hline, hnext⟩

end ScriptLint

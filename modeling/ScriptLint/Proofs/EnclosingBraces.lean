import ScriptLint.Proofs.InterpolationMarkup

/-!
# Innermost braces

The braces around a place are sought in two steps: back from the place to a brace that nothing
before the place closes, and from that brace on to the one that closes it.  Between the first brace
and the place all braces pair up, so the second step passes the place.

**Failure.**  If the first brace is never closed on its line, no brace before it helps: a pair
around the place would close it too.

**Results.**
* `sinceOpening_eq_some`: what the search back finds; `untilClosing_cases` says this of the search
  forward.
* `enclosingBraces?_innermost`: the search finds the innermost pair of braces around a place.
-/

namespace ScriptLint

open List Text

namespace Markup

/-- Braces of one line at two offsets, with a place between them; all braces inside pair up. -/
structure Encloses (source : List Char) (offset o c : Nat) (inside : List Char) : Prop where
  whole : ∃ before after, source = before ++ '{' :: (inside ++ '}' :: after) ∧ byteLength before = o
  width : c = o + 1 + byteLength inside
  before : o < offset
  behind : offset ≤ c
  line : '\n' ∉ inside
  pairs : pairs inside

/-- What the search forward reads behind a brace: all up to the brace that closes it, or all there
is. -/
def readForward (rest : List Char) : List Char :=
  match untilClosing 0 rest with
  | none => rest
  | some inside => inside ++ ['}']

variable {source before after inside seen cs : List Char} {offset o c depth k : Nat}

/-- Between the brace that the search back finds and the place where it starts, all braces pair up
but those that were closed behind the place. -/
theorem sinceOpening_eq_some (h : sinceOpening depth seen cs = some inside) :
    ∃ us rest, inside = us ++ seen ∧ cs = us.reverse ++ '{' :: rest ∧
    depthAfter 0 us = some depth := by
  induction cs generalizing depth seen with
  | nil => cases h
  | cons c cs ih =>
    obtain ⟨rfl, rfl, hfound⟩ | ⟨d, hback, hnext⟩ := sinceOpening_step depth c
    · exact ⟨[], cs, Option.some.inj (h.symm.trans (hfound _ _)), rfl, rfl⟩
    · obtain ⟨us, rest, rfl, rfl, hus⟩ := ih ((hnext _ _).symm.trans h)
      exact ⟨us ++ [c], rest, by simp, by simp, (depthAfter_concat hus c).trans hback⟩

/-- Reading forward from a brace, no brace is closed that is not open. -/
theorem isSome_depthAfter_readForward (rest : List Char) :
    (depthAfter 0 ('{' :: readForward rest)).isSome := by
  rw [depthAfter_cons, depthStep_opening, Option.bind_some, readForward]
  obtain ⟨inside, after, hfound, -, hinside⟩ | ⟨hnone, k, hk⟩ := untilClosing_cases 0 rest
  · rw [hfound]
    rw [depthAfter_concat (depthAfter_add hinside 1)]
    rfl
  · rw [hnone]
    rw [depthAfter_add hk 1]
    rfl

/-- What stands in a pair of braces is cut at the place. -/
theorem Encloses.split (h : Encloses (before ++ after) (byteLength before) o c inside) :
    ∃ first us vs last, before = first ++ '{' :: us ∧ after = vs ++ '}' :: last ∧
    inside = us ++ vs ∧
      byteLength first = o := by
  obtain ⟨⟨first, last, hwhole, rfl⟩, rfl, hbefore, hbehind, -, -⟩ := h
  have hbrace : byteLength (first ++ ['{']) = byteLength first + 1 := byteLength_append _ _
  rw [append_cons] at hwhole
  obtain ⟨us, rfl, hus⟩ := exists_eq_append_of_byteLength_le hwhole.symm (by omega)
  rw [byteLength_append] at hbehind
  obtain ⟨vs, rfl, hvs⟩ := exists_eq_append_of_byteLength_le hus.symm (by omega)
  exact ⟨first, us, vs, last, (append_cons _ _ _).symm, hvs, rfl, rfl⟩

/-- What is found stands in a pair of braces, and the search back gives the first of them. -/
theorem encloses_of_enclosingBraces? {text : List Char}
    (h : enclosingBraces? (before ++ after) (byteLength before) = some text) :
    ∃ first us, before = first ++ '{' :: us ∧
      sinceOpening 0 [] (before.reverse.takeWhile (· ≠ '\n')) = some us ∧
      Encloses (before ++ after) (byteLength before) (byteLength first)
        (byteLength first + 1 + byteLength text) text := by
  rw [enclosingBraces?_append] at h
  obtain ⟨us, hback, hforth⟩ := Option.bind_eq_some_iff.1 h
  obtain ⟨us, rest, rfl, htake, hus⟩ := sinceOpening_eq_some hback
  rw [append_nil] at hforth hback
  rw [untilClosing_append_of_depthAfter hus] at hforth
  obtain ⟨vs, hvs, rfl⟩ := Option.map_eq_some_iff.1 hforth
  obtain ⟨vs, last, hfound, htake', hpairs⟩ | ⟨hnone, -⟩ :=
    untilClosing_cases 0 (after.takeWhile (· ≠ '\n'))
  · obtain rfl := Option.some.inj (hfound.symm.trans hvs)
    have hplain : ∀ {xs ys : List Char}, xs.takeWhile (· ≠ '\n') = ys → '\n' ∉ ys := by
      rintro xs _ rfl hmem
      simpa using all_eq_true.1 all_takeWhile _ hmem
    have hline : '\n' ∉ us ++ vs := fun hmem => (mem_append.1 hmem).elim
      (fun h => hplain htake (mem_append_left _ (mem_reverse.2 h)))
      fun h => hplain htake' (mem_append_left _ h)
    obtain ⟨xs, hxs⟩ := takeWhile_prefix (p := (· ≠ '\n')) (l := before.reverse)
    obtain ⟨ys, hys⟩ := takeWhile_prefix (p := (· ≠ '\n')) (l := after)
    rw [htake] at hxs
    rw [htake'] at hys
    have hbefore : before = (rest ++ xs).reverse ++ '{' :: us := by
      simpa using congrArg reverse hxs.symm
    have hlength : byteLength before = byteLength (rest ++ xs).reverse + (1 + byteLength us) :=
      (congrArg byteLength hbefore).trans (byteLength_append _ _)
    refine ⟨_, us, hbefore, hback, ⟨_, last ++ ys, ?_, rfl⟩, rfl, by omega, ?_, hline, ?_⟩
    · rw [hbefore, ← hys]
      simp
    · rw [byteLength_append us]
      omega
    · simp [pairs, depthAfter_append, hus, hpairs]
  · rw [hnone] at hvs
    cases hvs

/-- Of two pairs around a place the one that the search finds starts last. -/
theorem Encloses.le {first us : List Char}
    (h : Encloses (before ++ after) (byteLength before) o c inside)
    (hbefore : before = first ++ '{' :: us)
    (hback : sinceOpening 0 [] (before.reverse.takeWhile (· ≠ '\n')) = some us) :
    o ≤ byteLength first := by
  obtain ⟨first', us', vs', last', hbefore', -, rfl, rfl⟩ := h.split
  have hdepth : depthAfter 0 (us' ++ vs') = some 0 := by simpa [Markup.pairs] using h.pairs
  obtain ⟨k, hk, -⟩ := Option.bind_eq_some_iff.1 ((depthAfter_append _ _ _).symm.trans hdepth)
  obtain ⟨found, hfound, ⟨more, rfl⟩, -⟩ :=
    sinceOpening_line hk (fun hmem => h.line (mem_append_left _ hmem)) first'
  rw [← hbefore', hback] at hfound
  obtain rfl := Option.some.inj hfound
  have hlength := congrArg byteLength (hbefore.symm.trans hbefore')
  simp only [byteLength_append, byteLength_cons] at hlength
  omega

open Position in
/-- **The search finds the innermost braces.**  At a place between characters it finds something
exactly if there is a pair of braces around the place, and then what it finds stands in the pair
that starts last.  Reading forward, it never closes a brace that is not open.  At any other place it
finds nothing. -/
theorem enclosingBraces?_innermost (source : List Char) (offset : Nat) :
    (IsBoundary source offset →
      ((enclosingBraces? source offset).isSome ↔ ∃ o c inside, Encloses source offset o c inside)) ∧
    (∀ text, enclosingBraces? source offset = some text → ∃ o c, Encloses source offset o c text ∧
      slice? source (o + 1) c = some text ∧
      ∀ o' c' inside, Encloses source offset o' c' inside → o' ≤ o) ∧
    (∀ rest, (depthAfter 0 ('{' :: readForward rest)).isSome) ∧
    (¬ IsBoundary source offset → enclosingBraces? source offset = none) := by
  have hboundary : ∀ {text}, enclosingBraces? source offset = some text →
      IsBoundary source offset := by
    intro text htext
    cases hsplit : splitAtByte? source offset with
    | none => rw [enclosingBraces?, hsplit] at htext; cases htext
    | some parts =>
      obtain ⟨hsource, hoffset⟩ := splitAtByte?_eq_some hsplit
      exact ⟨parts.1, parts.2, hsource, hoffset.symm⟩
  refine ⟨?_, fun text htext => ?_, isSome_depthAfter_readForward, fun hoff => ?_⟩
  · rintro ⟨before, after, rfl, rfl⟩
    constructor
    · intro hsome
      obtain ⟨text, htext⟩ := Option.isSome_iff_exists.1 hsome
      obtain ⟨first, us, -, -, hencloses⟩ := encloses_of_enclosingBraces? htext
      exact ⟨_, _, _, hencloses⟩
    · rintro ⟨o, c, inside, h⟩
      obtain ⟨first, us, vs, last, rfl, rfl, rfl, -⟩ := h.split
      obtain ⟨found, -, hfound⟩ := @exists_enclosingBraces? first us vs last h.pairs h.line
      have hsource : first ++ '{' :: us ++ (vs ++ '}' :: last) =
          first ++ '{' :: (us ++ vs ++ '}' :: last) := by simp
      rw [hsource, hfound]
      rfl
  · obtain ⟨before, after, rfl, rfl⟩ := hboundary htext
    obtain ⟨first, us, hbefore, hback, h⟩ := encloses_of_enclosingBraces? htext
    refine ⟨_, _, h, ?_, fun o' c' inside h' => h'.le hbefore hback⟩
    obtain ⟨pre, post, hwhole, hpre⟩ := h.whole
    have hbrace : byteLength (pre ++ ['{']) = byteLength pre + 1 := byteLength_append _ _
    rw [hwhole, ← hpre, append_cons, ← append_assoc, ← hbrace]
    exact slice?_append _ _ _
  · exact Option.eq_none_iff_forall_ne_some.2 fun text htext => hoff (hboundary htext)

end Markup
end ScriptLint

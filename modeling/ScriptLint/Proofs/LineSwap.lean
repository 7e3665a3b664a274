import ScriptLint.Proofs.WordPlaces

/-!
# Lines with another word

A word on a line, behind the name of its keyword if it has one, is swapped for another word.  The
line stays what it is: a comment, an expression, the line of the same keyword, or text, and its
pieces are the same but for the one that holds the word.

**Results.**
* `isBold_swap`, `keywordName?_swap`: what a line is.
* `ofArgument_swap`, `argumentAfter_word`: what follows the name of a keyword.
* `ofContent_swap`: a line that is not that of a keyword.
-/

namespace ScriptLint

open List

open Piece Text

variable {c : Char}

namespace Text

/-- Letters and numerals of all scripts are apart from white space. -/
theorem wordRanges_apart : ∀ range ∈ letterRanges ++ numeralRanges, ∀ blank ∈ blankRanges,
    range.2 < blank.1 ∨ blank.2 < range.1 := by
  decide +kernel

/-- A character of a word is no white space. -/
theorem isBlank_of_isWordChar (h : isWordChar c) : isBlank c = false := by
  rw [Bool.eq_false_iff]
  intro hblank
  by_cases hlow : c.toNat < 0x80
  · have hword : (65 ≤ c.toNat ∧ c.toNat ≤ 90) ∨ (97 ≤ c.toNat ∧ c.toNat ≤ 122) ∨
        (48 ≤ c.toNat ∧ c.toNat ≤ 57) ∨ c.toNat = 95 := by
      simp only [isWordChar, isAlphanumeric, isNumeral_of_lt c hlow, Char.isDigit, Bool.or_eq_true,
        Bool.and_eq_true, decide_eq_true_eq, beq_iff_eq] at h
      rcases h with (hletter | hdigit) | rfl
      · exact (toNat_of_isLetter hlow hletter).imp_right .inl
      · exact .inr (.inr (.inl hdigit))
      · exact .inr (.inr (.inr rfl))
    rw [isBlank, if_pos hlow] at hblank
    simp only [Bool.or_eq_true, Bool.and_eq_true, decide_eq_true_eq, beq_iff_eq] at hblank
    rcases hblank with rfl | hcontrol
    · exact absurd hword (by decide)
    · omega
  · rw [isBlank, if_neg hlow] at hblank
    obtain ⟨blank, hmem, hle, hge⟩ := (inRanges_iff _ c).1 hblank
    have hword : ∃ range ∈ letterRanges ++ numeralRanges, range.1 ≤ c.toNat ∧
        c.toNat ≤ range.2 := by
      simp only [isWordChar, isAlphanumeric, isLetter, isNumeral, if_neg hlow,
        Bool.or_eq_true, beq_iff_eq] at h
      rcases h with (hletter | hnumeral) | rfl
      · obtain ⟨range, hrange, hbounds⟩ := (inRanges_iff _ c).1 hletter
        exact ⟨range, mem_append_left _ hrange, hbounds⟩
      · obtain ⟨range, hrange, hbounds⟩ := (inRanges_iff _ c).1 hnumeral
        exact ⟨range, mem_append_right _ hrange, hbounds⟩
      · exact absurd (by decide) hlow
    obtain ⟨range, hrange, hbounds⟩ := hword
    rcases wordRanges_apart range hrange blank hmem with hbefore | hbehind
    · omega
    · omega

theorem isNameChar_of_isWordChar (h : isWordChar c) : isNameChar c := by
  rw [isNameChar, show (isAlphanumeric c || c == '_') = true from h, Bool.true_or]

end Text

section Swaps

variable {x w a b : List Char} (hx : IsWord x) (hw : IsWord w)

theorem dropWhile_append_stop {p : Char → Bool} (hc : p c = false) (a rest : List Char) :
    (a ++ c :: rest).dropWhile p = a.dropWhile p ++ c :: rest := by
  have hwhole := takeWhile_append_dropWhile (p := p) (l := a ++ c :: rest)
  have hparts : a.takeWhile p ++ (a.dropWhile p ++ c :: rest) = a ++ c :: rest := by
    rw [← append_assoc, takeWhile_append_dropWhile]
  rw [takeWhile_append_stop hc] at hwhole
  exact append_cancel_left (hwhole.trans hparts.symm)

theorem Text.Apart.dropWhile (h : Apart a b) : Apart (a.dropWhile isGap) b := by
  rw [← takeWhile_append_dropWhile (p := isGap) (l := a)] at h
  exact h.of_append

include hx

/-- White space before a word. -/
theorem margin_word (a b : List Char) :
    (a ++ x ++ b).takeWhile isGap = a.takeWhile isGap ∧
      (a ++ x ++ b).dropWhile isGap = a.dropWhile isGap ++ x ++ b := by
  obtain ⟨c, rest, rfl, hc⟩ := hx.start
  have hgap := isGap_of_isWordChar (isWordChar_of_isWordStart c hc)
  rw [append_assoc, append_assoc]
  exact ⟨takeWhile_append_stop hgap a _, dropWhile_append_stop hgap a _⟩

/-- A text that begins with no word begins so before the word. -/
theorem cons_of_append {rest : List Char} (h : a ++ x ++ b = c :: rest)
    (hc : isWordChar c = false) : ∃ a', a = c :: a' ∧ rest = a' ++ x ++ b := by
  cases a with
  | nil =>
    obtain ⟨d, more, rfl, hd⟩ := hx.start
    obtain rfl := (cons.inj h).1
    rw [isWordChar_of_isWordStart d hd] at hc
    cases hc
  | cons d a =>
    obtain ⟨rfl, rfl⟩ := cons.inj h
    exact ⟨a, rfl, rfl⟩

theorem pair_of_append {d : Char} {rest : List Char} (h : a ++ x ++ b = c :: d :: rest)
    (hc : isWordChar c = false) (hd : isWordChar d = false) :
    ∃ a', a = c :: d :: a' ∧ rest = a' ++ x ++ b := by
  obtain ⟨a₁, rfl, hrest⟩ := cons_of_append hx h hc
  obtain ⟨a₂, rfl, rfl⟩ := cons_of_append hx hrest.symm hd
  exact ⟨a₂, rfl, rfl⟩

omit hx in
/-- Behind white space, a colon stands before a word or not at all. -/
theorem colon_word (a b : List Char) :
    (∃ after, a.dropWhile isGap = ':' :: after ∧
      ∀ u, IsWord u → (a ++ u ++ b).dropWhile isGap = ':' :: (after ++ u ++ b)) ∨
    ∀ u, IsWord u → ∀ after, (a ++ u ++ b).dropWhile isGap ≠ ':' :: after := by
  by_cases hcolon : ∃ after, a.dropWhile isGap = ':' :: after
  · obtain ⟨after, hafter⟩ := hcolon
    refine .inl ⟨after, hafter, fun u hu => ?_⟩
    rw [(margin_word hu a b).2, hafter]
    rfl
  · refine .inr fun u hu after heq => ?_
    rw [(margin_word hu a b).2] at heq
    obtain ⟨a', ha', -⟩ := cons_of_append hu heq (by decide)
    exact hcolon ⟨a', ha'⟩

omit hx in
/-- The argument of a keyword with a word in it; without a colon there is none. -/
theorem argumentAfter_word (a b : List Char) :
    (∀ u, IsWord u → argumentAfter (a ++ u ++ b) = []) ∨
    ∃ a₁ a₂, a = a₁ ++ a₂ ∧ ∀ u, IsWord u → argumentAfter (a ++ u ++ b) = a₂ ++ u ++ b := by
  rcases colon_word a b with ⟨after, hafter, hrest⟩ | hother
  · refine .inr ⟨a.takeWhile isGap ++ ':' :: after.takeWhile isGap, after.dropWhile isGap,
      ?_, fun u hu => ?_⟩
    · rw [append_assoc, cons_append, takeWhile_append_dropWhile, ← hafter,
        takeWhile_append_dropWhile]
    · rw [argumentAfter_of_colon (hrest u hu), (margin_word hu after b).2]
  · exact .inl fun u hu => argumentAfter_of_ne_colon (hother u hu)

include hw

/-- What follows the name of a keyword, with another word in it. -/
theorem ofArgument_swap (h : Apart a b) :
    Swaps x w a b (ofArgument (a ++ x ++ b)) (ofArgument (a ++ w ++ b)) := by
  have hsplit : a = a.takeWhile isGap ++ a.dropWhile isGap := takeWhile_append_dropWhile.symm
  rcases colon_word a b with ⟨after, hafter, hrest⟩ | hother
  · have hparts : after = after.takeWhile isGap ++ after.dropWhile isGap :=
      takeWhile_append_dropWhile.symm
    have hpieces : ∀ u, IsWord u →
        ofArgument (a ++ u ++ b) = gap (a.takeWhile isGap) :: token .colon [':'] ::
        gap (after.takeWhile isGap) :: ofText (after.dropWhile isGap ++ u ++ b) := by
      intro u hu
      rw [ofArgument_of_colon (hrest u hu), (margin_word hu a b).1, (margin_word hu after b).1,
        (margin_word hu after b).2]
    have hargument : Apart after b := by
      have hinner := h.dropWhile
      rw [hafter] at hinner
      exact hinner.of_cons
    rw [hpieces x hx, hpieces w hw]
    have hswap := (((ofText_swap hx hw hargument.dropWhile).cons (gap (after.takeWhile isGap))).cons
      (token .colon [':'])).cons (gap (a.takeWhile isGap))
    simp only [text_gap, text_token] at hswap
    rwa [← hparts, singleton_append, ← hafter, ← hsplit] at hswap
  · have hpieces : ∀ u, IsWord u → ofArgument (a ++ u ++ b) =
        gap (a.takeWhile isGap) :: ofText (a.dropWhile isGap ++ u ++ b) := by
      intro u hu
      rw [ofArgument_of_ne_colon (hother u hu), (margin_word hu a b).1, (margin_word hu a b).2]
    rw [hpieces x hx, hpieces w hw]
    have hswap := (ofText_swap hx hw h.dropWhile).cons (gap (a.takeWhile isGap))
    rwa [text_gap, ← hsplit] at hswap

omit hw in
/-- Whether an asterisk ends a line can be seen behind a word. -/
theorem getLast?_trimEnd_word (a b : List Char) :
    ((trimEnd (a ++ x ++ b)).getLast? == some '*') = ((trimEnd b).getLast? == some '*') := by
  by_cases hb : trimEnd b = []
  · obtain ⟨ys, hys, hblank⟩ := exists_eq_dropEndWhile_append isBlank b
    rw [show dropEndWhile isBlank b = [] from hb, nil_append] at hys
    obtain ⟨us, d, rfl⟩ : ∃ us d, x = us ++ [d] := by
      rcases eq_nil_or_concat x with rfl | ⟨us, d, hlast⟩
      · obtain ⟨c, rest, hcons, -⟩ := hx.start
        cases hcons
      · exact ⟨us, d, by rw [hlast, concat_eq_append]⟩
    have hd : isWordChar d := hx.chars d (by simp)
    have hend : dropEndWhile isBlank [d] = [d] := by
      simp [dropEndWhile, isBlank_of_isWordChar hd]
    have htrim : trimEnd (a ++ (us ++ [d]) ++ b) = a ++ us ++ [d] := by
      rw [trimEnd, hys, dropEndWhile_append hblank, ← append_assoc,
        dropEndWhile_append_of_ne_nil (by rw [hend]; exact cons_ne_nil d []), hend]
    have hstar : d ≠ '*' := ne_of_isWordChar hd (by decide)
    rw [htrim, hb, getLast?_append_of_ne_nil _ (cons_ne_nil d [])]
    simpa using hstar
  · have htrim : trimEnd (a ++ x ++ b) = (a ++ x) ++ trimEnd b := dropEndWhile_append_of_ne_nil hb _
    rw [htrim, getLast?_append_of_ne_nil _ hb]

/-- Another word makes no line bold. -/
theorem isBold_swap (a b : List Char) :
    isBold ('*' :: (a ++ w ++ b)) = isBold ('*' :: (a ++ x ++ b)) := by
  have hfree : ∀ {u : List Char}, IsWord u → u.idxOf? '*' = none ∧ u.idxOf? ':' = none :=
    fun hu => ⟨idxOf?_eq_none_iff.2 (hu.not_mem (by decide)),
      idxOf?_eq_none_iff.2 (hu.not_mem (by decide))⟩
  have hlast : ∀ {u : List Char}, IsWord u →
      ((trimEnd ('*' :: (a ++ u ++ b))).getLast? == some '*') =
        ((trimEnd b).getLast? == some '*') := fun hu => getLast?_trimEnd_word hu ('*' :: a) b
  have hlt : ∀ {m : Char} {i : Nat}, a.idxOf? m = some i → i < a.length := by
    intro m i hi
    obtain ⟨hlt, -⟩ := idxOf?_eq_some_iff.1 hi
    exact hlt
  unfold isBold
  unfold idxOf? at *
  simp only [drop_succ_cons, drop_zero, findIdx?_append, (hfree hx).1, (hfree hx).2,
    (hfree hw).1, (hfree hw).2, Option.map_none, hlast hx, hlast hw,
    length_append]
  cases hstar : a.findIdx? (· == '*') with
  | some star =>
    have hstarlt := hlt hstar
    cases hcolon : a.findIdx? (· == ':') with
    | some colon => rfl
    | none =>
      cases b.findIdx? (· == ':') with
      | none => rfl
      | some colon =>
        simp only [Option.some_or, Option.none_or, Option.map_some]
        rw [decide_eq_true (by omega), decide_eq_true (by omega)]
  | none =>
    cases b.findIdx? (· == '*') with
    | none => rfl
    | some star =>
      cases hcolon : a.findIdx? (· == ':') with
      | some colon =>
        have hcolonlt := hlt hcolon
        simp only [Option.some_or, Option.none_or, Option.map_some]
        rw [decide_eq_false (by omega), decide_eq_false (by omega)]
      | none =>
        cases b.findIdx? (· == ':') with
        | none => rfl
        | some colon =>
          simp only [Option.none_or, Option.map_some, Nat.add_lt_add_iff_right]

/-- Another word makes no keyword. -/
theorem keywordName?_swap (a b : List Char) (hplain : keywordName? (a ++ x ++ b) = none) :
    keywordName? (a ++ w ++ b) = none := by
  cases hname : keywordName? (a ++ w ++ b) with
  | none => rfl
  | some name =>
    obtain ⟨rest, hbody, hne, hchars, -, hbold⟩ := keywordName?_eq_some hname
    rw [(margin_word hw a b).2] at hbody
    obtain ⟨a', ha', hrest⟩ := cons_of_append hw hbody (by decide)
    rw [hrest, isBold_swap hx hw] at hbold
    have hnamed : (a' ++ x ++ b).takeWhile isNameChar ≠ [] := by
      have hfirst : ∃ c cs, a' ++ x ++ b = c :: cs ∧ isNameChar c := by
        cases a' with
        | nil =>
          obtain ⟨c, cs, rfl, hc⟩ := hx.start
          exact ⟨c, cs ++ b, rfl, isNameChar_of_isWordChar (isWordChar_of_isWordStart c hc)⟩
        | cons c a' =>
          obtain ⟨d, name, rfl⟩ := exists_cons_of_ne_nil hne
          obtain rfl := (cons.inj hrest).1
          exact ⟨d, a' ++ x ++ b, rfl, hchars d mem_cons_self⟩
      obtain ⟨c, cs, hcons, hc⟩ := hfirst
      rw [hcons, takeWhile_cons_of_pos hc]
      exact cons_ne_nil _ _
    unfold keywordName? at hplain
    rw [(margin_word hx a b).2, ha', if_pos ⟨rfl, hnamed, hbold⟩] at hplain
    cases hplain

/-- The line of a keyword with another word behind its name. -/
theorem keywordName?_swap_tail {content name : List Char} (hname : keywordName? content = some name)
    (htail : lineTail content = a ++ x ++ b) :
    keywordName? (lineHead content ++ (a ++ w ++ b)) = some name := by
  obtain ⟨rest, hbody, hne, hchars, hstop, hbold⟩ := keywordName?_eq_some hname
  obtain ⟨rest', hbody', hhead, hrest⟩ := line_of_name hname
  obtain rfl : rest = rest' := append_cancel_left (cons.inj (hbody.symm.trans hbody')).2
  rw [htail] at hrest
  subst hrest
  have hmargin : ∀ c ∈ content.takeWhile isGap, isGap c := all_eq_true.1 all_takeWhile
  rw [hhead, append_assoc]
  refine keywordName?_of_parts hmargin hne hchars ?_ ?_
  · cases a with
    | nil =>
      obtain ⟨c, rest, rfl, hc⟩ := hx.start
      have hnot : isNameChar c = false := by simpa using hstop
      rw [isNameChar_of_isWordChar (isWordChar_of_isWordStart c hc)] at hnot
      cases hnot
    | cons c a => exact hstop
  · rw [← hbold, ← append_assoc, ← append_assoc, ← append_assoc, ← append_assoc]
    exact isBold_swap hx hw (name ++ a) b

/-- The pieces of a line that is not that of a keyword, with another word in it. -/
theorem ofContent_swap (indented : Bool) (h : Apart a b)
    (hplain : keywordName? (a ++ x ++ b) = none) :
    Swaps x w (a.dropWhile isGap) b (ofContent indented ((a ++ x ++ b).dropWhile isGap))
      (ofContent indented ((a ++ w ++ b).dropWhile isGap)) := by
  have hinner := h.dropWhile
  have hbody := (margin_word hx a b).2
  have hbody' := (margin_word hw a b).2
  rw [hbody, hbody']
  rcases ofContent_of_plain indented hplain with ⟨rest, hrest, -⟩ | ⟨rest, hrest, -⟩ |
    ⟨hother, hpieces⟩
  · rw [hbody] at hrest
    obtain ⟨a₂, ha, rfl⟩ := pair_of_append hx hrest (by decide) (by decide)
    rw [ha]
    have hkind : Token.Kind.comment ∈ [Token.Kind.invalid, .comment, .text] := by decide
    have hswap := (Swaps.singleton (x := x) (w := w) a₂ b (.inr hkind) []).cons
      (token .commentStart ['-', '-'])
    rwa [join_nil, append_nil] at hswap
  · rw [hbody] at hrest
    obtain ⟨a₂, ha, rfl⟩ := pair_of_append hx hrest (by decide) (by decide)
    rw [ha] at hinner ⊢
    exact (ofExpression_swap hx hw true hinner.of_cons.of_cons).cons
      (token .expressionStart ['>', '>'])
  · rw [hbody] at hother hpieces
    rw [hpieces]
    rcases ofContent_of_plain indented (keywordName?_swap hx hw a b hplain) with ⟨rest, hrest, -⟩ |
      ⟨rest, hrest, -⟩ | ⟨-, hpieces'⟩
    · rw [hbody'] at hrest
      obtain ⟨a₂, ha, -⟩ := pair_of_append hw hrest (by decide) (by decide)
      rw [ha] at hother
      exact absurd rfl (hother (a₂ ++ x ++ b)).1
    · rw [hbody'] at hrest
      obtain ⟨a₂, ha, -⟩ := pair_of_append hw hrest (by decide) (by decide)
      rw [ha] at hother
      exact absurd rfl (hother (a₂ ++ x ++ b)).2
    · rw [hbody'] at hpieces'
      rw [hpieces']
      exact ofText_swap hx hw hinner

end Swaps

section Braces

/-- The insides of braces, one after the other. -/
theorem braceRegions_eq (p : Position) (u : List Char) : Parser.braceRegions p u =
    match u.dropWhile (· ≠ '{') with
    | [] => []
    | brace :: rest =>
      match splitBraces rest with
      | none => []
      | some (region, after) =>
        (p.advance (u.takeWhile (· ≠ '{') ++ [brace]), region) :: Parser.braceRegions
          (p.advance (u.takeWhile (· ≠ '{') ++ [brace] ++ region ++ ['}'])) after := by
  rw [Parser.braceRegions.eq_def]
  split
  · next hdrop => rw [hdrop]
  · next brace rest hdrop =>
    rw [hdrop]
    dsimp only
    split
    · next hsplit => rw [hsplit]
    · next region after hsplit =>
      rw [hsplit]
      simp

variable {v : List Char} (h : '{' ∉ v)

include h

theorem takeWhile_ne_append (u : List Char) :
    (v ++ u).takeWhile (· ≠ '{') = v ++ u.takeWhile (· ≠ '{') ∧
      (v ++ u).dropWhile (· ≠ '{') = u.dropWhile (· ≠ '{') := by
  have hfree : ∀ d ∈ v, decide (d ≠ '{') = true := by
    intro d hd
    refine decide_eq_true ?_
    rintro rfl
    exact h hd
  exact ⟨takeWhile_append_of_pos hfree, dropWhile_append_of_pos hfree⟩

/-- What stands before the first brace only moves the insides of braces. -/
theorem braceRegions_free (p : Position) (u : List Char) :
    Parser.braceRegions p (v ++ u) = Parser.braceRegions (p.advance v) u := by
  obtain ⟨htake, hdrop⟩ := takeWhile_ne_append h u
  rw [braceRegions_eq, braceRegions_eq (p.advance v), htake, hdrop]
  simp only [Position.advance_advance, append_assoc]

theorem braceRegions_open (p : Position) (rest : List Char) :
    Parser.braceRegions p (v ++ '{' :: rest) =
      match splitBraces rest with
      | none => []
      | some (region, after) => (p.advance (v ++ ['{']), region) ::
          Parser.braceRegions (p.advance (v ++ '{' :: region ++ ['}'])) after := by
  obtain ⟨htake, hdrop⟩ := takeWhile_ne_append h ('{' :: rest)
  rw [braceRegions_eq, htake, hdrop]
  simp

end Braces

end ScriptLint

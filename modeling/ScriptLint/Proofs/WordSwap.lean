import ScriptLint.Parse.Expression
import ScriptLint.Proofs.PieceJoin

/-!
# A word in the place of another

One word of a text is replaced by another, where neither is an operator and where the word before
and the word after are kept apart from it.  Then the text is cut in the same way: the tokens are the
same, but for the one that holds the word.

**Results.**
* `ofExpression_swap`, `ofText_swap`: the pieces of expressions and of texts.
* `splitBraces_word`: the closing brace of a text with a word in it.
-/

namespace ScriptLint

open List

namespace Text

/-- A word that is no operator. -/
structure IsWord (w : List Char) : Prop where
  start : ∃ c rest, w = c :: rest ∧ isWordStart c
  chars : ∀ c ∈ w, isWordChar c
  plain : Vocabulary.operatorWords.contains (String.ofList w) = false

/-- Between the two texts a word stands by itself: no word that begins in the first reaches its end,
and the second goes on with no word. -/
structure Apart (before after : List Char) : Prop where
  left : ∀ xs c ys, before = xs ++ c :: ys → isWordStart c → ∃ d ∈ ys, isWordChar d = false
  right : ∀ c ∈ after.head?, isWordChar c = false

variable {a b w : List Char} {c m : Char}

theorem Apart.of_append {before : List Char} (h : Apart (before ++ a) b) : Apart a b where
  left xs c ys ha := h.left (before ++ xs) c ys (by rw [ha, append_assoc])
  right := h.right

theorem Apart.of_cons (h : Apart (c :: a) b) : Apart a b := by
  rw [← singleton_append] at h
  exact h.of_append

theorem Apart.of_append_right {after : List Char} (h : Apart a (b ++ after)) : Apart a b where
  left := h.left
  right := by
    intro c hc
    refine h.right c ?_
    obtain ⟨rest, rfl⟩ := head?_eq_some_iff.1 hc
    rfl

theorem ne_of_isWordChar (h : isWordChar c) (hm : isWordChar m = false) : c ≠ m := by
  rintro rfl
  rw [h] at hm
  cases hm

/-- The letters of a low code are those from `A` to `Z` and from `a` to `z`. -/
theorem toNat_of_isLetter (hlow : c.toNat < 0x80) (h : isLetter c) :
    (65 ≤ c.toNat ∧ c.toNat ≤ 90) ∨ (97 ≤ c.toNat ∧ c.toNat ≤ 122) := by
  rw [isLetter_of_lt c hlow] at h
  rcases Bool.or_eq_true_iff.1 h with hupper | hlower
  · exact .inl (of_decide_eq_true hupper)
  · obtain ⟨hfrom, hto⟩ := Bool.and_eq_true_iff.1 hlower
    exact .inr ⟨of_decide_eq_true hfrom, of_decide_eq_true hto⟩

theorem isDigit_of_isWordStart (h : isWordStart c) : c.isDigit = false := by
  rw [Bool.eq_false_iff]
  intro hdigit
  have hbounds : 48 ≤ c.toNat ∧ c.toNat ≤ 57 := by
    simp only [Char.isDigit, Bool.and_eq_true, decide_eq_true_eq] at hdigit
    exact hdigit
  simp only [isWordStart, Bool.or_eq_true, beq_iff_eq] at h
  rcases h with hletter | rfl
  · have hletter := toNat_of_isLetter (by omega) hletter
    omega
  · exact absurd hbounds (by decide)

theorem isGap_of_isWordChar (h : isWordChar c) : isGap c = false := by
  rw [isGap, beq_eq_false_iff_ne.2 (ne_of_isWordChar h (by decide)),
    beq_eq_false_iff_ne.2 (ne_of_isWordChar h (by decide))]
  rfl

theorem isQuote_of_isWordChar (h : isWordChar c) : Piece.isQuote c = false := by
  rw [Piece.isQuote, beq_eq_false_iff_ne.2 (ne_of_isWordChar h (by decide)),
    beq_eq_false_iff_ne.2 (ne_of_isWordChar h (by decide))]
  rfl

namespace IsWord

variable (hw : IsWord w)

include hw

theorem not_mem (hm : isWordChar m = false) : m ∉ w :=
  fun hmem => ne_of_isWordChar (hw.chars m hmem) hm rfl

theorem ne_nil : w ≠ [] := by
  obtain ⟨c, rest, rfl, -⟩ := hw.start
  exact cons_ne_nil c rest

end IsWord

end Text

namespace Piece

open Text

section Shapes

variable {a b x w : List Char} {c : Char}

/-- The token that begins before the word ends before it, or it holds the word and goes on behind
it. -/
theorem tokenShape_word (h : Apart (c :: a) b) :
    (∃ kind n, n ≤ a.length ∧ ∀ u, IsWord u → tokenShape c (a ++ u ++ b) = (kind, n)) ∨
    ∃ kind m, (kind = .string ∧ isQuote c ∧ (∃ r, b.take m = r ++ [c]) ∨ kind = .invalid) ∧
      ∀ u, IsWord u → tokenShape c (a ++ u ++ b) = (kind, a.length + u.length + m) := by
  by_cases hdigit : c.isDigit
  · refine .inl ⟨.number, numberLength a, (numberLength_append (c := ' ') a [] rfl (by decide)).2,
      fun u hu => ?_⟩
    obtain ⟨d, rest, rfl, hd⟩ := hu.start
    rw [tokenShape, if_pos hdigit, append_assoc, cons_append, (numberLength_append a (rest ++ b)
      (isDigit_of_isWordStart hd)
      (ne_of_isWordChar (isWordChar_of_isWordStart d hd) (by decide))).1]
  by_cases hquote : isQuote c
  · have hnot : ∀ u, IsWord u → c ∉ u := fun u hu hmem => by
      rw [isQuote_of_isWordChar (hu.chars c hmem)] at hquote
      cases hquote
    have hclosed : ∀ {rest : List Char} {i}, rest.idxOf? c = some i →
        tokenShape c rest = (.string, i + 1) := by
      intro rest i hi
      rw [tokenShape, if_neg hdigit, if_pos hquote, hi]
    have hopen : ∀ {rest : List Char}, rest.idxOf? c = none →
        tokenShape c rest = (.invalid, rest.length) := by
      intro rest hnone
      rw [tokenShape, if_neg hdigit, if_pos hquote, hnone]
    by_cases hmem : c ∈ a
    · obtain ⟨i, hi⟩ := Option.isSome_iff_exists.1 (isSome_idxOf?.2 hmem)
      obtain ⟨hlt, -⟩ := idxOf?_eq_some_iff.1 hi
      refine .inl ⟨.string, i + 1, hlt, fun u _ => hclosed ?_⟩
      rw [append_assoc]
      exact findIdx?_append.trans (congrArg (Option.or · _) hi)
    · have hskip : ∀ u, IsWord u →
          (a ++ u ++ b).idxOf? c = (b.idxOf? c).map (· + (a.length + u.length)) := by
        intro u hu
        have hnone : (a ++ u).idxOf? c = none := by
          rw [idxOf?_eq_none_iff, mem_append]
          exact fun hor => hor.elim hmem (hnot u hu)
        rw [← length_append]
        exact findIdx?_append.trans (congrArg (Option.or · _) hnone)
      cases hb : b.idxOf? c with
      | none =>
        refine .inr ⟨.invalid, b.length, .inr rfl, fun u hu => ?_⟩
        rw [hopen (by rw [hskip u hu, hb]; rfl), length_append, length_append]
      | some j =>
        obtain ⟨hlt, hget, -⟩ := idxOf?_eq_some_iff.1 hb
        have htake : b.take (j + 1) = b.take j ++ [c] := by
          rw [take_succ_eq_append_getElem hlt, hget]
        refine .inr ⟨.string, j + 1, .inl ⟨rfl, hquote, _, htake⟩, fun u hu => ?_⟩
        rw [hclosed (by rw [hskip u hu, hb]; rfl), Nat.add_right_comm, Nat.add_comm]
  by_cases hstart : isWordStart c
  · obtain ⟨f, hf, hfchar⟩ := h.left [] c a rfl hstart
    obtain ⟨a₁, a₂, rfl⟩ := append_of_mem hf
    have hle : (a₁.takeWhile isWordChar).length ≤ a₁.length := (List.takeWhile_prefix _).length_le
    refine .inl ⟨if Vocabulary.operatorWords.contains
            (String.ofList (c :: a₁.take (a₁.takeWhile isWordChar).length)) then .operator
          else .identifier, (a₁.takeWhile isWordChar).length, ?_, fun u _ => ?_⟩
    · rw [length_append]
      omega
    · rw [tokenShape, if_neg hdigit, if_neg hquote, if_pos hstart]
      dsimp only
      rw [append_assoc, append_assoc, cons_append, takeWhile_append_stop hfchar,
        take_append_of_le_length hle]
  · have hhead : ∀ u, IsWord u →
        (a ++ u ++ b).head?.any (isOperatorPair c) = a.head?.any (isOperatorPair c) := by
      intro u hu
      obtain ⟨f, rest, rfl, hf⟩ := hu.start
      have hne : ∀ {g}, isWordChar g = false → f ≠ g :=
        ne_of_isWordChar (isWordChar_of_isWordStart f hf)
      have hequal : f ≠ '=' := hne (by decide)
      have hgreater : f ≠ '>' := hne (by decide)
      have hcolon : f ≠ ':' := hne (by decide)
      cases a with
      | nil => simp [isOperatorPair, hequal, hgreater, hcolon]
      | cons g a => rfl
    let shape : Token.Kind × Nat :=
      if a.head?.any (isOperatorPair c) then (.operator, 1)
      else if isOperatorChar c then (.operator, 0)
      else if isPunctuationChar c then (.punctuation, 0)
      else (.invalid, 0)
    refine .inl ⟨shape.1, shape.2, ?_, fun u hu => ?_⟩
    · cases a with
      | nil => simp only [shape]; grind
      | cons g a => simp only [shape]; grind
    · rw [tokenShape, if_neg hdigit, if_neg hquote, if_neg hstart, hhead u hu]

end Shapes

/-- The texts before and behind a word in a string begin and end with the same quote. -/
def Quoted (l r : List Char) : Prop :=
  ∃ q before after, isQuote q ∧ l = q :: before ∧ r = after ++ [q]

/-- Pieces that are the same but for one token, which holds the one word or the other; the texts
stand before and behind the word. -/
structure Swaps (x w a b : List Char) (pieces pieces' : List Piece) : Prop where
  exists_token : ∃ before kind l r after,
    pieces = before ++ token kind (l ++ x ++ r) :: after ∧
    pieces' = before ++ token kind (l ++ w ++ r) :: after ∧
    a = join before ++ l ∧ b = r ++ join after ∧
    (kind = .string ∧ Quoted l r ∨ kind ∈ [Token.Kind.invalid, .comment, .text] ∨
      kind = .identifier ∧ l = [] ∧ r = [])

namespace Swaps

variable {x w a b : List Char} {pieces pieces' : List Piece}

theorem append_left (h : Swaps x w a b pieces pieces') (more : List Piece) :
    Swaps x w (join more ++ a) b (more ++ pieces) (more ++ pieces') := by
  obtain ⟨before, kind, l, r, after, rfl, rfl, rfl, rfl, hkind⟩ := h
  exact ⟨more ++ before, kind, l, r, after, by simp, by simp, by simp, rfl, hkind⟩

theorem cons (h : Swaps x w a b pieces pieces') (piece : Piece) :
    Swaps x w (piece.text ++ a) b (piece :: pieces) (piece :: pieces') := by
  have hcons := h.append_left [piece]
  rwa [join_cons, join_nil, append_nil] at hcons

theorem append_right (h : Swaps x w a b pieces pieces') (more : List Piece) :
    Swaps x w a (b ++ join more) (pieces ++ more) (pieces' ++ more) := by
  obtain ⟨before, kind, l, r, after, rfl, rfl, rfl, rfl, hkind⟩ := h
  exact ⟨before, kind, l, r, after ++ more, by simp, by simp, rfl, by simp, hkind⟩

theorem singleton {kind : Token.Kind} (l r : List Char)
    (hkind : kind = .string ∧ Quoted l r ∨ kind ∈ [Token.Kind.invalid, .comment, .text])
    (after : List Piece) :
    Swaps x w l (r ++ join after) (token kind (l ++ x ++ r) :: after)
      (token kind (l ++ w ++ r) :: after) :=
  ⟨[], kind, l, r, after, rfl, rfl, rfl, rfl, hkind.imp_right .inl⟩

end Swaps

section Cutting

variable {x w : List Char} (hx : IsWord x) (hw : IsWord w)

/-- A word at the start of an expression is its first token. -/
theorem ofExpression_word (comments : Bool) {b : List Char} (hx : IsWord x)
    (hb : ∀ c ∈ b.head?, isWordChar c = false) :
    ofExpression comments (x ++ b) = token .identifier x :: ofExpression comments b := by
  obtain ⟨c, rest, rfl, hc⟩ := hx.start
  have hchar := isWordChar_of_isWordStart c hc
  have hchars : ∀ d ∈ rest, isWordChar d = true := fun d hd => hx.chars d (mem_cons_of_mem c hd)
  have htake : (rest ++ b).takeWhile isWordChar = rest := by
    rw [takeWhile_append_of_pos hchars]
    cases b with
    | nil => simp
    | cons d b => rw [takeWhile_cons_of_neg (by simp [hb d rfl]), append_nil]
  have hshape : tokenShape c (rest ++ b) = (.identifier, rest.length) := by
    rw [tokenShape, if_neg (by simp [isDigit_of_isWordStart hc]),
      if_neg (by simp [isQuote_of_isWordChar hchar]), if_pos hc]
    dsimp only
    rw [htake, take_left, if_neg (by rw [hx.plain]; exact Bool.false_ne_true)]
  have hhyphen : (c == '-') = false := beq_eq_false_iff_ne.2 (ne_of_isWordChar hchar (by decide))
  rw [cons_append, ofExpression, if_neg (by simp [isGap_of_isWordChar hchar]),
    if_neg (by simp [hhyphen])]
  dsimp only
  rw [hshape, take_left, drop_left]

include hx hw in
/-- The pieces of an expression with another word in it. -/
theorem ofExpression_swap (comments : Bool) {a b : List Char} (h : Apart a b) :
    Swaps x w a b (ofExpression comments (a ++ x ++ b)) (ofExpression comments (a ++ w ++ b)) := by
  induction hlength : a.length using Nat.strongRecOn generalizing a with
  | ind n ih =>
  cases a with
  | nil =>
    rw [nil_append, nil_append, ofExpression_word comments hx h.right,
      ofExpression_word comments hw h.right]
    refine ⟨[], .identifier, [], [], ofExpression comments b, ?_, ?_, rfl,
      ?_, .inr (.inr ⟨rfl, rfl, rfl⟩)⟩
    · rw [append_nil]
      rfl
    · rw [append_nil]
      rfl
    · rw [join_ofExpression, nil_append]
  | cons c a =>
    rw [length_cons] at hlength
    rw [cons_append, cons_append, cons_append, cons_append, ofExpression,
      ofExpression.eq_def comments (c :: (a ++ w ++ b))]
    dsimp only
    by_cases hgap : isGap c
    · rw [if_pos hgap, if_pos hgap]
      exact (ih a.length (by omega) h.of_cons rfl).cons (gap [c])
    rw [if_neg hgap, if_neg hgap]
    by_cases hcomment : comments && c == '-' && a.head? == some '-'
    · obtain ⟨⟨hcomments, hc⟩, ha⟩ : (comments = true ∧ c = '-') ∧ a.head? = some '-' := by
        simpa using hcomment
      obtain ⟨a, rfl⟩ := head?_eq_some_iff.1 ha
      subst hc
      rw [if_pos (by simp [hcomments]), if_pos (by simp [hcomments])]
      have hkind : Token.Kind.comment ∈ [Token.Kind.invalid, .comment, .text] := by decide
      have hswap := (Swaps.singleton (x := x) (w := w) a b (.inr hkind) []).cons
        (token .commentStart ['-', '-'])
      rwa [join_nil, append_nil] at hswap
    · have hnot : ∀ u, IsWord u →
          ¬ (comments && c == '-' && (a ++ u ++ b).head? == some '-') = true := by
        intro u hu
        obtain ⟨f, rest, rfl, hf⟩ := hu.start
        have hhyphen : f ≠ '-' := ne_of_isWordChar (isWordChar_of_isWordStart f hf) (by decide)
        cases a with
        | nil => simp [hhyphen]
        | cons g a => simpa using hcomment
      rw [if_neg (hnot x hx), if_neg (hnot w hw)]
      rcases tokenShape_word h with ⟨kind, m, hm, hshape⟩ | ⟨kind, m, hkind, hshape⟩
      · rw [hshape x hx, hshape w hw, append_assoc, append_assoc, take_append_of_le_length hm,
          take_append_of_le_length hm, drop_append_of_le_length hm,
          drop_append_of_le_length hm, ← append_assoc, ← append_assoc]
        have hlater : Apart (a.drop m) b := by
          rw [← take_append_drop m a, ← cons_append] at h
          exact h.of_append
        have hrest := (ih (a.drop m).length (by rw [length_drop]; omega) hlater rfl).cons
          (token kind (c :: a.take m))
        rwa [text_token, cons_append, take_append_drop] at hrest
      · have htake : ∀ u : List Char, (a ++ u ++ b).take (a.length + u.length + m) =
            a ++ u ++ b.take m := by
          intro u
          rw [← length_append, take_length_add_append]
        have hdrop : ∀ u : List Char, (a ++ u ++ b).drop (a.length + u.length + m) = b.drop m := by
          intro u
          rw [← length_append, drop_length_add_append]
        rw [hshape x hx, hshape w hw, htake, htake, hdrop, hdrop]
        have hkinds : kind = .string ∧ Quoted (c :: a) (b.take m) ∨
            kind ∈ [Token.Kind.invalid, .comment, .text] := by
          rcases hkind with ⟨rfl, hquote, r, hr⟩ | rfl
          · exact .inl ⟨rfl, c, a, r, hquote, rfl, hr⟩
          · exact .inr (by decide)
        have hswap := Swaps.singleton (x := x) (w := w) (c :: a) (b.take m) hkinds
          (ofExpression comments (b.drop m))
        rwa [join_ofExpression, take_append_drop] at hswap

/-- A word is passed over in the search for a closing brace. -/
theorem splitAtClosing_word (depth : Nat) {quote : Option Char} (hquote : ∀ q ∈ quote, isQuote q)
    {u : List Char} (hu : ∀ c ∈ u, isWordChar c) (b : List Char) :
    splitAtClosing depth quote (u ++ b) =
      (splitAtClosing depth quote b).map fun parts => (u ++ parts.1, parts.2) := by
  induction u with
  | nil => exact Option.map_id'.symm
  | cons c u ih =>
    obtain ⟨hc, hu⟩ := forall_mem_cons.1 hu
    have hstep : splitAtClosing depth quote (c :: (u ++ b)) =
        (splitAtClosing depth quote (u ++ b)).map fun parts => (c :: parts.1, parts.2) := by
      rw [splitAtClosing.eq_def]
      cases quote with
      | some q =>
        have hne : c ≠ q := by
          rintro rfl
          have hq := hquote c rfl
          rw [isQuote_of_isWordChar hc] at hq
          cases hq
        dsimp only
        rw [if_neg hne]
      | none =>
        dsimp only
        rw [if_neg (by simp [isQuote_of_isWordChar hc]),
          if_neg (ne_of_isWordChar hc (by decide)), if_neg (ne_of_isWordChar hc (by decide))]
    rw [cons_append, hstep, ih hu, Option.map_map]
    rfl

/-- The closing brace of a text with a word in it. -/
theorem splitBraces_word (a b : List Char) :
    (∃ inner after, a = inner ++ '}' :: after ∧
      ∀ u, splitBraces (a ++ u) = some (inner, after ++ u)) ∨
    (∃ l after, b = l ++ '}' :: after ∧ ∀ u, IsWord u →
      splitBraces (a ++ u ++ b) = some (a ++ u ++ l, after)) ∨
    ∀ u, IsWord u → splitBraces (a ++ u ++ b) = none := by
  rcases splitAtClosing_append 0 none nofun a with hfound | ⟨depth, quote, hquote, hlater⟩
  · exact .inl hfound
  · have hsplit : ∀ u, IsWord u → splitBraces (a ++ u ++ b) =
        (splitAtClosing depth quote b).map fun parts => (a ++ u ++ parts.1, parts.2) := by
      intro u hu
      rw [splitBraces, append_assoc, hlater, splitAtClosing_word depth hquote hu.chars,
        Option.map_map]
      congr 1
      funext parts
      simp
    cases hb : splitAtClosing depth quote b with
    | none => exact .inr (.inr fun u hu => by rw [hsplit u hu, hb]; rfl)
    | some parts =>
      exact .inr (.inl ⟨parts.1, parts.2, splitAtClosing_eq_some hb,
        fun u hu => by rw [hsplit u hu, hb]; rfl⟩)

include hx hw in
/-- The pieces of a text with another word in it. -/
theorem ofText_swap {a b : List Char} (h : Apart a b) :
    Swaps x w a b (ofText (a ++ x ++ b)) (ofText (a ++ w ++ b)) := by
  induction hlength : a.length using Nat.strongRecOn generalizing a with
  | ind n ih =>
  have hrun : ∀ u, '{' ∉ a → IsWord u → ofText (a ++ u ++ b) =
      token .text (a ++ u ++ b.takeWhile (· ≠ '{')) :: ofText (b.dropWhile (· ≠ '{')) := by
    intro u ha hu
    have hfree : ∀ d ∈ a ++ u, decide (d ≠ '{') = true := by
      intro d hd
      refine decide_eq_true ?_
      rintro rfl
      exact (mem_append.1 hd).elim ha (hu.not_mem (by decide))
    obtain ⟨c, rest, hcons⟩ := exists_cons_of_ne_nil (append_ne_nil_of_right_ne_nil a hu.ne_nil)
    rw [hcons] at hfree ⊢
    obtain ⟨hc, hrest⟩ := forall_mem_cons.1 hfree
    rw [cons_append, ofText, if_neg (by simpa using hc), takeWhile_append_of_pos hrest,
      dropWhile_append_of_pos hrest]
    rfl
  by_cases hmem : '{' ∈ a
  · cases a with
    | nil => cases hmem
    | cons c a =>
      by_cases hc : c = '{'
      · subst hc
        rw [cons_append, cons_append, cons_append, cons_append, ofText,
          ofText.eq_def ('{' :: (a ++ w ++ b))]
        dsimp only
        rcases splitBraces_word a b with
          ⟨inner, after, rfl, hfound⟩ | ⟨l, after, rfl, hsplit⟩ | hsplit
        · have hlater : Apart after b := by
            rw [← cons_append, append_cons] at h
            exact h.of_append
          have hrest := ih after.length (by simp at hlength; omega) hlater rfl
          have hsame : ∀ u : List Char, splitBraces (inner ++ '}' :: after ++ u ++ b) =
              some (inner, after ++ u ++ b) := by
            intro u
            rw [append_assoc, hfound, append_assoc]
          rw [hsame, hsame]
          have hswap := (hrest.cons (token .interpolationEnd ['}'])).append_left
            (token .interpolationStart ['{'] :: ofExpression false inner)
          simpa using hswap
        · rw [hsplit x hx, hsplit w hw]
          have hinner := ofExpression_swap hx hw false (Apart.of_append_right h.of_cons)
          have hswap := (hinner.append_right (token .interpolationEnd ['}'] :: ofText after)).cons
            (token .interpolationStart ['{'])
          simpa using hswap
        · rw [hsplit x hx, hsplit w hw]
          have hkind : Token.Kind.invalid ∈ [Token.Kind.invalid, .comment, .text] := by decide
          have hswap := Swaps.singleton (x := x) (w := w) ('{' :: a) b (.inr hkind) []
          rwa [join_nil, append_nil] at hswap
      · have hmem' : '{' ∈ a := (mem_cons.1 hmem).resolve_left (Ne.symm hc)
        obtain ⟨a₁, a₂, rfl, hfree⟩ := eq_append_cons_of_mem hmem'
        have htake : ∀ u, (a₁ ++ '{' :: a₂ ++ u).takeWhile (· ≠ '{') = a₁ := by
          intro u
          have hall : ∀ d ∈ a₁, decide (d ≠ '{') = true := by
            intro d hd
            refine decide_eq_true ?_
            rintro rfl
            exact hfree hd
          rw [append_assoc, takeWhile_append_of_pos hall, cons_append,
            takeWhile_cons_of_neg (by simp), append_nil]
        have hdrop : ∀ u, (a₁ ++ '{' :: a₂ ++ u).dropWhile (· ≠ '{') = '{' :: a₂ ++ u := by
          intro u
          have hsplit := takeWhile_append_dropWhile (p := (· ≠ '{')) (l := a₁ ++ '{' :: a₂ ++ u)
          rw [htake] at hsplit
          exact append_cancel_left (hsplit.trans (append_assoc ..))
        have hlater : Apart ('{' :: a₂) b := by
          rw [← cons_append] at h
          exact h.of_append
        have hrest := ih ('{' :: a₂).length (by simp at hlength ⊢; omega) hlater rfl
        rw [cons_append, cons_append, cons_append, cons_append, ofText,
          ofText.eq_def (c :: (a₁ ++ '{' :: a₂ ++ w ++ b))]
        dsimp only
        rw [if_neg hc, if_neg hc, append_assoc, htake, hdrop, append_assoc, htake, hdrop]
        have hswap := hrest.cons (token .text (c :: a₁))
        simpa using hswap
  · rw [hrun x hmem hx, hrun w hmem hw]
    have hkind : Token.Kind.text ∈ [Token.Kind.invalid, .comment, .text] := by decide
    have hswap := Swaps.singleton (x := x) (w := w) a (b.takeWhile (· ≠ '{')) (.inr hkind)
      (ofText (b.dropWhile (· ≠ '{')))
    rwa [join_ofText, takeWhile_append_dropWhile] at hswap

end Cutting

end Piece

end ScriptLint

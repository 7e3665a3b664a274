import ScriptLint.Proofs.FixedLines
import ScriptLint.Proofs.LineSwap

/-!
# Renaming an identifier

An identifier of a program is swapped for another word, by a fix that replaces what its span covers.
The source that the fix gives is told again: its tokens are those of the first source but for one,
which holds the word.  The one identifier that starts there carries all of the change, so nothing
else of the tree changes but places, and the texts of string literals around the identifier.

**Results.**
* `Reshape.renamed`: what changes in the tree.
* `Retelling.renamed`: the source with the other word as a retelling.
-/

namespace ScriptLint

open List

open Piece Text

/-- A text that starts at an offset, and the same text with another word for the one at the target,
if it holds that. -/
inductive Renames (target : Nat) (x w : List Char) (start : Nat) : List Char → List Char → Prop
  | same {u : List Char} (hfree : covers target start u = 0) : Renames target x w start u u
  | swap {a b : List Char} (hplace : start + byteLength a = target) (hapart : Apart a b) :
      Renames target x w start (a ++ x ++ b) (a ++ w ++ b)

theorem covers_word {target start : Nat} {x a b : List Char} (hx : x ≠ [])
    (h : start + byteLength a = target) : covers target start (a ++ x ++ b) = 1 := by
  have hone := @covers_le_one target start (a ++ x ++ b)
  rw [covers_append, covers_append, h, covers_start hx] at hone ⊢
  omega

namespace Renames

variable {target start : Nat} {x w u u' : List Char}

theorem split (h : Renames target x w start u u') :
    (covers target start u = 0 ∧ u' = u) ∨ ∃ a b, u = a ++ x ++ b ∧ u' = a ++ w ++ b ∧
      start + byteLength a = target := by
  cases h with
  | same hfree => exact .inl ⟨hfree, rfl⟩
  | @swap a b hplace => exact .inr ⟨a, b, rfl, rfl, hplace⟩

theorem inline (h : Renames target x w start u u') (hw : IsWord w)
    (hu : OneLine u) : OneLine u' := by
  cases h with
  | same => exact hu
  | @swap a b =>
    intro c hc
    rcases mem_append.1 hc with hc | hc
    · rcases mem_append.1 hc with hc | hc
      · exact hu c (by simp [hc])
      · exact isLineEnd_of_isNameChar (isNameChar_of_isWordChar (hw.chars c hc))
    · exact hu c (by simp [hc])

theorem allBlank_eq (h : Renames target x w start u u') (hx : IsWord x) (hw : IsWord w) :
    allBlank u' = allBlank u := by
  cases h with
  | same => rfl
  | @swap a b =>
    have hwritten : ∀ {v : List Char}, IsWord v → allBlank (a ++ v ++ b) = false := by
      intro v hv
      obtain ⟨c, rest, rfl, hc⟩ := hv.start
      have hblank := isBlank_of_isWordChar (isWordChar_of_isWordStart c hc)
      simp [allBlank, hblank]
    rw [hwritten hx, hwritten hw]

theorem eq_of_covers (h : Renames target x w start u u') (hx : IsWord x)
    (hfree : covers target start u = 0) : u' = u := by
  cases h with
  | same => rfl
  | swap hplace =>
    rw [covers_word hx.ne_nil hplace] at hfree
    cases hfree

theorem filled (h : Renames target x w start u u') (hx : IsWord x) (hw : IsWord w) :
    Renames target x w start (filledText u) (filledText u') := by
  cases h with
  | same hfree =>
    refine .same ?_
    rwa [covers_fills (fills_filledText u)]
  | @swap a b hplace hapart =>
    obtain ⟨before, kind, l, r, after, hpieces, hpieces', rfl, rfl, -⟩ := ofText_swap hx hw hapart
    have hinline : ∀ piece ∈ before ++ token kind (l ++ x ++ r) :: after, piece.isInline := by
      rw [← hpieces]
      exact fun _ => isInline_of_mem_ofText
    have hbefore := (fills_flatMap_filled fun piece hpiece =>
      hinline piece (mem_append_left _ hpiece)).append (.refl l)
    have hafter := (Fills.refl r).append (fills_flatMap_filled fun piece hpiece =>
      hinline piece (mem_append_right _ (mem_cons_of_mem _ hpiece)))
    have htext : ∀ v : List Char,
        (before ++ token kind (l ++ v ++ r) :: after).flatMap filled =
          (before.flatMap filled ++ l) ++ v ++ (r ++ after.flatMap filled) := by
      simp [filled]
    unfold filledText
    rw [hpieces, hpieces', htext, htext]
    refine .swap ?_ (hapart.of_wordParts hbefore.wordParts.symm hafter.wordParts.symm)
    rw [hbefore.byteLength_eq]
    exact hplace

/-- The argument of a keyword, which stands behind some characters of what follows the name. -/
theorem argument (h : Renames target x w start u u') (hx : IsWord x) (hw : IsWord w)
    {xs : List Char} (hu : u = xs ++ argumentAfter u) :
    Renames target x w (start + byteLength xs) (argumentAfter u) (argumentAfter u') := by
  cases h with
  | same hfree => exact .same (covers_eq_zero_of_append (hu.trans (append_nil _).symm) hfree)
  | @swap a b hplace hapart =>
    rcases argumentAfter_word a b with hnone | ⟨a₁, a₂, rfl, hargument⟩
    · rw [hnone x hx, hnone w hw]
      exact .same (covers_nil _ _)
    · have hxs : a₁ = xs := by
        rw [hargument x hx, append_assoc, append_assoc] at hu
        exact append_cancel_right (hu.trans (by simp))
      subst hxs
      rw [hargument x hx, hargument w hw]
      rw [byteLength_append, ← Nat.add_assoc] at hplace
      exact .swap hplace hapart.of_append

end Renames

section Tokens

variable {target : Nat} {x w : List Char} {p p' : Position} {u u' : List Char}

/-- A text on a line, and the same text with the other word on the line that corresponds. -/
structure RenamedText (target : Nat) (x w : List Char) (p : Position) (u : List Char)
    (p' : Position) (u' : List Char) : Prop where
  inline : OneLine u
  line : p'.line = p.line
  text : Renames target x w p.offset u u'

/-- A token, and the same token with the other word.  Where it is a string and holds the word, this
stands between its quotes. -/
structure RenamedToken (target : Nat) (x w : List Char) (t t' : Token) : Prop where
  kind : t'.kind = t.kind
  stop : t.span.stop = t.span.start.advance t.text.toList
  stop' : t'.span.stop = t'.span.start.advance t'.text.toList
  told : RenamedText target x w t.span.start t.text.toList t'.span.start t'.text.toList
  holds : covers target t.span.start.offset t.text.toList = 0 ∨
    t.kind = .string ∧ (∃ a b, Quoted a b ∧ t.text.toList = a ++ x ++ b ∧
      t'.text.toList = a ++ w ++ b ∧ t.span.start.offset + byteLength a = target) ∨
    t.kind ∈ [Token.Kind.invalid, .comment, .text, .identifier]

/-- The same pieces, none of which holds the word. -/
theorem forall₂_renamed_same {pieces : List Piece} (hinline : ∀ piece ∈ pieces, piece.isInline)
    (hchars : OneLine (join pieces)) (hline : p'.line = p.line)
    (hfree : covers target p.offset (join pieces) = 0) :
    Forall₂ (RenamedToken target x w) (place p pieces) (place p' pieces) := by
  refine forall₂_place hinline fun xs kind cs ys hpieces => ?_
  have hjoin : join pieces = join xs ++ cs ++ join ys := by
    rw [hpieces]
    simp
  have hpart := covers_eq_zero_of_append hjoin hfree
  constructor
  · rfl
  · rw [String.toList_ofList, Position.advance_advance]
  · rw [String.toList_ofList, Position.advance_advance]
  · rw [String.toList_ofList]
    exact ⟨fun c hc => hchars c (by rw [hjoin]; simp [hc]), hline, .same hpart⟩
  · rw [String.toList_ofList]
    exact .inl hpart

/-- The pieces of a text and of the text with the other word. -/
theorem forall₂_renamed_swap {pieces pieces' : List Piece} {a b : List Char}
    (h : Swaps x w a b pieces pieces') (hx : IsWord x) (hinline : ∀ piece ∈ pieces, piece.isInline)
    (hchars : OneLine (join pieces)) (hline : p'.line = p.line)
    (hplace : p.offset + byteLength a = target) (hapart : Apart a b) :
    Forall₂ (RenamedToken target x w) (place p pieces) (place p' pieces') := by
  obtain ⟨before, kind, l, r, after, rfl, rfl, rfl, rfl, hkind⟩ := h
  have hfirst : ∀ piece ∈ before, piece.isInline := fun piece hpiece =>
    hinline piece (mem_append_left _ hpiece)
  have hlater : ∀ piece ∈ after, piece.isInline := fun piece hpiece =>
    hinline piece (mem_append_right _ (mem_cons_of_mem _ hpiece))
  have hnewline : kind ≠ .newline := by
    rintro rfl
    cases hinline (token .newline (l ++ x ++ r)) (by simp)
  rw [place_append, place_append, last_eq_advance hfirst, last_eq_advance hfirst,
    Piece.place_token hnewline, Piece.place_token hnewline]
  rw [join_append, join_cons, text_token] at hchars
  rw [byteLength_append] at hplace
  refine rel_append ?_ (.cons ?_ ?_)
  · refine forall₂_renamed_same hfirst (fun c hc => hchars c (by simp [hc])) hline ?_
    exact covers_of_le (by omega)
  · constructor
    · rfl
    · rw [String.toList_ofList]
    · rw [String.toList_ofList]
    · rw [String.toList_ofList, String.toList_ofList]
      refine ⟨fun c hc => hchars c (by simp only [mem_append] at hc ⊢; tauto), hline, ?_⟩
      refine .swap ?_ hapart.of_append.of_append_right
      show p.offset + byteLength (join before) + byteLength l = target
      omega
    · right
      rw [String.toList_ofList, String.toList_ofList]
      rcases hkind with ⟨hkind, hquoted⟩ | hkind | ⟨hkind, rfl, rfl⟩
      · refine .inl ⟨hkind, l, r, hquoted, rfl, rfl, ?_⟩
        show p.offset + byteLength (join before) + byteLength l = target
        omega
      · exact .inr (mem_append_left [Token.Kind.identifier] hkind)
      · exact .inr (by simp [hkind])
  · refine forall₂_renamed_same hlater (fun c hc => hchars c (by simp [hc])) hline ?_
    refine covers_of_lt _ ?_
    show target < p.offset + byteLength (join before) + byteLength (l ++ x ++ r)
    have hpos := byteLength_pos hx.ne_nil
    rw [byteLength_append, byteLength_append]
    omega

/-- The insides of the braces of a text that does not hold the word. -/
theorem forall₂_regions_same (hchars : OneLine u) (hline : p'.line = p.line)
    (hfree : covers target p.offset u = 0) :
    Forall₂ (fun r r' => RenamedText target x w r.1 r.2 r'.1 r'.2) (Parser.braceRegions p u)
      (Parser.braceRegions p' u) := by
  refine (forall₂_braceRegions p p' u).imp ?_
  rintro ⟨q, run⟩ r' ⟨xs, ys, hu, rfl, rfl⟩
  exact ⟨fun c hc => hchars c (by rw [hu]; simp [hc]), hline,
    .same (covers_eq_zero_of_append hu hfree)⟩

/-- The insides of the braces of a text and of the text with the other word. -/
theorem forall₂_regions_swap (hx : IsWord x) (hw : IsWord w) {a b : List Char}
    (hchars : OneLine (a ++ x ++ b)) (hline : p'.line = p.line)
    (hplace : p.offset + byteLength a = target) (hapart : Apart a b) :
    Forall₂ (fun r r' => RenamedText target x w r.1 r.2 r'.1 r'.2)
      (Parser.braceRegions p (a ++ x ++ b)) (Parser.braceRegions p' (a ++ w ++ b)) := by
  have hpos := byteLength_pos hx.ne_nil
  induction hn : a.length using Nat.strongRecOn generalizing a p p' with
  | ind n ih =>
  by_cases hmem : '{' ∈ a
  · obtain ⟨a₁, a₂, rfl, hfree⟩ := eq_append_cons_of_mem hmem
    have hopen : ∀ v : List Char, a₁ ++ '{' :: a₂ ++ v ++ b = a₁ ++ '{' :: (a₂ ++ v ++ b) := by simp
    rw [hopen, hopen, braceRegions_open hfree, braceRegions_open hfree]
    rw [byteLength_append, byteLength_cons] at hplace
    rcases splitBraces_word a₂ b with ⟨inner, after, rfl, hfound⟩ | ⟨l, after, rfl, hsplit⟩ | hsplit
    · have hsame : ∀ v : List Char, splitBraces (inner ++ '}' :: after ++ v ++ b) =
          some (inner, after ++ v ++ b) := by
        intro v
        rw [append_assoc, hfound, append_assoc]
      rw [hsame, hsame]
      rw [byteLength_append, byteLength_cons] at hplace
      refine .cons ⟨?_, hline, ?_⟩ ?_
      · exact fun c hc => hchars c (by simp [hc])
      · refine .same (covers_of_le ?_)
        show p.offset + byteLength (a₁ ++ ['{']) + byteLength inner ≤ target
        rw [byteLength_append, byteLength_cons, byteLength_nil]
        omega
      · have hlater : Apart after b := by
          rw [show a₁ ++ '{' :: (inner ++ '}' :: after) = (a₁ ++ '{' :: inner ++ ['}']) ++ after by
            simp] at hapart
          exact hapart.of_append
        refine ih after.length ?_ ?_ hline ?_ hlater rfl
        · simp at hn
          omega
        · exact fun c hc => hchars c (by simp at hc ⊢; tauto)
        · show p.offset + byteLength (a₁ ++ '{' :: inner ++ ['}']) + byteLength after = target
          rw [byteLength_append, byteLength_append, byteLength_cons, byteLength_cons,
            byteLength_nil]
          omega
    · rw [hsplit x hx, hsplit w hw]
      refine .cons ⟨?_, hline, .swap ?_ hapart.of_append.of_cons.of_append_right⟩ ?_
      · exact fun c hc => hchars c (by simp at hc ⊢; tauto)
      · show p.offset + byteLength (a₁ ++ ['{']) + byteLength a₂ = target
        rw [byteLength_append, byteLength_cons, byteLength_nil]
        omega
      · refine forall₂_regions_same (fun c hc => hchars c (by simp [hc])) hline (covers_of_lt _ ?_)
        show target < p.offset + byteLength (a₁ ++ '{' :: (a₂ ++ x ++ l) ++ ['}'])
        simp only [byteLength_append, byteLength_cons]
        omega
    · rw [hsplit x hx, hsplit w hw]
      exact .nil
  · have hfree : ∀ {v : List Char}, IsWord v → '{' ∉ a ++ v := fun hv hin =>
      (mem_append.1 hin).elim hmem (hv.not_mem (by decide))
    rw [braceRegions_free (hfree hx), braceRegions_free (hfree hw)]
    refine forall₂_regions_same (fun c hc => hchars c (by simp [hc])) hline (covers_of_lt _ ?_)
    show target < p.offset + byteLength (a ++ x)
    rw [byteLength_append]
    omega

end Tokens

/-- One span lies in another. -/
def Span.Encloses (outer inner : Span) : Prop :=
  outer.start.offset ≤ inner.start.offset ∧ inner.stop.offset ≤ outer.stop.offset

instance (outer inner : Span) : Decidable (outer.Encloses inner) :=
  inferInstanceAs (Decidable (_ ∧ _))

/-- The identifier at a place has another name, also in the texts of the string literals around it;
places are forgotten. -/
def Reshape.renamed (target : Span) (w : String) : Reshape where
  span _ := default
  identifier span name := if span = target then w else name
  raw span raw :=
    if span.Encloses target then
      String.ofList (Fix.splice span.start.offset raw.toList [.replace target w])
    else raw
  value span value :=
    if span.Encloses target then
      String.ofList (Fix.splice (span.start.offset + 1) value.toList [.replace target w])
    else value

theorem splice_replace {target : Span} {x a b : List Char} {start : Nat} (w : String)
    (hstop : target.stop.offset = target.start.offset + byteLength x)
    (hplace : start + byteLength a = target.start.offset) :
    Fix.splice start (a ++ x ++ b) [.replace target w] = a ++ w.toList ++ b := by
  have hbefore : target.start.offset - start = byteLength a := by omega
  have hlength : target.stop.offset - target.start.offset = byteLength x := by omega
  simp only [Fix.splice, Fix.replace, hbefore, hlength, append_assoc, splitAtByte?_append]

theorem stringValue_quoted {q : Char} (hq : isQuote q) (inner : List Char) :
    Parser.stringValue (String.ofList (q :: (inner ++ [q]))) = String.ofList inner := by
  obtain ⟨c, rest, hcons⟩ := exists_cons_of_ne_nil (concat_ne_nil q inner)
  unfold Parser.stringValue
  rw [String.toList_ofList, hcons]
  dsimp only
  rw [← hcons, dropLast_concat, if_pos (by simp [hq])]

section Retelling

variable {target : Span} {x : List Char} {w : String}

/-- A word is to stand for another one, whose place is the target. -/
structure Rewording (target : Span) (x : List Char) (w : String) : Prop where
  old : IsWord x
  new : IsWord w.toList
  stop : target.stop.offset = target.start.offset + byteLength x

/-- A span whose text does not hold the word does not enclose its place. -/
theorem not_encloses {span : Span} {text : List Char} (hx : x ≠ [])
    (htarget : target.stop.offset = target.start.offset + byteLength x)
    (hstop : span.stop = span.start.advance text)
    (hfree : covers target.start.offset span.start.offset text = 0) : ¬ span.Encloses target := by
  rintro ⟨hstart, hend⟩
  have hpos := byteLength_pos hx
  have hoffset : span.stop.offset = span.start.offset + byteLength text := by rw [hstop]; rfl
  rw [covers, if_pos (by omega)] at hfree
  cases hfree

variable {p p' : Position} {u u' : List Char}

theorem RenamedText.regions
    (h : RenamedText target.start.offset x w.toList p u p' u') (R : Rewording target x w) :
    Forall₂ (fun r r' => RenamedText target.start.offset x w.toList r.1 r.2 r'.1 r'.2)
      (Parser.braceRegions p u) (Parser.braceRegions p' u') := by
  obtain ⟨hchars, hline, htext⟩ := h
  cases htext with
  | same hfree => exact forall₂_regions_same hchars hline hfree
  | swap hplace hapart => exact forall₂_regions_swap R.old R.new hchars hline hplace hapart

/-- A text and the text with the other word, cut in one way. -/
theorem RenamedText.tokens (h : RenamedText target.start.offset x w.toList p u p' u')
    (hx : IsWord x)
    {cut : List Char → List Piece} (hinline : ∀ u, ∀ piece ∈ cut u, piece.isInline)
    (hjoin : ∀ u, join (cut u) = u)
    (hcut : ∀ {a b}, Apart a b →
      Swaps x w.toList a b (cut (a ++ x ++ b)) (cut (a ++ w.toList ++ b))) :
    Forall₂ (RenamedToken target.start.offset x w.toList) (place p (cut u))
      (place p' (cut u')) := by
  obtain ⟨hchars, hline, htext⟩ := h
  rw [← hjoin u] at hchars
  cases htext with
  | same hfree => exact forall₂_renamed_same (hinline u) hchars hline (by rwa [hjoin])
  | swap hplace hapart =>
    exact forall₂_renamed_swap (hcut hapart) hx (hinline _) hchars hline hplace hapart

/-- Only the identifier at the place of the word is told in another word. -/
theorem RenamedToken.identifier {t t' : Token}
    (h : RenamedToken target.start.offset x w.toList t t') (R : Rewording target x w) :
    (if t.span = target then 2 else 0) ≤
        2 * covers target.start.offset t.span.start.offset t.text.toList ∧
      (2 * covers target.start.offset t.span.start.offset t.text.toList ≤
        (if t.span = target then 2 else 0) →
        (if t.span = target then w else t.text) = t'.text) := by
  have hpos := byteLength_pos R.old.ne_nil
  have htarget := R.stop
  have hstop : t.span.stop.offset = t.span.start.offset + byteLength t.text.toList := by
    rw [h.stop]
    rfl
  by_cases hspan : t.span = target
  · rw [if_pos hspan, if_pos hspan, hspan]
    rw [hspan] at hstop
    have hload : covers target.start.offset target.start.offset t.text.toList = 1 := by
      rw [covers, if_pos (by omega)]
    refine ⟨by rw [hload], fun _ => ?_⟩
    have htext := h.told.text
    rw [hspan] at htext
    rcases htext.split with ⟨hfree, -⟩ | ⟨a, b, hsplit, hsplit', hplace⟩
    · rw [hload] at hfree
      cases hfree
    · rw [hsplit, byteLength_append, byteLength_append] at hstop
      have ha := length_le_byteLength a
      have hb := length_le_byteLength b
      obtain rfl : a = [] := length_eq_zero_iff.1 (by omega)
      obtain rfl : b = [] := length_eq_zero_iff.1 (by omega)
      rw [append_nil] at hsplit'
      exact String.toList_inj.1 hsplit'.symm
  · rw [if_neg hspan, if_neg hspan]
    refine ⟨Nat.zero_le _, fun hload => ?_⟩
    exact (String.toList_inj.1 (h.told.text.eq_of_covers R.old (by omega))).symm

theorem RenamedToken.string {t t' : Token} (h : RenamedToken target.start.offset x w.toList t t')
    (R : Rewording target x w) (hkind : t.kind = .string) :
    (Reshape.renamed target w).raw t.span t.text = t'.text ∧
      (Reshape.renamed target w).value t.span (Parser.stringValue t.text) =
        Parser.stringValue t'.text := by
  rcases h.holds with
    hfree | ⟨-, a, b, ⟨q, before, after, hq, rfl, rfl⟩, htext, htext', hplace⟩ | hmem
  · have hnot := not_encloses R.old.ne_nil R.stop h.stop hfree
    rw [String.toList_inj.1 (h.told.text.eq_of_covers R.old hfree)]
    exact ⟨if_neg hnot, if_neg hnot⟩
  · have hencloses : t.span.Encloses target := by
      have hstop : t.span.stop.offset = t.span.start.offset + byteLength t.text.toList := by
        rw [h.stop]
        rfl
      rw [htext, byteLength_append, byteLength_append] at hstop
      have htarget := R.stop
      constructor <;> omega
    have hquote : q.utf8Size = 1 := by
      rcases (by simpa [isQuote] using hq : q = '"' ∨ q = '\'') with rfl | rfl <;> rfl
    have hvalue : ∀ {s : String} {v : List Char}, s.toList = q :: before ++ v ++ (after ++ [q]) →
        Parser.stringValue s = String.ofList (before ++ v ++ after) := by
      intro s v hs
      rw [← stringValue_quoted hq (before ++ v ++ after), ← String.ofList_toList (s := s), hs]
      simp
    constructor
    · refine (if_pos hencloses).trans ?_
      rw [htext, splice_replace w R.stop hplace, ← htext', String.ofList_toList]
    · refine (if_pos hencloses).trans ?_
      rw [hvalue htext, hvalue htext', String.toList_ofList, splice_replace w R.stop]
      rw [byteLength_cons] at hplace
      omega
  · have hstring : Token.Kind.string ∉ [Token.Kind.invalid, .comment, .text, .identifier] := by
      decide
    rw [hkind] at hmem
    exact absurd hmem hstring

/-- The source with another word for an identifier is told again. -/
def Retelling.renamed (R : Rewording target x w) : Retelling where
  before := .renamed target w
  after := .erased
  near p p' := p'.line = p.line
  token := RenamedToken target.start.offset x w.toList
  load t := covers target.start.offset t.span.start.offset t.text.toList
  told := RenamedText target.start.offset x w.toList
  textLoad p u := covers target.start.offset p.offset u
  heft span _ := if span = target then 2 else 0
  near_stop := Span.line_stop_between
  span_eq _ _ := rfl
  between_eq _ _ := rfl
  kind h := h.kind
  near_start h := h.told.line
  near_end := by
    intro t t' h
    rw [h.stop, h.stop']
    exact h.told.line
  same h hload := String.toList_inj.1 (h.told.text.eq_of_covers R.old hload)
  fixed := by
    intro t t' h hkind
    rcases h.holds with hfree | ⟨hstring, -⟩ | hmem
    · exact String.toList_inj.1 (h.told.text.eq_of_covers R.old hfree)
    · rw [hstring] at hkind
      cases hkind
    · have hwordy : ∀ kind ∈ [Token.Kind.invalid, .comment, .text, .identifier], kind.isWordy := by
        decide
      rw [hwordy _ hmem] at hkind
      cases hkind
  identifier := fun h _ => h.identifier R
  string := fun h hkind => h.string R hkind
  regions := by
    intro t t' h _
    refine ⟨?_, sum_covers_braceRegions _ _⟩
    exact h.told.regions R
  told_inline h := ⟨h.inline, h.text.inline R.new h.inline⟩
  told_blank h := h.text.allBlank_eq R.old R.new
  told_stop h := h.line
  told_tokens := by
    intro p u p' u' h
    have hinline : ∀ u, ∀ piece ∈ ofExpression true u, piece.isInline :=
      fun _ _ => isInline_of_mem_ofExpression
    constructor
    · exact h.tokens R.old hinline (join_ofExpression true) (ofExpression_swap R.old R.new true)
    · have hsum := @sum_covers_place target.start.offset p _ (hinline u)
      rwa [join_ofExpression] at hsum
  told_filled := by
    intro p u p' u' h
    have hfills := fills_filledText u
    refine ⟨⟨hfills.isLineEnd h.inline, h.line, h.text.filled R.old R.new⟩, ?_⟩
    rw [covers_fills hfills]

end Retelling

end ScriptLint

import ScriptLint.Proofs.LineSites
import ScriptLint.Rules.TrailingWhitespace
import Mathlib.Data.List.TakeWhile

/-!
# Tidying a line

Two changes leave a line what it is: taking away spaces and tabs at its end, and writing the name of
a known keyword in lower case.  The line keeps its indentation, its directive, and the kind of its
first token, and the name on it changes at most in case.

**Results.**
* `tidies_append`, `tidies_lowerName`: the two changes.
* `Tidies.alike`: the rows of the two lines begin alike.
-/

namespace ScriptLint

open List Text

variable {ws : List Char} {p : Char → Bool} {cs : List Char} {m : Char}

namespace Text

theorem dropEndWhile_cons (c : Char) (cs : List Char) :
    dropEndWhile p (c :: cs) = if (dropEndWhile p cs).isEmpty && p c then [] else c ::
      dropEndWhile p cs := rfl

theorem dropEndWhile_append {ys : List Char} (h : ∀ c ∈ ys, p c) (xs : List Char) :
    dropEndWhile p (xs ++ ys) = dropEndWhile p xs := by
  have hnil : ys.foldr (fun c rest => if rest.isEmpty && p c then [] else c :: rest) [] = [] := by
    induction ys with
    | nil => rfl
    | cons c ys ih =>
      obtain ⟨hc, hys⟩ := forall_mem_cons.1 h
      rw [foldr_cons, ih hys]
      simp [hc]
  rw [dropEndWhile, foldr_append, hnil]
  rfl

/-- A text is what is left when its end is dropped, and the end. -/
theorem exists_eq_dropEndWhile_append (p : Char → Bool) (cs : List Char) :
    ∃ ys, cs = dropEndWhile p cs ++ ys ∧ ∀ c ∈ ys, p c := by
  induction cs with
  | nil => exact ⟨[], rfl, by simp⟩
  | cons c cs ih =>
    obtain ⟨ys, heq, hys⟩ := ih
    rw [dropEndWhile_cons]
    split
    · next hdrop =>
      obtain ⟨hempty, hc⟩ := Bool.and_eq_true_iff.1 hdrop
      rw [isEmpty_iff.1 hempty] at heq
      refine ⟨c :: cs, rfl, forall_mem_cons.2 ⟨hc, ?_⟩⟩
      rw [heq]
      exact hys
    · exact ⟨ys, by rw [cons_append, ← heq], hys⟩

end Text

namespace Rules.TrailingWhitespace

theorem exists_eq_trimmed_append (content : List Char) :
    ∃ ws, content = trimmed content ++ ws ∧ ∀ c ∈ ws, isGap c :=
  exists_eq_dropEndWhile_append isGap content

theorem trimmed_append (h : ∀ c ∈ ws, isGap c) (content : List Char) :
    trimmed (content ++ ws) = trimmed content :=
  dropEndWhile_append h content

theorem trimmed_trimmed (content : List Char) : trimmed (trimmed content) = trimmed content := by
  obtain ⟨ws, heq, hws⟩ := exists_eq_trimmed_append content
  conv_rhs => rw [heq, trimmed_append hws]

end Rules.TrailingWhitespace

namespace Text

theorem dropEndWhile_append_of_ne_nil {ys : List Char} (h : dropEndWhile p ys ≠ [])
    (xs : List Char) :
    dropEndWhile p (xs ++ ys) = xs ++ dropEndWhile p ys := by
  induction xs with
  | nil => rfl
  | cons c xs ih =>
    rw [cons_append, dropEndWhile_cons, ih, if_neg (by simp [h]), cons_append]

theorem dropEndWhile_ne_nil {c : Char} (hc : c ∈ cs) (hnot : p c = false) :
    dropEndWhile p cs ≠ [] := by
  intro hnil
  obtain ⟨ys, heq, hys⟩ := exists_eq_dropEndWhile_append p cs
  rw [hnil, nil_append] at heq
  have hp := hys c (heq ▸ hc)
  rw [hnot] at hp
  cases hp

/-- Characters of a kind behind a text, seen from where those at its start end. -/
theorem dropWhile_append_cases (h : ∀ c ∈ ws, p c) (cs : List Char) :
    cs.dropWhile p = [] ∧ (cs ++ ws).dropWhile p = [] ∨
      cs.dropWhile p ≠ [] ∧ (cs ++ ws).dropWhile p = cs.dropWhile p ++ ws ∧
        (cs ++ ws).takeWhile p = cs.takeWhile p := by
  by_cases hnil : cs.dropWhile p = []
  · exact .inl ⟨hnil, dropWhile_eq_nil_iff.2 (forall_mem_append.2 ⟨dropWhile_eq_nil_iff.1 hnil, h⟩)⟩
  · refine .inr ⟨hnil, ?_, ?_⟩
    · rw [dropWhile_append, if_neg (by simpa using hnil)]
    · rw [takeWhile_append, if_neg]
      intro hlength
      have hsplit := congrArg length (takeWhile_append_dropWhile (p := p) (l := cs))
      rw [length_append] at hsplit
      exact hnil (length_eq_zero_iff.1 (by omega))

/-- White space behind a text is none of its own. -/
theorem trim_append (h : ∀ c ∈ ws, isBlank c) (cs : List Char) : trim (cs ++ ws) = trim cs := by
  rcases dropWhile_append_cases h cs with ⟨hnil, hnil'⟩ | ⟨-, hrest, -⟩
  · rw [trim, trim, trimStart, trimStart, hnil, hnil']
  · rw [trim, trimStart, hrest]
    exact dropEndWhile_append h _

theorem eq_cons_cons_of_take (h : cs.take 2 = [m, m]) : cs = m :: m :: cs.drop 2 := by
  conv_lhs => rw [← take_append_drop 2 cs, h]
  rfl

/-- White space behind a text makes no mark of it. -/
theorem take_two_append (h : ∀ c ∈ ws, isGap c) (hm : isGap m = false)
    (cs : List Char) : (cs ++ ws).take 2 = [m, m] ↔ cs.take 2 = [m, m] := by
  match cs, ws with
  | _ :: _ :: _, _ | [_], [] | [], [] => exact Iff.rfl
  | [c], d :: _ | [], d :: _ =>
    refine iff_of_false (fun hmark => ?_) nofun
    have hd := h d mem_cons_self
    simp_all

theorem drop_two_append (h : cs.take 2 = [m, m]) (ws : List Char) :
    (cs ++ ws).drop 2 = cs.drop 2 ++ ws := by
  conv_lhs => rw [eq_cons_cons_of_take h]
  rfl

end Text

namespace Directive

theorem commentAfter_append (h : ∀ c ∈ ws, isGap c) (quote : Option Char)
    (hyphen : Bool) (cs : List Char) :
    commentAfter quote hyphen (cs ++ ws) = (commentAfter quote hyphen cs).map (· ++ ws) := by
  induction cs generalizing quote hyphen with
  | nil =>
    rw [nil_append]
    induction ws generalizing quote hyphen with
    | nil => rfl
    | cons c ws ih =>
      obtain ⟨hc, hws⟩ := forall_mem_cons.1 h
      have hquote : Piece.isQuote c = false ∧ c ≠ '-' := by
        rcases (by simpa [isGap] using hc : c = ' ' ∨ c = '\t') with rfl | rfl <;> decide
      cases quote with
      | none => simp [commentAfter, hquote.2, ih hws]
      | some q => exact ih hws _ _
  | cons c cs ih =>
    cases quote with
    | none =>
      rw [cons_append, commentAfter, commentAfter]
      split
      · exact ih _ _
      · split
        · rfl
        · exact ih _ _
    | some q => exact ih _ _

theorem ofComment?_append (h : ∀ c ∈ ws, isGap c) (comment : List Char) :
    ofComment? (comment ++ ws) = ofComment? comment := by
  rw [ofComment?, ofComment?, trim_append fun c hc => isBlank_of_isGap c (h c hc)]

theorem commentOf_eq (line : List Char) :
    commentOf line =
      let body := trimStart line
      if body.take 2 = ['-', '-'] then some (body.drop 2)
      else if body.take 2 = ['>', '>'] then commentAfter none false (body.drop 2)
      else none := by
  unfold commentOf
  split
  · next heq => simp [heq]
  · next heq => simp [heq]
  · next hcomment hexpression =>
    rw [if_neg fun h => hcomment _ (eq_cons_cons_of_take h),
      if_neg fun h => hexpression _ (eq_cons_cons_of_take h)]

theorem ofLine?_append (h : ∀ c ∈ ws, isGap c) (line : List Char) :
    ofLine? (line ++ ws) = ofLine? line := by
  rcases dropWhile_append_cases (fun c hc => isBlank_of_isGap c (h c hc)) line with
    ⟨hnil, hnil'⟩ | ⟨-, hrest, -⟩
  · rw [ofLine?, ofLine?, commentOf, commentOf, trimStart, trimStart, hnil, hnil']
  · rw [ofLine?, ofLine?, commentOf_eq, commentOf_eq, trimStart, trimStart, hrest]
    simp only [take_two_append h (m := '-') rfl, take_two_append h (m := '>') rfl]
    split
    · next hmark =>
      rw [drop_two_append hmark]
      exact ofComment?_append h _
    · split
      · next hmark =>
        rw [drop_two_append hmark, commentAfter_append h, Option.bind_map]
        exact Option.bind_congr fun comment _ => ofComment?_append h comment
      · rfl

end Directive

namespace Piece

theorem isSome_splitBraces_append (h : ∀ c ∈ ws, isGap c) (cs : List Char) :
    (splitBraces (cs ++ ws)).isSome = (splitBraces cs).isSome := by
  rcases splitAtClosing_append 0 none nofun cs with
    ⟨inner, after, -, hfound⟩ | ⟨depth, quote, -, hlater⟩
  · have hcs := hfound []
    rw [append_nil] at hcs
    simp only [splitBraces, hfound, hcs, Option.isSome_some]
  · have hcs := hlater []
    rw [append_nil] at hcs
    have hnone : splitAtClosing depth quote ws = none := by
      refine Option.eq_none_iff_forall_ne_some.2 fun parts hsplit => ?_
      have hbrace : '}' ∈ ws := by
        rw [splitAtClosing_eq_some hsplit]
        simp
      cases h '}' hbrace
    rw [splitBraces, splitBraces, hlater, hcs, hnone]
    rfl

theorem isBold_append (h : ∀ c ∈ ws, isGap c) {body : List Char}
    (hne : body ≠ []) : isBold (body ++ ws) = isBold body := by
  have hstar : ws.idxOf? '*' = none := idxOf?_eq_none_iff.2 fun hmem => by cases h _ hmem
  have hcolon : ws.idxOf? ':' = none := idxOf?_eq_none_iff.2 fun hmem => by cases h _ hmem
  have hdrop : (body ++ ws).drop 1 = body.drop 1 ++ ws := by
    cases body with
    | nil => exact absurd rfl hne
    | cons c body => rfl
  have hend : trimEnd (body ++ ws) = trimEnd body :=
    dropEndWhile_append (fun c hc => isBlank_of_isGap c (h c hc)) body
  unfold isBold
  unfold idxOf? at *
  simp only [hdrop, hend, findIdx?_append, hstar, hcolon, Option.map_none, Option.or_none]

/-- Whether a line is bold can be seen behind its name. -/
theorem isBold_name {name name' : List Char} (hname : '*' ∉ name ∧ ':' ∉ name)
    (hname' : '*' ∉ name' ∧ ':' ∉ name') (rest : List Char) :
    isBold ('*' :: (name' ++ rest)) = isBold ('*' :: (name ++ rest)) := by
  have hbehind : ∀ {xs : List Char}, '*' ∉ xs ∧ ':' ∉ xs →
      isBold ('*' :: (xs ++ rest)) = isBold ('*' :: rest) := by
    intro xs hxs
    have hlast : '*' ∈ rest →
        ∀ front, (trimEnd (front ++ rest)).getLast? = (trimEnd rest).getLast? := by
      intro hmem front
      have hne : trimEnd rest ≠ [] := dropEndWhile_ne_nil hmem rfl
      have htrim : trimEnd (front ++ rest) = front ++ trimEnd rest :=
        dropEndWhile_append_of_ne_nil hne _
      rw [htrim, getLast?_append_of_ne_nil _ hne]
    have hstar := idxOf?_eq_none_iff.2 hxs.1
    have hcolon := idxOf?_eq_none_iff.2 hxs.2
    unfold isBold
    unfold idxOf? at *
    simp only [drop_succ_cons, drop_zero, findIdx?_append, hstar, hcolon]
    cases hstar : rest.findIdx? (· == '*') with
    | none => rfl
    | some star =>
      have hmem : '*' ∈ rest := isSome_idxOf?.1 (Option.isSome_iff_exists.2 ⟨star, hstar⟩)
      rw [← cons_append, hlast hmem, ← singleton_append (l := rest), hlast hmem]
      cases hcolon : rest.findIdx? (· == ':') with
      | none => rfl
      | some colon => simp
  rw [hbehind hname, hbehind hname']

end Piece

open Piece

/-- The name of the keyword on a line, if it is the line of one. -/
def keywordName? (line : List Char) : Option (List Char) :=
  let body := line.dropWhile isGap
  let name := (body.drop 1).takeWhile isNameChar
  if body.head? = some '*' ∧ name ≠ [] ∧ isBold body = false then some name else none

/-- The kind of the first token of a text. -/
def textKind : List Char → Token.Kind
  | '{' :: rest => if (splitBraces rest).isSome then .interpolationStart else .invalid
  | _ => .text

/-- The kind of the first token of a line. -/
def firstKind (line : List Char) : Token.Kind :=
  let body := line.dropWhile isGap
  if body.take 2 = ['-', '-'] then .commentStart
  else if body.take 2 = ['>', '>'] then .expressionStart
  else if (keywordName? line).isSome then .keywordStart
  else textKind body

theorem textKind_of_ne {c : Char} (hc : c ≠ '{') (rest : List Char) :
    textKind (c :: rest) = .text := by
  rw [textKind]
  rintro after heq
  exact hc (cons.inj heq).1

theorem ofText_eq_cons_textKind (h : cs ≠ []) :
    ∃ text pieces, ofText cs = token (textKind cs) text :: pieces := by
  cases cs with
  | nil => exact absurd rfl h
  | cons c rest =>
    rw [ofText]
    by_cases hc : c = '{'
    · subst hc
      rw [if_pos rfl, textKind]
      split
      · next hsplit =>
        rw [hsplit]
        exact ⟨_, _, rfl⟩
      · next hsplit =>
        rw [hsplit]
        exact ⟨_, _, rfl⟩
    · rw [if_neg hc, textKind_of_ne hc]
      exact ⟨_, _, rfl⟩

theorem textKind_append (h : ∀ c ∈ ws, isGap c) {body : List Char}
    (hne : body ≠ []) : textKind (body ++ ws) = textKind body := by
  cases body with
  | nil => exact absurd rfl hne
  | cons c rest =>
    by_cases hc : c = '{'
    · subst hc
      rw [cons_append, textKind, textKind, isSome_splitBraces_append h]
    · rw [cons_append, textKind_of_ne hc, textKind_of_ne hc]

/-- A character of a name is no white space and no mark. -/
theorem not_mem_of_isNameChar {name : List Char} (h : ∀ c ∈ name, isNameChar c)
    (hm : isNameChar m = false) : m ∉ name := by
  intro hmem
  have hname := h m hmem
  rw [hm] at hname
  cases hname

variable {line name : List Char}

theorem keywordName?_eq_some (h : keywordName? line = some name) :
    ∃ rest, line.dropWhile isGap = '*' :: (name ++ rest) ∧ name ≠ [] ∧
      (∀ c ∈ name, isNameChar c) ∧ rest.head?.all (!isNameChar ·) ∧
      isBold ('*' :: (name ++ rest)) = false := by
  unfold keywordName? at h
  dsimp only at h
  split at h
  · next hline =>
    obtain ⟨hstar, hname, hbold⟩ := hline
    cases hbody : line.dropWhile isGap with
    | nil =>
      rw [hbody] at hstar
      cases hstar
    | cons c after =>
      rw [hbody] at hstar hname hbold h
      obtain rfl : c = '*' := Option.some.inj hstar
      obtain rfl := Option.some.inj h
      rw [drop_succ_cons, drop_zero] at hname ⊢
      refine ⟨after.dropWhile isNameChar, ?_, hname, all_eq_true.1 all_takeWhile, ?_, ?_⟩
      · rw [takeWhile_append_dropWhile]
      · have hhead := head?_dropWhile_not isNameChar after
        cases hafter : (after.dropWhile isNameChar).head? with
        | none => rfl
        | some d =>
          rw [hafter] at hhead
          simpa using hhead
      · rwa [takeWhile_append_dropWhile]
  · cases h

theorem takeWhile_name {name rest : List Char} (hname : ∀ c ∈ name, isNameChar c)
    (hrest : rest.head?.all (!isNameChar ·)) : (name ++ rest).takeWhile isNameChar = name := by
  rw [takeWhile_append_of_pos hname]
  cases rest with
  | nil => simp
  | cons c rest =>
    have hc : isNameChar c = false := by simpa using hrest
    rw [takeWhile_cons_of_neg (by simp [hc]), append_nil]

theorem keywordName?_of_parts {margin name rest : List Char} (hmargin : ∀ c ∈ margin, isGap c)
    (hne : name ≠ []) (hname : ∀ c ∈ name, isNameChar c)
    (hrest : rest.head?.all (!isNameChar ·)) (hbold : isBold ('*' :: (name ++ rest)) = false) :
    keywordName? (margin ++ '*' :: (name ++ rest)) = some name := by
  have hbody : (margin ++ '*' :: (name ++ rest)).dropWhile isGap = '*' :: (name ++ rest) := by
    rw [dropWhile_append_of_pos hmargin]
    rfl
  unfold keywordName?
  dsimp only
  rw [hbody, drop_succ_cons, drop_zero, takeWhile_name hname hrest, if_pos ⟨rfl, hne, hbold⟩]

/-- The line with the name of its keyword in lower case. -/
def lowerName (line : List Char) : List Char :=
  match keywordName? line with
  | none => line
  | some name =>
    line.takeWhile isGap ++ '*' :: ((lower (String.ofList name)).toList ++
      (line.dropWhile isGap).drop (1 + name.length))

/-- A known word is written in lower case, with the characters of names. -/
theorem lower_of_isKnown {word : String} (h : Vocabulary.isKnown word) :
    lower word = word ∧ word.toList ≠ [] ∧ ∀ c ∈ word.toList, isNameChar c := by
  have hwords : ∀ w ∈ Vocabulary.keywords ++ Vocabulary.subKeywords,
      lower w = w ∧ w.toList ≠ [] ∧ w.toList.all isNameChar := by
    decide +kernel
  rw [← all_eq_true]
  refine hwords word ?_
  simpa [Vocabulary.isKnown, Vocabulary.isKeyword, Vocabulary.isSubKeyword] using h

/-- What two lines have in common that differ in white space at the end and in the case of a
name. -/
structure Tidies (line line' : List Char) : Prop where
  blank : allBlank line' = allBlank line
  margin : allBlank line = false → line'.takeWhile isGap = line.takeWhile isGap
  directive : Directive.ofLine? line' = Directive.ofLine? line
  name : (keywordName? line').map (lower ∘ String.ofList) =
    (keywordName? line).map (lower ∘ String.ofList)
  first : allBlank line = false → firstKind line' = firstKind line

namespace Tidies

theorem refl (line : List Char) : Tidies line line :=
  ⟨rfl, fun _ => rfl, rfl, rfl, fun _ => rfl⟩

theorem trans {line line' line'' : List Char} (h : Tidies line line') (h' : Tidies line' line'') :
    Tidies line line'' where
  blank := h'.blank.trans h.blank
  margin hblank := (h'.margin (h.blank.trans hblank)).trans (h.margin hblank)
  directive := h'.directive.trans h.directive
  name := h'.name.trans h.name
  first hblank := (h'.first (h.blank.trans hblank)).trans (h.first hblank)

/-- The names on the two lines. -/
theorem exists_name {line line' name : List Char} (h : Tidies line line')
    (hname : keywordName? line = some name) :
    ∃ name', keywordName? line' = some name' ∧
    lower (String.ofList name') = lower (String.ofList name) := by
  have hnames := h.name
  rwa [hname, Option.map_some, Option.map_eq_some_iff] at hnames

end Tidies

theorem dropWhile_ne_nil_of_not_allBlank (h : allBlank line = false) :
    line.dropWhile isGap ≠ [] := by
  rw [dropWhile_isGap]
  exact rest_ne_nil_of_not_allBlank h

theorem keywordName?_append (h : ∀ c ∈ ws, isGap c) (line : List Char) :
    keywordName? (line ++ ws) = keywordName? line := by
  unfold keywordName?
  dsimp only
  rcases dropWhile_append_cases h line with ⟨hnil, hnil'⟩ | ⟨hne, hbody, -⟩
  · rw [hnil, hnil']
  · rw [hbody, isBold_append h hne]
    cases hfirst : line.dropWhile isGap with
    | nil => exact absurd hfirst hne
    | cons c body =>
      have hname : (body ++ ws).takeWhile isNameChar = body.takeWhile isNameChar := by
        have hws : ws.takeWhile isNameChar = [] := by
          cases ws with
          | nil => rfl
          | cons d ws =>
            refine takeWhile_cons_of_neg ?_
            have hgap := h d mem_cons_self
            rcases (by simpa [isGap] using hgap : d = ' ' ∨ d = '\t') with rfl | rfl <;>
              decide
        rw [takeWhile_append]
        split
        · next hlength =>
          rw [hws, append_nil]
          exact ((List.takeWhile_prefix isNameChar).eq_of_length hlength).symm
        · rfl
      rw [cons_append, drop_succ_cons, drop_zero, hname]
      rfl

/-- White space at the end of a line is no part of what it says. -/
theorem tidies_append (h : ∀ c ∈ ws, isGap c) (line : List Char) : Tidies (line ++ ws) line := by
  have hname := keywordName?_append h line
  have hblank : allBlank line = allBlank (line ++ ws) := by
    have hws : ws.all isBlank = true :=
      all_eq_true.2 fun c hc => isBlank_of_isGap c (h c hc)
    rw [allBlank, allBlank, all_append, hws, Bool.and_true]
  refine ⟨hblank, fun hwritten => ?_, (Directive.ofLine?_append h line).symm, by rw [hname],
    fun hwritten => ?_⟩
  · rcases dropWhile_append_cases h line with ⟨hnil, -⟩ | ⟨-, -, hmargin⟩
    · exact absurd hnil (dropWhile_ne_nil_of_not_allBlank (hblank.trans hwritten))
    · exact hmargin.symm
  · rcases dropWhile_append_cases h line with ⟨hnil, -⟩ | ⟨hne, hbody, -⟩
    · exact absurd hnil (dropWhile_ne_nil_of_not_allBlank (hblank.trans hwritten))
    · unfold firstKind
      dsimp only
      rw [hbody, hname, textKind_append h hne]
      simp only [take_two_append h (m := '-') rfl, take_two_append h (m := '>') rfl]

section Starred

variable {margin : List Char} (hmargin : ∀ c ∈ margin, isGap c) (rest : List Char)

include hmargin

theorem margin_starred :
    (margin ++ '*' :: rest).takeWhile isGap = margin ∧
      (margin ++ '*' :: rest).dropWhile isGap = '*' :: rest := by
  rw [takeWhile_append_of_pos hmargin, dropWhile_append_of_pos hmargin]
  exact ⟨append_nil margin, rfl⟩

omit hmargin in
theorem allBlank_starred : allBlank (margin ++ '*' :: rest) = false := by
  rw [allBlank, all_append]
  simp [isBlank]

theorem ofLine?_starred : Directive.ofLine? (margin ++ '*' :: rest) = none := by
  have hbody : trimStart (margin ++ '*' :: rest) = '*' :: rest := by
    rw [trimStart, dropWhile_append_of_pos fun c hc => isBlank_of_isGap c (hmargin c hc)]
    rfl
  rw [Directive.ofLine?, Directive.commentOf_eq, hbody]
  rfl

end Starred

/-- The parts of the line of a keyword, and of the line with its name in lower case. -/
theorem lowerName_eq (h : keywordName? line = some name) :
    ∃ rest, line = line.takeWhile isGap ++ '*' :: (name ++ rest) ∧
      lowerName line = line.takeWhile isGap ++
        '*' :: ((lower (String.ofList name)).toList ++ rest) ∧
      rest.head?.all (!isNameChar ·) ∧ isBold ('*' :: (name ++ rest)) = false := by
  obtain ⟨rest, hbody, -, -, hrest, hbold⟩ := keywordName?_eq_some h
  refine ⟨rest, by rw [← hbody, takeWhile_append_dropWhile], ?_, hrest, hbold⟩
  have hdrop : ('*' :: (name ++ rest)).drop (1 + name.length) = rest := by
    rw [Nat.add_comm, drop_succ_cons, drop_left]
  unfold lowerName
  rw [h]
  dsimp only
  rw [hbody, hdrop]

/-- The lower-case form of a name that is known is the name on the changed line. -/
theorem keywordName?_lowerName (h : keywordName? line = some name)
    (hknown : Vocabulary.isKnown (lower (String.ofList name))) :
    keywordName? (lowerName line) = some (lower (String.ofList name)).toList := by
  obtain ⟨-, -, -, hname, -, -⟩ := keywordName?_eq_some h
  obtain ⟨-, hne', hname'⟩ := lower_of_isKnown hknown
  obtain ⟨rest, -, hlowered, hrest, hbold⟩ := lowerName_eq h
  rw [hlowered]
  refine keywordName?_of_parts (all_eq_true.1 all_takeWhile) hne' hname' hrest ?_
  rw [← hbold]
  exact isBold_name ⟨not_mem_of_isNameChar hname rfl, not_mem_of_isNameChar hname rfl⟩
    ⟨not_mem_of_isNameChar hname' rfl, not_mem_of_isNameChar hname' rfl⟩ rest

/-- The name of a known keyword may be written in lower case. -/
theorem tidies_lowerName (h : keywordName? line = some name)
    (hknown : Vocabulary.isKnown (lower (String.ofList name))) : Tidies line (lowerName line) := by
  have hlower := (lower_of_isKnown hknown).1
  have hname := keywordName?_lowerName h hknown
  obtain ⟨rest, hline, hlowered, -, -⟩ := lowerName_eq h
  have hmargin : ∀ c ∈ line.takeWhile isGap, isGap c := all_eq_true.1 all_takeWhile
  have hkeyword : ∀ {other xs : List Char}, other = line.takeWhile isGap ++ '*' :: xs →
      (keywordName? other).isSome → allBlank other = false ∧
        other.takeWhile isGap = line.takeWhile isGap ∧
        Directive.ofLine? other = none ∧ firstKind other = .keywordStart := by
    rintro other xs rfl hsome
    obtain ⟨htake, hdrop⟩ := margin_starred hmargin xs
    refine ⟨allBlank_starred xs, htake, ofLine?_starred hmargin xs, ?_⟩
    unfold firstKind
    rw [hdrop, if_neg (by simp), if_neg (by simp), if_pos hsome]
  obtain ⟨hblank, -, hdirective, hfirst⟩ := hkeyword hline (by rw [h]; rfl)
  obtain ⟨hblank', hmargin', hdirective', hfirst'⟩ := hkeyword hlowered (by rw [hname]; rfl)
  refine ⟨by rw [hblank, hblank'], fun _ => hmargin', by rw [hdirective, hdirective'], ?_,
    fun _ => by rw [hfirst, hfirst']⟩
  rw [h, hname]
  simp [hlower]

theorem tabCount_margin (line : List Char) : tabCount (line.takeWhile isGap) = tabCount line := by
  unfold tabCount
  rw [takeWhile_takeWhile]
  congr 2
  funext c
  by_cases hc : c = '\t' <;> simp [isGap, hc]

theorem Tidies.tabCount {line line' : List Char} (h : Tidies line line')
    (hwritten : allBlank line = false) : Piece.tabCount line' = Piece.tabCount line := by
  rw [← tabCount_margin line, ← tabCount_margin line', h.margin hwritten]

/-- The line of a keyword, seen from its name. -/
theorem keywordLine?_of_name (p : Position) (h : keywordName? line = some name) :
    ∃ k, keywordLine? p line = some k ∧ k.name = name ∧
      k.isSub = (0 < tabCount line && Vocabulary.isSubKeyword (lower (String.ofList name))) := by
  unfold keywordName? at h
  unfold keywordLine?
  dsimp only at h ⊢
  split at h
  · next hline =>
    obtain rfl := Option.some.inj h
    rw [if_pos hline]
    exact ⟨_, rfl, rfl, rfl⟩
  · cases h

theorem keywordLine?_eq_none {p : Position} (h : keywordName? line = none) :
    keywordLine? p line = none := by
  unfold keywordName? at h
  unfold keywordLine?
  dsimp only at h ⊢
  split at h
  · cases h
  · next hline => rw [if_neg hline]

theorem ofContent_eq_cons_firstKind (indented : Bool)
    (h : line.dropWhile isGap ≠ []) :
    ∃ text pieces, ofContent indented (line.dropWhile isGap) =
      token (firstKind line) text :: pieces := by
  have hname : (keywordName? line).isSome ↔ (line.dropWhile isGap).head? = some '*' ∧
      ((line.dropWhile isGap).drop 1).takeWhile isNameChar ≠ [] ∧
      isBold (line.dropWhile isGap) = false := by
    unfold keywordName?
    dsimp only
    split
    · next hline => exact iff_of_true rfl hline
    · next hline => exact iff_of_false (by simp) hline
  unfold firstKind
  generalize line.dropWhile isGap = body at h hname
  unfold ofContent
  split
  · exact ⟨_, _, rfl⟩
  · exact ⟨_, _, rfl⟩
  · next rest =>
    unfold ofKeywordLine
    dsimp only
    have hplain : (((('*' :: rest).drop 1).takeWhile isNameChar).isEmpty ||
        isBold ('*' :: rest)) = !(keywordName? line).isSome := by
      rw [Bool.eq_iff_iff, Bool.not_eq_true', ← Bool.not_eq_true, hname,
        Bool.or_eq_true, List.isEmpty_iff]
      simp only [head?_cons, true_and, not_and, Bool.not_eq_false]
      exact or_iff_not_imp_left
    rw [hplain]
    cases (keywordName? line).isSome with
    | false => exact ofText_eq_cons_textKind h
    | true => exact ⟨_, _, rfl⟩
  · next hcomment hexpression hstar =>
    have hhead : body.head? ≠ some '*' := by
      intro hhead
      obtain ⟨rest, rfl⟩ := head?_eq_some_iff.1 hhead
      exact hstar rest rfl
    rw [if_neg fun htake => hcomment _ (eq_cons_cons_of_take htake),
      if_neg fun htake => hexpression _ (eq_cons_cons_of_take htake),
      if_neg fun hsome => hhead (hname.1 hsome).1]
    exact ofText_eq_cons_textKind h

theorem Row.Holds.first_kind {r : Row} {p : Position} (h : r.Holds p line)
    (hwritten : allBlank line = false) : r.first.kind = firstKind line := by
  obtain ⟨text, pieces, hpieces⟩ :=
    ofContent_eq_cons_firstKind (0 < tabCount line) (dropWhile_ne_nil_of_not_allBlank hwritten)
  have hplace := h.place_body
  rw [hpieces] at hplace
  rw [(cons.inj hplace).1]

theorem isSome_keywordName? (h : firstKind line = .keywordStart) :
    (keywordName? line).isSome := by
  unfold firstKind at h
  dsimp only at h
  split at h
  · cases h
  · split at h
    · cases h
    · split at h
      · assumption
      · unfold textKind at h
        split at h
        · split at h <;> cases h
        · cases h

/-- The rows of two lines that say the same begin alike. -/
theorem Tidies.alike {line line' : List Char} (h : Tidies line line') {r r' : Row} {p p' : Position}
    (hwritten : allBlank line = false) (hr : r.Holds p line) (hr' : r'.Holds p' line') :
    r.Alike r' := by
  have hkind : r'.first.kind = r.first.kind := by
    rw [hr.first_kind hwritten, hr'.first_kind (h.blank.trans hwritten), h.first hwritten]
  refine ⟨hr.fills, hr'.fills, hkind, fun hstart => ?_⟩
  obtain ⟨name, hname⟩ := Option.isSome_iff_exists.1
    (isSome_keywordName? ((hr.first_kind hwritten).symm.trans hstart))
  obtain ⟨name', hname', hlower⟩ := h.exists_name hname
  obtain ⟨k, hk, -, hsub⟩ := keywordLine?_of_name p hname
  obtain ⟨k', hk', -, hsub'⟩ := keywordLine?_of_name p' hname'
  obtain ⟨_, -, -, -, hmore⟩ := hr.keyword hk
  obtain ⟨_, -, -, -, hmore'⟩ := hr'.keyword hk'
  have hsame : k'.isSub = k.isSub := by rw [hsub, hsub', h.tabCount hwritten, hlower]
  rw [hmore, hmore', hsame]
  rfl

end ScriptLint

import ScriptLint.Token.Expression
import ScriptLint.Text.Lowercase

/-!
# Pieces of a line

What stands on a line after its indentation decides how it is read: two hyphens begin a comment, two
angle brackets an expression, an asterisk a keyword, and anything else is text.  Text and the
argument of a keyword may hold expressions between braces.

A line that begins with an asterisk is bold text, and no keyword, when another asterisk comes before
its first colon or ends it.
-/

namespace ScriptLint
namespace Piece

/-- Cuts the text after an opening brace at the brace that closes it.  Braces inside are counted
and quoted strings are skipped; `depth` inner braces are open, and `quote` is the open quote. -/
def splitAtClosing (depth : Nat) (quote : Option Char) :
    List Char → Option (List Char × List Char)
  | [] => none
  | c :: rest =>
    let keep := fun (parts : List Char × List Char) => (c :: parts.1, parts.2)
    match quote with
    | some q => (splitAtClosing depth (if c = q then none else some q) rest).map keep
    | none =>
      if isQuote c then (splitAtClosing depth (some c) rest).map keep
      else if c = '{' then (splitAtClosing (depth + 1) none rest).map keep
      else if c = '}' then
        match depth with
        | 0 => some ([], rest)
        | depth + 1 => (splitAtClosing depth none rest).map keep
      else (splitAtClosing depth none rest).map keep

/-- The inside of a brace whose opening is already read, and what follows the closing. -/
def splitBraces (cs : List Char) : Option (List Char × List Char) :=
  splitAtClosing 0 none cs

/-- A character is the closing brace, or it is kept and the search goes on behind it. -/
theorem splitAtClosing_cons (depth : Nat) (quote : Option Char) (c : Char) :
    (c = '}' ∧ ∀ rest, splitAtClosing depth quote (c :: rest) = some ([], rest)) ∨
    ∃ depth' quote', ((∀ q ∈ quote, isQuote q) → ∀ q ∈ quote', isQuote q) ∧
      ∀ rest, splitAtClosing depth quote (c :: rest) =
        (splitAtClosing depth' quote' rest).map fun parts => (c :: parts.1, parts.2) := by
  cases quote with
  | some q =>
    refine .inr ⟨depth, if c = q then none else some q, fun hquote => ?_, fun _ => rfl⟩
    split
    · exact nofun
    · exact hquote
  | none =>
    by_cases hquote : isQuote c
    · exact .inr ⟨depth, some c, by simp [hquote], fun _ => by simp [splitAtClosing, hquote]⟩
    by_cases hopen : c = '{'
    · exact .inr ⟨depth + 1, none, nofun, by subst hopen; exact fun _ => rfl⟩
    by_cases hclose : c = '}'
    · subst hclose
      cases depth with
      | zero => exact .inl ⟨rfl, fun _ => rfl⟩
      | succ depth => exact .inr ⟨depth, none, nofun, fun _ => rfl⟩
    · exact .inr ⟨depth, none, nofun, fun _ => by simp [splitAtClosing, hquote, hopen, hclose]⟩

theorem splitAtClosing_eq_some {depth : Nat} {quote : Option Char} {cs xs ys : List Char}
    (h : splitAtClosing depth quote cs = some (xs, ys)) : cs = xs ++ '}' :: ys := by
  induction cs generalizing depth quote xs with
  | nil => simp [splitAtClosing] at h
  | cons c rest ih =>
    rcases splitAtClosing_cons depth quote c with ⟨rfl, hfound⟩ | ⟨depth', quote', -, hkept⟩
    · cases (hfound rest).symm.trans h
      rfl
    · obtain ⟨⟨l, r⟩, hsplit, heq⟩ := Option.map_eq_some_iff.1 ((hkept rest).symm.trans h)
      cases heq
      rw [ih hsplit]
      rfl

/-- The closing brace stands in the first part of a text, or is looked for from the state behind
it. -/
theorem splitAtClosing_append (depth : Nat) (quote : Option Char) (hquote : ∀ q ∈ quote, isQuote q)
    (a : List Char) :
    (∃ inner after, a = inner ++ '}' :: after ∧
      ∀ u, splitAtClosing depth quote (a ++ u) = some (inner, after ++ u)) ∨
    ∃ depth' quote', (∀ q ∈ quote', isQuote q) ∧ ∀ u, splitAtClosing depth quote (a ++ u) =
      (splitAtClosing depth' quote' u).map fun parts => (a ++ parts.1, parts.2) := by
  induction a generalizing depth quote with
  | nil => exact .inr ⟨depth, quote, hquote, fun _ => Option.map_id'.symm⟩
  | cons c a ih =>
    rcases splitAtClosing_cons depth quote c with ⟨rfl, hfound⟩ | ⟨d, q, hq, hkept⟩
    · exact .inl ⟨[], a, rfl, fun u => hfound (a ++ u)⟩
    · rcases ih d q (hq hquote) with ⟨inner, after, rfl, hfound⟩ | ⟨d', q', hq', hlater⟩
      · refine .inl ⟨c :: inner, after, rfl, fun u => ?_⟩
        rw [List.cons_append, hkept, hfound]
        rfl
      · refine .inr ⟨d', q', hq', fun u => ?_⟩
        rw [List.cons_append, hkept, hlater, Option.map_map]
        rfl

theorem splitBraces_eq_some {cs xs ys : List Char} (h : splitBraces cs = some (xs, ys)) :
    cs = xs ++ '}' :: ys :=
  splitAtClosing_eq_some h

/-- The pieces of text with expressions between braces.  A brace that is not closed makes the rest
of the line invalid. -/
def ofText : List Char → List Piece
  | [] => []
  | c :: rest =>
    if c = '{' then
      match _h : splitBraces rest with
      | some (inner, after) =>
        token .interpolationStart ['{'] ::
          (ofExpression false inner ++ token .interpolationEnd ['}'] :: ofText after)
      | none => [token .invalid (c :: rest)]
    else
      token .text (c :: rest.takeWhile (· ≠ '{')) :: ofText (rest.dropWhile (· ≠ '{'))
termination_by cs => cs.length
decreasing_by
  · have := congrArg List.length (splitBraces_eq_some _h)
    simp only [List.length_append, List.length_cons] at this ⊢
    omega
  · have := (List.dropWhile_sublist (fun x => decide (x ≠ '{')) (l := rest)).length_le
    simp only [List.length_cons]
    omega

/-- A line that begins with an asterisk is bold text. -/
def isBold (line : List Char) : Bool :=
  let after := line.drop 1
  match after.idxOf? '*' with
  | none => false
  | some star =>
    (match after.idxOf? ':' with
      | none => true
      | some colon => star < colon) ||
    (Text.trimEnd line).getLast? == some '*'

/-- What follows the name of a keyword: a colon if there is one, and the argument. -/
def ofArgument (cs : List Char) : List Piece :=
  let before := cs.takeWhile Text.isGap
  match cs.dropWhile Text.isGap with
  | ':' :: rest =>
    gap before :: token .colon [':'] :: gap (rest.takeWhile Text.isGap) ::
      ofText (rest.dropWhile Text.isGap)
  | rest => gap before :: ofText rest

/-- The pieces of a line that begins with an asterisk. -/
def ofKeywordLine (indented : Bool) (line : List Char) : List Piece :=
  let name := (line.drop 1).takeWhile Text.isNameChar
  if name.isEmpty || isBold line then
    ofText line
  else
    let sub := indented && Vocabulary.isSubKeyword (Text.lower (String.ofList name))
    token .keywordStart ['*'] :: token (if sub then .subKeyword else .keyword) name ::
      ofArgument (line.drop (1 + name.length))

/-- The pieces of what a line holds after its indentation. -/
def ofContent (indented : Bool) (cs : List Char) : List Piece :=
  match cs with
  | '-' :: '-' :: rest => ofComment rest
  | '>' :: '>' :: rest => token .expressionStart ['>', '>'] :: ofExpression true rest
  | '*' :: _ => ofKeywordLine indented cs
  | _ => ofText cs

end Piece
end ScriptLint

import ScriptLint.Proofs.RetoldLines

/-!
# The same text at another place

A source may be told again in the same words at other places: lines keep their texts, and only
positions change. Whatever the relation between the positions is, the tokens are the same and stand
at corresponding positions.

**Results.**
* `forall₂_place`, `forall₂_braceRegions`: tokens of a text at two places, and the insides of its
  braces.
* `Text.fills_filledText`: a text and the same text with spaces for the white space in its braces.
* `Moving.retelling`, `Moving.lines_same`: a source whose lines are moved is told again.
* `Moving.parse_moved`: its program, and the faults that are found in it.
-/

namespace ScriptLint

open List Text

open Piece

variable {pieces : List Piece}

namespace Text

/-- The second text is the first one, with spaces for some of its white space. -/
def Fills (u v : List Char) : Prop :=
  Forall₂ (fun c d => d = c ∨ isGap c ∧ d = ' ') u v

namespace Fills

variable {u v w : List Char}

theorem refl (u : List Char) : Fills u u :=
  forall₂_same.2 fun _ _ => .inl rfl

theorem trans (h : Fills u v) (h' : Fills v w) : Fills u w := by
  induction h generalizing w with
  | nil => exact h'
  | @cons c d u v hcd _ ih =>
    cases h' with
    | @cons _ e _ w hde hrest =>
      refine .cons ?_ (ih hrest)
      rcases hde with rfl | ⟨hd, rfl⟩
      · exact hcd
      · rcases hcd with rfl | ⟨hc, -⟩
        · exact .inr ⟨hd, rfl⟩
        · exact .inr ⟨hc, rfl⟩

theorem append {u' v' : List Char} (h : Fills u v) (h' : Fills u' v') : Fills (u ++ u') (v ++ v') :=
  rel_append h h'

/-- The characters have the same widths. -/
theorem widths (h : Fills u v) : v.map Char.utf8Size = u.map Char.utf8Size := by
  induction h with
  | nil => rfl
  | cons hcd _ ih =>
    rw [map_cons, map_cons, ih]
    rcases hcd with rfl | ⟨hc, rfl⟩
    · rfl
    · rw [utf8Size_of_isGap hc]
      rfl

theorem isLineEnd (h : Fills u v) (hu : OneLine u) : OneLine v := by
  induction h with
  | nil => exact hu
  | cons hcd _ ih =>
    obtain ⟨hfirst, hrest⟩ := forall_mem_cons.1 hu
    refine forall_mem_cons.2 ⟨?_, ih hrest⟩
    rcases hcd with rfl | ⟨-, rfl⟩
    · exact hfirst
    · rfl

/-- A text without spaces is written as it is read. -/
theorem eq_of_not_mem (h : Fills u v) (hv : ' ' ∉ v) : u = v := by
  induction h with
  | nil => rfl
  | cons hcd _ ih =>
    rcases hcd with rfl | ⟨-, rfl⟩
    · rw [ih fun hmem => hv (mem_cons_of_mem _ hmem)]
    · exact absurd mem_cons_self hv

/-- What the parts of the second text fill. -/
theorem of_append {xs ys : List Char} (h : Fills u (xs ++ ys)) :
    ∃ us vs, u = us ++ vs ∧ Fills us xs ∧ Fills vs ys := by
  have htake := forall₂_take xs.length h
  have hdrop := forall₂_drop xs.length h
  rw [take_left] at htake
  rw [drop_left] at hdrop
  exact ⟨_, _, (take_append_drop xs.length u).symm, htake, hdrop⟩

end Fills

theorem fills_replicate {cs : List Char} (h : ∀ c ∈ cs, isGap c) :
    Fills cs (replicate cs.length ' ') := by
  induction cs with
  | nil => exact .nil
  | cons c cs ih =>
    obtain ⟨hfirst, hrest⟩ := forall_mem_cons.1 h
    exact .cons (.inr ⟨hfirst, rfl⟩) (ih hrest)

/-- Pieces that are put together again. -/
theorem fills_flatMap_filled (h : ∀ piece ∈ pieces, piece.isInline) :
    Fills (join pieces) (pieces.flatMap filled) := by
  induction pieces with
  | nil => exact .nil
  | cons piece pieces ih =>
    obtain ⟨hfirst, hrest⟩ := forall_mem_cons.1 h
    refine Fills.append ?_ (ih hrest)
    cases piece with
    | mark => exact .refl _
    | token kind text => exact .refl _
    | gap text => exact fills_replicate (all_eq_true.1 hfirst)

/-- A text whose tokens are put together again. -/
theorem fills_filledText (u : List Char) : Fills u (filledText u) := by
  have hfills := fills_flatMap_filled fun piece (hpiece : piece ∈ ofText u) =>
    isInline_of_mem_ofText hpiece
  rwa [join_ofText] at hfills

end Text

section Places

variable {p p' : Position}

/-- Tokens of the same pieces at two places. -/
theorem forall₂_place {R : Token → Token → Prop} (hinline : ∀ piece ∈ pieces, piece.isInline)
    (h : ∀ xs kind cs ys, pieces = xs ++ token kind cs :: ys →
      R ⟨kind, String.ofList cs, ⟨p.advance (join xs), p.advance (join xs ++ cs)⟩⟩
        ⟨kind, String.ofList cs, ⟨p'.advance (join xs), p'.advance (join xs ++ cs)⟩⟩) :
    Forall₂ R (place p pieces) (place p' pieces) := by
  induction pieces generalizing p p' with
  | nil => exact .nil
  | cons piece pieces ih =>
    obtain ⟨hfirst, hrest⟩ := forall_mem_cons.1 hinline
    have hlater : Forall₂ R (place (p.advance piece.text) pieces)
        (place (p'.advance piece.text) pieces) := by
      refine ih hrest fun xs kind cs ys heq => ?_
      have hpiece := h (piece :: xs) kind cs ys (by rw [heq, cons_append])
      rw [join_cons] at hpiece
      simpa only [Position.advance_advance, append_assoc] using hpiece
    cases piece with
    | mark => cases hfirst
    | gap text => exact hlater
    | token kind text =>
      have hkind := Piece.ne_newline_of_isInline hfirst
      rw [Piece.place_token hkind, Piece.place_token hkind]
      exact .cons (h [] kind text pieces rfl) hlater

/-- The insides of the braces of the same text at two places. -/
theorem forall₂_braceRegions (p p' : Position) (u : List Char) :
    Forall₂ (fun r r' => ∃ xs ys, u = xs ++ r.2 ++ ys ∧ r.1 = p.advance xs ∧
      r' = (p'.advance xs, r.2)) (Parser.braceRegions p u) (Parser.braceRegions p' u) := by
  fun_induction Parser.braceRegions p u generalizing p' with
  | case1 p u hdrop =>
    rw [Parser.braceRegions.eq_def]
    split
    · exact .nil
    · next hcons =>
      rw [hdrop] at hcons
      cases hcons
  | case2 p u brace rest hdrop hsplit =>
    rw [Parser.braceRegions.eq_def]
    split
    · exact .nil
    · next hcons =>
      obtain ⟨rfl, rfl⟩ := cons.inj (hdrop.symm.trans hcons)
      split
      · exact .nil
      · next hsome =>
        rw [hsplit] at hsome
        cases hsome
  | case3 p u brace rest hdrop region after hsplit anchor ih =>
    have hu := (Piece.eq_of_splitBraces hdrop hsplit).2
    rw [Parser.braceRegions.eq_def p' u]
    split
    · next hnil =>
      rw [hdrop] at hnil
      cases hnil
    · next brace' rest' hcons =>
      obtain ⟨rfl, rfl⟩ := cons.inj (hdrop.symm.trans hcons)
      split
      · next hnone =>
        rw [hsplit] at hnone
        cases hnone
      · next region' after' hsome =>
        obtain ⟨rfl, rfl⟩ := Prod.mk.inj (Option.some.inj (hsplit.symm.trans hsome))
        refine .cons ⟨u.takeWhile (· ≠ '{') ++ [brace], '}' :: after, ?_, ?_, ?_⟩ ?_
        · conv_lhs => rw [hu]
          simp
        · exact Position.advance_advance _ _ _
        · rw [Position.advance_advance]
        · refine (ih _).imp ?_
          rintro r r' ⟨xs, ys, hafter, hr, hr'⟩
          refine ⟨u.takeWhile (· ≠ '{') ++ [brace] ++ region ++ ['}'] ++ xs, ys, ?_, ?_, ?_⟩
          · conv_lhs => rw [hu, hafter]
            simp
          · rw [hr]
            simp [anchor]
          · rw [hr']
            simp

end Places

/-- What corresponds in a source and in the same source at other places: the places, and the
spans. -/
structure Moving where
  /-- Two places correspond. -/
  near : Position → Position → Prop
  /-- What is known of a span of the first source. -/
  span : Span → Span
  /-- What is known of a span of the second source. -/
  span' : Span → Span
  /-- What is known of the name of a keyword of the first source. -/
  keyword : String → String
  near_stop : ∀ {p p' q q'}, p.line = q.line → near p p' → near q q' →
    near (Span.between p q).stop (Span.between p' q').stop
  span_eq : ∀ {s s' : Span}, near s.start s'.start → near s.stop s'.stop → span s = span' s'
  between_eq : ∀ {p p' q q'}, near p p' → near q q' →
    span (Span.between p q) = span' (Span.between p' q')

namespace Moving

variable (M : Moving)

/-- The places in a text that stands at two places correspond. -/
def Along (p p' : Position) (u : List Char) : Prop :=
  ∀ xs ys, u = xs ++ ys → M.near (p.advance xs) (p'.advance xs)

/-- The same text stands at two places of corresponding lines. -/
structure SameText (p : Position) (u : List Char) (p' : Position) (u' : List Char) : Prop where
  same : u' = u
  inline : OneLine u
  along : M.Along p p' u

/-- The same token stands at two places of corresponding lines. -/
structure Tokens (t t' : Token) : Prop where
  kind : t'.kind = t.kind
  told : M.SameText t.span.start t.text.toList t'.span.start t'.text.toList
  stop : t.span.stop = t.span.start.advance t.text.toList
  stop' : t'.span.stop = t'.span.start.advance t'.text.toList

variable {M} {p p' : Position} {u u' : List Char}

theorem Along.within (h : M.Along p p' u) (xs v ys : List Char) (hu : u = xs ++ v ++ ys) :
    M.Along (p.advance xs) (p'.advance xs) v := by
  intro vs ws hv
  rw [Position.advance_advance, Position.advance_advance]
  exact h (xs ++ vs) (ws ++ ys) (by rw [hu, hv]; simp)

theorem Along.stop (h : M.Along p p' u) : M.near (p.advance u) (p'.advance u) :=
  h u [] (append_nil u).symm

theorem Along.start (h : M.Along p p' u) : M.near p p' := by
  have hstart := h [] u rfl
  rwa [Position.advance_nil] at hstart

theorem Along.fills {v : List Char} (h : M.Along p p' u) (hfills : Fills u v) : M.Along p p' v := by
  rintro xs ys rfl
  obtain ⟨us, vs, rfl, hus, -⟩ := hfills.of_append
  rw [Position.advance_eq_of_widths_eq hus.widths, Position.advance_eq_of_widths_eq hus.widths]
  exact h us vs rfl

theorem SameText.within (h : M.SameText p u p' u') (xs v ys : List Char) (hu : u = xs ++ v ++ ys) :
    M.SameText (p.advance xs) v (p'.advance xs) v :=
  ⟨rfl, fun c hc => h.inline c (by rw [hu]; simp [hc]), h.along.within xs v ys hu⟩

/-- The same pieces give the same tokens at two places. -/
theorem forall₂_tokens (hinline : ∀ piece ∈ pieces, piece.isInline)
    (h : M.SameText p (join pieces) p' (join pieces)) :
    Forall₂ M.Tokens (place p pieces) (place p' pieces) := by
  refine forall₂_place hinline fun xs kind cs ys heq => ?_
  have hjoin : join pieces = join xs ++ cs ++ join ys := by
    rw [heq, join_append, join_cons, text_token, append_assoc]
  refine ⟨rfl, ?_, ?_, ?_⟩
  · rw [String.toList_ofList]
    exact h.within _ _ _ hjoin
  · rw [String.toList_ofList, Position.advance_advance]
  · rw [String.toList_ofList, Position.advance_advance]

/-- A source that is moved is told again; nothing is told in another word. -/
def retelling (M : Moving) : Retelling where
  before := { span := M.span, keyword := M.keyword }
  after := { span := M.span' }
  near := M.near
  token := M.Tokens
  load _ := 0
  told := M.SameText
  textLoad _ _ := 0
  heft _ _ := 0
  near_stop := M.near_stop
  span_eq := M.span_eq
  between_eq := M.between_eq
  kind h := h.kind
  near_start h := h.told.along.start
  near_end := by
    intro t t' h
    rw [h.stop, h.stop', h.told.same]
    exact h.told.along.stop
  same h _ := String.toList_inj.1 h.told.same
  fixed h _ := String.toList_inj.1 h.told.same
  identifier h _ := ⟨Nat.le_refl 0, fun _ => (String.toList_inj.1 h.told.same).symm⟩
  string := by
    intro t t' h _
    have htext := String.toList_inj.1 h.told.same
    exact ⟨htext.symm, by rw [htext]⟩
  regions := by
    intro t t' h _
    refine ⟨?_, by simp⟩
    rw [h.told.same]
    refine (forall₂_braceRegions t.span.start t'.span.start t.text.toList).imp ?_
    rintro ⟨q, run⟩ r' ⟨xs, ys, hsplit, rfl, rfl⟩
    exact h.told.within xs run ys hsplit
  told_inline := by
    rintro p u p' u' ⟨rfl, hinline, -⟩
    exact ⟨hinline, hinline⟩
  told_blank h := by rw [h.same]
  told_stop := by
    rintro p u p' u' ⟨rfl, -, halong⟩
    exact halong.stop
  told_tokens := by
    intro p u p' u' h
    refine ⟨?_, by simp⟩
    rw [h.same]
    refine forall₂_tokens (fun _ => isInline_of_mem_ofExpression) ?_
    rw [join_ofExpression]
    exact ⟨rfl, h.inline, h.along⟩
  told_filled := by
    rintro p u p' u' ⟨rfl, hinline, halong⟩
    have hfills := fills_filledText u'
    exact ⟨⟨rfl, hfills.isLineEnd hinline, halong.fills hfills⟩, Nat.le_refl 0⟩

end Moving

section Keywords

variable {p p' : Position} {content rest : List Char} {k : KeywordLine}

/-- The argument of a keyword stands behind the name and what separates them. -/
theorem anchor_of_body (hk : keywordLine? p content = some k)
    (hbody : content.dropWhile isGap = '*' :: (k.name ++ rest)) :
    k.argument = argumentAfter rest ∧ k.nameStart = p.advance (content.takeWhile isGap ++ ['*']) ∧
      ∃ xs, rest = xs ++ k.argument ∧ k.anchor = k.nameSpan.stop.advance xs := by
  obtain ⟨rest', hbody', -, hstart, hargument, -⟩ := keywordLine?_eq_some hk
  obtain ⟨xs, hsplit, hanchor⟩ := keywordLine?_split hk
  rw [hbody] at hbody' hsplit
  obtain rfl : rest = rest' := append_cancel_left (cons.inj hbody').2
  refine ⟨hargument, hstart, xs, append_cancel_left (cons.inj hsplit).2, ?_⟩
  rw [hanchor]
  show _ = (k.nameStart.advance k.name).advance xs
  rw [hstart]
  simp

/-- The line of a keyword at another place. -/
theorem keywordLine?_moved (p' : Position) (hk : keywordLine? p content = some k) :
    ∃ k', keywordLine? p' content = some k' ∧ k'.name = k.name ∧ k'.isSub = k.isSub := by
  unfold keywordLine? at hk ⊢
  dsimp only at hk ⊢
  split at hk
  · next hline =>
    cases hk
    exact ⟨_, if_pos hline, rfl, rfl⟩
  · cases hk

theorem keywordLine?_none_moved (p' : Position) (hk : keywordLine? p content = none) :
    keywordLine? p' content = none := by
  cases hk' : keywordLine? p' content with
  | none => rfl
  | some k' =>
    obtain ⟨k, hk₂, -⟩ := keywordLine?_moved p hk'
    rw [hk] at hk₂
    cases hk₂

end Keywords

namespace Moving

variable {M : Moving} {p p' : Position}

/-- Two lines of keywords with names that mean the same, and the same text behind the names. -/
theorem keywordLines {content content' rest : List Char} {k k' : KeywordLine}
    (hk : keywordLine? p content = some k) (hk' : keywordLine? p' content' = some k')
    (hbody : content.dropWhile isGap = '*' :: (k.name ++ rest))
    (hbody' : content'.dropWhile isGap = '*' :: (k'.name ++ rest))
    (hmargin : content'.takeWhile isGap = content.takeWhile isGap) (hsub : k'.isSub = k.isSub)
    (hlower : lower (String.ofList k'.name) = lower (String.ofList k.name))
    (hname : M.keyword (String.ofList k.name) = String.ofList k'.name)
    (hbefore : M.Along p p' (content.takeWhile isGap ++ ['*']))
    (hafter : M.SameText k.nameSpan.stop rest k'.nameSpan.stop rest) :
    M.retelling.KeywordLines 0 p content p' content' k k' rest rest := by
  obtain ⟨hargument, hstart, xs, hrest, hanchor⟩ := anchor_of_body hk hbody
  obtain ⟨hargument', hstart', xs', hrest', hanchor'⟩ := anchor_of_body hk' hbody'
  have hsame : k'.argument = k.argument := hargument'.trans hargument.symm
  obtain rfl : xs = xs' := by
    rw [hsame] at hrest'
    exact append_cancel_right (hrest.symm.trans hrest')
  constructor
  · exact hk
  · exact hk'
  · exact hbody
  · exact hbody'
  · rw [hmargin]
    exact hbefore _ _ rfl
  · exact hsub
  · exact hlower
  · exact hname
  · show M.near k.nameStart k'.nameStart
    rw [hstart, hstart', hmargin]
    exact hbefore.stop
  · exact hafter.along.start
  · refine forall₂_tokens (fun _ => isInline_of_mem_ofArgument) ?_
    rwa [join_ofArgument]
  · simp [retelling]
  · rw [hanchor, hanchor', hsame]
    exact hafter.within xs k.argument [] (by rw [append_nil]; exact hrest)
  · simp [retelling]

section Lines

variable {ln ln' : Line} (hcontent : ln'.content = ln.content) (hinline : OneLine ln.content)
  (halong : M.Along p p' ln.content)
  (hstop : M.near (endingStop (p.advance ln.content) ln.ending)
    (endingStop (p'.advance ln.content) ln'.ending))
  (hkeyword : ∀ k, keywordLine? p ln.content = some k →
    M.keyword (String.ofList k.name) = String.ofList k.name)

include hcontent hinline halong hstop hkeyword

/-- A line that is moved is told again. -/
theorem lines_same : M.retelling.Lines 0 p ln p' ln' := by
  have htold : M.SameText p ln.content p' ln.content := ⟨rfl, hinline, halong⟩
  constructor
  · exact halong.start
  · rw [hcontent]
    exact halong _ _ (replicate_tab_append_drop ln.content).symm
  · rw [hcontent]
    exact halong.stop
  · rw [hcontent]
    exact hstop
  · rw [hcontent]
    have hsplit : ln.content = ln.content.takeWhile isGap ++ ln.content.dropWhile isGap :=
      takeWhile_append_dropWhile.symm
    cases hk : keywordLine? p ln.content with
    | none =>
      refine .inl ⟨hk, keywordLine?_none_moved p' hk, ?_, by simp [retelling]⟩
      refine forall₂_tokens (fun _ => isInline_of_mem_ofContent) ?_
      rw [join_ofContent]
      exact htold.within _ _ [] (by rw [append_nil]; exact hsplit)
    | some k =>
      obtain ⟨k', hk', hname, hsub⟩ := keywordLine?_moved p' hk
      obtain ⟨rest, hbody, -⟩ := keywordLine?_eq_some hk
      have hline : ln.content = ln.content.takeWhile isGap ++ '*' :: (k.name ++ rest) := by
        rw [← hbody]
        exact hsplit
      obtain ⟨-, hstart, -⟩ := anchor_of_body hk hbody
      have hbody' : ln.content.dropWhile isGap = '*' :: (k'.name ++ rest) := by
        rw [hname]
        exact hbody
      obtain ⟨-, hstart', -⟩ := anchor_of_body hk' hbody'
      refine .inr ⟨k, k', rest, rest, keywordLines hk hk' hbody hbody' rfl hsub (by rw [hname])
        (by rw [hkeyword k hk, hname]) ?_ ?_⟩
      · have hbefore := halong.within [] (ln.content.takeWhile isGap ++ ['*']) (k.name ++ rest)
          (hline.trans (by simp))
        rwa [Position.advance_nil] at hbefore
      · have hafter := htold.within (ln.content.takeWhile isGap ++ '*' :: k.name) rest []
            (hline.trans (by simp))
        have hplace : ∀ {q : Position} {j : KeywordLine}, j.name = k.name →
            j.nameStart = q.advance (ln.content.takeWhile isGap ++ ['*']) →
            j.nameSpan.stop = q.advance (ln.content.takeWhile isGap ++ '*' :: k.name) := by
          intro q j hj hstart
          show j.nameStart.advance j.name = _
          rw [hstart, hj]
          simp
        rwa [hplace rfl hstart, hplace hname hstart']

/-- A line that is moved, seen with its place. -/
theorem placed_same (hending : ln'.ending = [] ↔ ln.ending = []) :
    M.retelling.Placed 0 (p, ln) (p', ln') := by
  refine ⟨hending, ?_⟩
  rw [hcontent]
  cases hblank : allBlank ln.content with
  | true => exact .inl ⟨rfl, rfl, rfl⟩
  | false => exact .inr ⟨rfl, rfl, rfl, lines_same hcontent hinline halong hstop hkeyword⟩

end Lines

theorem forall₂_of_tally_zero {α β : Type} {R : Nat → α → β → Prop} {as : List α} {bs : List β}
    {n : Nat} (h : Tally R n as bs) (hn : n = 0) : Forall₂ (R 0) as bs := by
  induction h with
  | nil => exact .nil
  | cons head _ ih =>
    obtain ⟨rfl, rfl⟩ := Nat.add_eq_zero_iff.1 hn
    exact .cons head (ih rfl)

/-- **A source that is moved** has the same program, at the places that correspond, and the same
faults. -/
theorem parse_moved (M : Moving) {source source' : String}
    (hlines : Forall₂ (M.retelling.Placed 0) (linesOf source) (linesOf source'))
    (hstart : M.near (Cursor.ofSource source).lastEnd (Cursor.ofSource source').lastEnd) :
    Statement.reshapeList { span := M.span, keyword := M.keyword } (parse source).program.body =
      Statement.reshapeList { span := M.span' } (parse source').program.body ∧
    Forall₂ (M.retelling.Diagnostics 0) (parse source).diagnostics
      (parse source').diagnostics := by
  obtain ⟨x, y, hxy, hweighs, m, hm, htally⟩ :=
    Retelling.parse_told M.retelling (.of_forall₂ hlines) hstart
  constructor
  · exact hweighs.full (by omega)
  · exact forall₂_of_tally_zero htally (by omega)

end Moving

end ScriptLint

import ScriptLint.Proofs.SettledLines
import ScriptLint.Proofs.LineOutline

/-!
# The lines of a text and the line endings among its tokens

A text can be split into lines in one way only, if no line is empty, content ends no line, and a
carriage return is not parted from the line feed behind it.  The tokenizer ends its lines at the
same places.

**Results.**
* `isSplit_iff`: the lines of a text are its only split.
* `lineEndings_tokenize`: the line endings among the tokens.
-/

namespace ScriptLint

open List

namespace Text

/-- The items are a split of the text into lines. -/
structure IsSplit (cs : List Char) (items : List (List Char)) : Prop where
  join : items.flatten = cs
  ne_nil : ∀ item ∈ items, item ≠ []
  content : ∀ item ∈ items, ∀ c ∈ stripEnding item, isLineEnd c = false
  ending : ∀ item ∈ items, ∃ ending, IsEnding ending ∧ stripEnding item ++ ending = item
  /-- Only the last line may have no ending. -/
  ended : items.Pairwise fun item _ => stripEnding item ≠ item
  feed : items.IsChain fun item next => ¬ (item.getLast? = some '\r' ∧ next.head? = some '\n')

variable {line : Line} {cs : List Char}

theorem stripEnding_full (h : line.IsProper) : stripEnding line.full = line.content := by
  obtain ⟨content, ending⟩ := line
  obtain ⟨hcontent, hending⟩ := h
  have hlast : ∀ d ds, content.reverse = d :: ds → d ≠ '\n' ∧ d ≠ '\r' := by
    intro d ds hd
    have hmem : d ∈ content := mem_reverse.1 (by rw [hd]; exact mem_cons_self)
    simpa [isLineEnd] using hcontent d hmem
  unfold stripEnding Line.full
  rcases hending with rfl | rfl | rfl | rfl
  · rw [append_nil]
    split
    · next hd => exact absurd rfl (hlast _ _ hd).1
    · next hd => exact absurd rfl (hlast _ _ hd).1
    · next hd => exact absurd rfl (hlast _ _ hd).2
    · rfl
  · rw [reverse_concat]
    split
    · next hd => exact absurd rfl (hlast _ _ (cons.inj hd).2).2
    · next hd => rw [← (cons.inj hd).2, reverse_reverse]
    · next hd => cases hd
    · next hne _ => exact absurd rfl (hne _)
  · simp
  · simp

theorem stopsBefore_iff {next : Line} (h : line.IsProper) (h' : next.IsProper) :
    line.StopsBefore next ↔ ¬ (line.full.getLast? = some '\r' ∧ next.full.head? = some '\n') := by
  have hreturn : line.full.getLast? = some '\r' ↔ line.ending = ['\r'] := by
    obtain ⟨content, ending⟩ := line
    have hcontent : content.getLast? ≠ some '\r' :=
      fun hlast => by simpa [isLineEnd] using h.content _ (mem_of_getLast? hlast)
    rcases h.ending with hends | hends | hends | hends <;> dsimp only at hends <;>
      simp [Line.full, hends, hcontent]
  have hfeed : next.full.head? = some '\n' ↔ next = ⟨[], ['\n']⟩ := by
    refine ⟨fun hhead => by_contra fun hne => head?_flatMap_full h' (fun _ => rfl) hne ?_,
      fun heq => by rw [heq]; rfl⟩
    rwa [flatMap_singleton]
  rw [Line.StopsBefore, hreturn, hfeed]

/-- **The lines of a text are its only split.** -/
theorem isSplit_iff (cs : List Char) (items : List (List Char)) :
    IsSplit cs items ↔ items = (lines cs).map Line.full := by
  constructor
  · intro h
    obtain ⟨ls, rfl, hproper⟩ : ∃ ls : List Line, items = ls.map Line.full ∧
      ∀ line ∈ ls, line.IsProper := by
      choose! ending hending hfull using h.ending
      refine ⟨items.map fun item => ⟨stripEnding item, ending item⟩, ?_, ?_⟩
      · rw [map_map]
        exact ((map_congr_left hfull).trans (map_id items)).symm
      · exact forall_mem_map.2 fun item hitem => ⟨h.content item hitem, hending item hitem⟩
    have hlines : lines (ls.flatMap Line.full) = ls := by
      refine lines_flatMap_full_eq hproper ?_ ?_ fun line hline => h.ne_nil _ (mem_map_of_mem hline)
      · refine (pairwise_map.1 h.ended).imp_of_mem fun {line _} hline _ hne hnil => hne ?_
        rw [stripEnding_full (hproper line hline), Line.full, hnil, append_nil]
      · exact ((isChain_map _).1 h.feed).imp_of_mem_imp fun line next hline hnext =>
          (stopsBefore_iff (hproper line hline) (hproper next hnext)).2
    rw [← h.join, ← flatMap_def, hlines]
  · rintro rfl
    have hproper := fun line (hline : line ∈ lines cs) => isProper_of_mem_lines hline
    have hstrip := fun line hline => stripEnding_full (hproper line hline)
    refine ⟨?_, ?_, ?_, ?_, ?_, ?_⟩
    · rw [← flatMap_def, flatMap_full_lines]
    · exact forall_mem_map.2 fun line hline => (ending_of_mem_lines hline).2
    · exact forall_mem_map.2
        fun line hline => by rw [hstrip line hline]; exact (hproper line hline).content
    · exact forall_mem_map.2 fun line hline =>
        ⟨line.ending, (hproper line hline).ending, by rw [hstrip line hline]; rfl⟩
    · refine pairwise_map.2 ((pairwise_ending_lines cs).imp_of_mem fun hline _ hne heq => hne ?_)
      rw [hstrip _ hline] at heq
      simpa [Line.full] using heq
    · exact (isChain_map _).2 ((isChain_lines cs).imp_of_mem_imp fun line next hline hnext =>
        (stopsBefore_iff (hproper line hline) (hproper next hnext)).1)

/-- The endings of lines, each with the offset where the content in front of it ends; the lines
start at an offset. -/
def endings : Nat → List Line → List (String × Nat)
  | _, [] => []
  | offset, line :: ls =>
    (if line.ending =
      [] then [] else [(String.ofList line.ending, offset + byteLength line.content)]) ++
      endings (offset + byteLength line.full) ls

end Text

open Text

/-- The line endings among tokens, each with its offset. -/
def lineEndings (ts : List Token) : List (String × Nat) :=
  ts.filterMap fun t => if t.kind = .newline then some (t.text, t.span.start.offset) else none

theorem lineEndings_append (ts us : List Token) :
    lineEndings (ts ++ us) = lineEndings ts ++ lineEndings us :=
  filterMap_append

namespace Piece

theorem lineEndings_eq_nil {pieces : List Piece} (h : ∀ text, token .newline text ∉ pieces)
    (p : Position) :
    lineEndings (place p pieces) = [] := by
  refine filterMap_eq_nil_iff.2 fun t ht => if_neg fun hkind => ?_
  obtain ⟨cs, hmem, -⟩ := exists_piece_of_mem_place ht
  exact h cs (hkind ▸ hmem)

theorem newline_not_mem_ofLineContent (levels : List Nat) (content text : List Char) :
    token .newline text ∉ ofLineContent levels content := by
  intro h
  rcases mem_ofLineContent h with ⟨_, _, ⟨⟩⟩ | ⟨_, hkind, _, ⟨⟩⟩ | ⟨_, _, h⟩
  · simp at hkind
  · cases isInline_of_mem_ofContent h

/-- The tokens of lines end where the lines do. -/
theorem lineEndings_ofLines (levels : List Nat) (ls : List Line) (p : Position) :
    lineEndings (place p (ofLines levels ls)) = endings p.offset ls := by
  induction ls generalizing levels p with
  | nil => exact lineEndings_eq_nil (by simp [ofLines, dedents]) p
  | cons line ls ih =>
    have hcontent := lineEndings_eq_nil (newline_not_mem_ofLineContent levels line.content) p
    have hending : ∀ q : Position, lineEndings (place q (ofEnding line.ending)) =
        if line.ending = [] then [] else [(String.ofList line.ending, q.offset)] := by
      intro q
      cases line.ending <;> rfl
    have hafter : (last p (ofLineContent levels line.content)).offset =
        p.offset + byteLength line.content := by
      rw [offset_last, join_ofLineContent]
    rw [place_ofLines_cons, lineEndings_append, hcontent, nil_append, place_append,
      lineEndings_append]
    rw [hending, hafter, ih, offset_last, hafter, join_ofEnding, Nat.add_assoc]
    rw [endings, Line.full, byteLength_append]

end Piece

/-- The tokenizer ends lines where the text does; a byte-order mark belongs to the first line. -/
theorem lineEndings_tokenize (source : String) :
    lineEndings (tokenize source) = endings 0 (lines source.toList) := by
  unfold tokenize Piece.ofSource
  split
  · next hmark =>
    obtain ⟨rest, hrest⟩ := head?_eq_some_iff.1 hmark
    show lineEndings (Piece.place (Piece.next Position.origin .mark) _) = _
    rw [hrest, Piece.lineEndings_ofLines, Piece.offset_next, Piece.lines_mark_cons,
      drop_one, tail_cons]
    cases lines rest with
    | nil => rfl
    | cons line ls => simp [consToFirst, endings, Line.full, Piece.text, Position.origin]
  · exact Piece.lineEndings_ofLines _ _ _

/-- **Lines:** a text has one split, each line is parted from its ending where it is cut, and the
tokens of the text end its lines there. -/
theorem lines_tokenized (source : String) :
    (∀ items, IsSplit source.toList items ↔ items = (lines source.toList).map Line.full) ∧
    (∀ line ∈ lines source.toList, stripEnding line.full = line.content) ∧
    lineEndings (tokenize source) = endings 0 (lines source.toList) :=
  ⟨isSplit_iff _, fun _ hline => stripEnding_full (isProper_of_mem_lines hline),
    lineEndings_tokenize source⟩

end ScriptLint

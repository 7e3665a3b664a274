import ScriptLint.Rules.ValidKeyword
import Mathlib.Data.List.Infix

/-!
# The nearest keyword

A hint names the word that is the fewest edits away.  An edit puts in, takes out or replaces one
character, anywhere in a text.

**Recursion.**  `distance` compares two texts from their first characters on.  One edit moves it by
one at most, wherever it is made, so that no chain of edits is shorter; and the recursion, read
backwards, gives a chain that is as short.

**Rows.**  The program takes the first text character by character, and keeps the distances to all
first parts of the second one.  Seen from their ends, these parts grow by a first character, and
chains of edits can be mirrored.

**Results.**
* `Edits.distance_le`, `edits_distance`: the distance is the length of a shortest chain of edits.
* `foldl_nextRow`, `editDistance_eq`: what the rows hold.
* `suggest_nearest`: the hint is the first of the nearest words.
-/

namespace ScriptLint

open List

variable {name : String}

namespace Text

/-- One character is put in, taken out or replaced. -/
inductive Edit : List Char → List Char → Prop where
  | insert (us vs : List Char) (c : Char) : Edit (us ++ vs) (us ++ c :: vs)
  | delete (us vs : List Char) (c : Char) : Edit (us ++ c :: vs) (us ++ vs)
  | replace (us vs : List Char) (c d : Char) : Edit (us ++ c :: vs) (us ++ d :: vs)

/-- A number of edits, one after another. -/
inductive Edits : Nat → List Char → List Char → Prop where
  | none (as : List Char) : Edits 0 as as
  | more {n : Nat} {as bs cs : List Char} : Edits n as bs → Edit bs cs → Edits (n + 1) as cs

/-- The fewest edits from one text to another, by their first characters. -/
def distance : List Char → List Char → Nat
  | [], bs => bs.length
  | _ :: as, [] => distance as [] + 1
  | a :: as, b :: bs =>
    min (min (distance as bs + if a = b then 0 else 1) (distance (a :: as) bs + 1))
      (distance as (b :: bs) + 1)
termination_by as bs => as.length + bs.length

section Distance

variable {n : Nat} {as bs cs : List Char}

theorem Edit.cons (h : Edit as bs) (c : Char) : Edit (c :: as) (c :: bs) := by
  cases h with
  | insert us vs d => exact .insert (c :: us) vs d
  | delete us vs d => exact .delete (c :: us) vs d
  | replace us vs d e => exact .replace (c :: us) vs d e

theorem Edit.reverse (h : Edit as bs) : Edit as.reverse bs.reverse := by
  cases h with
  | insert us vs c => simpa using Edit.insert vs.reverse us.reverse c
  | delete us vs c => simpa using Edit.delete vs.reverse us.reverse c
  | replace us vs c d => simpa using Edit.replace vs.reverse us.reverse c d

theorem Edits.cons (h : Edits n as bs) (c : Char) : Edits n (c :: as) (c :: bs) := by
  induction h with
  | none as => exact .none (c :: as)
  | more _ hedit ih => exact ih.more (hedit.cons c)

theorem Edits.reverse (h : Edits n as bs) : Edits n as.reverse bs.reverse := by
  induction h with
  | none as => exact .none as.reverse
  | more _ hedit ih => exact ih.more hedit.reverse

theorem distance_cons_left_le (a : Char) (as bs : List Char) :
    distance (a :: as) bs ≤ distance as bs + 1 := by
  cases bs with
  | nil => rw [distance]
  | cons b bs =>
    rw [distance]
    exact Nat.min_le_right _ _

theorem distance_insert_le (b : Char) (as bs : List Char) :
    distance as (b :: bs) ≤ distance as bs + 1 := by
  cases as with
  | nil => simp [distance]
  | cons a as =>
    rw [distance]
    omega

theorem distance_delete_le (b : Char) (as bs : List Char) :
    distance as bs ≤ distance as (b :: bs) + 1 := by
  induction as with
  | nil =>
    rw [distance, distance, length_cons]
    omega
  | cons a as ih =>
    have hleft := distance_cons_left_le a as bs
    rw [distance]
    omega

theorem distance_replace_le (b c : Char) (as bs : List Char) :
    distance as (c :: bs) ≤ distance as (b :: bs) + 1 := by
  induction as with
  | nil => simp [distance]
  | cons a as ih =>
    rw [distance, distance]
    split <;> split <;> omega

/-- A bound for two texts is one for the texts with a character in front. -/
theorem distance_cons_le (h : ∀ as, distance as cs ≤ distance as bs + 1)
    (c : Char) (as : List Char) :
    distance as (c :: cs) ≤ distance as (c :: bs) + 1 := by
  induction as with
  | nil => simpa [distance] using h []
  | cons a as ih =>
    have hboth := h as
    have hright := h (a :: as)
    rw [distance, distance]
    omega

/-- One edit moves the distance by one at most. -/
theorem Edit.distance_le (h : Edit bs cs) (as : List Char) :
    distance as cs ≤ distance as bs + 1 := by
  have hcons : ∀ {us vs vs' : List Char}, (∀ as, distance as vs' ≤ distance as vs + 1) →
      ∀ as, distance as (us ++ vs') ≤ distance as (us ++ vs) + 1 := by
    intro us vs vs' hvs
    induction us with
    | nil => exact hvs
    | cons u us ih => exact distance_cons_le ih u
  cases h with
  | insert us vs c => exact hcons (fun as => distance_insert_le c as vs) as
  | delete us vs c => exact hcons (fun as => distance_delete_le c as vs) as
  | replace us vs c d => exact hcons (fun as => distance_replace_le c d as vs) as

theorem distance_self (as : List Char) : distance as as = 0 := by
  induction as with
  | nil => simp [distance]
  | cons a as ih => simp [distance, ih]

theorem Edits.distance_le (h : Edits n as bs) : distance as bs ≤ n := by
  induction h with
  | none as => exact (distance_self as).le
  | more _ hedit ih => exact (hedit.distance_le _).trans (Nat.succ_le_succ ih)

/-- The recursion read backwards: its last step is the last edit. -/
theorem edits_distance (as bs : List Char) : Edits (distance as bs) as bs := by
  induction as, bs using distance.induct with
  | case1 bs =>
    rw [distance]
    induction bs with
    | nil => exact .none []
    | cons b bs ih => exact ih.more (.insert [] bs b)
  | case2 a as ih =>
    rw [distance]
    exact (ih.cons a).more (.delete [] [] a)
  | case3 a as b bs ihboth ihright ihleft =>
    have hreplace : Edits (distance as bs + if a = b then 0 else 1) (a :: as) (b :: bs) := by
      split
      · next heq => exact heq ▸ ihboth.cons a
      · exact (ihboth.cons a).more (.replace [] bs a b)
    have hinsert : Edits (distance (a :: as) bs + 1) (a :: as) (b :: bs) :=
      ihright.more (.insert [] bs b)
    have hdelete : Edits (distance as (b :: bs) + 1) (a :: as) (b :: bs) :=
      (ihleft.cons a).more (.delete [] _ a)
    rw [distance]
    exact min_rec' (Edits · _ _) (min_rec' (Edits · _ _) hreplace hinsert) hdelete

end Distance

/-- The distances from a text to the first parts of another one.  The texts are given last character
first, and the parts begin with `done`. -/
def rowFrom (as done bs : List Char) : List Nat :=
  bs.inits.map fun part => distance as (part.reverse ++ done)

theorem rowFrom_cons (as done : List Char) (b : Char) (bs : List Char) :
    rowFrom as done (b :: bs) = distance as done :: rowFrom as (b :: done) bs := by
  simp [rowFrom]

theorem exists_rowFrom (as done bs : List Char) :
    ∃ row, rowFrom as done bs = distance as done :: row := by
  cases bs with
  | nil => exact ⟨[], rfl⟩
  | cons b bs => exact ⟨_, rowFrom_cons as done b bs⟩

theorem cellsFrom_rowFrom (a : Char) (as done bs : List Char) :
    distance (a :: as) done :: cellsFrom a (distance (a :: as) done) bs (rowFrom as done bs) =
      rowFrom (a :: as) done bs := by
  induction bs generalizing done with
  | nil => rfl
  | cons b bs ih =>
    obtain ⟨row, hrow⟩ := exists_rowFrom as (b :: done) bs
    rw [rowFrom_cons, rowFrom_cons, ← ih (b :: done), hrow, cellsFrom, distance]

theorem nextRow_rowFrom (bs as : List Char) (a : Char) :
    nextRow bs (rowFrom as [] bs) a = rowFrom (a :: as) [] bs := by
  have hfirst : distance (a :: as) [] = distance as [] + 1 := by rw [distance]
  obtain ⟨row, hrow⟩ := exists_rowFrom as [] bs
  rw [← cellsFrom_rowFrom, hfirst, hrow, nextRow]

theorem rowFrom_nil (done bs : List Char) :
    rowFrom [] done bs = range' done.length (bs.length + 1) := by
  induction bs generalizing done with
  | nil => simp [rowFrom, distance]
  | cons b bs ih => rw [rowFrom_cons, ih, distance, length_cons, length_cons, ← range'_succ]

/-- The row after a text holds the distances from it to the first parts of the other one. -/
theorem foldl_nextRow (as bs : List Char) :
    as.foldl (nextRow bs) (range (bs.length + 1)) = rowFrom as.reverse [] bs := by
  have hrows : ∀ done, as.foldl (nextRow bs) (rowFrom done [] bs) =
      rowFrom (as.reverse ++ done) [] bs := by
    induction as with
    | nil => exact fun _ => rfl
    | cons a as ih => simp [nextRow_rowFrom, ih]
  rw [range_eq_range', ← length_nil, ← rowFrom_nil, hrows, append_nil]

theorem editDistance_eq (a b : String) :
    editDistance a b = distance a.toList.reverse b.toList.reverse := by
  have hlast : ∀ as done bs other, (rowFrom as done bs).getLastD other =
      distance as (bs.reverse ++ done) := by
    intro as done bs other
    induction bs generalizing done other with
    | nil => rfl
    | cons b bs ih =>
      rw [rowFrom_cons, getLastD_cons, ih, reverse_cons, append_assoc, singleton_append]
  rw [editDistance, foldl_nextRow, hlast, append_nil]

section Nearest

variable {word : String} {words : List String}

/-- The word is the first one of those that are nearest to a name. -/
def IsNearest (name : String) (words : List String) (word : String) : Prop :=
  ∃ before after, words = before ++ word :: after ∧
    (∀ other ∈ before, editDistance name word < editDistance name other) ∧
    ∀ other ∈ after, editDistance name word ≤ editDistance name other

theorem IsNearest.mem (h : IsNearest name words word) : word ∈ words := by
  obtain ⟨before, after, rfl, -⟩ := h
  exact mem_append_right before mem_cons_self

theorem IsNearest.le (h : IsNearest name words word) :
    ∀ other ∈ words, editDistance name word ≤ editDistance name other := by
  obtain ⟨before, after, rfl, hbefore, hafter⟩ := h
  exact forall_mem_append.2
    ⟨fun other hother => (hbefore other hother).le, forall_mem_cons.2 ⟨Nat.le_refl _, hafter⟩⟩

theorem eq_nil_of_nearest? (h : nearest? name words = none) : words = [] := by
  cases words with
  | nil => rfl
  | cons first words =>
    rw [nearest?] at h
    split at h
    · cases h
    · split at h <;> cases h

theorem isNearest_of_nearest? {found : Nat × String} (h : nearest? name words = some found) :
    IsNearest name words found.2 ∧ found.1 = editDistance name found.2 := by
  induction words generalizing found with
  | nil => cases h
  | cons first words ih =>
    have hfirst : (∀ other ∈ words, editDistance name first ≤ editDistance name other) →
        IsNearest name (first :: words) first := fun hle => ⟨[], words, rfl, forall_mem_nil _, hle⟩
    rw [nearest?] at h
    split at h
    · next hnone =>
      obtain rfl := Option.some.inj h
      exact ⟨hfirst (eq_nil_of_nearest? hnone ▸ forall_mem_nil _), rfl⟩
    · next best hbest =>
      obtain ⟨hnearest, hdistance⟩ := ih hbest
      rw [hdistance] at h
      split at h
      · next hlt =>
        obtain rfl := Option.some.inj h
        obtain ⟨before, after, rfl, hbefore, hafter⟩ := hnearest
        exact ⟨⟨first :: before, after, rfl, forall_mem_cons.2 ⟨hlt, hbefore⟩, hafter⟩, hdistance⟩
      · next hle =>
        obtain rfl := Option.some.inj h
        exact ⟨hfirst fun other hother => (Nat.not_lt.1 hle).trans (hnearest.le other hother), rfl⟩

theorem nearest?_of_isNearest (h : IsNearest name words word) :
    nearest? name words = some (editDistance name word, word) := by
  obtain ⟨before, after, rfl, hbefore, hafter⟩ := h
  induction before with
  | nil =>
    rw [nil_append, nearest?]
    split
    · rfl
    · next best hbest =>
      obtain ⟨hnearest, hdistance⟩ := isNearest_of_nearest? hbest
      exact if_neg (Nat.not_lt.2 (hdistance ▸ hafter _ hnearest.mem))
  | cons first before ih =>
    obtain ⟨hlt, hrest⟩ := forall_mem_cons.1 hbefore
    rw [cons_append, nearest?, ih hrest]
    exact if_pos hlt

end Nearest

end Text

namespace Rules.ValidKeyword

open Text

/-- The words that hints are taken from, in order. -/
def words : List String :=
  Vocabulary.keywords ++ Vocabulary.subKeywords

theorem suggest_eq (name : String) : suggest name =
    (nearest? name words).bind fun found => if found.1 ≤
      maxDistance then some found.2 else none := by
  delta suggest words
  generalize nearest? name (Vocabulary.keywords ++ Vocabulary.subKeywords) = found
  cases found <;> rfl

theorem suggest_eq_some_iff {word : String} :
    suggest name = some word ↔ IsNearest name words word ∧
    editDistance name word ≤ maxDistance := by
  rw [suggest_eq, Option.bind_eq_some_iff]
  constructor
  · rintro ⟨found, hfound, h⟩
    obtain ⟨hnearest, hdistance⟩ := isNearest_of_nearest? hfound
    split at h
    · next hle =>
      obtain rfl := Option.some.inj h
      exact ⟨hnearest, hdistance ▸ hle⟩
    · cases h
  · rintro ⟨hnearest, hle⟩
    exact ⟨_, nearest?_of_isNearest hnearest, if_pos hle⟩

theorem suggest_eq_none_iff :
    suggest name = none ↔ ∀ word ∈ words, maxDistance < editDistance name word := by
  constructor
  · intro h word hword
    cases hfound : nearest? name words with
    | none => exact absurd hword (eq_nil_of_nearest? hfound ▸ not_mem_nil)
    | some found =>
      obtain ⟨hnearest, -⟩ := isNearest_of_nearest? hfound
      refine lt_of_lt_of_le (Nat.not_le.1 fun hle => ?_) (hnearest.le word hword)
      exact Option.some_ne_none _ ((suggest_eq_some_iff.2 ⟨hnearest, hle⟩).symm.trans h)
  · intro h
    refine Option.eq_none_iff_forall_ne_some.2 fun word hsuggest => ?_
    obtain ⟨hnearest, hle⟩ := suggest_eq_some_iff.1 hsuggest
    exact Nat.not_le.2 (h word hnearest.mem) hle

/-- **Hints are the nearest words.**  The distance of two texts is the least number of edits from
one to the other, and no row of it lacks a cell: each has one for every first part of the second
text.  There is no hint exactly if all words are more than two edits away; otherwise the hint is the
first of the nearest words. -/
theorem suggest_nearest (name : String) :
    (∀ word : String, Edits (editDistance name word) name.toList word.toList ∧
      ∀ n, Edits n name.toList word.toList → editDistance name word ≤ n) ∧
    (∀ (word : String) (read : List Char),
      (read.foldl (nextRow word.toList) (range (word.toList.length + 1))).length =
        word.toList.length + 1) ∧
    (suggest name = none ↔ ∀ word ∈ words, 2 < editDistance name word) ∧
    ∀ word, suggest name = some word ↔ IsNearest name words word ∧ editDistance name word ≤ 2 := by
  refine ⟨fun word => ?_, fun word read => ?_, suggest_eq_none_iff, fun word => suggest_eq_some_iff⟩
  · rw [editDistance_eq]
    refine ⟨?_, fun n h => h.reverse.distance_le⟩
    simpa using (edits_distance name.toList.reverse word.toList.reverse).reverse
  · rw [foldl_nextRow, rowFrom, length_map, length_inits]

end Rules.ValidKeyword
end ScriptLint

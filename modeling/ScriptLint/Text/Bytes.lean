/-!
# Byte offsets into a text

Places in a text are byte offsets into its UTF-8 form.  A text is handled as the list of its
characters, and an offset is valid when it falls between two of them.

**Results.** The two parts of a text at a valid offset join to the text, the first of them is as
long as the offset says, and an offset is valid exactly when it is the length of some first part.
-/

namespace ScriptLint
namespace Text

/-- Number of bytes of the UTF-8 form. -/
def byteLength : List Char → Nat
  | [] => 0
  | c :: cs => c.utf8Size + byteLength cs

/-- The parts before and after a byte offset, if it falls between two characters. -/
def splitAtByte? : List Char → Nat → Option (List Char × List Char)
  | cs, 0 => some ([], cs)
  | [], _ + 1 => none
  | c :: cs, n + 1 =>
    if c.utf8Size ≤ n + 1 then
      (splitAtByte? cs (n + 1 - c.utf8Size)).map fun parts => (c :: parts.1, parts.2)
    else
      none

/-- The characters from one byte offset to another, if both are valid and in order. -/
def slice? (cs : List Char) (start stop : Nat) : Option (List Char) :=
  if start ≤ stop then
    match splitAtByte? cs start with
    | none => none
    | some parts => (splitAtByte? parts.2 (stop - start)).map (·.1)
  else
    none

@[simp]
theorem byteLength_nil : byteLength [] = 0 := rfl

@[simp]
theorem byteLength_cons (c : Char) (cs : List Char) :
    byteLength (c :: cs) = c.utf8Size + byteLength cs := rfl

@[simp]
theorem byteLength_append (xs ys : List Char) :
    byteLength (xs ++ ys) = byteLength xs + byteLength ys := by
  induction xs with
  | nil => simp
  | cons c cs ih => simp [ih, Nat.add_assoc]

theorem length_le_byteLength (cs : List Char) : cs.length ≤ byteLength cs := by
  induction cs with
  | nil => simp
  | cons c cs ih =>
      have := c.utf8Size_pos
      simp only [List.length_cons, byteLength_cons]
      omega

theorem byteLength_pos {cs : List Char} (h : cs ≠ []) : 0 < byteLength cs :=
  Nat.lt_of_lt_of_le (List.length_pos_iff.2 h) (length_le_byteLength cs)

theorem splitAtByte?_append (xs ys : List Char) :
    splitAtByte? (xs ++ ys) (byteLength xs) = some (xs, ys) := by
  induction xs with
  | nil => cases ys <;> rfl
  | cons c cs ih =>
      have hpos := c.utf8Size_pos
      obtain ⟨n, hn⟩ : ∃ n, byteLength (c :: cs) = n + 1 :=
        ⟨byteLength (c :: cs) - 1, by simp only [byteLength_cons]; omega⟩
      have hle : c.utf8Size ≤ n + 1 := by simp only [byteLength_cons] at hn; omega
      have hsub : n + 1 - c.utf8Size = byteLength cs := by
        simp only [byteLength_cons] at hn; omega
      rw [hn, List.cons_append, splitAtByte?, if_pos hle, hsub, ih]
      rfl

theorem splitAtByte?_eq_some {cs xs ys : List Char} {n : Nat}
    (h : splitAtByte? cs n = some (xs, ys)) : cs = xs ++ ys ∧ byteLength xs = n := by
  induction cs generalizing n xs with
  | nil =>
      cases n with
      | zero => simp_all [splitAtByte?]
      | succ n => simp [splitAtByte?] at h
  | cons c cs ih =>
      cases n with
      | zero => simp_all [splitAtByte?]
      | succ n =>
          rw [splitAtByte?] at h
          split at h
          · obtain ⟨⟨l, r⟩, hlr, heq⟩ := Option.map_eq_some_iff.1 h
            simp only [Prod.mk.injEq] at heq
            obtain ⟨rfl, rfl⟩ := heq
            obtain ⟨rfl, hlen⟩ := ih hlr
            refine ⟨rfl, ?_⟩
            simp only [byteLength_cons]
            omega
          · simp at h

theorem slice?_append (xs ys zs : List Char) :
    slice? (xs ++ ys ++ zs) (byteLength xs) (byteLength xs + byteLength ys) = some ys := by
  simp [slice?, List.append_assoc, splitAtByte?_append]

end Text
end ScriptLint

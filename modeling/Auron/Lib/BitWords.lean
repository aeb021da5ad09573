import Mathlib.Data.List.Basic
import Mathlib.Data.List.GetD

/-!
# Bits in words

A list of words of `w` bits is an array of bits, the bit `i` being bit `i % w` of word `i / w`.
-/

namespace Auron.Lib

variable {w : ℕ}

/-- Bit `i`; behind the last word there is no bit. -/
def getBit (ws : List (BitVec w)) (i : ℕ) : Bool := (ws.getD (i / w) 0).getLsbD (i % w)

def setBit (ws : List (BitVec w)) (i : ℕ) : List (BitVec w) := ws.modify (i / w) (· ||| BitVec.twoPow w (i % w))

@[simp] lemma length_setBit (ws : List (BitVec w)) (i : ℕ) : (setBit ws i).length = ws.length := by simp [setBit]

lemma getBit_replicate_zero (n i : ℕ) : getBit (List.replicate n (0 : BitVec w)) i = false := by
  unfold getBit
  rw [List.getD_eq_getElem?_getD, List.getElem?_replicate]
  split <;> simp

/-- **Setting a bit sets it and no other.** -/
theorem getBit_setBit {ws : List (BitVec w)} {i : ℕ} (hw : 0 < w) (hi : i < w * ws.length) (j : ℕ) :
    getBit (setBit ws i) j = (getBit ws j || i == j) := by
  have hword : i / w < ws.length := Nat.div_lt_of_lt_mul hi
  have hbit : i % w < w := Nat.mod_lt _ hw
  unfold getBit setBit
  rw [List.getD_eq_getElem?_getD, List.getD_eq_getElem?_getD, List.getElem?_modify]
  by_cases hij : i / w = j / w
  · -- the same word: the same bit if the positions in it agree
    rw [← hij, List.getElem?_eq_getElem hword]
    have hpos : (i % w = j % w) ↔ i = j := by
      constructor
      · intro h
        rw [← Nat.div_add_mod i w, ← Nat.div_add_mod j w, hij, h]
      · rintro rfl
        rfl
    simp [hbit, hpos, beq_eq_decide]
  · have hne : i ≠ j := fun h => hij (by rw [h])
    simp [hij, hne]

/-- A loop that sets the bit `f i` for every `i` that satisfies `p`. -/
def setWhere {ι : Type} (p : ι → Bool) (f : ι → ℕ) (is : List ι) (ws : List (BitVec w)) : List (BitVec w) :=
  is.foldl (fun ws i => if p i then setBit ws (f i) else ws) ws

@[simp] lemma length_setWhere {ι : Type} (p : ι → Bool) (f : ι → ℕ) (is : List ι) (ws : List (BitVec w)) :
    (setWhere p f is ws).length = ws.length := by
  unfold setWhere
  induction is generalizing ws with
  | nil => rfl
  | cons i is ih =>
    rw [List.foldl_cons, ih]
    split
    · exact length_setBit ws (f i)
    · rfl

/-- **The bits after such a loop.** -/
theorem getBit_setWhere {ι : Type} {p : ι → Bool} {f : ι → ℕ} {is : List ι} {ws : List (BitVec w)} (hw : 0 < w)
    (hf : ∀ i ∈ is, p i = true → f i < w * ws.length) (j : ℕ) :
    getBit (setWhere p f is ws) j = (getBit ws j || is.any fun i => p i && f i == j) := by
  induction is generalizing ws with
  | nil => simp [setWhere]
  | cons i is ih =>
    have hcons : setWhere p f (i :: is) ws = setWhere p f is (if p i then setBit ws (f i) else ws) := rfl
    rw [hcons, List.any_cons]
    cases hp : p i with
    | false =>
      rw [if_neg (by simp), ih fun i hi => hf i (List.mem_cons_of_mem _ hi)]
      simp
    | true =>
      rw [if_pos rfl, ih fun i hi hpi => by rw [length_setBit]; exact hf i (List.mem_cons_of_mem _ hi) hpi,
        getBit_setBit hw (hf i List.mem_cons_self hp)]
      simp [Bool.or_assoc]

end Auron.Lib

import Mathlib.Data.List.Lex
import Mathlib.Tactic.Ring

/-!
# Bytes, readers and the length prefix of `io/mod.rs`

Byte strings are lists of `UInt8`, compared as Rust compares slices: lexicographically, byte by byte.  A reader is a
byte string that shrinks from the left; running off its end is `IoErr.unexpectedEof`, as in `Read::read_exact`.

`writeLen` and `readLen` are `write_len` and `read_len`: seven bits a byte, least significant group first, the top bit
set on every byte but the last.  `readLen_writeLen` is their round trip in front of any further bytes.
-/

namespace Auron.Io

instance instLinearOrderByte : LinearOrder UInt8 where
  le_refl a := UInt8.le_refl a
  le_trans _ _ _ := UInt8.le_trans
  le_antisymm _ _ := UInt8.le_antisymm
  le_total a b := UInt8.le_total a b
  lt_iff_le_not_ge a b := by
    simp only [UInt8.le_iff_toNat_le, UInt8.lt_iff_toNat_lt]
    omega
  toDecidableLE := inferInstance
  toDecidableLT := inferInstance
  toDecidableEq := inferInstance

abbrev Bytes := List UInt8

inductive IoErr where
  | unexpectedEof
  | other
  deriving DecidableEq, Repr

/-- The result of reading a value off the front of a byte string: the value and the bytes left. -/
abbrev Read (α : Type) := Except IoErr (α × Bytes)

/-- `Read::read_exact` into a buffer of `n` bytes, and `read_bytes_slice`. -/
def readExact (n : ℕ) (input : Bytes) : Read Bytes :=
  if n ≤ input.length then .ok (input.take n, input.drop n) else .error .unexpectedEof

lemma readExact_append (xs rest : Bytes) : readExact xs.length (xs ++ rest) = .ok (xs, rest) := by
  simp [readExact]

/-! ### The length prefix -/

/-- `write_len`, with the number of bytes it may still write as fuel. -/
def writeLenAux : ℕ → ℕ → Bytes
  | 0, len => [UInt8.ofNat len]
  | fuel + 1, len =>
    if 128 ≤ len then UInt8.ofNat (128 + len % 128) :: writeLenAux fuel (len / 128) else [UInt8.ofNat len]

/-- `write_len`: the loop runs once for every further byte, at most `len` times. -/
def writeLen (len : ℕ) : Bytes := writeLenAux len len

def readLenAux : Bytes → ℕ → ℕ → Read ℕ
  | [], _, _ => .error .unexpectedEof
  | v :: rest, len, factor =>
    if v < 128 then .ok (len + v.toNat * factor, rest)
    else readLenAux rest (len + (v - 128).toNat * factor) (factor * 128)

def readLen (input : Bytes) : Read ℕ := readLenAux input 0 1

variable {n : ℕ}

lemma ends (h : n < 128) : UInt8.ofNat n < 128 ∧ (UInt8.ofNat n).toNat = n := by
  have hval : (UInt8.ofNat n).toNat = n := UInt8.toNat_ofNat_of_lt' (h.trans (by decide))
  rw [UInt8.lt_iff_toNat_lt, hval]
  exact ⟨h, rfl⟩

lemma readLenAux_last (h : n < 128) (rest : Bytes) (len factor : ℕ) :
    readLenAux (UInt8.ofNat n :: rest) len factor = .ok (len + n * factor, rest) := by
  rw [readLenAux, if_pos (ends h).1, (ends h).2]

lemma continues (h : n < 128) : ¬ UInt8.ofNat (128 + n) < 128 ∧ (UInt8.ofNat (128 + n) - 128).toNat = n := by
  have hval : (UInt8.ofNat (128 + n)).toNat = 128 + n := UInt8.toNat_ofNat_of_lt' (Nat.add_lt_add_left h 128)
  constructor
  · rw [UInt8.lt_iff_toNat_lt, hval]
    simp
  · rw [UInt8.toNat_sub_of_le _ _ (by rw [UInt8.le_iff_toNat_le, hval]; simp), hval]
    simp

lemma readLenAux_more (h : n < 128) (rest : Bytes) (len factor : ℕ) :
    readLenAux (UInt8.ofNat (128 + n) :: rest) len factor = readLenAux rest (len + n * factor) (factor * 128) := by
  rw [readLenAux, if_neg (continues h).1, (continues h).2]

lemma add_digits (n len factor : ℕ) : len + n % 128 * factor + n / 128 * (factor * 128) = len + n * factor := by
  calc len + n % 128 * factor + n / 128 * (factor * 128)
      = len + (128 * (n / 128) + n % 128) * factor := by ring
    _ = len + n * factor := by rw [Nat.div_add_mod]

lemma readLenAux_writeLenAux (fuel : ℕ) : ∀ n : ℕ, n ≤ fuel → ∀ (rest : Bytes) (len factor : ℕ),
    readLenAux (writeLenAux fuel n ++ rest) len factor = .ok (len + n * factor, rest) := by
  induction fuel with
  | zero =>
    intro n hn rest len factor
    exact readLenAux_last (by omega) rest len factor
  | succ fuel ih =>
    intro n _ rest len factor
    rw [writeLenAux]
    split
    · rw [List.cons_append, readLenAux_more (Nat.mod_lt _ (by omega)), ih _ (by omega)]
      rw [add_digits]
    · exact readLenAux_last (by omega) rest len factor

/-- **A length prefix reads back, in front of any further bytes.** -/
theorem readLen_writeLen (n : ℕ) (rest : Bytes) : readLen (writeLen n ++ rest) = .ok (n, rest) := by
  rw [readLen, writeLen, readLenAux_writeLenAux n n le_rfl]
  simp

lemma writeLen_ne_nil (n : ℕ) : writeLen n ≠ [] := by
  unfold writeLen
  cases n with
  | zero => simp [writeLenAux]
  | succ n => rw [writeLenAux]; split <;> simp

end Auron.Io

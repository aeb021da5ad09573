import Auron.Io.Bytes

/-!
# The hash function of `hash/mur.rs`

`i32` is `BitVec 32`, with the arithmetic that wraps around.
-/

namespace Auron.Hash

open Auron.Io

def mixK1 (k1 : BitVec 32) : BitVec 32 := (k1 * 0xcc9e2d51#32).rotateLeft 15 * 0x1b873593#32

def mixH1 (h1 k1 : BitVec 32) : BitVec 32 := (h1 ^^^ k1).rotateLeft 13 * 5#32 + 0xe6546b64#32

/-- A shift and an exclusive or of `fmix`. -/
def xorShift (h1 : BitVec 32) (n : ℕ) : BitVec 32 := h1 ^^^ (h1 >>> n)

def fmix (h1 len : BitVec 32) : BitVec 32 :=
  xorShift (xorShift (xorShift (h1 ^^^ len) 16 * 0x85ebca6b#32) 13 * 0xc2b2ae35#32) 16

/-- `hash_bytes_by_int` of words of four bytes, and the bytes behind the last word. -/
def hashBytesByInt : Bytes → BitVec 32 → BitVec 32 × Bytes
  | a :: b :: c :: d :: rest, h1 =>
    hashBytesByInt rest (mixH1 h1 (mixK1 (d.toBitVec ++ c.toBitVec ++ b.toBitVec ++ a.toBitVec)))
  | trailing, h1 => (h1, trailing)

/-- `spark_compatible_murmur3_hash`: the trailing bytes are mixed in one by one, as numbers with a sign. -/
def hash (data : Bytes) (seed : BitVec 32) : BitVec 32 :=
  let (h1, trailing) := hashBytesByInt data seed
  fmix (trailing.foldl (fun h1 b => mixH1 h1 (mixK1 (b.toBitVec.signExtend 32))) h1) (BitVec.ofNat 32 data.length)

def hashLong (input : BitVec 64) (seed : BitVec 32) : BitVec 32 :=
  fmix (mixH1 (mixH1 seed (mixK1 (input.extractLsb' 0 32))) (mixK1 (input.extractLsb' 32 32))) 8#32

example : hash [] 42#32 = 142593372#32 := by decide

end Auron.Hash

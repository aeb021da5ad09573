import Auron.Io.BatchRoundTrip

/-!
# The compressed block stream (`io/ipc_compression.rs`)

`IpcCompressionWriter` collects batches in a block, compresses the block and writes its length and its bytes.  A block is
closed when enough bytes of it have been compressed, and by `finish_current_buf`.  `IpcCompressionReader` is a source of
bytes for `read_batch`: it takes a block at a time off its input, decompresses it, and goes on with the next one, so that
batches are read as if the blocks were one stream.

What the reader delivers is said by `Delivers`: the plaintexts of the complete blocks, and then what the decoder makes of
an incomplete one.  The reader can stand for that list of bytes (`source_delivers`), and everything about reading batches
is a fact about lists of bytes.
-/

namespace Auron.Io

open Auron.Lib List

namespace IpcCompression

open BatchSerde

/-- A codec.  An encoder has written `encode plain` when it is finished after `plain` was written to it, and some bytes of
that before; a decoder is made of the bytes of a block and read piece by piece. -/
structure Codec where
  encode : Bytes → Bytes
  flushed : Bytes → ℕ
  Decoder : Type
  tryNew : Bytes → Option Decoder
  read : ℕ → Decoder → Except IoErr (Bytes × Decoder)

/-- A decoder gives some bytes, in pieces of any size, and then ends or fails. -/
structure Codec.Laws (codec : Codec) where
  Yields : codec.Decoder → Bytes → Option IoErr → Prop
  /-- One frame decodes to the bytes encoded. -/
  decodes : ∀ plain, ∃ d, codec.tryNew (codec.encode plain) = some d ∧ Yields d plain none
  read_some : ∀ {d plain failure n}, Yields d plain failure → 0 < n → plain ≠ [] →
    ∃ k d', 0 < k ∧ k ≤ n ∧ k ≤ plain.length ∧ codec.read n d = .ok (plain.take k, d') ∧ Yields d' (plain.drop k) failure
  read_end : ∀ {d n}, Yields d [] none → 0 < n → ∃ d', codec.read n d = .ok ([], d')
  read_fail : ∀ {d e n}, Yields d [] (some e) → 0 < n → codec.read n d = .error e

variable (codec : Codec)

/-! ### The writer -/

/-- `IpcCompressionWriter`: the outputs it had before, its output, what was written to the encoder of the current block,
and whether the block is empty. -/
structure Writer where
  done : List Bytes
  output : Bytes
  plain : Bytes
  blockEmpty : Bool

def Writer.new : Writer := ⟨[], [], [], true⟩

/-- A block: the length of the frame as a `u32`, and the frame. -/
def block (plain : Bytes) : Bytes := le32 (UInt32.ofNat (codec.encode plain).length) ++ codec.encode plain

def Writer.finishCurrentBuf (w : Writer) : Writer :=
  if w.blockEmpty then w else ⟨w.done, w.output ++ block codec w.plain, [], true⟩

abbrev Batch := ℕ × List ArrayRef

/-- `write_batch`.  The buffer holds four bytes and what the encoder has flushed; `isFull` compares its length with the
target. -/
def Writer.writeBatch (isFull : ℕ → Bool) (batch : Batch) (w : Writer) : Option Writer :=
  if batch.1 = 0 then some w
  else do
    let bytes ← BatchSerde.writeBatch batch.1 batch.2
    let w : Writer := { w with plain := w.plain ++ bytes, blockEmpty := false }
    if isFull (4 + codec.flushed w.plain) then some (w.finishCurrentBuf codec) else some w

/-- `set_output`, to an empty output; a block that is not empty panics. -/
def Writer.setOutput (w : Writer) : Option Writer :=
  if w.blockEmpty then some { w with done := w.done ++ [w.output], output := [] } else none

inductive Op where
  | writeBatch (batch : Batch)
  | finishCurrentBuf
  | setOutput

def Writer.step (isFull : ℕ → Bool) (w : Writer) : Op → Option Writer
  | .writeBatch batch => w.writeBatch codec isFull batch
  | .finishCurrentBuf => some (w.finishCurrentBuf codec)
  | .setOutput => w.setOutput

/-- The outputs after some calls and a last `finish_current_buf`. -/
def outputs (isFull : ℕ → Bool) (ops : List Op) : Option (List Bytes) := do
  let w ← ops.foldlM (Writer.step codec isFull) Writer.new
  let w := w.finishCurrentBuf codec
  some (w.done ++ [w.output])

/-! ### The reader -/

/-- `InputState`; the content of a block is its decoder and the input behind the block. -/
inductive InputState where
  | unreachable
  | blockStart (input : Bytes)
  | blockContent (decoder : codec.Decoder) (rest : Bytes)

variable {codec}

def InputState.inputLen : InputState codec → ℕ
  | .unreachable => 0
  | .blockStart input => input.length
  | .blockContent _ rest => rest.length

/-- `Reader::read`, which calls itself when a block begins and when one ends.  A header that is not there, or not all of
it, is the end of the input. -/
def readRounds (n : ℕ) : ℕ → InputState codec → Except IoErr (Bytes × InputState codec)
  | 0, _ => .error .other
  | _ + 1, .unreachable => .error .other
  | rounds + 1, .blockStart input =>
    match le32s (input.take 4) with
    | [] => .ok ([], .unreachable)
    | blockLen :: _ =>
      match codec.tryNew ((input.drop 4).take blockLen.toNat) with
      | none => .error .other
      | some decoder => readRounds n rounds (.blockContent decoder ((input.drop 4).drop blockLen.toNat))
  | rounds + 1, .blockContent decoder rest =>
    match codec.read n decoder with
    | .error e => .error e
    | .ok ([], _) => readRounds n rounds (.blockStart rest)
    | .ok (b :: bytes, decoder) => .ok (b :: bytes, .blockContent decoder rest)

/-- `Reader::read`: a block needs two calls and four bytes of the input. -/
def read (n : ℕ) (s : InputState codec) : Except IoErr (Bytes × InputState codec) := readRounds n (s.inputLen + 4) s

/-- `read_exact`, with a bound on its rounds. -/
def readExactRounds : ℕ → ℕ → InputState codec → Except IoErr (Bytes × InputState codec)
  | _, 0, s => .ok ([], s)
  | 0, _ + 1, _ => .error .other
  | rounds + 1, n + 1, s =>
    match read (n + 1) s with
    | .error e => .error e
    | .ok ([], _) => .error .unexpectedEof
    | .ok (b :: bytes, s) =>
      match readExactRounds rounds (n + 1 - (b :: bytes).length) s with
      | .error e => .error e
      | .ok (bytes', s) => .ok (b :: bytes ++ bytes', s)

/-- The reader as a source: every round of `read_exact` gets at least a byte. -/
def source : Source UInt8 IoErr (InputState codec) where
  readExact n s := readExactRounds n n s

/-- Batches are read until there are none or a read fails, with a bound on the reads. -/
def readBatches (validUtf8 : Bytes → Bool) {σ : Type} (S : Source UInt8 IoErr σ) (schema : List DataType) :
    ℕ → σ → Option (Except IoErr (List Batch))
  | 0, _ => none
  | rounds + 1, s =>
    match readBatch validUtf8 S schema s with
    | .error e => some (.error e)
    | .ok none => some (.ok [])
    | .ok (some (numRows, cols, s)) =>
      (readBatches validUtf8 S schema rounds s).map fun r => r.map ((numRows, cols) :: ·)

/-! ### What the reader delivers -/

variable (laws : codec.Laws)

/-- What lies behind the last complete block: too little for a header, or an incomplete block whose decoder cannot be made
or yields some bytes.  It delivers `plain` and ends with `e`. -/
inductive Ending : Bytes → Bytes → IoErr → Prop
  | header {tail : Bytes} (h : tail.length < 4) : Ending tail [] .unexpectedEof
  | noDecoder {content : Bytes} {len : UInt32} (hlen : content.length ≤ len.toNat) (h : codec.tryNew content = none) :
    Ending (le32 len ++ content) [] .other
  | decoder {content plain : Bytes} {len : UInt32} {d : codec.Decoder} {failure : Option IoErr}
    (hlen : content.length ≤ len.toNat) (h : codec.tryNew content = some d) (hyields : laws.Yields d plain failure) :
    Ending (le32 len ++ content) plain (failure.getD .unexpectedEof)

/-- The state delivers the bytes, and then the error. -/
inductive Delivers (e : IoErr) : InputState codec → Bytes → Prop
  | start {plains : List Bytes} {tail plain : Bytes} (hsmall : ∀ p ∈ plains, (codec.encode p).length < 2 ^ 32)
    (htail : Ending laws tail plain e) :
    Delivers e (.blockStart (plains.flatMap (block codec) ++ tail)) (plains.flatten ++ plain)
  | content {d : codec.Decoder} {p : Bytes} {plains : List Bytes} {tail plain : Bytes} (hp : laws.Yields d p none)
    (hsmall : ∀ p ∈ plains, (codec.encode p).length < 2 ^ 32) (htail : Ending laws tail plain e) :
    Delivers e (.blockContent d (plains.flatMap (block codec) ++ tail)) (p ++ (plains.flatten ++ plain))
  | last {d : codec.Decoder} {plain : Bytes} {failure : Option IoErr} (hplain : laws.Yields d plain failure)
    (he : e = failure.getD .unexpectedEof) : Delivers e (.blockContent d []) plain

/-- The outcome of a read on a state that delivers `xs` and then `e`: some of the bytes, or there are none. -/
def ReadStep (e : IoErr) (n : ℕ) (xs : Bytes) (res : Except IoErr (Bytes × InputState codec)) : Prop :=
  (∃ k s', 0 < k ∧ k ≤ n ∧ k ≤ xs.length ∧ res = .ok (xs.take k, s') ∧ Delivers laws e s' (xs.drop k)) ∨
    (xs = [] ∧ ((e = .unexpectedEof ∧ ∃ s', res = .ok ([], s')) ∨ res = .error e))

lemma le32s_le32_append (len : UInt32) (rest : Bytes) : le32s ((le32 len ++ rest).take 4) = [len] := by
  have h := le32s_flatMap [len]
  rw [flatMap_singleton] at h
  rw [take_append_of_le_length (by simp [le32]), take_of_length_le (by simp [le32]), h]

lemma drop_le32_append (len : UInt32) (rest : Bytes) : (le32 len ++ rest).drop 4 = rest := by
  simp [le32]

variable {xs : Bytes}

lemma le32s_of_short (h : xs.length < 4) : le32s xs = [] := by
  match xs, h with
  | [], _ | [_], _ | [_, _], _ | [_, _, _], _ => rfl

variable {n : ℕ}

lemma readRounds_content {k rounds : ℕ} {d d' : codec.Decoder} {rest : Bytes} (hk : 0 < k) (hxs : k ≤ xs.length)
    (hread : codec.read n d = .ok (xs.take k, d')) :
    readRounds n (rounds + 1) (.blockContent d rest) = .ok (xs.take k, .blockContent d' rest) := by
  rw [readRounds, hread]
  cases htake : xs.take k with
  | nil =>
    have := congrArg length htake
    rw [length_take, length_nil] at this
    omega
  | cons b bytes => rfl

lemma readRounds_ending {e : IoErr} {tail plain : Bytes} (htail : Ending laws tail plain e) (hn : 0 < n)
    (rounds : ℕ) : ReadStep laws e n plain (readRounds n (rounds + 3) (.blockStart tail : InputState codec)) := by
  cases htail with
  | header h =>
    refine .inr ⟨rfl, .inl ⟨rfl, .unreachable, ?_⟩⟩
    rw [readRounds, le32s_of_short (by rw [length_take]; omega)]
  | noDecoder hlen h =>
    refine .inr ⟨rfl, .inr ?_⟩
    rw [readRounds, le32s_le32_append, drop_le32_append]
    simp only [take_of_length_le hlen, h]
  | @decoder content _ len d failure hlen h hyields =>
    have hstart : readRounds n (rounds + 3) (.blockStart (le32 len ++ content) : InputState codec) =
        readRounds n (rounds + 2) (.blockContent d []) := by
      rw [readRounds, le32s_le32_append, drop_le32_append]
      simp only [take_of_length_le hlen, h, drop_eq_nil_of_le hlen]
    rw [hstart]
    cases hplain : plain with
    | cons b bytes =>
      rw [← hplain]
      obtain ⟨k, d', hk, hkn, hkx, hread, hyields'⟩ := laws.read_some hyields hn (by rw [hplain]; simp)
      exact .inl ⟨k, _, hk, hkn, hkx, readRounds_content hk hkx hread, .last hyields' rfl⟩
    | nil =>
      rw [hplain] at hyields
      refine .inr ⟨rfl, ?_⟩
      cases failure with
      | none =>
        obtain ⟨_, hread⟩ := laws.read_end hyields hn
        refine .inl ⟨rfl, .unreachable, ?_⟩
        rw [readRounds, hread]
        rfl
      | some failure =>
        refine .inr ?_
        rw [readRounds, laws.read_fail hyields hn]
        rfl

lemma readStep_content {e : IoErr} {tail plain p : Bytes} (htail : Ending laws tail plain e) {n : ℕ} (hn : 0 < n)
    {plains : List Bytes} (hsmall : ∀ p ∈ plains, (codec.encode p).length < 2 ^ 32) {d : codec.Decoder}
    (hyields : laws.Yields d p none) (hp : p ≠ []) (rounds : ℕ) :
    ReadStep laws e n (p ++ (plains.flatten ++ plain))
      (readRounds n (rounds + 1) (.blockContent d (plains.flatMap (block codec) ++ tail))) := by
  obtain ⟨k, d', hk, hkn, hkp, hread, hyields'⟩ := laws.read_some hyields hn hp
  refine .inl ⟨k, .blockContent d' (plains.flatMap (block codec) ++ tail), hk, hkn, ?_, ?_, ?_⟩
  · rw [length_append]
    omega
  · rw [take_append_of_le_length hkp]
    exact readRounds_content hk hkp hread
  · rw [drop_append_of_le_length hkp]
    exact .content hyields' hsmall htail

lemma readRounds_start {e : IoErr} {tail plain : Bytes} (htail : Ending laws tail plain e) {n : ℕ} (hn : 0 < n) :
    ∀ (plains : List Bytes), (∀ p ∈ plains, (codec.encode p).length < 2 ^ 32) → ∀ rounds, 2 * plains.length + 3 ≤ rounds →
    ReadStep laws e n (plains.flatten ++ plain)
      (readRounds n rounds (.blockStart (plains.flatMap (block codec) ++ tail) : InputState codec))
  | [], _, rounds, hrounds => by
    obtain ⟨rounds, rfl⟩ := Nat.exists_eq_add_of_le' (show 3 ≤ rounds by simpa using hrounds)
    exact readRounds_ending laws htail hn rounds
  | p :: plains, hsmall, rounds, hrounds => by
    rw [length_cons] at hrounds
    obtain ⟨rounds, rfl⟩ := Nat.exists_eq_add_of_le' (show 2 ≤ rounds by omega)
    obtain ⟨hp, hsmall'⟩ := forall_mem_cons.1 hsmall
    have hlen := UInt32.toNat_ofNat_of_lt' hp
    obtain ⟨d, hnew, hyields⟩ := laws.decodes p
    have hstart : readRounds n (rounds + 2) (.blockStart ((p :: plains).flatMap (block codec) ++ tail) :
        InputState codec) = readRounds n (rounds + 1) (.blockContent d (plains.flatMap (block codec) ++ tail)) := by
      rw [flatMap_cons, block, append_assoc, append_assoc, readRounds, le32s_le32_append, drop_le32_append]
      simp only [hlen, take_left, drop_left, hnew]
    rw [hstart, flatten_cons, append_assoc]
    by_cases hp : p = []
    · subst hp
      obtain ⟨_, hread⟩ := laws.read_end hyields hn
      rw [readRounds, hread]
      exact readRounds_start htail hn plains hsmall' rounds (by omega)
    · exact readStep_content laws htail hn hsmall' hyields hp rounds

lemma length_flatMap_block (codec : Codec) (plains : List Bytes) :
    4 * plains.length ≤ (plains.flatMap (block codec)).length := by
  induction plains with
  | nil => simp
  | cons p plains ih =>
    rw [flatMap_cons, length_append, length_cons, block, length_append]
    have : (le32 (UInt32.ofNat (codec.encode p).length)).length = 4 := rfl
    omega

/-- **One read gives some of the bytes the state delivers.** -/
theorem read_spec {e : IoErr} {s : InputState codec} (h : Delivers laws e s xs) (hn : 0 < n) :
    ReadStep laws e n xs (read n s) := by
  cases h with
  | @start plains tail plain hsmall htail =>
    refine readRounds_start laws htail hn plains hsmall _ ?_
    have := length_flatMap_block codec plains
    simp only [InputState.inputLen, length_append]
    omega
  | @content d p plains tail plain hp hsmall htail =>
    by_cases hpe : p = []
    · subst hpe
      obtain ⟨d', hread⟩ := laws.read_end hp hn
      have := length_flatMap_block codec plains
      rw [read, readRounds, hread]
      refine readRounds_start laws htail hn plains hsmall _ ?_
      simp only [InputState.inputLen, length_append]
      omega
    · exact readStep_content laws htail hn hsmall hp hpe _
  | @last d _ failure hplain he =>
    cases hxs : xs with
    | cons b bytes =>
      rw [← hxs]
      obtain ⟨k, d', hk, hkn, hkx, hread, hyields⟩ := laws.read_some hplain hn (by rw [hxs]; simp)
      exact .inl ⟨k, _, hk, hkn, hkx, readRounds_content hk hkx hread, .last hyields he⟩
    | nil =>
      subst hxs
      refine .inr ⟨rfl, ?_⟩
      cases failure with
      | none =>
        obtain ⟨_, hread⟩ := laws.read_end hplain hn
        refine .inl ⟨he, .unreachable, ?_⟩
        rw [read, readRounds, hread]
        rfl
      | some failure =>
        refine .inr ?_
        rw [read, readRounds, laws.read_fail hplain hn, he]
        rfl

lemma readExactRounds_spec {e : IoErr} : ∀ (rounds n : ℕ) {s : InputState codec} {xs : Bytes}, Delivers laws e s xs →
    n ≤ rounds →
    if n ≤ xs.length then ∃ s', readExactRounds rounds n s = .ok (xs.take n, s') ∧ Delivers laws e s' (xs.drop n)
    else readExactRounds rounds n s = .error e
  | rounds, 0, s, xs, h, _ => by
    rw [if_pos (Nat.zero_le _)]
    refine ⟨s, ?_, h⟩
    cases rounds <;> rfl
  | rounds + 1, n + 1, s, xs, h, hrounds => by
    rcases read_spec laws h (Nat.succ_pos n) with ⟨k, s', hk, hkn, hkx, hread, hs'⟩ | ⟨rfl, ⟨he, s', hread⟩ | hread⟩
    · obtain ⟨b, bytes, htake⟩ : ∃ b bytes, xs.take k = b :: bytes := by
        apply exists_cons_of_length_pos
        rw [length_take]
        omega
      have hlen : (b :: bytes).length = k := by
        rw [← htake, length_take]
        omega
      have ih := readExactRounds_spec rounds (n + 1 - k) hs' (by omega)
      rw [length_drop] at ih
      rw [readExactRounds, hread, htake]
      simp only [hlen]
      by_cases hx : n + 1 ≤ xs.length
      · rw [if_pos (by omega)] at ih
        obtain ⟨s'', hrest, hs''⟩ := ih
        rw [if_pos hx]
        refine ⟨s'', ?_, ?_⟩
        · rw [hrest]
          show Except.ok _ = _
          rw [← htake, ← take_add]
          congr 3
          omega
        · rw [drop_drop] at hs''
          have hsum : k + (n + 1 - k) = n + 1 := by omega
          rwa [hsum] at hs''
      · rw [if_neg (by omega)] at ih
        rw [if_neg hx, ih]
    · rw [if_neg (by simp), readExactRounds, hread, he]
    · rw [if_neg (by simp), readExactRounds, hread]

/-- **The reader can stand for the bytes it delivers.** -/
theorem source_delivers (e : IoErr) : (source : Source UInt8 IoErr (InputState codec)).Delivers e (Delivers laws e) where
  enough := by
    intro s xs n h hn
    have hspec := readExactRounds_spec laws n n h le_rfl
    rwa [if_pos hn] at hspec
  short := by
    intro s _ n h _
    have hspec := readExactRounds_spec laws n n h le_rfl
    rwa [if_neg (by omega)] at hspec

end IpcCompression

end Auron.Io

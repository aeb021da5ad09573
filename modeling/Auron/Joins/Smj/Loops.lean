import Auron.Joins.Keys
import Auron.Joins.StreamCursor
import Auron.Lib.RelJoin
import Mathlib.Data.List.TakeWhile

/-!
# The loops the sort-merge joiners share (`joins/smj`)

The joiners of `joins/smj` move two cursors by the same loops and differ in what they do at each row.  The loops stand
here, over that difference:

* `scanEqual` follows the runs of the current key on both sides in step, until one of them ends;
* `forwardWhile` moves one cursor as long as a condition holds: over the rest of a run, or over all rows that are left.

`scanEqual_spec` and `forwardWhile_spec` say what they do to cursors that are known through `Rep`.  Then comes what
sortedness gives: where the runs of equal keys end, rows of different runs do not match.  `MergeJoiner` is what a joiner
has to satisfy for its main loop to join the two streams (`MergeJoiner.loop_spec`).

The number of rounds of a loop is bounded by the rows its cursors hold; `none` also stands for a bound that was too
small, and the results about the joiners exclude it.
-/

namespace Auron.Joins

open Auron.Io Auron.Lib List
open Option (bind_eq_bind bind_some)

variable {ρ ρ1 ρ2 σ : Type}

/-! ### The loops -/

/-- One side of a round of the scan: moves on if the current key is the key of the run. -/
def advanceEqual (onEqual : σ → Idx → σ) (keyIdx : Idx) (s : σ) (c : StreamCursor ρ) :
    Option (σ × StreamCursor ρ × Bool) := do
  if c.finished then some (s, c, false)
  else if (← c.curKey) = (← c.key keyIdx) then some (onEqual s c.curIdx, ← c.next, true)
  else some (s, c, false)

/-- `while l_equal && r_equal { .. }`, entered with both flags set. -/
def scanEqual (onLeft onRight : σ → Idx → σ) (lKeyIdx rKeyIdx : Idx) :
    ℕ → σ → StreamCursor ρ1 → StreamCursor ρ2 → Option (σ × StreamCursor ρ1 × StreamCursor ρ2 × Bool × Bool)
  | 0, _, _, _ => none
  | rounds + 1, s, c1, c2 => do
    let (s, c1, lEqual) ← advanceEqual onLeft lKeyIdx s c1
    let (s, c2, rEqual) ← advanceEqual onRight rKeyIdx s c2
    if lEqual && rEqual then scanEqual onLeft onRight lKeyIdx rKeyIdx rounds s c1 c2
    else some (s, c1, c2, lEqual, rEqual)

/-- `while !cur.finished() && cond { push; cur_forward!(cur); flush if needed }`. -/
def forwardWhile (cond : StreamCursor ρ → Option Bool) (push : σ → Idx → σ)
    (flushIfNeeded : σ → StreamCursor ρ → Option (σ × StreamCursor ρ)) :
    ℕ → σ → StreamCursor ρ → Option (σ × StreamCursor ρ)
  | 0, _, _ => none
  | rounds + 1, s, c => do
    if c.finished then some (s, c)
    else if ← cond c then
      let c' ← c.next
      let (s, c) ← flushIfNeeded (push s c.curIdx) c'
      forwardWhile cond push flushIfNeeded rounds s c
    else some (s, c)

/-! ### What the loops do -/

def NoMore (k : Bytes) (rem : List (Bytes × ρ)) : Prop := ∀ z ∈ rem.head?, z.1 ≠ k

/-- The rows of key `k` in front of `rows` are `run`. -/
structure FrontRun (k : Bytes) (rows run rest : List (Bytes × ρ)) : Prop where
  split : rows = run ++ rest
  keys : ∀ z ∈ run, z.1 = k
  noMore : NoMore k rest

/-- A cursor has passed the rows `run`, all of key `k`, at the indexes `idxs`. -/
structure Passed (hasNulls : Bytes → Bool) (nullRow : ρ) (k : Bytes) (buf : List (List (Bytes × ρ)))
    (rem : List (Bytes × ρ)) (c' : StreamCursor ρ) (buf' : List (List (Bytes × ρ))) (rem' run : List (Bytes × ρ))
    (idxs : List Idx) : Prop where
  rep : Rep hasNulls nullRow c' buf' rem'
  buf : buf <+: buf'
  split : rem = run ++ rem'
  keys : ∀ z ∈ run, z.1 = k
  idxs : Forall₂ (At buf') idxs run

lemma noMore_dropWhile (k : Bytes) (rem : List (Bytes × ρ)) : NoMore k (rem.dropWhile fun z => z.1 = k) := by
  induction rem with
  | nil => simp [NoMore]
  | cons z rem ih =>
    by_cases hz : z.1 = k
    · rwa [dropWhile_cons_of_pos (by simpa using hz)]
    · rw [dropWhile_cons_of_neg (by simpa using hz)]
      simpa [NoMore] using hz

lemma takeWhile_const {γ : Type} (b : Bool) (xs : List γ) : xs.takeWhile (fun _ => b) = if b then xs else [] := by
  cases b <;> cases xs <;> simp

section Loops

variable {hasNulls : Bytes → Bool} {nullRow : ρ} {nullRow₁ : ρ1} {nullRow₂ : ρ2}
  {c : StreamCursor ρ} {buf : List (List (Bytes × ρ))} {rem : List (Bytes × ρ)} {x : Bytes × ρ} {k : Bytes}

lemma Passed.refl (h : Rep hasNulls nullRow c buf rem) : Passed hasNulls nullRow k buf rem c buf rem [] [] :=
  ⟨h, prefix_rfl, rfl, by simp, .nil⟩

lemma Passed.trans {rem' rem'' run run' : List (Bytes × ρ)} {c' c'' : StreamCursor ρ}
    {buf' buf'' : List (List (Bytes × ρ))} {idxs idxs' : List Idx}
    (h : Passed hasNulls nullRow k buf rem c' buf' rem' run idxs)
    (h' : Passed hasNulls nullRow k buf' rem' c'' buf'' rem'' run' idxs') :
    Passed hasNulls nullRow k buf rem c'' buf'' rem'' (run ++ run') (idxs ++ idxs') where
  rep := h'.rep
  buf := h.buf.trans h'.buf
  split := by rw [h.split, h'.split, append_assoc]
  keys := forall_mem_append.2 ⟨h.keys, h'.keys⟩
  idxs := rel_append (h.idxs.imp fun _ _ hx => hx.mono h'.buf) h'.idxs

section FrontRun

variable {c' : StreamCursor ρ} {buf' : List (List (Bytes × ρ))} {rem' run : List (Bytes × ρ)} {idxs : List Idx}
  (h : Passed hasNulls nullRow k buf rem c' buf' rem' run idxs)

include h

lemma Passed.frontRun (hno : NoMore k rem') : FrontRun k rem run rem' := ⟨h.split, h.keys, hno⟩

lemma Passed.frontRun_takeWhile :
    FrontRun k rem (run ++ rem'.takeWhile fun z => z.1 = k) (rem'.dropWhile fun z => z.1 = k) where
  split := by rw [append_assoc, takeWhile_append_dropWhile, h.split]
  keys := forall_mem_append.2 ⟨h.keys, fun z hz => by simpa using mem_takeWhile_imp hz⟩
  noMore := noMore_dropWhile k rem'

end FrontRun

lemma Passed.next (h : Rep hasNulls nullRow c buf (x :: rem)) (hk : x.1 = k) :
    ∃ c' buf', c.next = some c' ∧ Passed hasNulls nullRow k buf (x :: rem) c' buf' rem [x] [c.curIdx] := by
  obtain ⟨c', buf', hnext, hrep, hpre⟩ := h.next
  exact ⟨c', buf', hnext, hrep, hpre, rfl, by simp [hk], .cons (h.at_cur.mono hpre) .nil⟩

lemma advanceEqual_spec (onEqual : σ → Idx → σ) {keyIdx : Idx} (s : σ) (h : Rep hasNulls nullRow c buf rem)
    (hx : At buf keyIdx x) :
    ∃ c' buf' rem' run idxs more,
      advanceEqual onEqual keyIdx s c = some (idxs.foldl onEqual s, c', more) ∧
      Passed hasNulls nullRow x.1 buf rem c' buf' rem' run idxs ∧
      (more = true → run ≠ []) ∧ (more = false → NoMore x.1 rem') := by
  unfold advanceEqual
  rw [h.finished_eq]
  cases rem with
  | nil => exact ⟨c, buf, [], [], [], false, rfl, .refl h, by simp, by simp [NoMore]⟩
  | cons z rem =>
    have hkey := h.key_at hx
    by_cases hz : z.1 = x.1
    · obtain ⟨c', buf', hnext, hpass⟩ := Passed.next h hz
      exact ⟨c', buf', rem, [z], [c.curIdx], true, by simp [h.curKey_eq, hkey, hz, hnext], hpass, by simp, by simp⟩
    · exact ⟨c, buf, z :: rem, [], [], false, by simp [h.curKey_eq, hkey, hz], .refl h, by simp, by simp [NoMore, hz]⟩

lemma foldl_foldl_comm {f g : σ → Idx → σ} (hcomm : ∀ s i j, g (f s i) j = f (g s j) i) (is js : List Idx) (s : σ) :
    is.foldl f (js.foldl g s) = js.foldl g (is.foldl f s) := by
  have hone : ∀ s j, is.foldl f (g s j) = g (is.foldl f s) j := fun s j =>
    foldl_hom (fun s => g s j) (fun s i => (hcomm s i j).symm)
  exact (foldl_hom (fun s => is.foldl f s) (fun s j => (hone s j).symm)).symm

/-- **The scan** passes a run of rows of the key on either side.  At least one of the two runs is then complete; on the
other side at least one row was passed.  The actions on the two sides must not disturb each other. -/
theorem scanEqual_spec (onLeft onRight : σ → Idx → σ)
    (hcomm : ∀ s i j, onRight (onLeft s i) j = onLeft (onRight s j) i)
    {lKeyIdx rKeyIdx : Idx} {x : Bytes × ρ1} {y : Bytes × ρ2} (hxy : x.1 = y.1) :
    ∀ (rounds : ℕ) (s : σ) {c1 : StreamCursor ρ1} {c2 : StreamCursor ρ2} {buf1 : List (List (Bytes × ρ1))}
      {buf2 : List (List (Bytes × ρ2))} {L : List (Bytes × ρ1)} {R : List (Bytes × ρ2)},
      Rep hasNulls nullRow₁ c1 buf1 L → Rep hasNulls nullRow₂ c2 buf2 R → At buf1 lKeyIdx x → At buf2 rKeyIdx y →
      L.length < rounds →
      ∃ c1' c2' buf1' buf2' L' R' runL runR il ir lEqual rEqual,
        scanEqual onLeft onRight lKeyIdx rKeyIdx rounds s c1 c2 =
          some (ir.foldl onRight (il.foldl onLeft s), c1', c2', lEqual, rEqual) ∧
        Passed hasNulls nullRow₁ x.1 buf1 L c1' buf1' L' runL il ∧
        Passed hasNulls nullRow₂ x.1 buf2 R c2' buf2' R' runR ir ∧
        (lEqual = true → runL ≠ []) ∧ (rEqual = true → runR ≠ []) ∧
        (lEqual = false → NoMore x.1 L') ∧ (rEqual = false → NoMore x.1 R') ∧ (lEqual && rEqual) = false
  | 0, _, _, _, _, _, _, _, _, _, _, _, hrounds => absurd hrounds (by simp)
  | rounds + 1, s, c1, c2, buf1, buf2, L, R, h1, h2, hx, hy, hrounds => by
    obtain ⟨c1', buf1', L', runL, il, lEqual, hl, hpl, hlt, hlf⟩ := advanceEqual_spec onLeft s h1 hx
    obtain ⟨c2', buf2', R', runR, ir, rEqual, hr, hpr, hrt, hrf⟩ :=
      advanceEqual_spec onRight (il.foldl onLeft s) h2 hy
    rw [← hxy] at hpr hrf
    by_cases hboth : (lEqual && rEqual) = true
    · -- both sides have passed a row: go on from there
      have hrun : runL ≠ [] := hlt (by simp_all)
      have hlen : L'.length < rounds := by
        have := congrArg length hpl.split
        have := length_pos_iff.2 hrun
        rw [length_append] at *
        omega
      obtain ⟨c1'', c2'', buf1'', buf2'', L'', R'', runL', runR', il', ir', lEqual', rEqual', hs, hpl', hpr', _, _,
        hlf', hrf', hne⟩ :=
      scanEqual_spec onLeft onRight hcomm hxy rounds (ir.foldl onRight (il.foldl onLeft s)) hpl.rep hpr.rep
          (hx.mono hpl.buf) (hy.mono hpr.buf) hlen
      refine ⟨c1'', c2'', buf1'', buf2'', L'', R'', runL ++ runL', runR ++ runR', il ++ il', ir ++ ir', lEqual', rEqual',
        ?_, hpl.trans hpl', hpr.trans hpr', fun _ => by simp [hrun], fun _ => ?_, hlf', hrf', hne⟩
      · rw [scanEqual, hl]
        simp only [bind_eq_bind, bind_some, hr, hboth, if_true, hs, foldl_append, foldl_foldl_comm hcomm il' ir]
      · simp [hrt (by simp_all)]
    · refine ⟨c1', c2', buf1', buf2', L', R', runL, runR, il, ir, lEqual, rEqual, ?_, hpl, hpr, hlt, hrt, hlf, hrf,
        by simpa using hboth⟩
      rw [scanEqual, hl]
      simp only [bind_eq_bind, bind_some, hr, hboth]
      rfl

/-- **The moving loop** passes the rows up to the first that fails the condition.  `P` is what is known of the state, over
the buffered batches and the rows passed so far. -/
theorem forwardWhile_spec (cond : StreamCursor ρ → Option Bool) (push : σ → Idx → σ)
    (flushIfNeeded : σ → StreamCursor ρ → Option (σ × StreamCursor ρ)) (p : Bytes × ρ → Bool)
    (P : σ → List (List (Bytes × ρ)) → List (Bytes × ρ) → Prop)
    (hcond : ∀ {c buf x rem}, Rep hasNulls nullRow c buf (x :: rem) → cond c = some (p x))
    (hpush : ∀ {s buf buf' xs idx x}, P s buf xs → buf <+: buf' → At buf' idx x → P (push s idx) buf' (xs ++ [x]))
    (hflush : ∀ {s c buf rem xs}, Rep hasNulls nullRow c buf rem → P s buf xs →
      ∃ s' c' buf', flushIfNeeded s c = some (s', c') ∧ Rep hasNulls nullRow c' buf' rem ∧ P s' buf' xs) :
    ∀ (rounds : ℕ) (xs : List (Bytes × ρ)) {s : σ} {c : StreamCursor ρ} {buf : List (List (Bytes × ρ))}
      {rem : List (Bytes × ρ)},
      Rep hasNulls nullRow c buf rem → P s buf xs → rem.length < rounds →
      ∃ s' c' buf', forwardWhile cond push flushIfNeeded rounds s c = some (s', c') ∧
        Rep hasNulls nullRow c' buf' (rem.dropWhile p) ∧ P s' buf' (xs ++ rem.takeWhile p)
  | 0, _, _, _, _, _, _, _, hrounds => absurd hrounds (by simp)
  | rounds + 1, xs, s, c, buf, rem, h, hP, hrounds => by
    rw [forwardWhile, h.finished_eq]
    cases rem with
    | nil => exact ⟨s, c, buf, rfl, h, by simpa using hP⟩
    | cons x rem =>
      simp only [isEmpty_cons, Bool.false_eq_true, if_false, hcond h, bind_eq_bind, bind_some]
      by_cases hx : p x = true
      · obtain ⟨_, _, hnext, hrep, hpre⟩ := h.next
        obtain ⟨_, _, _, hf, hrep', hP'⟩ := hflush hrep (hpush hP hpre (h.at_cur.mono hpre))
        obtain ⟨s'', c''', buf''', hrun, _, _⟩ :=
          forwardWhile_spec cond push flushIfNeeded p P hcond hpush hflush rounds _ hrep' hP'
            (by simpa using hrounds)
        refine ⟨s'', c''', buf''', ?_, ?_, ?_⟩
        · simp [hx, hnext, hf, hrun]
        · rwa [dropWhile_cons_of_pos hx]
        · rwa [takeWhile_cons_of_pos hx, append_cons]
      · refine ⟨s, c, buf, by simp [hx], ?_, ?_⟩
        · rwa [dropWhile_cons_of_neg hx]
        · rwa [takeWhile_cons_of_neg hx, append_nil]

end Loops

/-! ### Matching rows of sorted streams -/

/-- The keys of two rows match: equal, and no component null. -/
def keyMatch (hasNulls : Bytes → Bool) (x : Bytes × ρ1) (y : Bytes × ρ2) : Bool :=
  !hasNulls x.1 && !hasNulls y.1 && x.1 == y.1

lemma KeyEncoding.keyMatch_keyed {n : ℕ} {κ : Fin n → Type} [∀ i, DecidableEq (κ i)] (E : KeyEncoding κ)
    (x : Key κ × ρ1) (y : Key κ × ρ2) : keyMatch E.hasNulls (E.keyed x) (E.keyed y) = partners x.1 y.1 := by
  simp only [keyMatch, KeyEncoding.keyed, partners, E.hasNulls_encode, Bool.beq_eq_decide_eq,
    E.encode_injective.eq_iff]

def SortedByKey (xs : List (Bytes × ρ)) : Prop := xs.Pairwise fun a b => a.1 ≤ b.1

instance (xs : List (Bytes × ρ)) : Decidable (SortedByKey xs) :=
  inferInstanceAs (Decidable (xs.Pairwise fun a b => a.1 ≤ b.1))

section Sorted

variable {hasNulls : Bytes → Bool} {nullRow₁ : ρ1} {nullRow₂ : ρ2} {x : Bytes × ρ1} {y : Bytes × ρ2}
  {L L' run : List (Bytes × ρ1)} {R R' : List (Bytes × ρ2)}

lemma compareCursor_cases {c1 : StreamCursor ρ1} {c2 : StreamCursor ρ2} {buf1 : List (List (Bytes × ρ1))}
    {buf2 : List (List (Bytes × ρ2))} (h1 : Rep hasNulls nullRow₁ c1 buf1 (x :: L))
    (h2 : Rep hasNulls nullRow₂ c2 buf2 (y :: R)) :
    (compareCursor c1 c2 = some .lt ∧ (hasNulls x.1 = true ∨ x.1 < y.1)) ∨
    (compareCursor c1 c2 = some .gt ∧ (hasNulls y.1 = true ∨ y.1 < x.1)) ∨
    (compareCursor c1 c2 = some .eq ∧ hasNulls x.1 = false ∧ x.1 = y.1) := by
  have hcompare : compareCursor c1 c2 =
      some (if hasNulls x.1 then .lt else if hasNulls y.1 then .gt else cmpRow x.1 y.1) := by
    unfold compareCursor
    simp only [h1.isNullKey_at h1.at_cur, h2.isNullKey_at h2.at_cur, h1.key_at h1.at_cur, h2.key_at h2.at_cur,
      bind_eq_bind, bind_some]
    split_ifs <;> rfl
  rw [hcompare]
  by_cases hx : hasNulls x.1 = true
  · simp [hx]
  by_cases hy : hasNulls y.1 = true
  · simp [hx, hy]
  by_cases hlt : x.1 < y.1
  · left
    simp [hy, cmpRow, hlt]
  by_cases heq : x.1 = y.1
  · right; right
    simp [heq ▸ hx, cmpRow, heq]
  · right; left
    have hgt : y.1 < x.1 := lt_of_le_of_ne (not_lt.1 hlt) (Ne.symm heq)
    simp [hx, cmpRow, hlt, heq, hgt]

lemma apart_of_lt (hR : SortedByKey (y :: R)) (h : hasNulls x.1 = true ∨ x.1 < y.1) :
    Apart (keyMatch hasNulls) [x] (y :: R) := by
  intro a ha b hb
  rw [mem_singleton] at ha
  subst ha
  rcases h with hnull | hlt
  · simp [keyMatch, hnull]
  · have hyb : y.1 ≤ b.1 := by
      rcases mem_cons.1 hb with rfl | hb
      · exact le_refl _
      · exact (pairwise_cons.1 hR).1 b hb
    have hne : a.1 ≠ b.1 := (lt_of_lt_of_le hlt hyb).ne
    simp [keyMatch, hne]

lemma keyMatch_swap (hasNulls : Bytes → Bool) :
    (fun (y : Bytes × ρ2) (x : Bytes × ρ1) => keyMatch hasNulls x y) = keyMatch hasNulls := by
  funext y x
  unfold keyMatch
  rw [Bool.and_comm (!hasNulls x.1), BEq.comm]

lemma apart_of_gt (hL : SortedByKey (x :: L)) (h : hasNulls y.1 = true ∨ y.1 < x.1) :
    Apart (keyMatch hasNulls) (x :: L) [y] := by
  have := (apart_of_lt hL h).swap
  rwa [keyMatch_swap] at this

variable {k : Bytes}

lemma FrontRun.ne (h : FrontRun k L run L') (hs : SortedByKey L) (hne : run ≠ []) : ∀ z ∈ L', z.1 ≠ k := by
  intro z hz
  rw [h.split] at hs
  cases L' with
  | nil => cases hz
  | cons w L' =>
    obtain ⟨x, _, rfl⟩ := exists_cons_of_ne_nil hne
    have hx : x.1 = k := h.keys x mem_cons_self
    have hkw : k < w.1 := by
      have hle : x.1 ≤ w.1 := (pairwise_append.1 hs).2.2 x mem_cons_self w mem_cons_self
      exact lt_of_le_of_ne (hx ▸ hle) (h.noMore w rfl).symm
    rcases mem_cons.1 hz with rfl | hz
    · exact hkw.ne'
    · have hwz : w.1 ≤ z.1 := (pairwise_cons.1 (pairwise_append.1 hs).2.1).1 z hz
      exact (lt_of_lt_of_le hkw hwz).ne'

lemma apart_of_keys_ne {L : List (Bytes × ρ1)} {R : List (Bytes × ρ2)} (hL : ∀ z ∈ L, z.1 = k)
    (hR : ∀ z ∈ R, z.1 ≠ k) : Apart (keyMatch hasNulls) L R := by
  intro a ha b hb
  have hne : a.1 ≠ b.1 := fun h => hR b hb (h ▸ hL a ha)
  simp [keyMatch, hne]

lemma together_of_keys_eq (hk : hasNulls k = false) (hL : ∀ z ∈ L, z.1 = k) (hR : ∀ z ∈ R, z.1 = k) :
    Together (keyMatch hasNulls) L R := by
  intro a ha b hb
  simp [keyMatch, hL a ha, hR b hb, hk]

end Sorted

/-! ### Merge joiners -/

/-- What a joiner notes: `Inv` says which output its state stands for, over the batches that the cursors buffer.  That
stays true when batches come, and after a flush it does not depend on them. -/
structure Notes (ρ1 ρ2 σ ο : Type) where
  hasNulls : Bytes → Bool
  nullRow₁ : ρ1
  nullRow₂ : ρ2
  flush : σ → StreamCursor ρ1 → StreamCursor ρ2 → Option σ
  Inv : List (List (Bytes × ρ1)) → List (List (Bytes × ρ2)) → σ → List ο → Prop
  mono : ∀ {buf1 buf1' buf2 buf2' s out}, Inv buf1 buf2 s out → buf1 <+: buf1' → buf2 <+: buf2' → Inv buf1' buf2' s out
  flush_spec : ∀ {buf1 buf2 s out c1 c2 L R}, Inv buf1 buf2 s out → Rep hasNulls nullRow₁ c1 buf1 L →
    Rep hasNulls nullRow₂ c2 buf2 R → ∃ s', flush s c1 c2 = some s' ∧ ∀ buf1' buf2', Inv buf1' buf2' s' out

variable {ο : Type} {s : σ} {c1 : StreamCursor ρ1} {c2 : StreamCursor ρ2} {buf1 : List (List (Bytes × ρ1))}
  {buf2 : List (List (Bytes × ρ2))} {L L0 : List (Bytes × ρ1)} {R R0 : List (Bytes × ρ2)} {out : List ο}

namespace Notes

variable (N : Notes ρ1 ρ2 σ ο)

/-- The cursors stand for the rows `L` and `R` that are left, and the notes for `out`. -/
def Holds (s : σ) (c1 : StreamCursor ρ1) (c2 : StreamCursor ρ2) (L : List (Bytes × ρ1))
    (R : List (Bytes × ρ2)) (out : List ο) : Prop :=
  ∃ buf1 buf2, Rep N.hasNulls N.nullRow₁ c1 buf1 L ∧ Rep N.hasNulls N.nullRow₂ c2 buf2 R ∧ N.Inv buf1 buf2 s out

/-- The flush and the clean of both cursors, if they are due. -/
def flushIf (due : Bool) (s : σ) (c1 : StreamCursor ρ1) (c2 : StreamCursor ρ2) :
    Option (σ × StreamCursor ρ1 × StreamCursor ρ2) := do
  if due then some (← N.flush s c1 c2, c1.cleanOutDatedBatches, c2.cleanOutDatedBatches) else some (s, c1, c2)

lemma flushIf_spec (due : Bool) (h : N.Holds s c1 c2 L R out) :
    ∃ s' c1' c2', N.flushIf due s c1 c2 = some (s', c1', c2') ∧ N.Holds s' c1' c2' L R out := by
  cases due with
  | false => exact ⟨s, c1, c2, rfl, h⟩
  | true =>
    obtain ⟨_, _, h1, h2, hs⟩ := h
    obtain ⟨s', hflush, hs'⟩ := N.flush_spec hs h1 h2
    obtain ⟨buf1', hclean1⟩ := h1.clean
    obtain ⟨buf2', hclean2⟩ := h2.clean
    exact ⟨s', _, _, by simp [flushIf, hflush], buf1', buf2', hclean1, hclean2, hs' _ _⟩

@[reducible] def swap : Notes ρ2 ρ1 σ ο where
  hasNulls := N.hasNulls
  nullRow₁ := N.nullRow₂
  nullRow₂ := N.nullRow₁
  flush s c2 c1 := N.flush s c1 c2
  Inv buf2 buf1 := N.Inv buf1 buf2
  mono h h2 h1 := N.mono h h1 h2
  flush_spec h h2 h1 := by
    obtain ⟨s', hflush, hs'⟩ := N.flush_spec h h1 h2
    exact ⟨s', hflush, fun _ _ => hs' _ _⟩

/-- Rows of the left side passed by a moving loop; `f` is the output of those passed so far. -/
lemma forward {cond : StreamCursor ρ1 → Option Bool} {push : σ → Idx → σ}
    {due : σ → StreamCursor ρ1 → Bool} {p : Bytes × ρ1 → Bool} (f : List (Bytes × ρ1) → List ο)
    (h1 : Rep N.hasNulls N.nullRow₁ c1 buf1 L) (h2 : Rep N.hasNulls N.nullRow₂ c2 buf2 R) (h : N.Inv buf1 buf2 s (f []))
    (hcond : ∀ {c buf x rem}, Rep N.hasNulls N.nullRow₁ c buf (x :: rem) → cond c = some (p x))
    (hpush : ∀ {s buf xs idx x}, N.Inv buf buf2 s (f xs) → At buf idx x → N.Inv buf buf2 (push s idx) (f (xs ++ [x]))) :
    ∃ s' c1' buf1', forwardWhile cond push
        (fun s c1 => do if due s c1 then some (← N.flush s c1 c2, c1.cleanOutDatedBatches) else some (s, c1))
        (c1.rowsBound + 1) s c1 = some (s', c1') ∧
      Rep N.hasNulls N.nullRow₁ c1' buf1' (L.dropWhile p) ∧ N.Inv buf1' buf2 s' (f (L.takeWhile p)) :=
  forwardWhile_spec _ _ _ p (fun s buf xs => N.Inv buf buf2 s (f xs)) hcond
    (fun hs hpre hx => hpush (N.mono hs hpre prefix_rfl) hx)
    (fun {s c buf xs rem} hrep hs => by
      cases due s c with
      | false => exact ⟨s, c, buf, by simp, hrep, hs⟩
      | true =>
        -- what is known after a flush does not depend on the batches that the clean drops
        obtain ⟨s', hflush, hs'⟩ := N.flush_spec hs hrep h2
        obtain ⟨buf', hclean⟩ := hrep.clean
        exact ⟨s', _, buf', by simp [hflush], hclean, hs' buf' buf2⟩)
    (c1.rowsBound + 1) [] h1 h (Nat.lt_succ_of_le h1.length_le)

end Notes

/-- What the joiners do in the branches of a round, and what it adds to the output: what they do to two pieces of the
streams that do not match each other's rest is what they do to both together. -/
structure MergeJoiner (ρ1 ρ2 σ ο : Type) extends Notes ρ1 ρ2 σ ο where
  due : σ → StreamCursor ρ1 → StreamCursor ρ2 → Bool
  onLt : σ → Idx → σ
  onGt : σ → Idx → σ
  equal : σ → StreamCursor ρ1 → StreamCursor ρ2 → Option (σ × StreamCursor ρ1 × StreamCursor ρ2)
  join : List (Bytes × ρ1) → List (Bytes × ρ2) → List ο
  join_nil : join [] [] = []
  join_append : ∀ {buf1 buf2 s as as' bs bs'}, Apart (keyMatch hasNulls) as bs' → Apart (keyMatch hasNulls) as' bs →
    Inv buf1 buf2 s (join as bs ++ join as' bs') → Inv buf1 buf2 s (join (as ++ as') (bs ++ bs'))
  onLt_spec : ∀ {buf1 buf2 s out idx x}, Inv buf1 buf2 s out → At buf1 idx x →
    Inv buf1 buf2 (onLt s idx) (out ++ join [x] [])
  onGt_spec : ∀ {buf1 buf2 s out idx y}, Inv buf1 buf2 s out → At buf2 idx y →
    Inv buf1 buf2 (onGt s idx) (out ++ join [] [y])
  equal_spec : ∀ {buf1 buf2 s out c1 c2 x y L R}, Inv buf1 buf2 s out → Rep hasNulls nullRow₁ c1 buf1 (x :: L) →
    Rep hasNulls nullRow₂ c2 buf2 (y :: R) → x.1 = y.1 → hasNulls x.1 = false →
    ∃ s' c1' c2' runL L' runR R', equal s c1 c2 = some (s', c1', c2') ∧
      toNotes.Holds s' c1' c2' L' R' (out ++ join (x :: runL) (y :: runR)) ∧
      FrontRun x.1 (x :: L) (x :: runL) L' ∧ FrontRun x.1 (y :: R) (y :: runR) R'

namespace MergeJoiner

def round (M : MergeJoiner ρ1 ρ2 σ ο) (s : σ) (c1 : StreamCursor ρ1) (c2 : StreamCursor ρ2) :
    Option (σ × StreamCursor ρ1 × StreamCursor ρ2) := do
  let (s, c1, c2) ← M.flushIf (M.due s c1 c2) s c1 c2
  match ← compareCursor c1 c2 with
  | .lt => some (M.onLt s c1.curIdx, ← c1.next, c2)
  | .gt => some (M.onGt s c2.curIdx, c1, ← c2.next)
  | .eq => M.equal s c1 c2

/-- **A round of the main loop** takes a piece off the front of each side, `as` and `bs`, that matches nothing behind the
other piece, and joins the two. -/
theorem round_spec (M : MergeJoiner ρ1 ρ2 σ ο) {x : Bytes × ρ1} {y : Bytes × ρ2}
    (h : M.Holds s c1 c2 (x :: L) (y :: R) out) (hL : SortedByKey (x :: L)) (hR : SortedByKey (y :: R)) :
    ∃ s' c1' c2' as L' bs R', M.round s c1 c2 = some (s', c1', c2') ∧
      M.Holds s' c1' c2' L' R' (out ++ M.join as bs) ∧ x :: L = as ++ L' ∧ y :: R = bs ++ R' ∧
      0 < as.length + bs.length ∧ Apart (keyMatch M.hasNulls) as R' ∧ Apart (keyMatch M.hasNulls) L' bs := by
  obtain ⟨_, c11, c21, hflush, buf1, buf2, h1, h2, hs⟩ := M.flushIf_spec (M.due s c1 c2) h
  unfold round
  rw [hflush, bind_eq_bind]
  rcases compareCursor_cases h1 h2 with ⟨hcmp, hless⟩ | ⟨hcmp, hgreater⟩ | ⟨hcmp, hnull, hxy⟩
  · obtain ⟨c1', buf1', hnext, hrep, hpre⟩ := h1.next
    exact ⟨_, c1', c21, [x], L, [], y :: R, by simp [hcmp, hnext],
      ⟨buf1', buf2, hrep, h2, M.onLt_spec (M.mono hs hpre prefix_rfl) (h1.at_cur.mono hpre)⟩, rfl, rfl, by simp,
      apart_of_lt hR hless, by simp [Apart]⟩
  · obtain ⟨c2', buf2', hnext, hrep, hpre⟩ := h2.next
    exact ⟨_, c11, c2', [], x :: L, [y], R, by simp [hcmp, hnext],
      ⟨buf1, buf2', h1, hrep, M.onGt_spec (M.mono hs prefix_rfl hpre) (h2.at_cur.mono hpre)⟩, rfl, rfl, by simp,
      by simp [Apart], apart_of_gt hL hgreater⟩
  · obtain ⟨s', c1', c2', runL, L', runR, R', hequal, h', hl, hr⟩ := M.equal_spec hs h1 h2 hxy hnull
    have hapart : Apart (keyMatch M.hasNulls) (y :: runR) L' := apart_of_keys_ne hr.keys (hl.ne hL (cons_ne_nil _ _))
    exact ⟨s', c1', c2', x :: runL, L', y :: runR, R', by simp [hcmp, hequal], h', hl.split, hr.split, by simp,
      apart_of_keys_ne hl.keys (hr.ne hR (cons_ne_nil _ _)), by simpa only [keyMatch_swap] using hapart.swap⟩

/-- The rows `as` and `bs` in front of those that are left are joined, and match nothing of the other side's rest. -/
structure Before (M : MergeJoiner ρ1 ρ2 σ ο) (L0 : List (Bytes × ρ1)) (R0 : List (Bytes × ρ2)) (s : σ)
    (c1 : StreamCursor ρ1) (c2 : StreamCursor ρ2) (as L : List (Bytes × ρ1)) (bs R : List (Bytes × ρ2)) : Prop where
  holds : M.Holds s c1 c2 L R (M.join as bs)
  left : L0 = as ++ L
  right : R0 = bs ++ R
  apart₁ : Apart (keyMatch M.hasNulls) as R
  apart₂ : Apart (keyMatch M.hasNulls) L bs

/-- **The main loop** ends with one side finished, and the rows that were passed are joined. -/
theorem loop_spec (M : MergeJoiner ρ1 ρ2 σ ο)
    (loop : ℕ → σ → StreamCursor ρ1 → StreamCursor ρ2 → Option (σ × StreamCursor ρ1 × StreamCursor ρ2))
    (hloop : ∀ rounds s c1 c2, loop (rounds + 1) s c1 c2 = do
      if c1.finished || c2.finished then some (s, c1, c2)
      else
        let (s, c1, c2) ← M.round s c1 c2
        loop rounds s c1 c2) (hL0 : SortedByKey L0) (hR0 : SortedByKey R0) :
    ∀ (rounds : ℕ) {s : σ} {c1 : StreamCursor ρ1} {c2 : StreamCursor ρ2} {as L : List (Bytes × ρ1)}
      {bs R : List (Bytes × ρ2)}, M.Before L0 R0 s c1 c2 as L bs R → L.length + R.length < rounds →
      ∃ s' c1' c2' as' L' bs' R', loop rounds s c1 c2 = some (s', c1', c2') ∧
        M.Before L0 R0 s' c1' c2' as' L' bs' R' ∧ (L' = [] ∨ R' = [])
  | 0, _, _, _, _, _, _, _, _, hrounds => absurd hrounds (by simp)
  | rounds + 1, s, c1, c2, as, L, bs, R, h, hrounds => by
    have hfin : c1.finished = L.isEmpty ∧ c2.finished = R.isEmpty := by
      obtain ⟨buf1, buf2, h1, h2, -⟩ := h.holds
      exact ⟨h1.finished_eq, h2.finished_eq⟩
    rw [hloop, hfin.1, hfin.2]
    match L, R with
    | [], R => exact ⟨s, c1, c2, as, [], bs, R, rfl, h, .inl rfl⟩
    | x :: L, [] => exact ⟨s, c1, c2, as, x :: L, bs, [], rfl, h, .inr rfl⟩
    | x :: L, y :: R =>
      obtain ⟨s', c1', c2', as', L', bs', R', hround, ⟨buf1, buf2, h1, h2, hs⟩, hsl, hsr, _, hap1', hap2'⟩ :=
        M.round_spec h.holds (pairwise_append.1 (h.left ▸ hL0)).2.1 (pairwise_append.1 (h.right ▸ hR0)).2.1
      obtain ⟨-, hl, hr, hap1, hap2⟩ := h
      rw [hsl] at hl hap2 hrounds
      rw [hsr] at hr hap1 hrounds
      -- the pieces of this round match nothing of what was passed before
      have hs' := M.join_append (fun a ha b hb => hap1 a ha b (mem_append_left _ hb))
        (fun a ha b hb => hap2 a (mem_append_left _ ha) b hb) hs
      have hnext : M.Before L0 R0 s' c1' c2' (as ++ as') L' (bs ++ bs') R' := by
        refine ⟨⟨buf1, buf2, h1, h2, hs'⟩, by rw [hl, append_assoc], by rw [hr, append_assoc],
          fun a ha b hb => ?_, fun a ha b hb => ?_⟩
        · rcases mem_append.1 ha with ha | ha
          · exact hap1 a ha b (mem_append_right _ hb)
          · exact hap1' a ha b hb
        · rcases mem_append.1 hb with hb | hb
          · exact hap2 a (mem_append_right _ ha) b hb
          · exact hap2' a ha b hb
      obtain ⟨s'', c1'', c2'', as'', L'', bs'', R'', hrun, hrest⟩ := loop_spec M loop hloop hL0 hR0 rounds hnext
        (by simp only [length_append] at hrounds; omega)
      exact ⟨s'', c1'', c2'', as'', L'', bs'', R'', by simp [hround, hrun], hrest⟩

lemma Before.rest {M : MergeJoiner ρ1 ρ2 σ ο} {s' : σ} {as : List (Bytes × ρ1)} {bs : List (Bytes × ρ2)}
    (h : M.Before L0 R0 s c1 c2 as L bs R) (hend : L = [] ∨ R = [])
    (hs : M.Inv buf1 buf2 s' (M.join as bs ++ M.join L [] ++ M.join [] R)) : M.Inv buf1 buf2 s' (M.join L0 R0) := by
  rw [h.left, h.right]
  refine M.join_append h.apart₁ h.apart₂ ?_
  rcases hend with rfl | rfl
  · rwa [M.join_nil, append_nil] at hs
  · rwa [M.join_nil, append_nil] at hs

end MergeJoiner

end Auron.Joins

import Mathlib.Data.List.Forall2

/-!
# Programs that read

A program that is generic in its source asks for a number of elements at a time and goes on with what it gets; a failing
read ends it.  `Reads` is such a program, `Source` says how one read is served, and `run` runs the one on the other.

The plain source is a list together with the error a read behind its end gives.  `Parses p xs a` says that `p` reads `xs`
and returns `a`, whatever comes behind; on a proper prefix of `xs` it then ends with the error of the source
(`Parses.truncated`).  Any other source that delivers the elements of a list can be put in the place of the list
(`run_of_delivers`).
-/

namespace Auron.Lib

open List

variable {β ε α γ σ : Type}

/-- A program that reads elements of `β`, fails with an `ε` or returns an `α`. -/
inductive Reads (β ε α : Type) where
  | ret (a : α)
  | fail (e : ε)
  | need (n : ℕ) (k : List β → Reads β ε α)

namespace Reads

def bind : Reads β ε α → (α → Reads β ε γ) → Reads β ε γ
  | ret a, f => f a
  | fail e, _ => fail e
  | need n k, f => need n fun xs => (k xs).bind f

instance : Monad (Reads β ε) where
  pure := ret
  bind := bind

/-- `n` elements. -/
def exact (n : ℕ) : Reads β ε (List β) := need n ret

/-- The same program some times, with the list of its results. -/
def times (p : Reads β ε α) : ℕ → Reads β ε (List α)
  | 0 => pure []
  | n + 1 => do
    let a ← p
    let as ← times p n
    pure (a :: as)

end Reads

structure Source (β ε σ : Type) where
  readExact : ℕ → σ → Except ε (List β × σ)

def Reads.run (S : Source β ε σ) : Reads β ε α → σ → Except ε (α × σ)
  | ret a, s => .ok (a, s)
  | fail e, _ => .error e
  | need n k, s =>
    match S.readExact n s with
    | .error e => .error e
    | .ok (xs, s) => (k xs).run S s

namespace Reads

section Run

variable (S : Source β ε σ)

@[simp] lemma run_pure (a : α) (s : σ) : (pure a : Reads β ε α).run S s = .ok (a, s) := rfl

@[simp] lemma run_fail (e : ε) (s : σ) : (fail e : Reads β ε α).run S s = .error e := rfl

lemma run_exact (n : ℕ) (s : σ) : (exact n).run S s = S.readExact n s := by
  unfold exact
  rw [run]
  cases S.readExact n s with
  | error e => rfl
  | ok r => rfl

@[simp] lemma run_bind (p : Reads β ε α) (f : α → Reads β ε γ) (s : σ) :
    (p >>= f).run S s =
      match p.run S s with
      | .error e => .error e
      | .ok (a, s) => (f a).run S s := by
  show (p.bind f).run S s = _
  induction p generalizing s with
  | ret a => rfl
  | fail e => rfl
  | need n k ih =>
    rw [bind, run, run]
    cases S.readExact n s with
    | error e => rfl
    | ok r => exact ih r.1 r.2

end Run

lemma run_bind_eq_ok {S : Source β ε σ} {p : Reads β ε α} {f : α → Reads β ε γ} {s : σ} {r : γ × σ} :
    (p >>= f).run S s = .ok r ↔ ∃ a s', p.run S s = .ok (a, s') ∧ (f a).run S s' = .ok r := by
  rw [run_bind]
  cases hp : p.run S s with
  | error e => simp
  | ok q =>
    obtain ⟨a, s'⟩ := q
    constructor
    · intro h
      exact ⟨a, s', rfl, h⟩
    · rintro ⟨_, _, h, h'⟩
      cases h
      exact h'

lemma foldlM_keeps {S : Source β ε σ} {f : γ → α → Reads β ε γ} {P : γ → Prop}
    (hstep : ∀ c x s r, P c → (f c x).run S s = .ok r → P r.1) {xs : List α} {c : γ} {s : σ} {r : γ × σ} (hc : P c)
    (h : (xs.foldlM f c).run S s = .ok r) : P r.1 := by
  induction xs generalizing c s with
  | nil =>
    cases h
    exact hc
  | cons x xs ih =>
    obtain ⟨_, _, hx, h⟩ := run_bind_eq_ok.1 h
    exact ih (hstep c x s _ hc hx) h

end Reads

/-! ### Lists as sources -/

/-- A list, and the error of a read that goes behind its end. -/
def Source.list (e : ε) : Source β ε (List β) where
  readExact n xs := if n ≤ xs.length then .ok (xs.take n, xs.drop n) else .error e

namespace Reads

def Parses (p : Reads β ε α) (xs : List β) (a : α) : Prop :=
  ∀ (e : ε) (rest : List β), p.run (Source.list e) (xs ++ rest) = .ok (a, rest)

lemma Parses.pure (a : α) : (Pure.pure a : Reads β ε α).Parses [] a := fun _ _ => rfl

lemma Parses.exact (xs : List β) : (exact xs.length : Reads β ε (List β)).Parses xs xs := by
  intro e _
  rw [run_exact]
  simp [Source.list]

variable {p : Reads β ε α} {f : α → Reads β ε γ} {xs ys : List β} {a : α} {c : γ}

lemma Parses.bind (hp : p.Parses xs a) (hf : (f a).Parses ys c) : (p >>= f).Parses (xs ++ ys) c := by
  intro e rest
  rw [run_bind, append_assoc, hp e]
  exact hf e rest

lemma Parses.bind_last (hp : p.Parses xs a) (hf : (f a).Parses [] c) : (p >>= f).Parses xs c := by
  have h := hp.bind hf
  rwa [append_nil] at h

lemma Parses.bind_first (hp : p.Parses [] a) (hf : (f a).Parses ys c) : (p >>= f).Parses ys c := hp.bind hf

lemma Parses.times {xss : List (List β)} {as : List α} (h : Forall₂ p.Parses xss as) :
    (p.times as.length).Parses xss.flatten as := by
  induction h with
  | nil => exact .pure []
  | cons ha _ ih => exact ha.bind (ih.bind_last (.pure _))

/-- **On a proper prefix of what it parses, a program ends with the error of the source.** -/
theorem Parses.truncated {zs : List β} (hp : p.Parses xs a) (hxs : ys ++ zs = xs) (hzs : zs ≠ []) (e : ε) :
    p.run (Source.list e) ys = .error e := by
  subst hxs
  -- reading behind the prefix would consume too little
  have hrun := hp e []
  clear hp
  rw [append_nil] at hrun
  induction p generalizing ys with
  | ret b =>
    exact absurd (append_eq_nil_iff.1 (congrArg Prod.snd (Except.ok.inj hrun))).2 hzs
  | fail e => cases hrun
  | need n k ih =>
    rw [run] at hrun ⊢
    by_cases hn : n ≤ ys.length
    · have hn' : n ≤ (ys ++ zs).length := by
        rw [length_append]
        omega
      simp only [Source.list, if_pos hn, if_pos hn'] at hrun ⊢
      rw [take_append_of_le_length hn, drop_append_of_le_length hn] at hrun
      exact ih _ hrun
    · simp [Source.list, hn]

end Reads

/-! ### Other sources -/

/-- The states of a source deliver the elements of a list, and then an error. -/
structure Source.Delivers (S : Source β ε σ) (e : ε) (D : σ → List β → Prop) : Prop where
  enough : ∀ {s xs n}, D s xs → n ≤ xs.length → ∃ s', S.readExact n s = .ok (xs.take n, s') ∧ D s' (xs.drop n)
  short : ∀ {s xs n}, D s xs → xs.length < n → S.readExact n s = .error e

/-- **A source can stand for the list it delivers.** -/
theorem Reads.run_of_delivers {S : Source β ε σ} {e : ε} {D : σ → List β → Prop} (hS : S.Delivers e D) (p : Reads β ε α)
    {s : σ} {xs : List β} (hs : D s xs) :
    match p.run (Source.list e) xs with
    | .ok (a, ys) => ∃ s', p.run S s = .ok (a, s') ∧ D s' ys
    | .error e' => p.run S s = .error e' := by
  induction p generalizing s xs with
  | ret a => exact ⟨s, rfl, hs⟩
  | fail e => rfl
  | need n k ih =>
    rw [run, run]
    by_cases hn : n ≤ xs.length
    · obtain ⟨_, hread, hs'⟩ := hS.enough hs hn
      simp only [Source.list, if_pos hn, hread]
      exact ih _ hs'
    · simp only [Source.list, if_neg hn, hS.short hs (Nat.lt_of_not_le hn)]

end Auron.Lib

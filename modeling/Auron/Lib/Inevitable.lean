import Mathlib.Data.DFinsupp.WellFounded

/-!
# What every run comes to

`Inevitable step P s`: on every run of a transition relation from `s`, whatever the schedule, a state with `P` is reached.
A run that is stuck before does not count as one that reaches it, so this is absence of deadlock and of endless runs at
once.  It is proved by a rank that every step lowers (`inevitable_of_rank`); no assumption of fairness is needed.
-/

namespace Auron.Lib

variable {S M : Type*} {step : S → S → Prop} {P Q Inv : S → Prop}

/-- `P` holds now, or the run can go on and comes to `P` behind every step. -/
inductive Inevitable (step : S → S → Prop) (P : S → Prop) : S → Prop
  | now {s : S} (h : P s) : Inevitable step P s
  | later {s : S} (hgo : ∃ t, step s t) (h : ∀ t, step s t → Inevitable step P t) : Inevitable step P s

/-- A system that is not stuck before `P`, with a rank that every step lowers or that comes to `P`. -/
lemma inevitable_of_rank {r : M → M → Prop} (hr : WellFounded r) (rank : S → M)
    (hinv : ∀ s t, Inv s → step s t → Inv t) (hgo : ∀ s, Inv s → ¬ P s → ∃ t, step s t)
    (hrank : ∀ s t, Inv s → step s t → P t ∨ r (rank t) (rank s)) {s : S} (hs : Inv s) : Inevitable step P s := by
  induction hm : rank s using hr.induction generalizing s with
  | _ m ih =>
    subst hm
    by_cases hP : P s
    · exact .now hP
    · refine .later (hgo s hs hP) fun t hst => ?_
      rcases hrank s t hs hst with hPt | hlt
      · exact .now hPt
      · exact ih (rank t) hlt (hinv s t hs hst) rfl

lemma Inevitable.imp {s : S} (h : Inevitable step P s) (hinv : ∀ s t, Inv s → step s t → Inv t) (hs : Inv s)
    (hPQ : ∀ t, Inv t → P t → Q t) : Inevitable step Q s := by
  induction h with
  | now hP => exact .now (hPQ _ hs hP)
  | later hgo _ ih => exact .later hgo fun t hst => ih t hst (hinv _ t hs hst)

/-- What holds at first and is kept by every step holds in every state that is reached. -/
lemma inv_of_reach {s t : S} (hinv : ∀ s t, Inv s → step s t → Inv t) (hs : Inv s)
    (h : Relation.ReflTransGen step s t) : Inv t := by
  induction h with
  | refl => exact hs
  | tail _ hst ih => exact hinv _ _ ih hst

end Auron.Lib

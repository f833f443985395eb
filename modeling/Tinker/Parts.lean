import Mathlib.Logic.Function.Basic
import Tinker.Simulation

/-! A machine whose steps each go to one of its parts. What the parts share may be in the way of each
other; where it is not, each part does what it does alone with the steps that go to it. -/
namespace Parts

variable {ι K : Type*} [DecidableEq ι] {i j : ι} {k : K} {ls ls' : List (ι × K)}

/-- What goes to one part. -/
def only (i : ι) : List (ι × K) → List K
  | [] => []
  | (j,k) :: ls => if j = i then k :: only i ls else only i ls

@[simp] theorem only_nil (i : ι) : only i ([] : List (ι × K)) = [] := rfl

theorem only_cons (i : ι) (l : ι × K) (ls : List (ι × K)) :
    only i (l :: ls) = if l.1 = i then l.2 :: only i ls else only i ls := rfl

@[simp] theorem only_cons_self (i : ι) (k : K) (ls : List (ι × K)) :
    only i ((i,k) :: ls) = k :: only i ls := if_pos rfl

theorem only_cons_of_ne (hj : j ≠ i) (k : K) (ls : List (ι × K)) :
    only i ((j,k) :: ls) = only i ls := if_neg hj

theorem only_append (i : ι) (ls ls' : List (ι × K)) :
    only i (ls ++ ls') = only i ls ++ only i ls' := by
  induction ls with
  | nil => rfl
  | cons l ls ih =>
    rw [List.cons_append,only_cons,only_cons,ih]
    split <;> rfl

end Parts

namespace Machine

open Outcome Parts

variable {ι S S' K E : Type*} [DecidableEq ι] {M : Machine S (ι × K) E} {N : Machine S' K E}
  {R : S → (ι → S') → Prop} {C : S' → K → Prop}

/-- What the parts do alike at each step they do alike over a run. -/
theorem run_parts
    (henabled : ∀ s p i k, R s p → M.enabled s (i,k) = true → N.enabled (p i) k = true)
    (hnext : ∀ s p i k, R s p → M.enabled s (i,k) = true → C (p i) k →
      Alike (fun t t' => R t (Function.update p i t')) (M.next s (i,k)) (N.next (p i) k))
    {s t : S} {p : ι → S'} {ls : List (ι × K)} (hr : R s p)
    (hc : ∀ i, N.Along C (p i) (only i ls)) (hrun : M.run s ls = some t) :
    ∃ p', R t p' ∧ ∀ i, N.run (p i) (only i ls) = some (p' i) := by
  induction ls generalizing s p with
  | nil =>
    cases hrun
    exact ⟨p,hr,fun _ => rfl⟩
  | cons l ls ih =>
    obtain ⟨j,k⟩ := l
    obtain ⟨s1,hstep,hrest⟩ := M.run_cons.mp hrun
    have hj := hc j
    rw [only_cons_self] at hj
    have henabled' := henabled s p j k hr hstep.1
    have halike := hnext s p j k hr hstep.1 hj.1
    rw [hstep.2] at halike
    cases hpart : N.next (p j) k with
    | error e =>
      rw [hpart] at halike
      cases halike
    | ok q =>
      rw [hpart] at halike
      have hpartStep : N.Step (p j) k q := ⟨henabled',hpart⟩
      have hc' : ∀ i, N.Along C (Function.update p j q i) (only i ls) := by
        intro i
        by_cases hij : j = i
        · subst hij
          rw [Function.update_self]
          exact hj.2 q hpartStep
        · have hi := hc i
          rw [only_cons_of_ne hij] at hi
          rwa [Function.update_of_ne (Ne.symm hij)]
      obtain ⟨p',hr',hruns⟩ := ih halike hc' hrest
      refine ⟨p',hr',fun i => ?_⟩
      have hi := hruns i
      by_cases hij : j = i
      · subst hij
        rw [Function.update_self] at hi
        rw [only_cons_self]
        exact N.run_cons.mpr ⟨q,hpartStep,hi⟩
      · rw [Function.update_of_ne (Ne.symm hij)] at hi
        rwa [only_cons_of_ne hij]

end Machine

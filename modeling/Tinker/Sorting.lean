import Mathlib.Logic.Equiv.Basic
import Mathlib.Tactic.Common

/-! Arrays indexed by integers: what it means that a range is sorted under a comparison function,
that a range has been rearranged, and where a key belongs. -/
namespace Sorting

variable {α : Type*} {cmp : α → α → ℤ} {a a' a'' : ℤ → α} {l r i j p : ℤ}

/-- A comparison function that is a total preorder. -/
structure TotalPreorder (cmp : α → α → ℤ) : Prop where
  swap : ∀ x y, cmp x y < 0 ↔ 0 < cmp y x
  trans : ∀ x y z, cmp x y ≤ 0 → cmp y z ≤ 0 → cmp x z ≤ 0

namespace TotalPreorder

variable (h : TotalPreorder cmp)

include h

theorem refl (x : α) : cmp x x = 0 := by
  have := h.swap x x
  omega

theorem le_iff (x y : α) : cmp x y ≤ 0 ↔ 0 ≤ cmp y x := by
  have := h.swap y x
  omega

theorem lt_of_lt_of_le {x y z : α} (hxy : cmp x y < 0) (hyz : cmp y z ≤ 0) : cmp x z < 0 := by
  by_contra hxz
  have hzx : cmp z x ≤ 0 := (h.le_iff z x).mpr (by omega)
  have hyx := (h.le_iff y x).mp (h.trans y z x hyz hzx)
  omega

theorem lt_of_le_of_lt {x y z : α} (hxy : cmp x y ≤ 0) (hyz : cmp y z < 0) : cmp x z < 0 := by
  by_contra hxz
  have hzx : cmp z x ≤ 0 := (h.le_iff z x).mpr (by omega)
  have hzy := (h.le_iff z y).mp (h.trans z x y hzx hxy)
  omega

end TotalPreorder

def SortedOn (cmp : α → α → ℤ) (a : ℤ → α) (l r : ℤ) : Prop :=
  ∀ i j, l ≤ i → i ≤ j → j ≤ r → cmp (a i) (a j) ≤ 0

theorem SortedOn.single (h : TotalPreorder cmp) (hr : r ≤ l) : SortedOn cmp a l r := by
  intro i j hi hij hj
  obtain rfl : i = j := by omega
  exact Int.le_of_eq (h.refl (a i))

/-- A pivot between two sorted parts. -/
theorem SortedOn.join (h : TotalPreorder cmp) (hl : SortedOn cmp a l (p-1))
    (hr : SortedOn cmp a (p+1) r) (hbelow : ∀ i, l ≤ i → i < p → cmp (a i) (a p) ≤ 0)
    (habove : ∀ j, p < j → j ≤ r → cmp (a p) (a j) ≤ 0) : SortedOn cmp a l r := by
  have hp : ∀ i, l ≤ i → i ≤ p → cmp (a i) (a p) ≤ 0 := by
    intro i hi hip
    rcases Int.lt_or_eq_of_le hip with hlt | rfl
    · exact hbelow i hi hlt
    · exact Int.le_of_eq (h.refl (a i))
  intro i j hi hij hj
  by_cases hjp : j < p
  · exact hl i j hi hij (by omega)
  by_cases hip : p < i
  · exact hr i j (by omega) hij hj
  refine h.trans _ _ _ (hp i hi (by omega)) ?_
  rcases Int.lt_or_eq_of_le (show p ≤ j by omega) with hlt | rfl
  · exact habove j hlt hj
  · exact Int.le_of_eq (h.refl (a p))

/-- The elements of a range change places, and nothing else does. -/
def Rearranged (l r : ℤ) (a a' : ℤ → α) : Prop :=
  ∃ σ : Equiv.Perm ℤ, (∀ i, i < l ∨ r < i → σ i = i) ∧ a' = a ∘ σ

namespace Rearranged

theorem refl (l r : ℤ) (a : ℤ → α) : Rearranged l r a a := ⟨Equiv.refl ℤ,fun _ _ => rfl,rfl⟩

theorem trans (h : Rearranged l r a a') (h' : Rearranged l r a' a'') : Rearranged l r a a'' := by
  rcases h with ⟨σ,hσ,rfl⟩
  rcases h' with ⟨τ,hτ,rfl⟩
  refine ⟨τ.trans σ,fun i hi => ?_,rfl⟩
  rw [Equiv.trans_apply,hτ i hi,hσ i hi]

theorem widen {l' r' : ℤ} (h : Rearranged l r a a') (hl : l' ≤ l) (hr : r ≤ r') :
    Rearranged l' r' a a' := by
  rcases h with ⟨σ,hσ,rfl⟩
  exact ⟨σ,fun i hi => hσ i (by omega),rfl⟩

theorem swap (a : ℤ → α) (hi : l ≤ i) (hi' : i ≤ r) (hj : l ≤ j) (hj' : j ≤ r) :
    Rearranged l r a (a ∘ Equiv.swap i j) :=
  ⟨Equiv.swap i j,fun k hk => Equiv.swap_apply_of_ne_of_ne (by omega) (by omega),rfl⟩

theorem outside (h : Rearranged l r a a') (hi : i < l ∨ r < i) : a' i = a i := by
  rcases h with ⟨σ,hσ,rfl⟩
  exact congrArg a (hσ i hi)

/-- What holds of all elements of the range still does. -/
theorem all {P : α → Prop} (h : Rearranged l r a a') (hP : ∀ i, l ≤ i → i ≤ r → P (a i))
    (hi : l ≤ i) (hi' : i ≤ r) : P (a' i) := by
  rcases h with ⟨σ,hσ,rfl⟩
  have hin : ¬(σ i < l ∨ r < σ i) := by
    intro hout
    have := σ.injective (hσ (σ i) hout)
    omega
  exact hP (σ i) (by omega) (by omega)

end Rearranged

end Sorting

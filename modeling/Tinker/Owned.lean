import Mathlib.Algebra.Order.BigOperators.Group.Finset
import Mathlib.Data.Fintype.Basic

/-! Blocks of memory that are passed between holders. Each block that is allocated is in the hands of
one holder, once; a block that is not is in nobody's. -/
namespace Owned

variable {ι B : Type*} [Fintype ι] {data data' : ℕ → Option B} {held held' : ι → List ℕ} {i j : ι}
  {p : ℕ} {b : B}

def Owns (data : ℕ → Option B) (held : ι → List ℕ) : Prop :=
  ∀ p, ∑ i, (held i).count p = if (data p).isSome then 1 else 0

theorem owns_empty : Owns (fun _ => (none : Option B)) (fun _ : ι => []) := fun p => by simp

theorem Owns.isSome (h : Owns data held) (hp : p ∈ held i) : (data p).isSome = true := by
  by_contra hn
  have hsum := h p
  rw [if_neg hn,Finset.sum_eq_zero_iff] at hsum
  exact Nat.ne_of_gt (List.count_pos_iff.mpr hp) (hsum i (Finset.mem_univ i))

/-- A block that is allocated is in somebody's hands. -/
theorem Owns.exists_holder (h : Owns data held) (hp : (data p).isSome = true) : ∃ i, p ∈ held i := by
  by_contra hn
  rw [not_exists] at hn
  have hsum := h p
  rw [if_pos hp,Finset.sum_eq_zero fun i _ => List.count_eq_zero.mpr (hn i)] at hsum
  cases hsum

theorem Owns.count_le (h : Owns data held) (i : ι) (p : ℕ) : (held i).count p ≤ 1 := by
  have hle := Finset.single_le_sum (f:=fun i => (held i).count p) (fun _ _ => Nat.zero_le _)
    (Finset.mem_univ i)
  have hsum := h p
  split_ifs at hsum <;> omega

theorem Owns.nodup (h : Owns data held) (i : ι) : (held i).Nodup :=
  List.nodup_iff_count_le_one.mpr (h.count_le i)

/-- No block has two holders. -/
theorem Owns.holder_unique (h : Owns data held) (hi : p ∈ held i) (hj : p ∈ held j) : i = j := by
  classical
  by_contra hne
  have hle : ∑ k ∈ {i,j}, (held k).count p ≤ ∑ k, (held k).count p :=
    Finset.sum_le_sum_of_subset (Finset.subset_univ _)
  rw [Finset.sum_pair hne] at hle
  have hi' := List.count_pos_iff.mpr hi
  have hj' := List.count_pos_iff.mpr hj
  have hsum := h p
  split_ifs at hsum <;> omega

/-- Where one holder's blocks change, the sum changes with them. -/
theorem sum_count (hj : ∀ j, j ≠ i → (held' j).Perm (held j)) (p : ℕ) :
    ∑ j, (held' j).count p+(held i).count p = ∑ j, (held j).count p+(held' i).count p := by
  classical
  rw [← Finset.sum_erase_add _ _ (Finset.mem_univ i),
    ← Finset.sum_erase_add (f:=fun j => (held j).count p) _ (Finset.mem_univ i)]
  have hsame : ∑ j ∈ Finset.univ.erase i, (held' j).count p =
      ∑ j ∈ Finset.univ.erase i, (held j).count p := by
    apply Finset.sum_congr rfl
    exact fun j hj' => (hj j (Finset.ne_of_mem_erase hj')).count_eq p
  omega

/-- A new block is given to a holder. -/
theorem Owns.alloc (h : Owns data held) (hp : data p = none) (hi : (held' i).Perm (p :: held i))
    (hj : ∀ j, j ≠ i → (held' j).Perm (held j)) : Owns (Function.update data p (some b)) held' := by
  intro x
  have hsum := sum_count hj x
  have hx := h x
  rw [hi.count_eq,List.count_cons] at hsum
  by_cases hxp : x = p
  · subst hxp
    rw [hp,Option.isSome_none,if_neg Bool.false_ne_true] at hx
    rw [Function.update_self,Option.isSome_some,if_pos rfl]
    simp only [beq_self_eq_true,if_true] at hsum
    omega
  · have hpx : (p == x) = false := beq_false_of_ne (Ne.symm hxp)
    rw [Function.update_of_ne hxp]
    simp only [hpx,Bool.false_eq_true,if_false] at hsum
    omega

/-- A holder gives a block back. -/
theorem Owns.free (h : Owns data held) (hi : (held i).Perm (p :: held' i))
    (hj : ∀ j, j ≠ i → (held' j).Perm (held j)) : Owns (Function.update data p none) held' := by
  intro x
  have hsum := sum_count hj x
  have hx := h x
  rw [hi.count_eq,List.count_cons] at hsum
  by_cases hxp : x = p
  · subst hxp
    have hp := h.isSome (hi.mem_iff.mpr List.mem_cons_self)
    rw [if_pos hp] at hx
    rw [Function.update_self,Option.isSome_none,if_neg Bool.false_ne_true]
    simp only [beq_self_eq_true,if_true] at hsum
    omega
  · have hpx : (p == x) = false := beq_false_of_ne (Ne.symm hxp)
    rw [Function.update_of_ne hxp]
    simp only [hpx,Bool.false_eq_true,if_false] at hsum
    omega

/-- A block goes from one holder to another. -/
theorem Owns.pass (h : Owns data held) (hij : i ≠ j) (hi : (held i).Perm (p :: held' i))
    (hj : (held' j).Perm (p :: held j)) (hk : ∀ k, k ≠ i → k ≠ j → (held' k).Perm (held k)) :
    Owns data held' := by
  classical
  intro x
  have hgone : ∀ k, k ≠ i → (Function.update held i (held' i) k).Perm (held k) :=
    fun k hne => .of_eq (Function.update_of_ne hne _ _)
  have hcome : ∀ k, k ≠ j → (held' k).Perm (Function.update held i (held' i) k) := by
    intro k hne
    by_cases hki : k = i
    · rw [hki,Function.update_self]
    · rw [Function.update_of_ne hki]
      exact hk k hki hne
  have hsum1 := sum_count hgone x
  have hsum2 := sum_count hcome x
  rw [Function.update_self,hi.count_eq] at hsum1
  rw [Function.update_of_ne hij.symm,hj.count_eq] at hsum2
  rw [List.count_cons] at hsum1 hsum2
  have hx := h x
  omega

/-- The holders may keep what they have in another order. -/
theorem Owns.perm (h : Owns data held) (hperm : ∀ i, (held' i).Perm (held i)) : Owns data held' := by
  intro p
  rw [← h p]
  exact Finset.sum_congr rfl fun i _ => (hperm i).count_eq p

/-- What is in the blocks does not matter. -/
theorem Owns.of_isSome {D : Type*} {other : ℕ → Option D} (h : Owns data held)
    (hs : ∀ p, (other p).isSome = (data p).isSome) : Owns other held := fun p => by
  rw [hs p]
  exact h p

end Owned

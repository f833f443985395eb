import Mathlib.Data.Int.Order.Basic
import Mathlib.Logic.Relation
import Tinker.Quicksort

/-! `bsearch` halves the range in which the key can be. Where it ends without an element, the last
midpoint and the last comparison tell where the key belongs; on an empty array there are none. -/
namespace Tinker

open Outcome Sorting

/-- What is before a range is below the key, what is behind it above. -/
structure Between {α : Type} (cmp : α → α → ℤ) (v : α) (a : ℤ → α) (count l r : ℤ) : Prop where
  lo : 0 ≤ l
  hi : r < count
  le : l ≤ r+1
  below : ∀ k, 0 ≤ k → k < l → cmp (a k) v < 0
  above : ∀ k, r < k → k < count → cmp v (a k) < 0

section

variable {α : Type} {cmp : α → α → ℤ} {v : α} {a : ℤ → α} {count n : ℕ} {l r x rc : ℤ}

/-- What a search tells: the place of an equal element, or of the gap that the key belongs to. -/
def Tells (cmp : α → α → ℤ) (v : α) (a : ℤ → α) (count : ℕ) (i : ℤ) : Prop :=
  if 0 ≤ i then i < count ∧ cmp v (a i) = 0
  else Between cmp v a count (-i-1) (-i-1-1)

/-- One round of the loop: the range that is left, unless the midpoint is equal to the key. -/
def Halves (cmp : α → α → ℤ) (v : α) (a : ℤ → α) (x y : ℤ × ℤ) : Prop :=
  x.1 ≤ x.2 ∧ ((cmp v (a ((x.2+x.1)/2)) < 0 ∧ y = (x.1,(x.2+x.1)/2-1)) ∨
    (0 < cmp v (a ((x.2+x.1)/2)) ∧ y = ((x.2+x.1)/2+1,x.2)))

/-- In no range that the search comes to the sum of the ends is too large for an `int`. -/
def SumsFit (cmp : α → α → ℤ) (v : α) (a : ℤ → α) (x : ℤ × ℤ) : Prop :=
  ∀ y, Relation.ReflTransGen (Halves cmp v a) x y → y.1 ≤ y.2 → y.1+y.2 < 2^31

/-- What `x` and `rc` say of the range, once they are set. -/
def Traced (l r x rc : ℤ) : Prop :=
  l ≤ r ∨ (rc < 0 ∧ r = x-1 ∧ l ≤ x) ∨ (0 < rc ∧ l = x+1 ∧ x ≤ r)

theorem mid_eq (hl : 0 ≤ l) (hlr : l ≤ r) (hsum : l+r < 2^31) :
    (toInt32 (r+l)).tdiv 2 = (r+l)/2 := by
  have h32 : toInt32 (r+l) = r+l := toInt32_of_int (by omega) (by omega)
  rw [h32,Int.tdiv_eq_ediv_of_nonneg (by omega)]

/-- Where the sum of the ends wraps, the midpoint is negative. -/
theorem mid_neg (hlr : l ≤ r) (hr : r < 2^31) (hsum : 2^31 ≤ l+r) :
    (toInt32 (r+l)).tdiv 2 < 0 := by
  have h32 : toInt32 (r+l) = r+l-2^32 := by
    simp only [toInt32,Int.bmod]
    omega
  rw [h32,show r+l-2^32 = -(2^32-r-l) by omega,Int.neg_tdiv,Int.tdiv_eq_ediv_of_nonneg (by omega)]
  omega

/-- The range below or above a midpoint that is not equal to the key. -/
theorem Between.halve (h : TotalPreorder cmp) (hs : SortedOn cmp a 0 (count-1))
    (hb : Between cmp v a count l r) {m : ℤ} (hlm : l ≤ m) (hmr : m ≤ r) :
    (cmp v (a m) < 0 → Between cmp v a count l (m-1)) ∧
      (0 < cmp v (a m) → Between cmp v a count (m+1) r) := by
  have hlo := hb.lo
  have hhi := hb.hi
  constructor
  · intro hlt
    refine ⟨hlo,by omega,by omega,hb.below,fun k hk hk' => ?_⟩
    exact h.lt_of_lt_of_le hlt (hs m k (by omega) (by omega) (by omega))
  · intro hlt
    refine ⟨by omega,hhi,by omega,fun k hk hk' => ?_,hb.above⟩
    exact h.lt_of_le_of_lt (hs k m hk (by omega) (by omega)) ((h.swap _ _).mpr hlt)

theorem tkBsearch_tells (h : TotalPreorder cmp) (hs : SortedOn cmp a 0 (count-1))
    (hb : Between cmp v a count l r) (hfit : SumsFit cmp v a (l,r)) (htraced : Traced l r x rc)
    (hn : r-l+1 < n) : ∃ i, tkBsearch count cmp v a n l r x rc = .ok i ∧ Tells cmp v a count i := by
  induction n generalizing l r x rc with
  | zero =>
    have := hb.le
    omega
  | succ n ih =>
    have hlo := hb.lo
    have hhi := hb.hi
    have hle := hb.le
    rw [tkBsearch]
    by_cases hlr : l ≤ r
    · have hmid := mid_eq hlo hlr (hfit _ Relation.ReflTransGen.refl hlr)
      have hm : l ≤ (r+l)/2 ∧ (r+l)/2 ≤ r := by omega
      obtain ⟨hbelow,habove⟩ := hb.halve h hs hm.1 hm.2
      rw [if_pos hlr]
      simp only [hmid,elemAt_ok a (show 0 ≤ (r+l)/2 by omega) (show (r+l)/2 < count by omega),bind,
        Except.bind]
      rcases lt_trichotomy (cmp v (a ((r+l)/2))) 0 with hlt | heq | hgt
      · rw [if_neg (by omega),if_pos hlt]
        exact ih (hbelow hlt) (fun y hy => hfit y (hy.head ⟨hlr,Or.inl ⟨hlt,rfl⟩⟩))
          (Or.inr (Or.inl ⟨hlt,rfl,hm.1⟩)) (by omega)
      · rw [if_pos heq]
        refine ⟨(r+l)/2,rfl,?_⟩
        rw [Tells,if_pos (by omega)]
        exact ⟨by omega,heq⟩
      · rw [if_neg (by omega),if_neg (by omega)]
        exact ih (habove hgt) (fun y hy => hfit y (hy.head ⟨hlr,Or.inr ⟨hgt,rfl⟩⟩))
          (Or.inr (Or.inr ⟨hgt,rfl,hm.2⟩)) (by omega)
    · -- the range is empty: `l` is the gap
      rw [if_neg hlr]
      obtain rfl : r = l-1 := by omega
      rcases htraced with hlr' | ⟨hrc,hx,hlx⟩ | ⟨hrc,hx,hxr⟩
      · exact absurd hlr' hlr
      · refine ⟨-1*x-1,if_pos hrc,?_⟩
        rw [Tells,if_neg (by omega),show -(-1*x-1)-1 = l by omega]
        exact hb
      · refine ⟨-1*x-2,if_neg (by omega),?_⟩
        rw [Tells,if_neg (by omega),show -(-1*x-2)-1 = l by omega]
        exact hb

/-- A search that comes back has come to no sum that wraps. -/
theorem sumsFit_of_ok (hl : 0 ≤ l) (hr : r < count) (hcount : count ≤ 2^31) {i : ℤ}
    (hrun : tkBsearch count cmp v a n l r x rc = .ok i) : SumsFit cmp v a (l,r) := by
  induction n generalizing l r x rc with
  | zero => cases hrun
  | succ n ih =>
    rw [tkBsearch] at hrun
    by_cases hlr : l ≤ r
    swap
    · intro y hy hle
      rcases hy.cases_head with rfl | ⟨z,hz,-⟩
      · exact absurd hle hlr
      · exact absurd hz.1 hlr
    rw [if_pos hlr] at hrun
    by_cases hsum : l+r < 2^31
    swap
    · have hneg := mid_neg hlr (by omega) (by omega)
      simp only [elemAt_outside a hneg,bind,Except.bind] at hrun
      cases hrun
    simp only [mid_eq hl hlr hsum,elemAt_ok a (show 0 ≤ (r+l)/2 by omega)
      (show (r+l)/2 < count by omega),bind,Except.bind] at hrun
    intro y hy hle
    rcases hy.cases_head with rfl | ⟨z,⟨-,⟨hlt,rfl⟩ | ⟨hgt,rfl⟩⟩,hzy⟩
    · exact hsum
    · simp only at hlt
      rw [if_neg (by omega),if_pos hlt] at hrun
      exact ih hl (by omega) hrun y hzy hle
    · simp only at hgt
      rw [if_neg (by omega),if_neg (by omega)] at hrun
      exact ih (by omega) hr hrun y hzy hle

/-- Without a round, the result is made of what `x` and `rc` held before. -/
theorem tkBsearch_empty (hlr : r < l) (k : ℤ) :
    tkBsearch count cmp v a (n+1) l r (-k-1) (-1) = .ok k := by
  have hk : -1*(-k-1)-1 = k := by omega
  rw [tkBsearch,if_neg (by omega),if_pos (by decide),hk]
  rfl

end

/-- `_tk_bsearch` tells where the key is or belongs, and `bsearch` points to an element that is equal
to it or finds that there is none. -/
structure Finds {α : Type} (cmp : α → α → ℤ) (key : α) (a : ℤ → α) (count : ℕ) (x rc : ℤ) : Prop where
  tells : ∃ i, tkBsearch count cmp key a (count+1) 0 (toInt32 (count-1)) x rc = .ok i ∧
    Tells cmp key a count i
  points : ∃ p, bsearch key a count cmp x rc = .ok p ∧
    (∀ j, p = some j → 0 ≤ j ∧ j < count ∧ cmp key (a j) = 0) ∧
    (p = none → ∀ j : ℤ, 0 ≤ j → j < count → cmp key (a j) ≠ 0)

section

variable {α : Type} {cmp : α → α → ℤ} {key : α} {a : ℤ → α} {count : ℕ} {x rc : ℤ}

/-- A key that belongs to a gap is not in the array. -/
theorem Between.absent {l : ℤ} (h : TotalPreorder cmp) (hb : Between cmp key a count l (l-1)) {j : ℤ}
    (hj : 0 ≤ j) (hj' : j < count) : cmp key (a j) ≠ 0 := by
  by_cases hjl : j < l
  · have := (h.swap _ _).mp (hb.below j hj hjl)
    omega
  · have := hb.above j (by omega) hj'
    omega

theorem finds_of_tells (h : TotalPreorder cmp) {i : ℤ}
    (hrun : tkBsearch count cmp key a (count+1) 0 (toInt32 (count-1)) x rc = .ok i)
    (ht : Tells cmp key a count i) : Finds cmp key a count x rc := by
  refine ⟨⟨i,hrun,ht⟩,?_⟩
  rw [bsearch,hrun]
  rw [Tells] at ht
  by_cases hi : 0 ≤ i
  · rw [if_pos hi] at ht
    refine ⟨some i,congrArg Except.ok (if_pos hi),?_,fun hn => (by cases hn)⟩
    rintro j ⟨⟩
    exact ⟨hi,ht⟩
  · rw [if_neg hi] at ht
    exact ⟨none,congrArg Except.ok (if_neg hi),fun j hj => (by cases hj),fun _ j hj hj' =>
      ht.absent h hj hj'⟩

/-- In a sorted array, whose offsets are `int`s, the search finds the key or its place, whatever `x`
and `rc` held before, if and only if there is an element and no sum of two ends of a range is too
large for an `int`. -/
theorem bsearch_finds_iff (h : TotalPreorder cmp) (hs : SortedOn cmp a 0 (count-1)) {size : ℕ}
    (hpos : 0 < size) (hobject : count*size < 2^31) : (∀ x rc, Finds cmp key a count x rc) ↔
      0 < count ∧ SumsFit cmp key a (0,count-1) := by
  have hcount : count < 2^31 := Nat.lt_of_le_of_lt (Nat.le_mul_of_pos_right count hpos) hobject
  have hlast : toInt32 ((count : ℤ)-1) = count-1 := toInt32_of_int (by omega) (by omega)
  constructor
  · intro hfinds
    have hround : 0 < count := by
      by_contra hzero
      -- `x` and `rc` may stand for any index, so for one behind the array
      obtain ⟨i,hrun,ht⟩ := (hfinds (-count-1) (-1)).tells
      have hneg : toInt32 ((count : ℤ)-1) < 0 := by rw [hlast]; omega
      obtain rfl : (count : ℤ) = i := Except.ok.inj ((tkBsearch_empty hneg count).symm.trans hrun)
      rw [Tells,if_pos (by omega)] at ht
      exact absurd ht.1 (Int.lt_irrefl _)
    obtain ⟨i,hrun,-⟩ := (hfinds 0 0).tells
    rw [hlast] at hrun
    exact ⟨hround,sumsFit_of_ok (Int.le_refl 0) (by omega) hcount.le hrun⟩
  · rintro ⟨hpos,hfit⟩ x rc
    have hall : Between cmp key a count 0 (count-1) :=
      ⟨Int.le_refl 0,by omega,by omega,fun k hk hk' => (by omega),fun k hk hk' => (by omega)⟩
    have htraced : Traced 0 (count-1) x rc := Or.inl (by omega)
    obtain ⟨i,hrun,ht⟩ := tkBsearch_tells (n:=count+1) h hs hall hfit htraced (by omega)
    rw [← hlast] at hrun
    exact finds_of_tells h hrun ht

/-- Up to 2^30 elements every sum fits. -/
theorem sumsFit_of_le (hcount : count ≤ 2^30) : SumsFit cmp key a (0,count-1) := by
  have hrange : ∀ y, Relation.ReflTransGen (Halves cmp key a) (0,(count : ℤ)-1) y →
      y.2 < count := by
    intro y hy
    induction hy with
    | refl => simp
    | tail _ hstep ih =>
      rcases hstep with ⟨hle,⟨-,rfl⟩ | ⟨-,rfl⟩⟩
      · simp only
        omega
      · exact ih
  intro y hy hle
  have := hrange y hy
  omega

end

/-- The even numbers below 10, and 5, which is not there. -/
theorem bsearch_finds_iff_evens : Finds (fun x y : ℤ => x-y) 5 (2*·) 5 7 (-1) :=
  (bsearch_finds_iff totalPreorder_sub (fun i j _ hij _ => by omega) (show 0 < 4 by decide)
    (show 5*4 < 2^31 by decide)).mpr ⟨by decide,sumsFit_of_le (by decide)⟩ 7 (-1)

/-- In an empty array, `x` and `rc` are never set. -/
theorem bsearch_not_finds : ¬∀ (key : ℤ) (a : ℤ → ℤ) (count : ℕ) (x rc : ℤ),
    SortedOn (fun x y => x-y) a 0 (count-1) → count < 2^30 →
    Finds (fun x y => x-y) key a count x rc := by
  intro h
  have hempty : SortedOn (fun x y : ℤ => x-y) id 0 ((0 : ℕ)-1) := fun i j hi hij hj => by
    simp only [Nat.cast_zero] at hj
    omega
  obtain ⟨p,hrun,hsome,-⟩ := (h 7 id 0 (-3) (-1) hempty (by decide)).points
  have hpoints : bsearch 7 id 0 (fun x y : ℤ => x-y) (-3) (-1) = .ok (some 2) := by decide
  rw [hpoints] at hrun
  cases hrun
  exact absurd (hsome 2 rfl).2.1 (by decide)

end Tinker

import Mathlib.Logic.Relation
import Tinker.AnsiSearch
import Tinker.Outcome

/-! `qsort` sorts wherever the downward scans stay in the array. They do in every range that begins
behind a pivot, since that pivot stops them; in the ranges that begin with the array nothing does
but an element that is not above the last one. -/
namespace Tinker

open Outcome Sorting

section

variable {α : Type} {cmp : α → α → ℤ} {count sz n : ℕ} {a a' : ℤ → α} {l r i j : ℤ}

theorem elemAt_ok (a : ℤ → α) (h0 : 0 ≤ i) (hi : i < count) : elemAt count a i = .ok (a i) := by
  rw [elemAt,check,if_pos ⟨h0,hi⟩]
  rfl

theorem elemAt_outside (a : ℤ → α) (hi : i < 0) : elemAt count a i = .error .outside := by
  rw [elemAt,check,if_neg (by omega)]
  rfl

theorem swapElems_eq (a : ℤ → α) (hsz : sz ≤ maxSortElementSize) (hi : 0 ≤ i) (hi' : i < count)
    (hj : 0 ≤ j) (hj' : j < count) : swapElems count sz a i j = .ok (a ∘ Equiv.swap i j) := by
  have hswap : Function.update (Function.update a i (a j)) j (a i) = a ∘ Equiv.swap i j := by
    funext k
    rw [Function.comp_apply,Equiv.swap_apply_def,Function.update_apply,Function.update_apply]
    by_cases hki : k = i
    · subst hki
      by_cases hkj : k = j
      · simp [← hkj]
      · simp [hkj]
    · by_cases hkj : k = j
      · subst hkj
        simp [hki]
      · simp [hki,hkj]
  rw [swapElems,check,if_pos hsz,elemAt_ok a hi hi',elemAt_ok a hj hj',← hswap]
  rfl

/-- The upward scan stops at the pivot at the latest. -/
theorem scanUp_spec (h : TotalPreorder cmp) (hi : -1 ≤ i) (hir : i < r) (hr : r < count)
    (hn : r-i ≤ n) : ∃ i', scanUp count cmp a r n i = .ok i' ∧ i < i' ∧ i' ≤ r ∧
      (∀ k, i < k → k < i' → cmp (a k) (a r) < 0) ∧ 0 ≤ cmp (a i') (a r) := by
  induction n generalizing i with
  | zero => omega
  | succ n ih =>
    rw [scanUp,elemAt_ok a (by omega) (by omega),elemAt_ok a (by omega) hr]
    simp only [bind,Except.bind]
    by_cases hlt : cmp (a (i+1)) (a r) < 0
    · have hne : i+1 ≠ r := by
        rintro rfl
        rw [h.refl] at hlt
        omega
      obtain ⟨i',hscan,hi',hr',hbelow,hstop⟩ := ih (i:=i+1) (by omega) (by omega) (by omega)
      refine ⟨i',(if_pos hlt).trans hscan,by omega,hr',fun k hk hk' => ?_,hstop⟩
      by_cases hki : k = i+1
      · rw [hki]
        exact hlt
      · exact hbelow k (by omega) hk'
    · exact ⟨i+1,if_neg hlt,by omega,by omega,fun k hk hk' => (by omega),by omega⟩

/-- The downward scan stops at the first element that is not above the pivot, and leaves the array
where there is none. -/
theorem scanDown_spec (hj : 0 ≤ j) (hj' : j ≤ count) (hr0 : 0 ≤ r) (hr : r < count)
    (hn : j < n) : Spec (scanDown count cmp a r n j)
      (fun j' => 0 ≤ j' ∧ j' < j ∧ (∀ k, j' < k → k < j → 0 < cmp (a k) (a r)) ∧
        cmp (a j') (a r) ≤ 0)
      (fun e => e = .outside ∧ ∀ k, 0 ≤ k → k < j → 0 < cmp (a k) (a r)) := by
  induction n generalizing j with
  | zero => omega
  | succ n ih =>
    rw [scanDown]
    by_cases hzero : j = 0
    · rw [elemAt_outside a (by omega)]
      exact ⟨rfl,fun k hk hk' => (by omega)⟩
    rw [elemAt_ok a (by omega) (by omega),elemAt_ok a hr0 hr]
    simp only [spec_bind,spec_ok,spec_ite,spec_pure]
    refine ⟨fun hlt => ?_,fun hlt => ⟨by omega,by omega,fun k hk hk' => (by omega),by omega⟩⟩
    have hstep : ∀ k, k < j → ¬k < j-1 → 0 < cmp (a k) (a r) := by
      intro k hk hk'
      rw [show k = j-1 by omega]
      exact hlt
    refine (ih (by omega) (by omega) (by omega)).mono ?_ ?_
    · rintro j' ⟨h0,hj',habove,hstop⟩
      refine ⟨h0,by omega,fun k hk hk' => ?_,hstop⟩
      by_cases hkj : k < j-1
      · exact habove k hk hkj
      · exact hstep k hk' hkj
    · rintro e ⟨he,habove⟩
      refine ⟨he,fun k hk hk' => ?_⟩
      by_cases hkj : k < j-1
      · exact habove k hk hkj
      · exact hstep k hk' hkj

/-- Where the two scans have come to: what is behind them is on its side of the pivot. -/
structure Parting (cmp : α → α → ℤ) (a : ℤ → α) (l r i j : ℤ) : Prop where
  lo : l ≤ i+1
  hi : j ≤ r
  lt : i < j
  below : ∀ k, l ≤ k → k ≤ i → cmp (a k) (a r) ≤ 0
  above : ∀ k, j ≤ k → k < r → cmp (a r) (a k) ≤ 0

/-- The range is in two parts that meet at `i`, and its last element is the pivot. -/
structure Parted (cmp : α → α → ℤ) (a a' : ℤ → α) (l r i : ℤ) : Prop where
  moved : Rearranged l (r-1) a a'
  lo : l ≤ i
  hi : i ≤ r
  below : ∀ k, l ≤ k → k < i → cmp (a' k) (a' r) ≤ 0
  above : ∀ k, i ≤ k → k < r → cmp (a' r) (a' k) ≤ 0

theorem partitionLoop_spec (h : TotalPreorder cmp) (hsz : sz ≤ maxSortElementSize) (hl : 0 ≤ l)
    (hr : r < count) (hp : Parting cmp a l r i j) (hn : r-i ≤ n) :
    Spec (partitionLoop count sz cmp r n a i j) (fun x => Parted cmp a x.1 l r x.2)
      (fun _ => ∀ k, 0 ≤ k → k < j → 0 < cmp (a k) (a r)) := by
  induction n generalizing a i j with
  | zero =>
    have := hp.hi
    have := hp.lt
    omega
  | succ n ih =>
    have hlo := hp.lo
    have hhi := hp.hi
    have hlt := hp.lt
    obtain ⟨i',hup,hi',hir,hbelow,hstop⟩ :=
      scanUp_spec (a:=a) (i:=i) (n:=count+1) h (by omega) (by omega) hr (by omega)
    have hleft : ∀ k, l ≤ k → k < i' → cmp (a k) (a r) ≤ 0 := by
      intro k hk hk'
      by_cases hki : k ≤ i
      · exact hp.below k hk hki
      · exact (hbelow k (by omega) hk').le
    rw [partitionLoop,hup,spec_bind,spec_ok,spec_bind]
    refine (scanDown_spec (by omega) (by omega) (by omega) hr (by omega)).mono ?_
      fun e he => he.2
    rintro j' ⟨hj0,hj',habove,hstop'⟩
    have hright : ∀ k, j' < k → k < r → cmp (a r) (a k) ≤ 0 := by
      intro k hk hk'
      by_cases hkj : j ≤ k
      · exact hp.above k hkj hk'
      · exact (h.le_iff _ _).mpr (habove k hk (by omega)).le
    simp only [spec_ite,spec_pure,spec_bind]
    refine ⟨fun hmeet => ?_,fun hmeet => ?_⟩
    · refine ⟨Rearranged.refl _ _ _,by omega,hir,hleft,fun k hk hk' => ?_⟩
      by_cases hki : k = i'
      · rw [hki]
        exact (h.le_iff _ _).mpr hstop
      · exact hright k (by omega) hk'
    · have hswap := swapElems_eq a hsz (show 0 ≤ i' by omega) (show i' < count by omega) hj0
        (show j' < count by omega)
      rw [hswap,spec_ok]
      have hpivot : (a ∘ Equiv.swap i' j') r = a r :=
        congrArg a (Equiv.swap_apply_of_ne_of_ne (by omega) (by omega))
      have hother : ∀ k, k ≠ i' → k ≠ j' → (a ∘ Equiv.swap i' j') k = a k := fun k hi hj =>
        congrArg a (Equiv.swap_apply_of_ne_of_ne hi hj)
      have hati : (a ∘ Equiv.swap i' j') i' = a j' := congrArg a (Equiv.swap_apply_left i' j')
      have hatj : (a ∘ Equiv.swap i' j') j' = a i' := congrArg a (Equiv.swap_apply_right i' j')
      have hp' : Parting cmp (a ∘ Equiv.swap i' j') l r i' j' := by
        refine ⟨by omega,by omega,by omega,fun k hk hk' => ?_,fun k hk hk' => ?_⟩
        · rw [hpivot]
          by_cases hki : k = i'
          · rw [hki,hati]
            exact hstop'
          · rw [hother k hki (by omega)]
            exact hleft k hk (by omega)
        · rw [hpivot]
          by_cases hkj : k = j'
          · rw [hkj,hatj]
            exact (h.le_iff _ _).mpr hstop
          · rw [hother k (by omega) hkj]
            exact hright k (by omega) hk'
      have hmoved : Rearranged l (r-1) a (a ∘ Equiv.swap i' j') :=
        Rearranged.swap a (by omega) (by omega) (by omega) (by omega)
      refine (ih hp' (by omega)).mono ?_ ?_
      · rintro x hx
        exact { hx with moved := hmoved.trans hx.moved }
      · -- the element just put to `i'` stops every later scan
        intro e he
        have := he i' (by omega) (by omega)
        rw [hati,hpivot] at this
        omega

/-- The pivot is in its place. -/
structure Placed (cmp : α → α → ℤ) (a a' : ℤ → α) (l r i : ℤ) : Prop where
  moved : Rearranged l r a a'
  lo : l ≤ i
  hi : i ≤ r
  below : ∀ k, l ≤ k → k < i → cmp (a' k) (a' i) ≤ 0
  above : ∀ k, i < k → k ≤ r → cmp (a' i) (a' k) ≤ 0

/-- The element before a range is not above any in it. -/
def Sentinel (cmp : α → α → ℤ) (a : ℤ → α) (l r : ℤ) : Prop :=
  ∀ k, l ≤ k → k ≤ r → cmp (a (l-1)) (a k) ≤ 0

/-- What bounds the range bounds the part before the pivot. -/
theorem Placed.sentinel_left (hp : Placed cmp a a' l r i) (hfloor : Sentinel cmp a l r) :
    Sentinel cmp a' l (i-1) := by
  have hhi := hp.hi
  intro k hk hk'
  rw [hp.moved.outside (by omega)]
  exact hp.moved.all (P:=fun y => cmp (a (l-1)) y ≤ 0) hfloor hk (by omega)

/-- The pivot bounds the part behind it, also when the part before it has been rearranged. -/
theorem Placed.sentinel_right {a'' : ℤ → α} (hp : Placed cmp a a' l r i)
    (hmoved : Rearranged l (i-1) a' a'') : Sentinel cmp a'' (i+1) r := by
  intro k hk hk'
  rw [show i+1-1 = i by omega,hmoved.outside (i:=i) (by omega),hmoved.outside (i:=k) (by omega)]
  exact hp.above k (by omega) hk'

theorem partitionAt_spec (h : TotalPreorder cmp) (hsz : sz ≤ maxSortElementSize) (hl : 0 ≤ l)
    (hlr : l < r) (hr : r < count) : Spec (partitionAt count sz cmp a l r)
      (fun x => Placed cmp a x.1 l r x.2)
      (fun _ => ∀ k, 0 ≤ k → k < r → 0 < cmp (a k) (a r)) := by
  have hp : Parting cmp a l r (l-1) r :=
    ⟨by omega,by omega,by omega,fun k hk hk' => (by omega),fun k hk hk' => (by omega)⟩
  rw [partitionAt,spec_bind]
  refine (partitionLoop_spec h hsz hl hr hp (by omega)).imp ?_
  rintro ⟨a1,i⟩ hx
  have hlo := hx.lo
  have hhi := hx.hi
  have hswap := swapElems_eq a1 hsz (show 0 ≤ i by omega) (show i < count by omega)
    (show 0 ≤ r by omega) hr
  simp only [spec_bind,hswap,spec_ok,spec_pure]
  have hati : (a1 ∘ Equiv.swap i r) i = a1 r := congrArg a1 (Equiv.swap_apply_left i r)
  have hatr : (a1 ∘ Equiv.swap i r) r = a1 i := congrArg a1 (Equiv.swap_apply_right i r)
  have hother : ∀ k, k ≠ i → k ≠ r → (a1 ∘ Equiv.swap i r) k = a1 k := fun k hi hr =>
    congrArg a1 (Equiv.swap_apply_of_ne_of_ne hi hr)
  refine ⟨(hx.moved.widen (Int.le_refl l) (by omega)).trans
    (Rearranged.swap a1 hlo hhi (by omega) (by omega)),hlo,hhi,fun k hk hk' => ?_,
    fun k hk hk' => ?_⟩
  · rw [hati,hother k (by omega) (by omega)]
    exact hx.below k hk hk'
  · rw [hati]
    by_cases hkr : k = r
    · rw [hkr,hatr]
      exact hx.above i (Int.le_refl i) (by omega)
    · rw [hother k (by omega) hkr]
      exact hx.above k (by omega) (by omega)

/-- Without an element that is not above the last one, the first downward scan runs out. -/
theorem partitionAt_outside (h : TotalPreorder cmp) (hr0 : 0 < r) (hr : r < count)
    (habove : ∀ k, 0 ≤ k → k < r → 0 < cmp (a k) (a r)) :
    partitionAt count sz cmp a 0 r = .error .outside := by
  obtain ⟨i',hup,-⟩ :=
    scanUp_spec (a:=a) (i:=0-1) (n:=count+1) h (by omega) (by omega) hr (by omega)
  have hdown : Spec (scanDown count cmp a r (count+1) r) _ _ :=
    scanDown_spec (by omega) (by omega) (by omega) hr (by omega)
  cases hd : scanDown count cmp a r (count+1) r with
  | ok j' =>
    have hj' := hdown.of_ok hd
    have := habove j' hj'.1 hj'.2.1
    omega
  | error e =>
    rw [(hdown.of_error hd).1] at hd
    rw [partitionAt,partitionLoop,hup]
    simp only [bind,Except.bind,hd]

/-- A call that sorts from the first element on calls itself for the part below its pivot. -/
def LeftStep (count sz : ℕ) (cmp : α → α → ℤ) (x y : (ℤ → α) × ℤ) : Prop :=
  0 < x.2 ∧ ∃ a i, partitionAt count sz cmp x.1 0 x.2 = .ok (a,i) ∧ y = (a,i-1)

/-- The last element is not below all others. -/
def NotLeast (cmp : α → α → ℤ) (x : (ℤ → α) × ℤ) : Prop :=
  0 < x.2 → ∃ k, 0 ≤ k ∧ k < x.2 ∧ cmp (x.1 k) (x.1 x.2) ≤ 0

/-- So it is in every call that sorts from the first element on. -/
def LeftGuarded (count sz : ℕ) (cmp : α → α → ℤ) (x : (ℤ → α) × ℤ) : Prop :=
  ∀ y, Relation.ReflTransGen (LeftStep count sz cmp) x y → NotLeast cmp y

/-- A range is sorted in place: what is before it bounds it, and it ends where it did. -/
theorem tkQuicksort_sorts (h : TotalPreorder cmp) (hsz : sz ≤ maxSortElementSize) (hl : 0 ≤ l)
    (hr : r < count) (hn : r-l ≤ n)
    (hfloor : 0 < l → Sentinel cmp a l r)
    (hleft : l = 0 → LeftGuarded count sz cmp (a,r)) :
    ∃ a', tkQuicksort count sz cmp n a l r = .ok a' ∧ Rearranged l r a a' ∧
      SortedOn cmp a' l r := by
  induction n generalizing a l r with
  | zero =>
    have hlr : ¬l < r := by omega
    exact ⟨a,if_neg hlr,Rearranged.refl _ _ _,SortedOn.single h (by omega)⟩
  | succ n ih =>
    rw [tkQuicksort]
    by_cases hlr : l < r
    swap
    · exact ⟨a,if_neg hlr,Rearranged.refl _ _ _,SortedOn.single h (by omega)⟩
    rw [if_pos hlr]
    have hpart := partitionAt_spec (a:=a) h hsz hl hlr hr
    cases hx : partitionAt count sz cmp a l r with
    | error e =>
      -- the scan would have met an element that is not above the pivot
      have habove := hpart.of_error hx
      rcases Int.lt_or_eq_of_le hl with hpos | rfl
      · have := habove (l-1) (by omega) (by omega)
        have := hfloor hpos r (by omega) (by omega)
        omega
      · obtain ⟨k,hk,hkr,hle⟩ := hleft rfl _ Relation.ReflTransGen.refl hlr
        exact absurd hle (not_le.mpr (habove k hk hkr))
    | ok x =>
      obtain ⟨a1,i⟩ := x
      have hp : Placed cmp a a1 l r i := hpart.of_ok hx
      have hlo := hp.lo
      have hhi := hp.hi
      have hfloor1 : 0 < l → Sentinel cmp a1 l (i-1) := fun hpos => hp.sentinel_left (hfloor hpos)
      have hleft1 : l = 0 → LeftGuarded count sz cmp (a1,i-1) := by
        rintro rfl y hy
        exact hleft rfl y (hy.head ⟨hlr,a1,i,hx,rfl⟩)
      obtain ⟨a2,hrun2,hmoved2,hsorted2⟩ := ih hl (by omega) (by omega) hfloor1 hleft1
      have hat2 : ∀ k, i ≤ k → a2 k = a1 k := fun k hk => hmoved2.outside (by omega)
      have hfloor2 : Sentinel cmp a2 (i+1) r := hp.sentinel_right hmoved2
      obtain ⟨a3,hrun3,hmoved3,hsorted3⟩ := ih (l:=i+1) (r:=r) (a:=a2) (by omega) hr (by omega)
        (fun _ => hfloor2) fun hi => (by omega)
      have hat3 : ∀ k, k ≤ i → a3 k = a2 k := fun k hk => hmoved3.outside (by omega)
      refine ⟨a3,?_,?_,?_⟩
      · simp only [bind,Except.bind,hrun2,hrun3]
      · have hwide2 : Rearranged l r a1 a2 := hmoved2.widen (Int.le_refl l) (by omega)
        have hwide3 : Rearranged l r a2 a3 := hmoved3.widen (by omega) (Int.le_refl r)
        exact (hp.moved.trans hwide2).trans hwide3
      · refine SortedOn.join (p:=i) h ?_ hsorted3 ?_ ?_
        · intro k m hk hkm hm
          rw [hat3 k (by omega),hat3 m (by omega)]
          exact hsorted2 k m hk hkm hm
        · intro k hk hk'
          rw [hat3 k (by omega),hat3 i (Int.le_refl i),hat2 i (Int.le_refl i)]
          exact hmoved2.all (P:=fun y => cmp y (a1 i) ≤ 0)
            (fun m hm hm' => hp.below m hm (by omega)) hk (by omega)
        · intro k hk hk'
          rw [hat3 i (Int.le_refl i)]
          exact hmoved3.all (P:=fun y => cmp (a2 i) y ≤ 0)
            (fun m hm hm' => by simpa using hfloor2 m hm hm') (by omega) hk'

/-- A call that comes back has met the guard all the way down. -/
theorem leftGuarded_of_ok (h : TotalPreorder cmp) (hsz : sz ≤ maxSortElementSize) (hr : r < count)
    (hrun : tkQuicksort count sz cmp n a 0 r = .ok a') : LeftGuarded count sz cmp (a,r) := by
  induction n generalizing a a' r with
  | zero =>
    rw [tkQuicksort] at hrun
    by_cases hr0 : 0 < r
    · rw [if_pos hr0] at hrun
      cases hrun
    intro y hy
    rcases hy.cases_head with rfl | ⟨z,hz,-⟩
    · exact fun hpos => absurd hpos hr0
    · exact absurd hz.1 hr0
  | succ n ih =>
    rw [tkQuicksort] at hrun
    intro y hy
    rcases hy.cases_head with rfl | ⟨z,⟨hr0,a1,i,hpart,rfl⟩,hzy⟩
    · intro hr0
      by_contra hnone
      have habove : ∀ k, 0 ≤ k → k < r → 0 < cmp (a k) (a r) := by
        intro k hk hkr
        by_contra hle
        exact hnone ⟨k,hk,hkr,not_lt.mp hle⟩
      simp only [bind,Except.bind,partitionAt_outside h hr0 hr habove] at hrun
      rw [if_pos hr0] at hrun
      cases hrun
    · have hp : Placed cmp a a1 0 r i :=
        (partitionAt_spec h hsz (Int.le_refl 0) hr0 hr).of_ok hpart
      have hi := hp.hi
      rw [if_pos hr0] at hrun
      obtain ⟨x,hx,hrun⟩ := bind_eq_ok.mp hrun
      obtain rfl : (a1,i) = x := Except.ok.inj (hpart.symm.trans hx)
      obtain ⟨a2,hrun2,-⟩ := bind_eq_ok.mp hrun
      exact ih (by omega) hrun2 y hzy

end

/-- `qsort` sorts, with all its indices in the array, if and only if none of its calls that sort
from the first element on finds its last element below all others. -/
theorem qsort_sorts_iff {α : Type} {cmp : α → α → ℤ} (h : TotalPreorder cmp) (a : ℤ → α)
    {count size : ℕ} (hpos : 0 < size) (hsize : size ≤ maxSortElementSize)
    (hobject : count*size < 2^31) :
    (∃ a', qsort a count size cmp = .ok a' ∧ Rearranged 0 (count-1) a a' ∧
      SortedOn cmp a' 0 (count-1)) ↔ LeftGuarded count size cmp (a,count-1) := by
  have hcount : count < 2^31 := Nat.lt_of_le_of_lt (Nat.le_mul_of_pos_right count hpos) hobject
  have hlast : toInt32 ((count : ℤ)-1) = count-1 := toInt32_of_int (by omega) (by omega)
  rw [qsort,hlast]
  constructor
  · rintro ⟨a',hrun,-⟩
    exact leftGuarded_of_ok h hsize (by omega) hrun
  · intro hleft
    exact tkQuicksort_sorts h hsize (Int.le_refl 0) (by omega) (by omega)
      (fun h0 => absurd h0 (Int.lt_irrefl 0)) fun _ => hleft

/-- Integers by their difference, as most callers compare them. -/
theorem totalPreorder_sub : TotalPreorder fun x y : ℤ => x-y where
  swap x y := by omega
  trans x y z hxy hyz := by omega

/-- Five integers, two of them equal. -/
theorem qsort_sorts_iff_five : ∃ a',
    qsort (fun i => if i = 2 then 1 else 5-i) 5 4 (fun x y : ℤ => x-y) = .ok a' ∧
      Rearranged 0 (5-1) (fun i => if i = 2 then 1 else 5-i) a' ∧
      SortedOn (fun x y : ℤ => x-y) a' 0 (5-1) := by
  have hleft : LeftGuarded 5 4 (fun x y : ℤ => x-y)
      (fun i => if i = 2 then 1 else 5-i,(5 : ℕ)-1) := by
    have hends : (qsort (fun i => if i = 2 then 1 else 5-i) 5 4 fun x y : ℤ => x-y).toOption.any
        (fun _ => true) = true := by decide
    obtain ⟨a',hrun,-⟩ := exists_ok hends
    exact leftGuarded_of_ok totalPreorder_sub (by decide) (by decide) hrun
  exact (qsort_sorts_iff totalPreorder_sub _ (by decide) (by decide) (by decide)).mpr hleft

/-- The scan of 2, 1 for an element that is not above 1 goes on before the array. -/
theorem qsort_not_sorts : ¬∀ (a : ℤ → ℤ) (count : ℕ), count < 2^29 →
    ∃ a', qsort a count 4 (fun x y => x-y) = .ok a' ∧ Rearranged 0 (count-1) a a' ∧
      SortedOn (fun x y => x-y) a' 0 (count-1) := by
  intro h
  obtain ⟨a',hrun,-⟩ := h (fun i => 2-i) 2 (by decide)
  have hfault : (qsort (fun i => 2-i) 2 4 fun x y : ℤ => x-y).toOption.isNone = true := by decide
  rw [hrun] at hfault
  cases hfault

end Tinker

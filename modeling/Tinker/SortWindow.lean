import Tinker.Quicksort

/-! `_tk_quicksort` behind a sentinel. What it reads is seen from the run on the elements of its range
and the one before it alone: memory outside them is not there, and the run is the same. -/
namespace Tinker

open Outcome Sorting

section

variable {α : Type} {cmp : α → α → ℤ} {count w sz n m : ℕ} {a a' b : ℤ → α} {o l r i j : ℤ} {x : α}

/-- The elements from an offset on, as an array of their own. -/
def window (o : ℤ) (a : ℤ → α) : ℤ → α := fun k => a (o+k)

theorem elemAt_eq_ok : elemAt count a i = .ok x ↔ (0 ≤ i ∧ i < count) ∧ a i = x := by
  rw [elemAt,check]
  by_cases h : 0 ≤ i ∧ i < count
  · rw [if_pos h]
    exact ⟨fun hx => ⟨h,Except.ok.inj hx⟩,fun hx => congrArg Except.ok hx.2⟩
  · rw [if_neg h]
    exact ⟨fun hx => (by cases hx),fun hx => absurd hx.1 h⟩

theorem swapElems_eq_ok (h : swapElems count sz a i j = .ok b) : sz ≤ maxSortElementSize ∧
    (0 ≤ i ∧ i < count) ∧ (0 ≤ j ∧ j < count) ∧ b = a ∘ Equiv.swap i j := by
  have hrun := h
  rw [swapElems] at h
  obtain ⟨_,hsz,h⟩ := bind_eq_ok.mp h
  obtain ⟨t,ht,h⟩ := bind_eq_ok.mp h
  obtain ⟨y,hy,-⟩ := bind_eq_ok.mp h
  have hsz : sz ≤ maxSortElementSize := by
    by_contra hno
    rw [check,if_neg hno] at hsz
    cases hsz
  have hi := (elemAt_eq_ok.mp ht).1
  have hj := (elemAt_eq_ok.mp hy).1
  rw [swapElems_eq a hsz hi.1 hi.2 hj.1 hj.2] at hrun
  exact ⟨hsz,hi,hj,(Except.ok.inj hrun).symm⟩

section

variable (h0 : 0 ≤ o) (hw : o+w ≤ count)

include h0 hw

theorem elemAt_window (h : elemAt w (window o a) i = .ok x) : elemAt count a (o+i) = .ok x := by
  obtain ⟨hi,hx⟩ := elemAt_eq_ok.mp h
  exact elemAt_eq_ok.mpr ⟨⟨by omega,by omega⟩,hx⟩

theorem swapElems_window (h : swapElems w sz (window o a) i j = .ok b) :
    ∃ a', swapElems count sz a (o+i) (o+j) = .ok a' ∧ b = window o a' := by
  obtain ⟨hsz,hi,hj,rfl⟩ := swapElems_eq_ok h
  refine ⟨_,swapElems_eq a hsz (by omega) (by omega) (by omega) (by omega),?_⟩
  funext k
  simp only [window,Function.comp_apply,Equiv.swap_apply_def]
  congr 1
  split_ifs <;> omega

theorem scanUp_window (hn : n ≤ m) (h : scanUp w cmp (window o a) r n i = .ok j) :
    scanUp count cmp a (o+r) m (o+i) = .ok (o+j) := by
  induction n generalizing i m with
  | zero => cases h
  | succ n ih =>
    obtain ⟨m,rfl⟩ := Nat.exists_eq_succ_of_ne_zero (show m ≠ 0 by omega)
    rw [scanUp] at h ⊢
    obtain ⟨y,hy,h⟩ := bind_eq_ok.mp h
    obtain ⟨v,hv,h⟩ := bind_eq_ok.mp h
    rw [Int.add_assoc,elemAt_window h0 hw hy,elemAt_window h0 hw hv]
    simp only [bind,Except.bind]
    by_cases hlt : cmp y v < 0
    · rw [if_pos hlt] at h ⊢
      exact ih (by omega) h
    · rw [if_neg hlt] at h ⊢
      rw [← Except.ok.inj h]
      rfl

theorem scanDown_window (hn : n ≤ m) (h : scanDown w cmp (window o a) r n i = .ok j) :
    scanDown count cmp a (o+r) m (o+i) = .ok (o+j) := by
  induction n generalizing i m with
  | zero => cases h
  | succ n ih =>
    obtain ⟨m,rfl⟩ := Nat.exists_eq_succ_of_ne_zero (show m ≠ 0 by omega)
    rw [scanDown] at h ⊢
    obtain ⟨y,hy,h⟩ := bind_eq_ok.mp h
    obtain ⟨v,hv,h⟩ := bind_eq_ok.mp h
    rw [Int.add_sub_assoc,elemAt_window h0 hw hy,elemAt_window h0 hw hv]
    simp only [bind,Except.bind]
    by_cases hlt : 0 < cmp y v
    · rw [if_pos hlt] at h ⊢
      exact ih (by omega) h
    · rw [if_neg hlt] at h ⊢
      rw [← Except.ok.inj h]
      rfl

theorem partitionLoop_window (hn : n ≤ m) {p : (ℤ → α) × ℤ}
    (h : partitionLoop w sz cmp r n (window o a) i j = .ok p) :
    ∃ a', partitionLoop count sz cmp (o+r) m a (o+i) (o+j) = .ok (a',o+p.2) ∧
      p.1 = window o a' := by
  induction n generalizing i j m a with
  | zero => cases h
  | succ n ih =>
    obtain ⟨m,rfl⟩ := Nat.exists_eq_succ_of_ne_zero (show m ≠ 0 by omega)
    rw [partitionLoop] at h ⊢
    obtain ⟨i',hup,h⟩ := bind_eq_ok.mp h
    obtain ⟨j',hdown,h⟩ := bind_eq_ok.mp h
    rw [scanUp_window h0 hw (show w+1 ≤ count+1 by omega) hup,
      scanDown_window h0 hw (show w+1 ≤ count+1 by omega) hdown]
    simp only [bind,Except.bind]
    by_cases hmeet : j' ≤ i'
    · rw [if_pos hmeet] at h
      rw [if_pos (by omega),← Except.ok.inj h]
      exact ⟨a,rfl,rfl⟩
    · rw [if_neg hmeet] at h
      rw [if_neg (by omega)]
      obtain ⟨b,hswap,h⟩ := bind_eq_ok.mp h
      obtain ⟨a1,hswap',rfl⟩ := swapElems_window h0 hw hswap
      rw [hswap']
      exact ih (by omega) h

theorem partitionAt_window {p : (ℤ → α) × ℤ}
    (h : partitionAt w sz cmp (window o a) l r = .ok p) :
    ∃ a', partitionAt count sz cmp a (o+l) (o+r) = .ok (a',o+p.2) ∧ p.1 = window o a' := by
  rw [partitionAt] at h ⊢
  obtain ⟨⟨b,i⟩,hloop,h⟩ := bind_eq_ok.mp h
  obtain ⟨a1,hloop',hb⟩ := partitionLoop_window h0 hw (show w+1 ≤ count+1 by omega) hloop
  obtain rfl : b = window o a1 := hb
  obtain ⟨c,hswap,h⟩ := bind_eq_ok.mp h
  obtain ⟨a2,hswap',rfl⟩ := swapElems_window h0 hw hswap
  rw [Int.add_sub_assoc,hloop']
  simp only [bind,Except.bind,hswap']
  rw [← Except.ok.inj h]
  exact ⟨a2,rfl,rfl⟩

/-- A run on some of the elements alone that meets no fault is the run on the whole array. -/
theorem tkQuicksort_window (h : tkQuicksort w sz cmp n (window o a) l r = .ok b) :
    ∃ a', tkQuicksort count sz cmp n a (o+l) (o+r) = .ok a' ∧ b = window o a' := by
  induction n generalizing a b l r with
  | zero =>
    rw [tkQuicksort] at h ⊢
    by_cases hlr : l < r
    · rw [if_pos hlr] at h
      cases h
    · rw [if_neg hlr] at h
      rw [if_neg (by omega)]
      exact ⟨a,rfl,(Except.ok.inj h).symm⟩
  | succ n ih =>
    rw [tkQuicksort] at h ⊢
    by_cases hlr : l < r
    · rw [if_pos hlr] at h
      rw [if_pos (by omega)]
      obtain ⟨⟨b1,i⟩,hpart,h⟩ := bind_eq_ok.mp h
      obtain ⟨b2,hrun2,hrun3⟩ := bind_eq_ok.mp h
      obtain ⟨a1,hpart',hb1⟩ := partitionAt_window h0 hw hpart
      obtain rfl : b1 = window o a1 := hb1
      obtain ⟨a2,hrun2',rfl⟩ := ih hrun2
      obtain ⟨a3,hrun3',rfl⟩ := ih hrun3
      refine ⟨a3,?_,rfl⟩
      rw [hpart']
      simp only [bind,Except.bind]
      rw [Int.add_sub_assoc,hrun2',Int.add_assoc]
      exact hrun3'
    · rw [if_neg hlr] at h
      rw [if_neg (by omega)]
      exact ⟨a,rfl,(Except.ok.inj h).symm⟩

end

/-- What `_tk_quicksort` relies on in a range that does not begin with the array, whose offsets are
`int`s. -/
structure Guarded (cmp : α → α → ℤ) (count sz : ℕ) (a : ℤ → α) (l r : ℤ) : Prop where
  object : count*sz < 2^31
  lo : 1 ≤ l
  hi : r < count
  floor : Sentinel cmp a l r

theorem Guarded.sorts (hg : Guarded cmp count sz a l r) (h : TotalPreorder cmp)
    (hsz : sz ≤ maxSortElementSize) (n : ℕ) (hn : r-l ≤ n) : ∃ a',
    tkQuicksort count sz cmp n a l r = .ok a' ∧ Rearranged l r a a' ∧ SortedOn cmp a' l r := by
  have hlo := hg.lo
  exact tkQuicksort_sorts h hsz (by omega) hg.hi hn (fun _ => hg.floor) fun hl => (by omega)

/-- The range and its sentinel are an array that is guarded in the same way. -/
theorem Guarded.window (hg : Guarded cmp count sz a l r) :
    Guarded cmp (r-l+2).toNat sz (window (l-1) a) 1 (r-l+1) := by
  have hlo := hg.lo
  have hhi := hg.hi
  have hfits : (r-l+2).toNat*sz ≤ count*sz := Nat.mul_le_mul_right sz (by omega)
  refine ⟨Nat.lt_of_le_of_lt hfits hg.object,Int.le_refl 1,by omega,fun k hk hk' => ?_⟩
  rw [Tinker.window,Tinker.window,show l-1+(1-1) = l-1 by omega]
  exact hg.floor (l-1+k) (by omega) (by omega)

theorem Guarded.reads (hg : Guarded cmp count sz a l r) (h : TotalPreorder cmp)
    (hsz : sz ≤ maxSortElementSize) (hn : r-l ≤ n)
    (hrun : tkQuicksort count sz cmp n a l r = .ok a') :
    tkQuicksort (r-l+2).toNat sz cmp n (Tinker.window (l-1) a) 1 (r-l+1) =
      .ok (Tinker.window (l-1) a') := by
  have hlo := hg.lo
  have hhi := hg.hi
  by_cases hlr : l < r
  · obtain ⟨b,hb,-⟩ := hg.window.sorts h hsz n (by omega)
    obtain ⟨c,hc,rfl⟩ := tkQuicksort_window (show 0 ≤ l-1 by omega)
      (show l-1+(r-l+2).toNat ≤ (count : ℤ) by omega) hb
    rw [show l-1+1 = l by omega,show l-1+(r-l+1) = r by omega,hrun] at hc
    rw [hb,Except.ok.inj hc]
  · have hdone (c : ℤ → α) (k : ℕ) {l r : ℤ} (hlr : ¬l < r) :
        tkQuicksort k sz cmp n c l r = .ok c := by
      cases n <;> exact if_neg hlr
    rw [hdone a count hlr] at hrun
    rw [hdone _ _ (by omega),Except.ok.inj hrun]

/-- Both calls that a call makes of itself are guarded. -/
theorem Guarded.calls (hg : Guarded cmp count sz a l r) (h : TotalPreorder cmp)
    (hsz : sz ≤ maxSortElementSize) (hn : r-l ≤ n+1) (hlr : l < r)
    (hrun : tkQuicksort count sz cmp (n+1) a l r = .ok a') : ∃ a1 i a2,
    partitionAt count sz cmp a l r = .ok (a1,i) ∧
    Guarded cmp count sz a1 l (i-1) ∧ tkQuicksort count sz cmp n a1 l (i-1) = .ok a2 ∧
    Guarded cmp count sz a2 (i+1) r ∧ tkQuicksort count sz cmp n a2 (i+1) r = .ok a' := by
  have hlo := hg.lo
  have hhi := hg.hi
  rw [tkQuicksort,if_pos hlr] at hrun
  obtain ⟨⟨a1,i⟩,hpart,hrun⟩ := bind_eq_ok.mp hrun
  obtain ⟨a2,hrun2,hrun3⟩ := bind_eq_ok.mp hrun
  have hp : Placed cmp a a1 l r i := (partitionAt_spec h hsz (by omega) hlr hhi).of_ok hpart
  have hpl := hp.lo
  have hph := hp.hi
  have hg1 : Guarded cmp count sz a1 l (i-1) :=
    ⟨hg.object,hlo,by omega,hp.sentinel_left hg.floor⟩
  obtain ⟨b,hb,hmoved,-⟩ := hg1.sorts h hsz n (by omega)
  obtain rfl : b = a2 := Except.ok.inj (hb.symm.trans hrun2)
  exact ⟨a1,i,b,hpart,hg1,hrun2,⟨hg.object,by omega,hhi,hp.sentinel_right hmoved⟩,hrun3⟩

end

/-- Behind a sentinel `_tk_quicksort` comes back with its range sorted. It reads the range and the
sentinel only, changes the range only, and the two calls it makes of itself have their sentinels. -/
theorem tkQuicksort_guarded {α : Type} {cmp : α → α → ℤ} (h : TotalPreorder cmp) {count sz n : ℕ}
    (hsz : sz ≤ maxSortElementSize) {a : ℤ → α} {l r : ℤ} (hg : Guarded cmp count sz a l r)
    (hn : r-l ≤ n) : ∃ a', tkQuicksort count sz cmp n a l r = .ok a' ∧
      tkQuicksort (r-l+2).toNat sz cmp n (window (l-1) a) 1 (r-l+1) = .ok (window (l-1) a') ∧
      Rearranged l r a a' ∧ SortedOn cmp a' l r ∧
      (l < r → ∃ a1 i a2, partitionAt count sz cmp a l r = .ok (a1,i) ∧
        Guarded cmp count sz a1 l (i-1) ∧ tkQuicksort count sz cmp (n-1) a1 l (i-1) = .ok a2 ∧
        Guarded cmp count sz a2 (i+1) r ∧ tkQuicksort count sz cmp (n-1) a2 (i+1) r = .ok a') := by
  obtain ⟨a',hrun,hmoved,hsorted⟩ := hg.sorts h hsz n hn
  refine ⟨a',hrun,hg.reads h hsz hn hrun,hmoved,hsorted,fun hlr => ?_⟩
  obtain ⟨n,rfl⟩ := Nat.exists_eq_succ_of_ne_zero (show n ≠ 0 by omega)
  exact hg.calls h hsz hn hlr hrun

/-- Five integers behind a sentinel, which one of them equals. -/
theorem tkQuicksort_guarded_five : ∃ a' : ℤ → ℤ,
    tkQuicksort 6 4 (fun x y => x-y) 4 (fun i => if i = 0 then 1 else 6-i) 1 5 = .ok a' ∧
      SortedOn (fun x y => x-y) a' 1 5 := by
  have hg : Guarded (fun x y : ℤ => x-y) 6 4 (fun i => if i = 0 then 1 else 6-i) 1 5 := by
    refine ⟨by decide,by decide,by decide,fun k hk hk' => ?_⟩
    rw [if_pos (Int.sub_self 1),if_neg (by omega)]
    omega
  obtain ⟨a',hrun,-,-,hsorted,-⟩ :=
    tkQuicksort_guarded (n:=4) totalPreorder_sub (show 4 ≤ maxSortElementSize by decide) hg
      (by decide)
  exact ⟨a',hrun,hsorted⟩

end Tinker

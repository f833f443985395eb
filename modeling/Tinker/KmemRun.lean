import Mathlib.Data.Finset.Card
import Mathlib.Tactic.Ring
import Tinker.Kmem
import Tinker.ItcRing
import Tinker.Machine

/-! Allocations from one block heap. The headers say which blocks are taken, `blocks` counts them,
and the search for a free one ends because of that count. -/
namespace Tinker

open Outcome

/-- The heap as its users know it: `live` are the pointers that have been obtained and not freed
since. -/
structure KmemState where
  kmem : Kmem
  live : List ℤ

/-- `store` is a byte that a user writes to a block of its own. -/
inductive KmemLabel
  | malloct (size : ℕ) | free (ptr : ℤ) | store (ptr off : ℤ) (c : Byte)

def kmemEnabled (heapid : HeapId) (s : KmemState) : KmemLabel → Bool
  | .malloct _ => true
  | .free ptr => decide (ptr ∈ s.live)
  | .store ptr off _ =>
    decide (ptr ∈ s.live ∧ 0 ≤ off ∧ off < (s.kmem.headerPool heapid).dsize)

def kmemNext (heapid : HeapId) (s : KmemState) : KmemLabel → Except KmemFault KmemState
  | .malloct size => do
    let (k,ptr) ← tkMemMalloct s.kmem heapid size
    return ⟨k,ptr.toList ++ s.live⟩
  | .free ptr => .ok ⟨tkMemFree s.kmem heapid ptr,s.live.erase ptr⟩
  | .store ptr off c =>
    .ok { s with kmem := { s.kmem with mem := Function.update s.kmem.mem (ptr+off) c } }

def kmemMachine (heapid : HeapId) : Machine KmemState KmemLabel KmemFault where
  enabled := kmemEnabled heapid
  next := kmemNext heapid

namespace HeapT

variable (h : HeapT) (heap : ℤ)

def esz : ℤ := toInt32 (sizeofInt+h.dsize)

/-- Where block `i` has its header. -/
def header (i : ℕ) : ℤ := heap+h.esz*i

/-- What `tk_mem_malloct` returns for block `i`. -/
def block (i : ℕ) : ℤ := h.header heap i+sizeofInt

/-- The blocks with a header that is not zero. -/
def taken (mem : Memory) : Finset ℕ :=
  (Finset.range h.maxnum.toNat).filter fun i => intAt mem (h.header heap i) ≠ 0

theorem mem_taken {mem : Memory} {i : ℕ} :
    i ∈ h.taken heap mem ↔ i < h.maxnum.toNat ∧ intAt mem (h.header heap i) ≠ 0 := by
  rw [taken,Finset.mem_filter,Finset.mem_range]

theorem taken_eq_empty {mem : Memory}
    (hz : ∀ i < h.maxnum.toNat, intAt mem (h.header heap i) = 0) : h.taken heap mem = ∅ := by
  apply Finset.filter_false_of_mem
  intro i hi hne
  exact hne (hz i (Finset.mem_range.mp hi))

/-- The blocks lie one after the other in the `hsize` bytes of the heap. -/
structure Fits (hsize : ℤ) : Prop where
  dsize : 0 ≤ h.dsize
  esz : 0 < h.maxnum → h.esz = sizeofInt+h.dsize
  hsize : 0 < h.maxnum → h.esz*h.maxnum ≤ hsize

variable {h} {hsize : ℤ} {i j : ℕ}

theorem Fits.apart (hf : h.Fits hsize) (hi : i < h.maxnum.toNat) (hij : i < j) :
    h.block heap i+h.dsize ≤ h.header heap j := by
  have he := hf.esz (by omega)
  have hd := hf.dsize
  have hj : h.esz*((i : ℤ)+1) ≤ h.esz*j :=
    Int.mul_le_mul_of_nonneg_left (by omega) (by rw [he,sizeofInt]; omega)
  rw [mul_add,mul_one] at hj
  rw [block,header,header]
  omega

/-- Two headers share no byte. -/
theorem Fits.header_apart (hf : h.Fits hsize) (hi : i < h.maxnum.toNat) (hj : j < h.maxnum.toNat)
    (hij : i ≠ j) : h.header heap j+4 ≤ h.header heap i ∨ h.header heap i+4 ≤ h.header heap j := by
  have hd := hf.dsize
  obtain hlt | hlt := Nat.lt_or_gt_of_ne hij
  · have := hf.apart heap hi hlt
    rw [block,sizeofInt] at this
    omega
  · have := hf.apart heap hj hlt
    rw [block,sizeofInt] at this
    omega

theorem Fits.inside (hf : h.Fits hsize) (hi : i < h.maxnum.toNat) :
    heap ≤ h.header heap i ∧ h.block heap i+h.dsize ≤ heap+h.esz*h.maxnum := by
  have he := hf.esz (by omega)
  have hd := hf.dsize
  have hpos : 0 ≤ h.esz := by rw [he,sizeofInt]; omega
  have h0 : 0 ≤ h.esz*i := Int.mul_nonneg hpos (by omega)
  have hi' : h.esz*((i : ℤ)+1) ≤ h.esz*h.maxnum := Int.mul_le_mul_of_nonneg_left (by omega) hpos
  rw [mul_add,mul_one] at hi'
  rw [block,header]
  omega

theorem Fits.block_inj (hf : h.Fits hsize) (hi : i < h.maxnum.toNat) (hj : j < h.maxnum.toNat)
    (hb : h.block heap i = h.block heap j) : i = j := by
  by_contra hij
  rw [block,block] at hb
  have := hf.header_apart heap hi hj hij
  omega

/-- A header is set or cleared. -/
theorem Fits.taken_setInt (mem : Memory) (hf : h.Fits hsize) (hi : i < h.maxnum.toNat) (v : ℤ) :
    h.taken heap (setInt mem (h.header heap i) v) =
      if toInt32 v = 0 then (h.taken heap mem).erase i else insert i (h.taken heap mem) := by
  ext j
  have hiff : j ∈ h.taken heap (setInt mem (h.header heap i) v) ↔
      if j = i then toInt32 v ≠ 0 else j ∈ h.taken heap mem := by
    rw [mem_taken,mem_taken]
    split
    · next hj =>
      subst hj
      rw [intAt_setInt]
      exact and_iff_right hi
    · next hj =>
      refine and_congr_right fun hlt => ?_
      rw [intAt_setInt_of_apart (hf.header_apart heap hi hlt (Ne.symm hj))]
  rw [hiff]
  by_cases hv : toInt32 v = 0 <;> by_cases hj : j = i <;> simp [hv,hj]

theorem taken_congr {mem mem' : Memory}
    (hm : ∀ i < h.maxnum.toNat, intAt mem' (h.header heap i) = intAt mem (h.header heap i)) :
    h.taken heap mem' = h.taken heap mem := by
  ext i
  rw [mem_taken,mem_taken]
  exact and_congr_right fun hi => by rw [hm i hi]

end HeapT

/-- One of the headers ahead is zero, so the search finds one. -/
theorem findFree_ok {mem : Memory} {heap esz : ℤ} {m : ℕ} {n i : ℕ} (hi : i < m) {d : ℕ}
    (hd : d < n) (hfree : intAt mem (heap+esz*((i+d) % m : ℕ)) = 0) :
    ∃ j < m, findFree mem heap esz m n i = .ok (j : ℤ) ∧ intAt mem (heap+esz*j) = 0 := by
  induction n generalizing i d with
  | zero => cases hd
  | succ n ih =>
    rw [findFree]
    by_cases h0 : intAt mem (heap+esz*i) = 0
    · exact ⟨i,hi,if_pos h0,h0⟩
    · rw [if_neg h0]
      obtain _ | d := d
      · rw [Nat.add_zero,Nat.mod_eq_of_lt hi] at hfree
        exact absurd hfree h0
      · have hnext : ((i : ℤ)+1).tmod m = ((i+1) % m : ℕ) := by
          rw [Int.tmod_eq_emod_of_nonneg (by omega)]
          push_cast
          rfl
        rw [hnext]
        refine ih (Nat.mod_lt _ (by omega)) (d:=d) (by omega) ?_
        rw [Nat.mod_add_mod,Nat.add_assoc,Nat.add_comm 1 d]
        exact hfree

/-- `tk_mem_malloct` on a heap that exists. -/
theorem tkMemMalloct_eq {s : Kmem} {heapid : HeapId} {heap : ℤ}
    (hs : (s.headerPool heapid).self = some heapid) (hb : (s.headerPool heapid).heap = some heap)
    (size : ℕ) : tkMemMalloct s heapid size =
      if (s.headerPool heapid).maxnum ≤ (s.headerPool heapid).blocks then .ok (s,none)
      else (findFree s.mem heap (s.headerPool heapid).esz (s.headerPool heapid).maxnum
        ((s.headerPool heapid).maxnum.toNat+1) (s.headerPool heapid).indx).map fun i =>
        ({ s with
          headerPool := Function.update s.headerPool heapid { s.headerPool heapid with
            indx := (i+1).tmod (s.headerPool heapid).maxnum
            blocks := (s.headerPool heapid).blocks+1 }
          mem := setInt s.mem (heap+(s.headerPool heapid).esz*i) 1 },
          some (heap+(s.headerPool heapid).esz*i+sizeofInt)) := by
  simp only [tkMemMalloct,hs,hb,ne_eq,not_true_eq_false,if_false,HeapT.esz]
  split
  · rfl
  · cases findFree s.mem heap (toInt32 (sizeofInt+(s.headerPool heapid).dsize))
      (s.headerPool heapid).maxnum ((s.headerPool heapid).maxnum.toNat+1)
      (s.headerPool heapid).indx <;> rfl

structure KmemInv (heapid : HeapId) (heap hsize : ℤ) (s : KmemState) : Prop where
  self : (s.kmem.headerPool heapid).self = some heapid
  base : (s.kmem.headerPool heapid).heap = some heap
  fits : (s.kmem.headerPool heapid).Fits hsize
  blocks : (s.kmem.headerPool heapid).blocks =
    ((s.kmem.headerPool heapid).taken heap s.kmem.mem).card
  indx : 0 < (s.kmem.headerPool heapid).maxnum → 0 ≤ (s.kmem.headerPool heapid).indx ∧
    (s.kmem.headerPool heapid).indx < (s.kmem.headerPool heapid).maxnum
  live : ∀ p ∈ s.live, ∃ i ∈ (s.kmem.headerPool heapid).taken heap s.kmem.mem,
    p = (s.kmem.headerPool heapid).block heap i
  nodup : s.live.Nodup

section

variable {s : KmemState} {heapid : HeapId} {heap hsize : ℤ}

/-- All blocks are taken just when `blocks` is not less than `maxnum`. -/
theorem KmemInv.full_iff (h : KmemInv heapid heap hsize s) :
    (s.kmem.headerPool heapid).maxnum ≤ (s.kmem.headerPool heapid).blocks ↔
      ∀ i < (s.kmem.headerPool heapid).maxnum.toNat,
        intAt s.kmem.mem ((s.kmem.headerPool heapid).header heap i) ≠ 0 := by
  have hsub : (s.kmem.headerPool heapid).taken heap s.kmem.mem ⊆
      Finset.range (s.kmem.headerPool heapid).maxnum.toNat := Finset.filter_subset _ _
  have hcard := Finset.card_le_card hsub
  rw [Finset.card_range] at hcard
  rw [h.blocks]
  refine ⟨fun hle i hi => ?_,fun hall => ?_⟩
  · have heq := Finset.eq_of_subset_of_card_le hsub (by rw [Finset.card_range]; omega)
    exact ((HeapT.mem_taken ..).mp (heq ▸ Finset.mem_range.mpr hi)).2
  · have heq : (s.kmem.headerPool heapid).taken heap s.kmem.mem =
        Finset.range (s.kmem.headerPool heapid).maxnum.toNat :=
      Finset.filter_true_of_mem fun i hi => hall i (Finset.mem_range.mp hi)
    rw [heq,Finset.card_range]
    omega

/-- `tk_mem_malloct` refuses when all blocks are taken, and takes a free one otherwise. -/
theorem KmemInv.malloct_cases (h : KmemInv heapid heap hsize s) (size : ℕ) :
    ((s.kmem.headerPool heapid).maxnum ≤ (s.kmem.headerPool heapid).blocks ∧
      tkMemMalloct s.kmem heapid size = .ok (s.kmem,none)) ∨
    ∃ i < (s.kmem.headerPool heapid).maxnum.toNat, ∃ indx,
      (s.kmem.headerPool heapid).blocks < (s.kmem.headerPool heapid).maxnum ∧
      i ∉ (s.kmem.headerPool heapid).taken heap s.kmem.mem ∧
      0 ≤ indx ∧ indx < (s.kmem.headerPool heapid).maxnum ∧
      tkMemMalloct s.kmem heapid size = .ok ({ s.kmem with
        headerPool := Function.update s.kmem.headerPool heapid { s.kmem.headerPool heapid with
          indx := indx, blocks := (s.kmem.headerPool heapid).blocks+1 }
        mem := setInt s.kmem.mem ((s.kmem.headerPool heapid).header heap i) 1 },
        some ((s.kmem.headerPool heapid).block heap i)) := by
  have hfull := h.full_iff
  set hd := s.kmem.headerPool heapid with hhd
  have heq := tkMemMalloct_eq h.self h.base size
  rw [← hhd] at heq
  by_cases hle : hd.maxnum ≤ hd.blocks
  · exact Or.inl ⟨hle,by rw [heq,if_pos hle]⟩
  obtain ⟨f,hf,h0⟩ : ∃ f < hd.maxnum.toNat, intAt s.kmem.mem (hd.header heap f) = 0 := by
    by_contra hn
    push Not at hn
    exact hle (hfull.mpr hn)
  obtain ⟨hi0,hilt⟩ := h.indx (by rw [← hhd]; omega)
  rw [← hhd] at hi0 hilt
  -- the free header is some way ahead of `indx`
  obtain ⟨j,hj,hfind,hj0⟩ := findFree_ok
    (m:=hd.maxnum.toNat) (n:=hd.maxnum.toNat+1) (i:=hd.indx.toNat) (by omega)
    (d:=(f+hd.maxnum.toNat-hd.indx.toNat) % hd.maxnum.toNat)
    ((Nat.mod_lt _ (by omega)).trans (Nat.lt_succ_self _)) (by
      rw [Nat.add_mod_mod,show hd.indx.toNat+(f+hd.maxnum.toNat-hd.indx.toNat) =
        f+hd.maxnum.toNat by omega,Nat.add_mod_right,Nat.mod_eq_of_lt hf]
      exact h0)
  rw [Int.toNat_of_nonneg hi0,Int.toNat_of_nonneg (by omega)] at hfind
  refine Or.inr ⟨j,hj,((j : ℤ)+1).tmod hd.maxnum,by omega,?_,?_,?_,?_⟩
  · rw [HeapT.mem_taken]
    exact fun hm => hm.2 hj0
  · exact Int.tmod_nonneg _ (by omega)
  · exact Int.tmod_lt_of_pos _ (by omega)
  · rw [heq,if_neg hle,hfind]
    rfl

/-- A heap with other counters and other headers. -/
theorem KmemInv.update (h : KmemInv heapid heap hsize s) {blocks indx : ℤ} {mem : Memory}
    {live : List ℤ}
    (hb : blocks = ((s.kmem.headerPool heapid).taken heap mem).card)
    (hi : 0 < (s.kmem.headerPool heapid).maxnum →
      0 ≤ indx ∧ indx < (s.kmem.headerPool heapid).maxnum)
    (hl : ∀ p ∈ live, ∃ i ∈ (s.kmem.headerPool heapid).taken heap mem,
      p = (s.kmem.headerPool heapid).block heap i) (hn : live.Nodup) :
    KmemInv heapid heap hsize ⟨{ s.kmem with
      headerPool := Function.update s.kmem.headerPool heapid
        { s.kmem.headerPool heapid with indx := indx, blocks := blocks }
      mem := mem },live⟩ := by
  constructor <;> simp only [Function.update_self]
  · exact h.self
  · exact h.base
  · exact ⟨h.fits.dsize,h.fits.esz,h.fits.hsize⟩
  · exact hb
  · exact hi
  · exact hl
  · exact hn

theorem KmemInv.malloct (h : KmemInv heapid heap hsize s) (size : ℕ) :
    Spec (kmemNext heapid s (.malloct size)) (KmemInv heapid heap hsize) (fun _ => False) := by
  simp only [kmemNext,spec_bind,spec_pure]
  obtain ⟨-,hm⟩ | ⟨i,hi,indx,-,hfree,hi0,hilt,hm⟩ := h.malloct_cases size
  · rw [hm]
    exact h
  · rw [hm]
    have htaken := h.fits.taken_setInt heap s.kmem.mem hi 1
    rw [if_neg (by decide)] at htaken
    refine h.update ?_ (fun _ => ⟨hi0,hilt⟩) (fun p hp => ?_) ?_
    · rw [htaken,Finset.card_insert_of_notMem hfree,h.blocks]
      push_cast
      rfl
    · rw [htaken]
      obtain rfl | hp := List.mem_cons.mp hp
      · exact ⟨i,Finset.mem_insert_self _ _,rfl⟩
      · obtain ⟨j,hj,hpj⟩ := h.live p hp
        exact ⟨j,Finset.mem_insert_of_mem hj,hpj⟩
    · refine List.nodup_cons.mpr ⟨fun hp => ?_,h.nodup⟩
      obtain ⟨j,hj,hpj⟩ := h.live _ hp
      rw [h.fits.block_inj heap hi ((HeapT.mem_taken ..).mp hj).1 hpj] at hfree
      exact hfree hj

/-- `tk_mem_free` clears the header of a block, unless all blocks are taken. -/
theorem KmemInv.free_eq (h : KmemInv heapid heap hsize s) (i : ℕ) :
    tkMemFree s.kmem heapid ((s.kmem.headerPool heapid).block heap i) =
      if (s.kmem.headerPool heapid).maxnum ≤ (s.kmem.headerPool heapid).blocks then s.kmem
      else { s.kmem with
        headerPool := Function.update s.kmem.headerPool heapid { s.kmem.headerPool heapid with
          indx := (s.kmem.headerPool heapid).indx
          blocks := (s.kmem.headerPool heapid).blocks-1 }
        mem := setInt s.kmem.mem ((s.kmem.headerPool heapid).header heap i) 0 } := by
  have hself : ¬(s.kmem.headerPool heapid).self ≠ some heapid := fun hn => hn h.self
  simp only [tkMemFree,if_neg hself,HeapT.block,add_sub_cancel_right]

theorem KmemInv.free (h : KmemInv heapid heap hsize s) {ptr : ℤ} (hp : ptr ∈ s.live) :
    KmemInv heapid heap hsize ⟨tkMemFree s.kmem heapid ptr,s.live.erase ptr⟩ := by
  have hsub : ∀ p ∈ s.live.erase ptr, p ∈ s.live := fun p => List.mem_of_mem_erase
  obtain ⟨i,hi,rfl⟩ := h.live ptr hp
  have him := ((HeapT.mem_taken ..).mp hi).1
  rw [h.free_eq]
  split
  · exact ⟨h.self,h.base,h.fits,h.blocks,h.indx,fun p hp => h.live p (hsub p hp),h.nodup.erase _⟩
  · have htaken := h.fits.taken_setInt heap s.kmem.mem him 0
    rw [if_pos (by decide)] at htaken
    refine h.update ?_ h.indx (fun p hp => ?_) (h.nodup.erase _)
    · have hpos := Finset.card_pos.mpr ⟨i,hi⟩
      rw [htaken,Finset.card_erase_of_mem hi,h.blocks]
      omega
    · obtain ⟨j,hj,hpj⟩ := h.live p (hsub p hp)
      refine ⟨j,?_,hpj⟩
      rw [htaken,Finset.mem_erase]
      refine ⟨?_,hj⟩
      rintro rfl
      exact (h.nodup.mem_erase_iff.mp hp).1 hpj

/-- What a user writes into its block is in no header. -/
theorem KmemInv.store (h : KmemInv heapid heap hsize s) {ptr off : ℤ} (c : Byte)
    (hp : ptr ∈ s.live) (h0 : 0 ≤ off) (hoff : off < (s.kmem.headerPool heapid).dsize) :
    KmemInv heapid heap hsize
      { s with kmem := { s.kmem with mem := Function.update s.kmem.mem (ptr+off) c } } := by
  have htaken : (s.kmem.headerPool heapid).taken heap (Function.update s.kmem.mem (ptr+off) c) =
      (s.kmem.headerPool heapid).taken heap s.kmem.mem := by
    obtain ⟨i,hi,rfl⟩ := h.live ptr hp
    have him := ((HeapT.mem_taken ..).mp hi).1
    refine HeapT.taken_congr _ fun j hj => intAt_congr fun a ha1 ha2 =>
      Function.update_of_ne (fun hne => ?_) _ _
    -- blocks before and behind header `j` keep clear of it
    obtain hij | rfl | hij := Nat.lt_trichotomy i j
    · have := h.fits.apart heap him hij
      omega
    · rw [HeapT.block,sizeofInt] at hne
      omega
    · have := h.fits.apart heap hj hij
      have hd := h.fits.dsize
      rw [HeapT.block,sizeofInt] at this hne
      omega
  refine ⟨h.self,h.base,h.fits,?_,h.indx,?_,h.nodup⟩
  · exact h.blocks.trans (by rw [htaken])
  · simp only [htaken]
    exact h.live

theorem kmemStep_spec {x : KmemLabel} (h : KmemInv heapid heap hsize s)
    (he : kmemEnabled heapid s x = true) :
    Spec (kmemNext heapid s x) (KmemInv heapid heap hsize) (fun _ => False) := by
  cases x with
  | malloct size => exact h.malloct size
  | free ptr => exact h.free (of_decide_eq_true he)
  | store ptr off c =>
    obtain ⟨hp,h0,hoff⟩ := of_decide_eq_true he
    exact h.store c hp h0 hoff

theorem clearHeaders_snd (esz : ℤ) (n : ℕ) (mem : Memory) (ptr : ℤ) :
    (clearHeaders esz n mem ptr).2 = ptr+esz*n := by
  induction n generalizing mem ptr with
  | zero => simp [clearHeaders]
  | succ n ih =>
    rw [clearHeaders,ih]
    push_cast
    ring

/-- The bytes of the headers are zero, also where headers overlap, and no other byte changes. -/
theorem clearHeaders_fst (esz : ℤ) (n : ℕ) (mem : Memory) (ptr a : ℤ) :
    (clearHeaders esz n mem ptr).1 a =
      if ∃ i < n, ptr+esz*(i : ℕ) ≤ a ∧ a < ptr+esz*(i : ℕ)+4 then 0 else mem a := by
  induction n generalizing mem ptr with
  | zero => simp [clearHeaders]
  | succ n ih =>
    have hshift : ∀ i : ℕ, ptr+esz+esz*i = ptr+esz*((i+1 : ℕ) : ℤ) := by
      intro i
      push_cast
      ring
    have hset : setInt mem ptr 0 a = if ptr ≤ a ∧ a < ptr+4 then 0 else mem a := by
      simp [setInt,sizeofInt]
    rw [clearHeaders,ih,hset]
    simp only [Nat.exists_lt_succ_left,hshift,Nat.cast_zero,mul_zero,add_zero]
    by_cases h0 : ptr ≤ a ∧ a < ptr+4 <;> simp [h0]

theorem clearHeaders_zero (esz : ℤ) {n i : ℕ} (hi : i < n) (mem : Memory) (ptr : ℤ) :
    intAt (clearHeaders esz n mem ptr).1 (ptr+esz*i) = 0 := by
  apply intAt_zero
  intro a ha1 ha2
  rw [clearHeaders_fst]
  exact if_pos ⟨i,hi,ha1,ha2⟩

/-- Without `KMEM_KEEP_UNINITIALIZED` all headers are zero. -/
theorem layHeap_spec {mem : Memory} {heap hsize esz mxnum : ℤ} {opt : KmemOpt} {id : HeapId}
    (hopt : opt &&& kmemKeepUninitialized = 0)
    (hm : 0 < mxnum → 4 ≤ esz ∧ esz*mxnum ≤ hsize) :
    Spec (layHeap mem heap hsize esz mxnum opt id) (fun x => x.2.1 = 0 ∧ x.2.2.1 = 0 ∧
      ∀ i < mxnum.toNat, intAt x.1 (heap+esz*i) = 0) (fun _ => True) := by
  simp only [layHeap,hopt,memset,ne_eq,not_true_eq_false,spec_ite,spec_bind,spec_check,spec_pure,
    false_implies,true_and,not_false_eq_true,forall_const,implies_true,and_true]
  refine ⟨fun _ _ i hi => ?_,fun _ => ?_⟩
  · obtain ⟨he,hle⟩ := hm (by omega)
    have h0 : 0 ≤ esz*i := Int.mul_nonneg (by omega) (by omega)
    have hi' : esz*((i : ℤ)+1) ≤ esz*mxnum := Int.mul_le_mul_of_nonneg_left (by omega) (by omega)
    rw [mul_add,mul_one] at hi'
    exact intAt_zero fun a ha1 ha2 => if_pos (by omega)
  · have hclear : ∀ mem : Memory, ∀ i < mxnum.toNat,
        intAt (clearHeaders esz mxnum.toNat mem heap).1 (heap+esz*i) = 0 :=
      fun mem i hi => clearHeaders_zero _ hi _ _
    exact ⟨fun _ _ => hclear _,fun _ => hclear _⟩

theorem findHeader_heap {headerPool : HeapId → HeapT} {n : ℕ} {i id j : HeapId}
    (h : findHeader headerPool n i = (some id,j)) : (headerPool id).heap = none := by
  induction n generalizing i with
  | zero => cases h
  | succ n ih =>
    rw [findHeader] at h
    split at h
    · next hn =>
      cases h
      exact hn
    · exact ih h

/-- `s'` has a heap at `heap` in a header of `s` that was free. -/
structure Kmem.Creates (s : Kmem) (hsize dsize : ℤ) (opt : KmemOpt) (heap : ℤ) (s' : Kmem)
    (id : HeapId) : Prop where
  free : (s.headerPool id).heap = none
  others : ∀ j, j ≠ id → s'.headerPool j = s.headerPool j
  self : (s'.headerPool id).self = some id
  base : (s'.headerPool id).heap = some heap
  dsize : (s'.headerPool id).dsize = dsize
  esz : (s'.headerPool id).esz ≠ 0
  maxnum : (s'.headerPool id).maxnum = hsize.tdiv (s'.headerPool id).esz
  lays : ∃ last, (s'.headerPool id).last = some last ∧
    layHeap s.mem heap hsize (s'.headerPool id).esz (s'.headerPool id).maxnum opt id =
      .ok (s'.mem,(s'.headerPool id).blocks,(s'.headerPool id).indx,last)

/-- What a successful `tk_create_heap` does. -/
theorem tkCreateHeap_creates {k : Kmem} {dsize : ℤ} {opt : KmemOpt} {granted heapPtr : Option ℤ} :
    Spec (tkCreateHeap k hsize dsize opt granted heapPtr) (fun x => ∀ id, x.2 = some id →
      ∃ heap, heapPtr.or granted = some heap ∧ k.Creates hsize dsize opt heap x.1 id)
      (fun _ => True) := by
  simp only [tkCreateHeap,spec_bind,spec_check,spec_ite,spec_pure,implies_true,and_true]
  refine fun hesz _ => ⟨fun _ => (by rintro _ ⟨⟩),fun _ => ?_⟩
  split
  · trivial
  · next idx cidx hfind =>
    split
    · rintro _ ⟨⟩
    · next hp heap hheap =>
      rw [spec_bind]
      cases hlay : layHeap k.mem heap hsize (toInt32 (sizeofInt+dsize))
        (hsize.tdiv (toInt32 (sizeofInt+dsize))) opt idx with
      | error e => trivial
      | ok x =>
        intro id hid
        obtain rfl := Option.some.inj hid
        refine ⟨heap,hheap,findHeader_heap hfind,fun j hj => Function.update_of_ne hj _ _,?_,?_,?_,
          ?_,?_,?_⟩ <;> simp only [Function.update_self]
        · exact hesz
        · rfl
        · exact ⟨_,rfl,hlay⟩

theorem tkCreateHeap_inv {k : Kmem} {dsize : ℤ} {opt : KmemOpt} {granted heapPtr : Option ℤ}
    (hopt : opt &&& kmemKeepUninitialized = 0) (hh : 0 ≤ hsize) (hd : 0 ≤ dsize)
    (hd' : dsize < 2^31) : Spec (tkCreateHeap k hsize dsize opt granted heapPtr)
      (fun x => ∀ id, x.2 = some id → ∃ heap, KmemInv id heap hsize ⟨x.1,[]⟩) (fun _ => True) := by
  apply tkCreateHeap_creates.imp
  rintro ⟨k',_⟩ h id rfl
  obtain ⟨heap,-,hc⟩ : ∃ heap, heapPtr.or granted = some heap ∧
    k.Creates hsize dsize opt heap k' id := h id rfl
  obtain ⟨last,-,hlay⟩ := hc.lays
  have hesz : 0 < (k'.headerPool id).esz →
      (k'.headerPool id).esz = sizeofInt+(k'.headerPool id).dsize := by
    intro hpos
    rw [HeapT.esz,toInt32,Int.bmod_def,hc.dsize,sizeofInt] at *
    omega
  have hm : 0 < (k'.headerPool id).maxnum → 4 ≤ (k'.headerPool id).esz ∧
      (k'.headerPool id).esz*(k'.headerPool id).maxnum ≤ hsize := by
    intro hpos
    rw [hc.maxnum] at hpos
    have he : 0 < (k'.headerPool id).esz := by
      by_contra hn
      have := Int.tdiv_nonpos_of_nonneg_of_nonpos hh (Int.not_lt.mp hn)
      omega
    have hd4 := hesz he
    rw [hc.dsize,sizeofInt] at hd4
    refine ⟨by omega,?_⟩
    rw [hc.maxnum,Int.tdiv_eq_ediv_of_nonneg hh]
    exact Int.mul_ediv_self_le he.ne'
  obtain ⟨hb,hx,h0⟩ := (layHeap_spec hopt hm).of_ok hlay
  have hx : (k'.headerPool id).indx = 0 := hx
  refine ⟨heap,hc.self,hc.base,⟨?_,?_,fun hpos => (hm hpos).2⟩,?_,?_,by rintro _ ⟨⟩,List.nodup_nil⟩
  · rw [hc.dsize]
    exact hd
  · intro hpos
    have := (hm hpos).1
    exact hesz (by omega)
  · rw [HeapT.taken_eq_empty _ _ h0]
    exact hb
  · intro hpos
    simp only [hx]
    exact ⟨Int.le_refl _,hpos⟩

theorem kmemRun_inv {k0 k : Kmem} {hsize dsize : ℤ} {opt : KmemOpt} {granted heapPtr : Option ℤ}
    {heapid : HeapId} (hopt : opt &&& kmemKeepUninitialized = 0) (hh : 0 ≤ hsize) (hd : 0 ≤ dsize)
    (hd' : dsize < 2^31)
    (hc : tkCreateHeap k0 hsize dsize opt granted heapPtr = .ok (k,some heapid))
    {ls : List KmemLabel} {s : KmemState} (hr : (kmemMachine heapid).run ⟨k,[]⟩ ls = some s) :
    ∃ heap, KmemInv heapid heap hsize s := by
  obtain ⟨heap,hi⟩ := (tkCreateHeap_inv hopt hh hd hd').of_ok hc heapid rfl
  exact ⟨heap,(kmemMachine heapid).run_invariant_of_step
    (fun s x s' hi hs => (kmemStep_spec hi hs.1).of_ok hs.2) hi hr⟩

end

/-! ### The invariant of a block heap -/

/-- `blocks` counts the headers that are set, `indx` stays in range, and `tk_mem_malloct` ends:
with NULL when all blocks are taken, with a free block of the heap otherwise. -/
structure BlockHeap (heapid : HeapId) (hsize : ℤ) (s : KmemState) (heap : ℤ) : Prop where
  base : (s.kmem.headerPool heapid).heap = some heap
  blocks : (s.kmem.headerPool heapid).blocks =
    ((s.kmem.headerPool heapid).taken heap s.kmem.mem).card
  indx : 0 < (s.kmem.headerPool heapid).maxnum → 0 ≤ (s.kmem.headerPool heapid).indx ∧
    (s.kmem.headerPool heapid).indx < (s.kmem.headerPool heapid).maxnum
  malloct : ∀ size, ∃ k ptr, tkMemMalloct s.kmem heapid size = .ok (k,ptr) ∧
    (ptr = none ↔ ∀ i < (s.kmem.headerPool heapid).maxnum.toNat,
      intAt s.kmem.mem ((s.kmem.headerPool heapid).header heap i) ≠ 0) ∧
    ∀ p, ptr = some p → heap+sizeofInt ≤ p ∧
      p+(s.kmem.headerPool heapid).dsize ≤ heap+hsize ∧
      ∀ i ∈ (s.kmem.headerPool heapid).taken heap s.kmem.mem,
        p ≠ (s.kmem.headerPool heapid).block heap i

theorem KmemInv.blockHeap {s : KmemState} {heapid : HeapId} {heap hsize : ℤ}
    (h : KmemInv heapid heap hsize s) : BlockHeap heapid hsize s heap where
  base := h.base
  blocks := h.blocks
  indx := h.indx
  malloct := by
    intro size
    obtain ⟨hfull,hm⟩ | ⟨i,hi,indx,hlt,hfree,-,-,hm⟩ := h.malloct_cases size
    · exact ⟨_,_,hm,⟨fun _ => h.full_iff.mp hfull,fun _ => rfl⟩,by rintro _ ⟨⟩⟩
    · refine ⟨_,_,hm,⟨by rintro ⟨⟩,fun hall => ?_⟩,fun p hp => ?_⟩
      · have := h.full_iff.mpr hall
        omega
      · obtain rfl := Option.some.inj hp
        obtain ⟨hlo,hhi⟩ := h.fits.inside heap hi
        have hsz := h.fits.hsize (by omega)
        refine ⟨by rw [HeapT.block]; omega,by omega,fun j hj he => ?_⟩
        rw [h.fits.block_inj heap hi ((HeapT.mem_taken ..).mp hj).1 he] at hfree
        exact hfree hj

/-- Every run on a new heap keeps its headers and its counters in step. -/
theorem kmemRun_blockHeap {k0 k : Kmem} {hsize dsize : ℤ} {opt : KmemOpt}
    {granted heapPtr : Option ℤ} {heapid : HeapId} (hopt : opt &&& kmemKeepUninitialized = 0)
    (hh : 0 ≤ hsize) (hd : 0 ≤ dsize) (hd' : dsize < 2^31)
    (hc : tkCreateHeap k0 hsize dsize opt granted heapPtr = .ok (k,some heapid))
    {ls : List KmemLabel} {s : KmemState} (hr : (kmemMachine heapid).run ⟨k,[]⟩ ls = some s) :
    ∃ heap, BlockHeap heapid hsize s heap := by
  obtain ⟨heap,hi⟩ := kmemRun_inv hopt hh hd hd' hc hr
  exact ⟨heap,hi.blockHeap⟩

/-- The pool after `tk_mem`. -/
def emptyKmem : Kmem := ⟨fun _ => .cleared,0,0,fun _ => 0xff⟩

/-- A heap of two blocks of four bytes, as it is created. -/
def twoBlocks : Kmem := ⟨Function.update (fun _ => .cleared) 0
    ⟨2,4,0,0,some 1000,false,some 0,some 1016⟩,1,1,
  setInt (setInt (fun _ => 0xff) 1000 0) 1008 0⟩

theorem twoBlocks_created : tkCreateHeap emptyKmem 18 4 0 none (some 1000) =
    .ok (twoBlocks,some 0) := rfl

/-- The first block is freed before the heap is full, and handed out again after the second. -/
def reuseSteps : List KmemLabel := [.malloct 4,.store 1004 3 7,.free 1004,.malloct 4,.malloct 4]

theorem kmemRun_blockHeap_reuse : ∃ s heap, (kmemMachine 0).run ⟨twoBlocks,[]⟩ reuseSteps = some s ∧
    s.live = [1004,1012] ∧ BlockHeap 0 18 s heap := by
  obtain ⟨s,hr,hl⟩ := (kmemMachine 0).exists_run (fun s => s.live = [1004,1012]) ⟨twoBlocks,[]⟩
    reuseSteps (by decide +kernel)
  obtain ⟨heap,hb⟩ := kmemRun_blockHeap (by decide) (by decide) (by decide) (by decide)
    twoBlocks_created hr
  exact ⟨s,heap,hr,hl,hb⟩

/-! ### What the users of a heap can rely on -/

/-- What `tk_mem_malloct` returns points to `size` bytes that are the heap's, in no header and in no
block that is taken. What is behind the last block belongs to no block. -/
def MalloctGives (heapid : HeapId) (s : KmemState) (heap : ℤ) (size : ℕ) : Prop :=
  ∀ k p, tkMemMalloct s.kmem heapid size = .ok (k,some p) → ∀ off : ℕ, off < size →
    (heap ≤ p+off ∧ p+off < heap+
      (s.kmem.headerPool heapid).esz*(s.kmem.headerPool heapid).maxnum) ∧
    (∀ i < (s.kmem.headerPool heapid).maxnum.toNat,
      ¬((s.kmem.headerPool heapid).header heap i ≤ p+off ∧
        p+off < (s.kmem.headerPool heapid).header heap i+sizeofInt)) ∧
    ∀ i ∈ (s.kmem.headerPool heapid).taken heap s.kmem.mem,
      ¬((s.kmem.headerPool heapid).block heap i ≤ p+off ∧
        p+off < (s.kmem.headerPool heapid).block heap i+(s.kmem.headerPool heapid).dsize)

/-- `tk_mem_free` makes the block at `p` and no other free again, so `blocks` drops by one and there
is a block for the next `tk_mem_malloct`. -/
def FreeGives (heapid : HeapId) (s : KmemState) (heap p : ℤ) : Prop :=
  let k := tkMemFree s.kmem heapid p
  (k.headerPool heapid).blocks = (s.kmem.headerPool heapid).blocks-1 ∧
  (∀ i, i ∈ (k.headerPool heapid).taken heap k.mem ↔
    i ∈ (s.kmem.headerPool heapid).taken heap s.kmem.mem ∧
      p ≠ (s.kmem.headerPool heapid).block heap i) ∧
  ∀ size, ∃ k' q, tkMemMalloct k heapid size = .ok (k',some q)

section

variable {s : KmemState} {heapid : HeapId} {heap hsize : ℤ}

theorem KmemInv.malloctGives_iff (h : KmemInv heapid heap hsize s) (size : ℕ) :
    MalloctGives heapid s heap size ↔
      (s.kmem.headerPool heapid).maxnum ≤ (s.kmem.headerPool heapid).blocks ∨
      size ≤ (s.kmem.headerPool heapid).dsize := by
  obtain ⟨hfull,hm⟩ | ⟨i,hi,indx,hlt,hfree,-,-,hm⟩ := h.malloct_cases size
  · refine ⟨fun _ => Or.inl hfull,fun _ k p hk => ?_⟩
    rw [hm] at hk
    cases hk
  have hd := h.fits.dsize
  obtain ⟨hlo,hhi⟩ := h.fits.inside heap hi
  refine ⟨fun hg => ?_,fun hc k p hk off hoff => ?_⟩
  · by_contra hn
    rw [not_or] at hn
    -- the byte behind the block is in the next header or behind the heap
    obtain ⟨⟨-,hin⟩,hhead,-⟩ := hg _ _ hm (s.kmem.headerPool heapid).dsize.toNat (by omega)
    rw [Int.toNat_of_nonneg hd] at hin hhead
    have he := h.fits.esz (by omega)
    have hnext : (s.kmem.headerPool heapid).header heap (i+1) =
        (s.kmem.headerPool heapid).block heap i+(s.kmem.headerPool heapid).dsize := by
      rw [HeapT.block,HeapT.header,HeapT.header]
      push_cast
      rw [mul_add,mul_one]
      omega
    by_cases hi' : i+1 < (s.kmem.headerPool heapid).maxnum.toNat
    · refine hhead (i+1) hi' ?_
      rw [hnext,sizeofInt]
      omega
    · have hlast : (s.kmem.headerPool heapid).maxnum = ((i+1 : ℕ) : ℤ) := by omega
      rw [hlast,← hnext,HeapT.header] at hin
      omega
  · rw [hm] at hk
    obtain ⟨-,rfl⟩ := Prod.mk.inj (Except.ok.inj hk) |>.imp id Option.some.inj
    have hsize : (size : ℤ) ≤ (s.kmem.headerPool heapid).dsize := hc.resolve_left (by omega)
    have hb : (s.kmem.headerPool heapid).block heap i =
        (s.kmem.headerPool heapid).header heap i+sizeofInt := rfl
    rw [sizeofInt] at hb
    have hclear : ∀ j < (s.kmem.headerPool heapid).maxnum.toNat, j ≠ i →
        (s.kmem.headerPool heapid).block heap i+(s.kmem.headerPool heapid).dsize ≤
          (s.kmem.headerPool heapid).header heap j ∨
        (s.kmem.headerPool heapid).block heap j+(s.kmem.headerPool heapid).dsize ≤
          (s.kmem.headerPool heapid).header heap i := by
      intro j hj hji
      obtain hlt | hlt := Nat.lt_or_gt_of_ne hji
      · exact Or.inr (h.fits.apart heap hj hlt)
      · exact Or.inl (h.fits.apart heap hi hlt)
    have hbj : ∀ j, (s.kmem.headerPool heapid).block heap j =
        (s.kmem.headerPool heapid).header heap j+4 := fun _ => rfl
    refine ⟨⟨by omega,by omega⟩,fun j hj => ?_,fun j hj => ?_⟩
    · rw [sizeofInt]
      by_cases hji : j = i
      · subst hji
        omega
      · have := hclear j hj hji
        have := hbj j
        omega
    · have hjm := ((HeapT.mem_taken ..).mp hj).1
      have hji : j ≠ i := by
        rintro rfl
        exact hfree hj
      have := hclear j hjm hji
      have := hbj j
      omega

theorem KmemInv.freeGives_iff (h : KmemInv heapid heap hsize s) {p : ℤ} (hp : p ∈ s.live) :
    FreeGives heapid s heap p ↔
      (s.kmem.headerPool heapid).blocks < (s.kmem.headerPool heapid).maxnum := by
  have hinv := h.free hp
  obtain ⟨i,hi,rfl⟩ := h.live p hp
  have him := ((HeapT.mem_taken ..).mp hi).1
  have hk := h.free_eq i
  refine ⟨fun hg => ?_,fun hlt => ?_⟩
  · by_contra hn
    rw [if_pos (Int.not_lt.mp hn)] at hk
    have hb := hg.1
    rw [hk] at hb
    omega
  · rw [if_neg (by omega)] at hk
    have htaken := h.fits.taken_setInt heap s.kmem.mem him 0
    rw [if_pos (by decide)] at htaken
    refine ⟨?_,fun j => ?_,fun size => ?_⟩
    · simp only [hk,Function.update_self]
    · simp only [hk,Function.update_self]
      have hmem : j ∈ (s.kmem.headerPool heapid).taken heap
          (setInt s.kmem.mem ((s.kmem.headerPool heapid).header heap i) 0) ↔
          j ∈ (s.kmem.headerPool heapid).taken heap s.kmem.mem ∧ j ≠ i := by
        rw [htaken,Finset.mem_erase]
        exact and_comm
      refine hmem.trans (and_congr_right fun hj => not_congr ⟨fun he => by rw [he],fun he => ?_⟩)
      exact (h.fits.block_inj heap him ((HeapT.mem_taken ..).mp hj).1 he).symm
    · obtain ⟨hfull,-⟩ | ⟨j,-,indx,-,-,-,-,hm⟩ := hinv.malloct_cases size
      · simp only [hk,Function.update_self] at hfull
        omega
      · exact ⟨_,_,hm⟩

/-- On a new heap, whatever has been done with it, `tk_mem_malloct` gives what is asked for just
when the heap is full or its blocks are large enough, and `tk_mem_free` frees just when the heap is
not full. -/
theorem kmemRun_gives_iff {k0 k : Kmem} {hsize dsize : ℤ} {opt : KmemOpt}
    {granted heapPtr : Option ℤ} {heapid : HeapId} (hopt : opt &&& kmemKeepUninitialized = 0)
    (hh : 0 ≤ hsize) (hd : 0 ≤ dsize) (hd' : dsize < 2^31)
    (hc : tkCreateHeap k0 hsize dsize opt granted heapPtr = .ok (k,some heapid))
    {ls : List KmemLabel} {s : KmemState} (hr : (kmemMachine heapid).run ⟨k,[]⟩ ls = some s) :
    ∃ heap, (s.kmem.headerPool heapid).heap = some heap ∧
      (∀ size : ℕ, MalloctGives heapid s heap size ↔
        (s.kmem.headerPool heapid).maxnum ≤ (s.kmem.headerPool heapid).blocks ∨
        size ≤ (s.kmem.headerPool heapid).dsize) ∧
      ∀ p ∈ s.live, FreeGives heapid s heap p ↔
        (s.kmem.headerPool heapid).blocks < (s.kmem.headerPool heapid).maxnum := by
  obtain ⟨heap,hi⟩ := kmemRun_inv hopt hh hd hd' hc hr
  exact ⟨heap,hi.base,hi.malloctGives_iff,fun p hp => hi.freeGives_iff hp⟩

theorem kmemRun_gives_iff_reuse : ∃ s, (kmemMachine 0).run ⟨twoBlocks,[]⟩ reuseSteps = some s ∧
    ∃ heap, (s.kmem.headerPool 0).heap = some heap ∧
      (∀ size : ℕ, MalloctGives 0 s heap size ↔ (s.kmem.headerPool 0).maxnum ≤
        (s.kmem.headerPool 0).blocks ∨ size ≤ (s.kmem.headerPool 0).dsize) ∧
      ∀ p ∈ s.live, FreeGives 0 s heap p ↔
        (s.kmem.headerPool 0).blocks < (s.kmem.headerPool 0).maxnum := by
  obtain ⟨s,hr⟩ := Option.isSome_iff_exists.mp (show ((kmemMachine 0).run ⟨twoBlocks,[]⟩
    reuseSteps).isSome = true by decide +kernel)
  exact ⟨s,hr,kmemRun_gives_iff (by decide) (by decide) (by decide) (by decide) twoBlocks_created hr⟩

/-- Both blocks are taken, so the first cannot be freed. -/
theorem kmemRun_not_gives : ¬∀ (ls : List KmemLabel) (s : KmemState),
    (kmemMachine 0).run ⟨twoBlocks,[]⟩ ls = some s →
    (∀ size, MalloctGives 0 s 1000 size) ∧ ∀ p ∈ s.live, FreeGives 0 s 1000 p := by
  intro h
  obtain ⟨s,hr,hl,hb⟩ := (kmemMachine 0).exists_run
    (fun s => 1004 ∈ s.live ∧ ((tkMemFree s.kmem 0 1004).headerPool 0).blocks ≠
      (s.kmem.headerPool 0).blocks-1)
    ⟨twoBlocks,[]⟩ [.malloct 4,.malloct 4] (by decide +kernel)
  exact hb ((h _ _ hr).2 1004 hl).1

end

end Tinker

import Tinker.KmemRun

/-! A heap as `tk_create_heap` leaves it. Its three ways to begin walk over the memory, or fill it,
with a pointer that afterwards says where the heap ends, and only one of the walks moves it. -/
namespace Tinker

open Outcome

/-- The counters of a new heap are in step with the memory, which its options have prepared, and
`last` is behind the last block. -/
structure HeapT.Laid (h : HeapT) (opt : KmemOpt) (before after : Memory) (heap : ℤ) : Prop where
  base : h.heap = some heap
  blocks : h.blocks = (h.taken heap after).card
  indx : (∃ i < h.maxnum.toNat, intAt after (h.header heap i) = 0) →
    ∃ i < h.maxnum.toNat, h.indx = i ∧ intAt after (h.header heap i) = 0
  keep : opt &&& kmemKeepUninitialized ≠ 0 → after = before
  zero : opt &&& kmemKeepUninitialized = 0 →
    ∀ i < h.maxnum.toNat, intAt after (h.header heap i) = 0
  last : h.last = some (heap+h.maxnum*h.esz)

section

variable {h : HeapT} {mem before : Memory} {heap : ℤ} {opt : KmemOpt}

/-- On zero headers zero counters are right, and `last` decides. -/
theorem HeapT.laid_iff_of_zero (hbase : h.heap = some heap)
    (hopt : opt &&& kmemKeepUninitialized = 0)
    (hb : h.blocks = 0) (hi : h.indx = 0)
    (hz : ∀ i < h.maxnum.toNat, intAt mem (h.header heap i) = 0) :
    h.Laid opt before mem heap ↔ h.last = some (heap+h.maxnum*h.esz) := by
  constructor
  · exact fun hl => hl.last
  · intro hl
    constructor
    · exact hbase
    · rw [hb,taken_eq_empty h heap hz,Finset.card_empty,Nat.cast_zero]
    · rintro ⟨i,hlt,-⟩
      exact ⟨0,by omega,hi,hz 0 (by omega)⟩
    · exact fun hn => absurd hopt hn
    · exact fun _ => hz
    · exact hl

/-- The walk over old headers, when there is only one. -/
theorem keepHeaders_one (mem : Memory) (ptr : ℤ) :
    keepHeaders mem ptr 1 0 (0,0) = if intAt mem ptr ≠ 0 then (1,0) else (0,0) := rfl

/-- The walk over old headers looks at the first one only, and `last` is behind that. -/
theorem HeapT.laid_iff_of_keep (hbase : h.heap = some heap) (hopt : opt &&& kmemKeepUninitialized ≠ 0)
    (hc : (h.blocks,h.indx) = keepHeaders mem heap h.maxnum.toNat 0 (0,0))
    (hl : h.last = some (heap+h.esz)) (hesz : h.esz ≠ 0) :
    h.Laid opt mem mem heap ↔ h.maxnum = 1 := by
  constructor
  · intro hlaid
    have hends : heap+h.esz = heap+h.maxnum*h.esz :=
      Option.some.inj (hl.symm.trans hlaid.last)
    have hmul : h.maxnum*h.esz = 1*h.esz := by omega
    exact mul_right_cancel₀ hesz hmul
  · intro hone
    have hhead : h.header heap 0 = heap := by rw [header,Nat.cast_zero,mul_zero,add_zero]
    have hn : h.maxnum.toNat = 1 := by rw [hone]; rfl
    rw [hn,keepHeaders_one] at hc
    have hb : h.blocks = (if intAt mem heap ≠ 0 then ((1 : ℤ),(0 : ℤ)) else (0,0)).1 :=
      congrArg Prod.fst hc
    have hx : h.indx = 0 := by
      have hx2 : h.indx = (if intAt mem heap ≠ 0 then ((1 : ℤ),(0 : ℤ)) else (0,0)).2 :=
        congrArg Prod.snd hc
      rw [hx2]
      split <;> rfl
    constructor
    · exact hbase
    · rw [hb,taken,hn,Finset.range_one,Finset.filter_singleton,hhead]
      split <;> rfl
    · rintro ⟨i,hi,h0⟩
      obtain rfl : i = 0 := by omega
      exact ⟨0,hi,hx,h0⟩
    · exact fun _ => rfl
    · exact fun hn => absurd hn hopt
    · rw [hl,hone,one_mul]

end

section

variable {mem mem' : Memory} {heap hsize : ℤ} {h : HeapT} {opt : KmemOpt} {id : HeapId} {last : ℤ}

theorem laid_iff_of_keep (hbase : h.heap = some heap) (hl : h.last = some last)
    (hesz : h.esz ≠ 0) (hopt : opt &&& kmemKeepUninitialized ≠ 0)
    (hlay : layHeap mem heap hsize h.esz h.maxnum opt id = .ok (mem',h.blocks,h.indx,last)) :
    h.Laid opt mem mem' heap ↔ h.maxnum = 1 := by
  rw [layHeap,if_pos hopt] at hlay
  simp only [Except.ok.injEq,Prod.mk.injEq] at hlay
  obtain ⟨rfl,hb,hx,rfl⟩ := hlay
  exact HeapT.laid_iff_of_keep hbase hopt (Prod.ext hb.symm hx.symm) hl hesz

/-- With `KMEM_BLANK_ZERO` there is no walk, and `last` is the heap itself. -/
theorem laid_iff_of_blankZero (hbase : h.heap = some heap) (hl : h.last = some last)
    (hesz : h.esz ≠ 0) (hopt : opt &&& kmemKeepUninitialized = 0) (hzero : opt &&& kmemBlankZero ≠ 0)
    (hlay : layHeap mem heap hsize h.esz h.maxnum opt id = .ok (mem',h.blocks,h.indx,last)) :
    h.Laid opt mem mem' heap ↔ h.maxnum = 0 := by
  rw [layHeap,if_neg (not_not_intro hopt),if_pos hzero] at hlay
  have hspec : Spec (do let m ← memset mem heap 0 hsize; return (m,(0 : ℤ),(0 : ℤ),heap))
      (fun x => x.2.1 = 0 ∧ x.2.2.1 = 0 ∧ x.2.2.2 = heap) (fun _ => True) := by
    simp only [memset,spec_bind,spec_check,spec_pure,implies_true,and_true]
  obtain ⟨hb,hx,rfl⟩ := hspec.of_ok hlay
  constructor
  · intro hlaid
    have hends : last = last+h.maxnum*h.esz := Option.some.inj (hl.symm.trans hlaid.last)
    exact (mul_eq_zero_iff_right hesz).mp (by omega)
  · intro hn
    apply (HeapT.laid_iff_of_zero hbase hopt hb hx ?_).mpr
    · rw [hl,hn,zero_mul,add_zero]
    · intro i hi
      omega

theorem laid_iff_of_clear (hbase : h.heap = some heap) (hl : h.last = some last)
    (hesz : h.esz ≠ 0) (hopt : opt &&& kmemKeepUninitialized = 0) (hzero : opt &&& kmemBlankZero = 0)
    (hlay : layHeap mem heap hsize h.esz h.maxnum opt id = .ok (mem',h.blocks,h.indx,last)) :
    h.Laid opt mem mem' heap ↔ 0 ≤ h.maxnum := by
  have hspec : Spec (layHeap mem heap hsize h.esz h.maxnum opt id) (fun x => x.2.1 = 0 ∧
      x.2.2.1 = 0 ∧ ∃ m, clearHeaders h.esz h.maxnum.toNat m heap = (x.1,x.2.2.2))
      (fun _ => True) := by
    rw [layHeap,if_neg (not_not_intro hopt),if_neg (not_not_intro hzero)]
    simp only [memset,spec_ite,spec_bind,spec_check,spec_pure,spec_ok,implies_true,and_true,true_and]
    exact ⟨fun _ _ => ⟨_,rfl⟩,fun _ => ⟨_,rfl⟩⟩
  obtain ⟨hb,hx,m,hclear⟩ := hspec.of_ok hlay
  have hends : last = heap+h.maxnum.toNat*h.esz := by
    have hptr := clearHeaders_snd h.esz h.maxnum.toNat m heap
    rw [hclear] at hptr
    rw [mul_comm]
    exact hptr
  have hz : ∀ i < h.maxnum.toNat, intAt mem' (h.header heap i) = 0 := by
    intro i hi
    have h0 := clearHeaders_zero h.esz hi m heap
    rw [hclear] at h0
    exact h0
  rw [HeapT.laid_iff_of_zero hbase hopt hb hx hz,hl,hends]
  constructor
  · intro he
    have hmul : h.maxnum.toNat*h.esz = h.maxnum*h.esz := by
      have := Option.some.inj he
      omega
    have := mul_right_cancel₀ hesz hmul
    omega
  · intro hn
    rw [Int.toNat_of_nonneg hn]

end

/-- A new heap is as it should be just when `KMEM_KEEP_UNINITIALIZED` meets one block,
`KMEM_BLANK_ZERO` none, and the other options a number of blocks that is not negative. -/
theorem tkCreateHeap_laid_iff {s s' : Kmem} {hsize dsize : ℤ} {opt : KmemOpt}
    {granted heapPtr : Option ℤ} {id : HeapId}
    {heap : ℤ} (hp : heapPtr.or granted = some heap)
    (hc : tkCreateHeap s hsize dsize opt granted heapPtr = .ok (s',some id)) :
    (s'.headerPool id).Laid opt s.mem s'.mem heap ↔
      if opt &&& kmemKeepUninitialized ≠ 0 then hsize.tdiv (toInt32 (sizeofInt+dsize)) = 1
      else if opt &&& kmemBlankZero ≠ 0 then hsize.tdiv (toInt32 (sizeofInt+dsize)) = 0
      else 0 ≤ hsize.tdiv (toInt32 (sizeofInt+dsize)) := by
  obtain ⟨heap',hheap,hcreates⟩ := tkCreateHeap_creates.of_ok hc id rfl
  obtain rfl := Option.some.inj (hp.symm.trans hheap)
  obtain ⟨last,hlast,hlay⟩ := hcreates.lays
  have he : toInt32 (sizeofInt+dsize) = (s'.headerPool id).esz := by
    rw [HeapT.esz,hcreates.dsize]
  rw [he,← hcreates.maxnum]
  split
  · next hopt => exact laid_iff_of_keep hcreates.base hlast hcreates.esz hopt hlay
  · next hopt =>
    have hopt' : opt &&& kmemKeepUninitialized = 0 := not_not.mp hopt
    split
    · next hzero =>
      exact laid_iff_of_blankZero hcreates.base hlast hcreates.esz hopt' hzero hlay
    · next hzero =>
      exact laid_iff_of_clear hcreates.base hlast hcreates.esz hopt' (not_not.mp hzero) hlay

theorem tkCreateHeap_laid_iff_twoBlocks :
    (twoBlocks.headerPool 0).Laid 0 emptyKmem.mem twoBlocks.mem 1000 :=
  (tkCreateHeap_laid_iff (by rfl) twoBlocks_created).mpr (by decide)

/-- Memory that has been a heap of two blocks, of which the first is taken. -/
def oldHeap : Kmem := ⟨fun _ => .cleared,0,0,setInt (fun _ => 0) 1000 1⟩

/-- The header of the first block is counted twice, so the heap counts as full. -/
theorem tkCreateHeap_not_laid : ¬∀ (s s' : Kmem) (hsize dsize : ℤ) (opt : KmemOpt)
    (granted heapPtr : Option ℤ) (id : HeapId) (heap : ℤ), heapPtr.or granted = some heap →
    tkCreateHeap s hsize dsize opt granted heapPtr = .ok (s',some id) →
    (s'.headerPool id).Laid opt s.mem s'.mem heap := by
  intro h
  have hlaid := h oldHeap ⟨Function.update (fun _ => .cleared) 0
    ⟨2,4,2,0,some 1000,false,some 0,some 1008⟩,1,1,oldHeap.mem⟩ 16 4 kmemKeepUninitialized none
    (some 1000) 0 1000 rfl rfl
  exact absurd hlaid.blocks (by decide +kernel)

end Tinker

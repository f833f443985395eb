import Tinker.KmemRun

/-! The ramdisk of `fs_ifreg.c`: a heap for the inodes and behind it a heap for the sectors. -/
namespace Tinker

open Outcome

/-- `sizeof(tk_inode_t)`, nine words. -/
def sizeofInode : ℤ := 36

/-- An `int` as a `size_t`. -/
def sizeT (z : ℤ) : ℤ := z % 2^32

/-- A product of two `int`, which may not overflow. -/
def intMul (a b : ℤ) : Except KmemFault ℤ := do
  check (-2^31 ≤ a*b ∧ a*b < 2^31) .overflow
  return a*b

/-- The `nsectors` and the `ninodes` that `fs_ifreg_init` computes; what it computes first is
overwritten. -/
def ramdiskSplit (size sectorsize isratio : ℤ) : Except KmemFault (ℤ × ℤ) := do
  check (sectorsize ≠ 0 ∧ isratio ≠ 0) .divByZero
  let total ← intMul size isratio
  let perInode ← intMul isratio sectorsize
  check (sizeT (sizeofInode+perInode) ≠ 0) .divByZero
  let nsectors := toInt32 (sizeT total/sizeT (sizeofInode+perInode))
  let ninodes := nsectors.tdiv isratio
  return if sizeofInode < sizeT sectorsize then (nsectors,ninodes-1) else (nsectors-1,ninodes)

/-- What `fs_ifreg_init` leaves of its drive: the two heaps, and the numbers it has computed. -/
structure Ramdisk where
  inodeHeap : HeapId
  sectorHeap : HeapId
  nsectors : ℤ
  ninodes : ℤ

/-- `fs_ifreg_init` behind `mknod`; `granted` tells whether `calloc` gets its memory. The test of
`RAMDISK_KEEP_OLD_DATA` is one of a constant, so old data is always kept. -/
def fsIfregInit (s : Kmem) (start size sectorsize isratio : ℤ) (granted : Bool) :
    Except KmemFault (Option (Kmem × Ramdisk)) := do
  if granted = false then return none
  else do
    let (nsectors,ninodes) ← ramdiskSplit size sectorsize isratio
    let (s,inode) ← tkCreateHeap s sizeofInode (toInt32 (ninodes*sizeofInode)) kmemKeepUninitialized
      none (some start)
    match inode with
    | none => return none
    | some inodeHeap => do
      let dsize ← intMul nsectors sectorsize
      let (s,sector) ← tkCreateHeap s sectorsize dsize kmemKeepUninitialized none
        (s.headerPool inodeHeap).last
      match sector with
      | none => return none
      | some sectorHeap => do
        check (((s.headerPool sectorHeap).last.getD 0) ≤ start+size) .assertLast
        return some (s,⟨inodeHeap,sectorHeap,nsectors,ninodes⟩)

namespace HeapT

/-- The addresses from `heap` to `last`, and those of the blocks that `tk_mem_malloct` hands out. -/
def Occupies (h : HeapT) (a : ℤ) : Prop := ∃ heap last, h.heap = some heap ∧ h.last = some last ∧
  (heap ≤ a ∧ a < last ∨ ∃ i < h.maxnum.toNat, h.header heap i ≤ a ∧ a < h.header heap i+h.esz)

/-- There are `n` blocks of `bytes` bytes. -/
def CanHold (h : HeapT) (n bytes : ℤ) : Prop := 0 < n → n ≤ h.maxnum ∧ bytes ≤ h.dsize

/-- A heap that has been made over old data. -/
structure Kept (h : HeapT) (heap hsize dsize : ℤ) : Prop where
  esz : h.esz ≠ 0
  maxnum : h.maxnum = hsize.tdiv h.esz
  dsize : h.dsize = dsize
  base : h.heap = some heap
  stop : h.last = some (heap+h.esz)

end HeapT

/-- Both heaps lie on the disk and apart from each other, and hold what has been computed. -/
structure RamdiskLaid (s : Kmem) (d : Ramdisk) (start size sectorsize : ℤ) : Prop where
  inside : ∀ a, (s.headerPool d.inodeHeap).Occupies a ∨ (s.headerPool d.sectorHeap).Occupies a →
    start ≤ a ∧ a < start+size
  disjoint : ∀ a, ¬((s.headerPool d.inodeHeap).Occupies a ∧ (s.headerPool d.sectorHeap).Occupies a)
  inodes : (s.headerPool d.inodeHeap).CanHold d.ninodes sizeofInode
  sectors : (s.headerPool d.sectorHeap).CanHold d.nsectors sectorsize

theorem tkCreateHeap_keep {s : Kmem} {hsize dsize heap : ℤ} {granted : Option ℤ} :
    Spec (tkCreateHeap s hsize dsize kmemKeepUninitialized granted (some heap)) (fun x =>
      ∀ id, x.2 = some id → (x.1.headerPool id).Kept heap hsize dsize ∧
        (s.headerPool id).heap = none ∧ ∀ j, j ≠ id → x.1.headerPool j = s.headerPool j)
      (fun _ => True) := by
  apply tkCreateHeap_creates.imp
  rintro ⟨s',_⟩ h id rfl
  obtain ⟨heap',heq,hc⟩ : ∃ heap', (some heap).or granted = some heap' ∧
    s.Creates hsize dsize kmemKeepUninitialized heap' s' id := h id rfl
  obtain rfl : heap = heap' := Option.some.inj heq
  obtain ⟨last,hlast,hlay⟩ := hc.lays
  have hkeep : kmemKeepUninitialized &&& kmemKeepUninitialized ≠ 0 := by decide
  rw [layHeap,if_pos hkeep] at hlay
  simp only [Except.ok.injEq,Prod.mk.injEq] at hlay
  rw [← hlay.2.2.2] at hlast
  exact ⟨⟨hc.esz,hc.maxnum,hc.dsize,hc.base,hlast⟩,hc.free,hc.others⟩

/-- What a successful `fs_ifreg_init` has made. -/
theorem fsIfregInit_spec {s : Kmem} {start size sectorsize isratio : ℤ} {granted : Bool} :
    Spec (fsIfregInit s start size sectorsize isratio granted) (fun x => ∀ k d, x = some (k,d) →
      ramdiskSplit size sectorsize isratio = .ok (d.nsectors,d.ninodes) ∧
      (k.headerPool d.inodeHeap).Kept start sizeofInode (toInt32 (d.ninodes*sizeofInode)) ∧
      (k.headerPool d.sectorHeap).Kept (start+(k.headerPool d.inodeHeap).esz) sectorsize
        (d.nsectors*sectorsize) ∧ d.nsectors*sectorsize < 2^31) (fun _ => True) := by
  simp only [fsIfregInit,spec_bind,spec_ite,spec_pure]
  refine ⟨fun _ => (by rintro _ _ ⟨⟩),fun _ => ?_⟩
  cases hsplit : ramdiskSplit size sectorsize isratio with
  | error e => trivial
  | ok x =>
    obtain ⟨nsectors,ninodes⟩ := x
    rw [spec_ok]
    refine tkCreateHeap_keep.imp ?_
    rintro ⟨s1,inode⟩ hi
    cases inode with
    | none => rintro _ _ ⟨⟩
    | some inodeHeap =>
      obtain ⟨hi,-,-⟩ := hi inodeHeap rfl
      simp only [intMul,spec_bind,spec_check,spec_pure,implies_true,and_true]
      rintro ⟨-,hmax⟩
      have hstop : (s1.headerPool inodeHeap).last = some (start+(s1.headerPool inodeHeap).esz) :=
        hi.stop
      rw [hstop]
      refine tkCreateHeap_keep.imp ?_
      rintro ⟨s2,sector⟩ hs
      cases sector with
      | none => rintro _ _ ⟨⟩
      | some sectorHeap =>
        obtain ⟨hs,hnone,hother⟩ := hs sectorHeap rfl
        have hne : inodeHeap ≠ sectorHeap := by
          rintro rfl
          exact absurd (hi.base.symm.trans hnone) (by rintro ⟨⟩)
        simp only [spec_bind,spec_check,spec_pure,implies_true,and_true]
        rintro - k d hd
        cases hd
        have hsame := hother inodeHeap hne
        rw [← hsame] at hi
        exact ⟨rfl,hi,by rw [hsame]; exact hs,hmax⟩

/-- The sectors, and a inode for every `isratio` of them, that fit. -/
def ramdiskUnits (size sectorsize isratio : ℤ) : ℤ :=
  size*isratio/(sizeofInode+isratio*sectorsize)

/-- What is computed from them. -/
theorem ramdiskSplit_spec {size sectorsize isratio : ℤ} (hs : 0 < size) (hss : 0 < sectorsize)
    (hr : 0 < isratio) (hmax : sectorsize < 2^31) :
    Spec (ramdiskSplit size sectorsize isratio) (fun x =>
      0 ≤ ramdiskUnits size sectorsize isratio ∧ ramdiskUnits size sectorsize isratio*36 < 2^31 ∧
      x = if sizeofInode < sectorsize
        then (ramdiskUnits size sectorsize isratio,ramdiskUnits size sectorsize isratio/isratio-1)
        else (ramdiskUnits size sectorsize isratio-1,ramdiskUnits size sectorsize isratio/isratio))
      (fun _ => True) := by
  have hprod : 0 < size*isratio := Int.mul_pos hs hr
  have hper : 0 < isratio*sectorsize := Int.mul_pos hr hss
  simp only [ramdiskSplit,intMul,spec_bind,spec_check,spec_pure,implies_true,and_true]
  rintro - ⟨-,ht⟩ ⟨-,hp⟩ -
  have hsize : sizeT (size*isratio) = size*isratio := Int.emod_eq_of_lt hprod.le (by omega)
  have hpers : sizeT (sizeofInode+isratio*sectorsize) = sizeofInode+isratio*sectorsize := by
    rw [sizeT,sizeofInode]
    exact Int.emod_eq_of_lt (by omega) (by omega)
  have hsect : sizeT sectorsize = sectorsize := Int.emod_eq_of_lt hss.le (by omega)
  rw [hsize,hpers,hsect]
  have h0 : 0 ≤ ramdiskUnits size sectorsize isratio :=
    Int.ediv_nonneg hprod.le (by rw [sizeofInode]; omega)
  have hle : ramdiskUnits size sectorsize isratio*36 ≤ size*isratio :=
    (Int.mul_le_mul_of_nonneg_left (by rw [sizeofInode]; omega) h0).trans
      (Int.ediv_mul_le (size*isratio) (b:=sizeofInode+isratio*sectorsize) (by
        rw [sizeofInode]; omega))
  have hlt : ramdiskUnits size sectorsize isratio*36 < 2^31 := by omega
  have hint : toInt32 (size*isratio/(sizeofInode+isratio*sectorsize)) =
      ramdiskUnits size sectorsize isratio := toInt32_of_range (by change _ ≤ ramdiskUnits ..; omega)
        (by change ramdiskUnits .. < _; omega)
  rw [hint,Int.tdiv_eq_ediv_of_nonneg h0]
  exact ⟨h0,hlt,rfl⟩

namespace HeapT.Kept

variable {h : HeapT} {heap hsize dsize : ℤ}

theorem occupies_iff (hk : h.Kept heap hsize dsize) (a : ℤ) : h.Occupies a ↔
    heap ≤ a ∧ a < heap+h.esz ∨ ∃ i < h.maxnum.toNat, h.header heap i ≤ a ∧
      a < h.header heap i+h.esz := by
  refine ⟨?_,fun ho => ⟨heap,_,hk.base,hk.stop,ho⟩⟩
  rintro ⟨heap',last,hb,hl,ho⟩
  obtain rfl := Option.some.inj (hb.symm.trans hk.base)
  obtain rfl := Option.some.inj (hl.symm.trans hk.stop)
  exact ho

theorem esz_eq (hk : h.Kept heap hsize dsize) (hlo : -2^31 ≤ 4+dsize) (hhi : 4+dsize < 2^31) :
    h.esz = 4+dsize := by
  rw [HeapT.esz,hk.dsize,sizeofInt,toInt32,Int.bmod_def]
  omega

/-- A heap whose arguments have been exchanged has no blocks. -/
theorem maxnum_nonpos (hk : h.Kept heap hsize dsize) (h0 : 0 ≤ hsize) (hd : hsize ≤ dsize)
    (hmax : dsize < 2^31) : h.maxnum ≤ 0 := by
  rw [hk.maxnum,HeapT.esz,hk.dsize,sizeofInt]
  by_cases hlt : 4+dsize < 2^31
  · rw [toInt32_of_range (by omega) hlt,Int.tdiv_eq_ediv_of_nonneg h0]
    exact (Int.ediv_eq_zero_of_lt h0 (by omega)).le
  · refine Int.tdiv_nonpos_of_nonneg_of_nonpos h0 ?_
    rw [toInt32,Int.bmod_def]
    omega

end HeapT.Kept

theorem toInt32_inodes {ninodes : ℤ} (h0 : -1 ≤ ninodes) (h1 : ninodes*36 < 2^31) :
    toInt32 (ninodes*sizeofInode) = ninodes*36 := by
  rw [toInt32,Int.bmod_def,sizeofInode]
  omega

section

variable {k : Kmem} {d : Ramdisk} {start size sectorsize : ℤ}

/-- A heap that has to hold anything cannot. -/
theorem RamdiskLaid.counts (h : RamdiskLaid k d start size sectorsize) (hss : 0 < sectorsize)
    (hi : (k.headerPool d.inodeHeap).Kept start sizeofInode (toInt32 (d.ninodes*sizeofInode)))
    (hs : (k.headerPool d.sectorHeap).Kept (start+(k.headerPool d.inodeHeap).esz) sectorsize
      (d.nsectors*sectorsize)) (hn : d.ninodes*36 < 2^31) (hmax : d.nsectors*sectorsize < 2^31) :
    d.ninodes ≤ 0 ∧ d.nsectors ≤ 0 := by
  constructor <;> by_contra hpos <;> rw [not_le] at hpos
  · have hle := (h.inodes hpos).1
    have hz := hi.maxnum_nonpos (by decide) (by
      rw [toInt32_inodes (by omega) hn,sizeofInode]; omega) (by
      rw [toInt32_inodes (by omega) hn]; omega)
    omega
  · have hle := (h.sectors hpos).1
    have hprod : 1*sectorsize ≤ d.nsectors*sectorsize :=
      Int.mul_le_mul_of_nonneg_right (by omega) hss.le
    have hz := hs.maxnum_nonpos hss.le (by omega) hmax
    omega

/-- The nine blocks of an inode heap for no inode. -/
theorem HeapT.Kept.empty_inodes {h : HeapT} (hk : h.Kept start sizeofInode 0) (a : ℤ) :
    h.Occupies a ↔ start ≤ a ∧ a < start+36 := by
  have he := hk.esz_eq (by decide) (by decide)
  have hm : h.maxnum = 9 := by
    rw [hk.maxnum,he]
    rfl
  rw [hk.occupies_iff,hm,he]
  refine ⟨?_,fun ⟨h1,h2⟩ => Or.inr ⟨((a-start)/4).toNat,?_⟩⟩
  · rintro (ho | ⟨i,hi,h1,h2⟩)
    · omega
    · rw [HeapT.header,he] at h1 h2
      omega
  · rw [HeapT.header,he]
    omega

/-- With no inode and less than no sector the second heap is empty, unless sectors are tiny. -/
theorem ramdiskLaid_none (hi : (k.headerPool d.inodeHeap).Kept start sizeofInode 0)
    (hs : (k.headerPool d.sectorHeap).Kept (start+4) sectorsize (-sectorsize))
    (hn : d.ninodes ≤ 0) (hns : d.nsectors ≤ 0) (hss : 0 < sectorsize) (hle : sectorsize ≤ 36) :
    RamdiskLaid k d start size sectorsize ↔ 4 < sectorsize ∧ 36 ≤ size := by
  have he := hs.esz_eq (by omega) (by omega)
  have hinode := hi.empty_inodes
  refine ⟨fun h => ⟨?_,?_⟩,fun ⟨h4,h36⟩ => ?_⟩
  · by_contra hsmall
    -- the second heap begins inside the first
    have hne := hs.esz
    refine h.disjoint (start+4) ⟨(hinode _).mpr (by omega),(hs.occupies_iff _).mpr (Or.inl ?_)⟩
    omega
  · have := (h.inside (start+35) (Or.inl ((hinode _).mpr (by omega)))).2
    omega
  · have hm : (k.headerPool d.sectorHeap).maxnum ≤ 0 := by
      rw [hs.maxnum,he]
      exact Int.tdiv_nonpos_of_nonneg_of_nonpos hss.le (by omega)
    have hempty : ∀ a, ¬(k.headerPool d.sectorHeap).Occupies a := by
      intro a ha
      obtain ho | ⟨i,hi',-⟩ := (hs.occupies_iff a).mp ha
      · omega
      · omega
    refine ⟨fun a ha => ?_,fun a ha => hempty a ha.2,fun hpos => by omega,fun hpos => by omega⟩
    have := (hinode a).mp (ha.resolve_right (hempty a))
    omega

end

/-- A disk is laid out as it should be just when it is too small for a sector, so that there is
nothing to hold, and the blocks of the empty inode heap happen to fit. -/
theorem fsIfregInit_laid_iff {s k : Kmem} {d : Ramdisk} {start size sectorsize isratio : ℤ}
    {granted : Bool} (hsz : 0 < size) (hss : 0 < sectorsize) (hr : 0 < isratio)
    (hmax : sectorsize < 2^31)
    (h : fsIfregInit s start size sectorsize isratio granted = .ok (some (k,d))) :
    RamdiskLaid k d start size sectorsize ↔
      size*isratio < 36+isratio*sectorsize ∧ 4 < sectorsize ∧ sectorsize ≤ 36 ∧ 36 ≤ size := by
  obtain ⟨hsplit,hi,hs,hprod⟩ := fsIfregInit_spec.of_ok h k d rfl
  obtain ⟨h0,hlt,hx⟩ := (ramdiskSplit_spec hsz hss hr hmax).of_ok hsplit
  have hper : 0 < sizeofInode+isratio*sectorsize := by
    have := Int.mul_pos hr hss
    rw [sizeofInode]
    omega
  have hzero : ramdiskUnits size sectorsize isratio = 0 ↔
      size*isratio < 36+isratio*sectorsize := by
    have := Int.mul_pos hsz hr
    rw [ramdiskUnits,Int.ediv_eq_iff_of_pos hper,sizeofInode]
    omega
  rw [← hzero]
  set units := ramdiskUnits size sectorsize isratio
  have hdiv : units/isratio ≤ units := Int.ediv_le_self _ h0
  have hdiv0 : 0 ≤ units/isratio := Int.ediv_nonneg h0 hr.le
  by_cases hbig : sizeofInode < sectorsize
  · rw [if_pos hbig] at hx
    obtain ⟨hns,hni⟩ := Prod.mk.inj hx
    rw [sizeofInode] at hbig
    refine ⟨fun hl => ?_,fun hc => by omega⟩
    obtain ⟨-,hn⟩ := hl.counts hss hi hs (by omega) hprod
    have hu : units = 0 := by omega
    -- with -1 inodes the second heap begins in front of the disk
    have hino : d.ninodes = -1 := by rw [hni,hu,Int.zero_ediv]; rfl
    rw [hino,toInt32_inodes (by decide) (by decide)] at hi
    rw [hns,hu,zero_mul,hi.esz_eq (by decide) (by decide)] at hs
    have hin := hl.inside (start+(4+-1*36)) (Or.inr ((hs.occupies_iff _).mpr (Or.inl (by
      rw [hs.esz_eq (by decide) (by decide)]
      omega))))
    omega
  · rw [if_neg hbig] at hx
    obtain ⟨hns,hni⟩ := Prod.mk.inj hx
    rw [sizeofInode] at hbig
    have hempty : d.ninodes = 0 → (k.headerPool d.inodeHeap).Kept start sizeofInode 0 ∧
        (k.headerPool d.inodeHeap).esz = 4 := by
      intro hino
      rw [hino,zero_mul] at hi
      exact ⟨hi,hi.esz_eq (by decide) (by decide)⟩
    by_cases hu : units = 0
    · have hino : d.ninodes = 0 := by rw [hni,hu,Int.zero_ediv]
      obtain ⟨hi',he⟩ := hempty hino
      rw [hns,hu,he,zero_sub,neg_mul,one_mul] at hs
      rw [ramdiskLaid_none hi' hs hino.le (by omega) hss (by omega)]
      omega
    · refine ⟨fun hl => ?_,fun hc => absurd hc.1 hu⟩
      obtain ⟨hn,hn'⟩ := hl.counts hss hi hs (by omega) hprod
      -- one sector, and no inode for it: both heaps have the word behind the first
      have hino : d.ninodes = 0 := by omega
      obtain ⟨hi',he⟩ := hempty hino
      rw [show d.nsectors = 0 by omega,zero_mul,he] at hs
      refine absurd ⟨(hi'.empty_inodes _).mpr ?_,(hs.occupies_iff _).mpr (Or.inl ?_)⟩
        (hl.disjoint (start+4))
      · omega
      · rw [hs.esz_eq (by decide) (by decide)]
        omega

/-- A disk of four kilobytes with sectors of 512 bytes is set up, and can hold nothing. -/
theorem fsIfregInit_laid_iff_disk : ∃ k d, fsIfregInit emptyKmem 1000 4096 512 1 true =
    .ok (some (k,d)) ∧ (RamdiskLaid k d 1000 4096 512 ↔
      (4096 : ℤ)*1 < 36+1*512 ∧ (4 : ℤ) < 512 ∧ (512 : ℤ) ≤ 36 ∧ (36 : ℤ) ≤ 4096) := by
  obtain ⟨x,hx,hsome⟩ := exists_ok (p:=Option.isSome)
    (show (fsIfregInit emptyKmem 1000 4096 512 1 true).toOption.any Option.isSome = true by
      decide +kernel)
  obtain ⟨⟨k,d⟩,rfl⟩ := Option.isSome_iff_exists.mp hsome
  exact ⟨k,d,hx,fsIfregInit_laid_iff (by decide) (by decide) (by decide) (by decide) hx⟩

theorem fsIfregInit_not_laid : ∃ k d, fsIfregInit emptyKmem 1000 4096 512 1 true =
    .ok (some (k,d)) ∧ ¬RamdiskLaid k d 1000 4096 512 := by
  obtain ⟨x,hx,hn⟩ := exists_ok (p:=fun x => x.any fun kd => decide (0 < kd.2.nsectors ∧
      (kd.1.headerPool kd.2.sectorHeap).maxnum < kd.2.nsectors))
    (show (fsIfregInit emptyKmem 1000 4096 512 1 true).toOption.any _ = true by decide +kernel)
  cases x with
  | none => cases hn
  | some kd =>
    obtain ⟨hpos,hlt⟩ := of_decide_eq_true hn
    exact ⟨kd.1,kd.2,hx,fun hl => absurd (hl.sectors hpos).1 (by omega)⟩

end Tinker

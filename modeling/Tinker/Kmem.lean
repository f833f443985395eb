import Mathlib.Data.Fintype.Basic
import Tinker.Itc
import Tinker.ItcObjects

/-! The block heaps of `tk_mem.c`: a pool of headers, and memory in which every block has an `int`
in front of it that is zero while the block is free. Addresses are integers and NULL is `none`. -/
namespace Tinker

open Outcome

abbrev Memory := ℤ → Byte

def sizeofInt : ℤ := 4

/-- The `int` at an address, aligned or not; the targets are little endian. -/
def intAt (mem : Memory) (p : ℤ) : ℤ :=
  toInt32 ((mem p).toNat+(mem (p+1)).toNat*256+(mem (p+2)).toNat*65536+(mem (p+3)).toNat*16777216)

/-- An `int` is written. -/
def setInt (mem : Memory) (p v : ℤ) : Memory := fun a =>
  if p ≤ a ∧ a < p+sizeofInt then BitVec.ofInt 8 (v/256^(a-p).toNat) else mem a

inductive KmemFault
  | divByZero | overflow | badSize | nullPointer | assertHeapid | assertLast | endless
  deriving DecidableEq

/-- `memset`; as a `size_t` a negative size is more than there is memory. -/
def memset (mem : Memory) (p : ℤ) (c : Byte) (n : ℤ) : Except KmemFault Memory := do
  check (0 ≤ n) .badSize
  return fun a => if p ≤ a ∧ a < p+n then c else mem a

/-- `TK_KMEM_NHEAPS`. -/
abbrev kmemNheaps : ℕ := 8

/-- A `heapid_t` points into `header_pool`. -/
abbrev HeapId := Fin kmemNheaps

instance : NeZero kmemNheaps := ⟨by decide⟩

abbrev KmemOpt := BitVec 32

def kmemKeepUninitialized : KmemOpt := 0x1
def kmemBlankZero : KmemOpt := 0x2
def kmemBlankId : KmemOpt := 0x4

/-- `heap_t`, less the two functions that keep calls on one heap apart. -/
structure HeapT where
  maxnum : ℤ
  dsize : ℤ
  blocks : ℤ
  indx : ℤ
  heap : Option ℤ
  isMalloced : Bool
  self : Option HeapId
  last : Option ℤ

/-- A header that `memset` has cleared. -/
def HeapT.cleared : HeapT := ⟨0,0,0,0,none,false,none,none⟩

structure Kmem where
  headerPool : HeapId → HeapT
  cheapIdx : HeapId
  nheaps : ℤ
  mem : Memory

/-- The next header without a heap, with `cheap_idx` behind it. -/
def findHeader (headerPool : HeapId → HeapT) : ℕ → HeapId → Option HeapId × HeapId
  | 0, idx => (none,idx)
  | n+1, idx =>
    if (headerPool idx).heap = none then (some idx,idx+1) else findHeader headerPool n (idx+1)

/-- `n` headers are cleared, `esz` bytes apart. -/
def clearHeaders (esz : ℤ) : ℕ → Memory → ℤ → Memory × ℤ
  | 0, mem, ptr => (mem,ptr)
  | n+1, mem, ptr => clearHeaders esz n (setInt mem ptr 0) (ptr+esz)

/-- The loop over old headers; `ptr` stays where it is. -/
def keepHeaders (mem : Memory) (ptr : ℤ) : ℕ → ℤ → ℤ × ℤ → ℤ × ℤ
  | 0, _, x => x
  | n+1, i, (blocks,indx) =>
    keepHeaders mem ptr n (i+1) (if intAt mem ptr ≠ 0 then (blocks+1,indx) else (blocks,i))

/-- What `tk_create_heap` does to the memory of a heap, with the `blocks`, the `indx` and the `last`
it finds. -/
def layHeap (mem : Memory) (heap hsize esz mxnum : ℤ) (opt : KmemOpt) (id : HeapId) :
    Except KmemFault (Memory × ℤ × ℤ × ℤ) :=
  if opt &&& kmemKeepUninitialized ≠ 0 then
    let (blocks,indx) := keepHeaders mem heap mxnum.toNat 0 (0,0)
    .ok (mem,blocks,indx,heap+esz)
  else if opt &&& kmemBlankZero ≠ 0 then do
    let mem ← memset mem heap 0 hsize
    return (mem,0,0,heap)
  else do
    let mem ← if opt &&& kmemBlankId ≠ 0 then memset mem heap (BitVec.ofNat 8 id.val) hsize
      else .ok mem
    let (mem,ptr) := clearHeaders esz mxnum.toNat mem heap
    return (mem,0,0,ptr)

/-- `tk_create_heap`; `granted` is what `malloc` would answer. Without a heap it returns ENOMEM. -/
def tkCreateHeap (s : Kmem) (hsize dsize : ℤ) (opt : KmemOpt) (granted heapPtr : Option ℤ) :
    Except KmemFault (Kmem × Option HeapId) := do
  let esz := toInt32 (sizeofInt+dsize)
  check (esz ≠ 0) .divByZero
  let mxnum := hsize.tdiv esz
  check (mxnum < 2^31) .overflow
  if (kmemNheaps : ℤ) ≤ s.nheaps then return (s,none)
  else match findHeader s.headerPool kmemNheaps s.cheapIdx with
    | (none,_) => throw .assertHeapid
    | (some id,cheapIdx) =>
      match heapPtr.or granted with
      | none => return ({ s with
          headerPool := Function.update s.headerPool id .cleared, cheapIdx := cheapIdx },none)
      | some heap => do
        let (mem,blocks,indx,last) ← layHeap s.mem heap hsize esz mxnum opt id
        return (⟨Function.update s.headerPool id
          ⟨mxnum,dsize,blocks,indx,some heap,heapPtr.isNone,some id,some last⟩,cheapIdx,s.nheaps+1,
          mem⟩,some id)

/-- The search of `tk_mem_malloct`, round the heap once at most. -/
def findFree (mem : Memory) (heap esz maxnum : ℤ) : ℕ → ℤ → Except KmemFault ℤ
  | 0, _ => .error .endless
  | n+1, i =>
    if intAt mem (heap+esz*i) = 0 then .ok i
    else findFree mem heap esz maxnum n ((i+1).tmod maxnum)

/-- `tk_mem_malloct`, which does not look at the size. -/
def tkMemMalloct (s : Kmem) (heapid : HeapId) (_size : ℕ) :
    Except KmemFault (Kmem × Option ℤ) :=
  let h := s.headerPool heapid
  if h.self ≠ some heapid then .ok (s,none)
  else if h.maxnum ≤ h.blocks then .ok (s,none)
  else match h.heap with
    | none => .error .nullPointer
    | some heap => do
      let esz := toInt32 (sizeofInt+h.dsize)
      let i ← findFree s.mem heap esz h.maxnum (h.maxnum.toNat+1) h.indx
      return ({ s with
        headerPool := Function.update s.headerPool heapid
          { h with indx := (i+1).tmod h.maxnum, blocks := h.blocks+1 }
        mem := setInt s.mem (heap+esz*i) 1 },some (heap+esz*i+sizeofInt))

/-- `tk_mem_free`. -/
def tkMemFree (s : Kmem) (heapid : HeapId) (ptr : ℤ) : Kmem :=
  let h := s.headerPool heapid
  if h.self ≠ some heapid then s
  else if h.maxnum ≤ h.blocks then s
  else { s with
    headerPool := Function.update s.headerPool heapid { h with blocks := h.blocks-1 }
    mem := setInt s.mem (ptr-sizeofInt) 0 }

/-! ### Integers in memory -/

section

variable {mem mem' : Memory} {p q v : ℤ}

theorem intAt_congr (h : ∀ a, p ≤ a → a < p+4 → mem' a = mem a) : intAt mem' p = intAt mem p := by
  rw [intAt,intAt,h p (by omega) (by omega),h (p+1) (by omega) (by omega),
    h (p+2) (by omega) (by omega),h (p+3) (by omega) (by omega)]

theorem intAt_setInt (mem : Memory) (p v : ℤ) : intAt (setInt mem p v) p = toInt32 v := by
  have hb : ∀ i : ℕ, i < 4 → ((setInt mem p v (p+i)).toNat : ℤ) = v/256^i % 256 := by
    intro i hi
    rw [setInt,if_pos ⟨by omega,by rw [sizeofInt]; omega⟩,add_sub_cancel_left,Int.toNat_natCast,
      BitVec.toNat_ofInt]
    omega
  have h0 := hb 0 (by omega)
  have h1 := hb 1 (by omega)
  have h2 := hb 2 (by omega)
  have h3 := hb 3 (by omega)
  simp only [Nat.cast_zero,add_zero,pow_zero,Int.ediv_one] at h0
  simp only [Nat.cast_one,pow_one] at h1
  simp only [Nat.cast_ofNat,Int.reducePow] at h2 h3
  have hsum : v % 256+v/256 % 256*256+v/65536 % 256*65536+v/16777216 % 256*16777216 =
      v % ((2^32 : ℕ) : ℤ) := by omega
  rw [intAt,h0,h1,h2,h3,toInt32,toInt32,hsum,Int.emod_bmod]

theorem intAt_setInt_of_apart (h : q+4 ≤ p ∨ p+4 ≤ q) :
    intAt (setInt mem p v) q = intAt mem q := by
  refine intAt_congr fun a ha1 ha2 => ?_
  rw [setInt,if_neg]
  rw [sizeofInt]
  omega

theorem intAt_zero (h : ∀ a, p ≤ a → a < p+4 → mem a = 0) : intAt mem p = 0 := by
  rw [intAt,h p (by omega) (by omega),h (p+1) (by omega) (by omega),
    h (p+2) (by omega) (by omega),h (p+3) (by omega) (by omega)]
  decide

end

end Tinker

import Tinker.KmemRun

/-! The table of heaps. `nheaps` counts the headers in use, so `tk_create_heap` knows before its
search whether it will find a free one, and a create that fails leaves the table as it was. -/
namespace Tinker

open Outcome

/-- What `tk_destroy_heap` may return instead of ERR_OK. -/
inductive DestroyErr
  | undefHeapid | busy
  deriving DecidableEq

/-- `tk_destroy_heap`. -/
def tkDestroyHeap (s : Kmem) (heapid : HeapId) : Except DestroyErr Kmem :=
  let h := s.headerPool heapid
  if h.self ≠ some heapid then .error .undefHeapid
  else if h.blocks ≠ 0 then .error .busy
  else .ok { s with
    headerPool := Function.update s.headerPool heapid .cleared, nheaps := s.nheaps-1 }

/-- The module after `tk_mem`, with any memory. -/
def tkMem (mem : Memory) : Kmem := ⟨fun _ => .cleared,0,0,mem⟩

/-- The module with the ids that `tk_create_heap` has given out and `tk_destroy_heap` has not taken
back. -/
structure HeapsState where
  kmem : Kmem
  live : List HeapId

inductive HeapsLabel
  | create (hsize dsize : ℤ) (opt : KmemOpt) (granted heapPtr : Option ℤ)
  | destroy (heapid : HeapId) | malloct (heapid : HeapId) (size : ℕ) | free (heapid : HeapId) (ptr : ℤ)

def heapsNext (s : HeapsState) : HeapsLabel → Except KmemFault HeapsState
  | .create hsize dsize opt granted heapPtr => do
    let (k,heapid) ← tkCreateHeap s.kmem hsize dsize opt granted heapPtr
    return ⟨k,heapid.toList ++ s.live⟩
  | .destroy heapid =>
    match tkDestroyHeap s.kmem heapid with
    | .ok k => .ok ⟨k,s.live.erase heapid⟩
    | .error _ => .ok s
  | .malloct heapid size => do
    let (k,_) ← tkMemMalloct s.kmem heapid size
    return { s with kmem := k }
  | .free heapid ptr => .ok { s with kmem := tkMemFree s.kmem heapid ptr }

/-- Every call may be made with every id at any time. -/
def heapsMachine : Machine HeapsState HeapsLabel KmemFault where
  enabled _ _ := true
  next := heapsNext

/-- The headers that have a heap. -/
def Kmem.used (k : Kmem) : Finset HeapId := Finset.univ.filter fun id => (k.headerPool id).heap ≠ none

structure HeapTable (k : Kmem) (live : List HeapId) : Prop where
  nheaps : k.nheaps = k.used.card
  nodup : live.Nodup
  mem_live : ∀ id, id ∈ live ↔ id ∈ k.used
  self : ∀ id ∈ live, (k.headerPool id).self = some id
  free : ∀ id, (k.headerPool id).heap = none → k.headerPool id = .cleared

section

variable {k : Kmem} {live : List HeapId} {id : HeapId} {h : HeapT} {mem : Memory} {idx : HeapId}

theorem Kmem.mem_used : id ∈ k.used ↔ (k.headerPool id).heap ≠ none := by
  rw [used,Finset.mem_filter]
  exact and_iff_right (Finset.mem_univ id)

theorem Kmem.used_insert (hh : h.heap ≠ none) {nheaps : ℤ} :
    Kmem.used ⟨Function.update k.headerPool id h,idx,nheaps,mem⟩ = insert id k.used := by
  ext j
  rw [Finset.mem_insert,mem_used,mem_used]
  by_cases hj : j = id
  · subst hj
    simp only [Function.update_self,true_or,iff_true]
    exact hh
  · simp only [Function.update_of_ne hj,hj,false_or]

theorem Kmem.used_erase (hh : h.heap = none) {nheaps : ℤ} :
    Kmem.used ⟨Function.update k.headerPool id h,idx,nheaps,mem⟩ = k.used.erase id := by
  ext j
  rw [Finset.mem_erase,mem_used,mem_used]
  by_cases hj : j = id
  · subst hj
    simp only [Function.update_self,hh,ne_eq,not_true_eq_false,false_and]
  · simp only [Function.update_of_ne hj,hj,ne_eq,not_false_eq_true,true_and]

namespace HeapTable

theorem start (mem : Memory) : HeapTable (tkMem mem) [] := by
  have hnone : (tkMem mem).used = ∅ := by
    ext id
    rw [Kmem.mem_used]
    exact iff_of_false (fun h => h rfl) (Finset.notMem_empty id)
  refine ⟨by rw [hnone]; rfl,List.nodup_nil,fun id => ?_,fun id hid => ?_,fun id _ => rfl⟩
  · rw [hnone]
    exact iff_of_false List.not_mem_nil (Finset.notMem_empty id)
  · cases hid

/-- One header is written; the others keep what they are. -/
theorem set (ht : HeapTable k live) {live' : List HeapId} {nheaps : ℤ}
    (hn : nheaps = (Kmem.used ⟨Function.update k.headerPool id h,idx,nheaps,mem⟩).card)
    (hnodup : live'.Nodup)
    (hlive : ∀ j, j ∈ live' ↔ j ∈ Kmem.used ⟨Function.update k.headerPool id h,idx,nheaps,mem⟩)
    (hs : h.heap ≠ none → h.self = some id) (hfree : h.heap = none → h = .cleared) :
    HeapTable ⟨Function.update k.headerPool id h,idx,nheaps,mem⟩ live' := by
  refine ⟨hn,hnodup,hlive,fun j hj => ?_,fun j hj => ?_⟩
  · have hused := Kmem.mem_used.mp ((hlive j).mp hj)
    by_cases hji : j = id
    · subst hji
      simp only [Function.update_self] at hused ⊢
      exact hs hused
    · simp only [Function.update_of_ne hji] at hused ⊢
      exact ht.self j ((ht.mem_live j).mpr (Kmem.mem_used.mpr hused))
  · by_cases hji : j = id
    · subst hji
      simp only [Function.update_self] at hj ⊢
      exact hfree hj
    · simp only [Function.update_of_ne hji] at hj ⊢
      exact ht.free j hj

/-- A header that is free gets a heap. -/
theorem insert (ht : HeapTable k live) (hid : (k.headerPool id).heap = none) (hh : h.heap ≠ none)
    (hs : h.self = some id) :
    HeapTable ⟨Function.update k.headerPool id h,idx,k.nheaps+1,mem⟩ (id :: live) := by
  have hnew : id ∉ k.used := fun hmem => Kmem.mem_used.mp hmem hid
  refine ht.set ?_ ?_ (fun j => ?_) (fun _ => hs) fun hn => absurd hn hh
  · rw [Kmem.used_insert hh,Finset.card_insert_of_notMem hnew]
    push_cast
    rw [← ht.nheaps]
  · exact List.nodup_cons.mpr ⟨fun hmem => hnew ((ht.mem_live id).mp hmem),ht.nodup⟩
  · rw [Kmem.used_insert hh,List.mem_cons,Finset.mem_insert,ht.mem_live]

/-- A header in use is cleared. -/
theorem erase (ht : HeapTable k live) (hid : id ∈ live) :
    HeapTable { k with
      headerPool := Function.update k.headerPool id .cleared, nheaps := k.nheaps-1 }
      (live.erase id) := by
  have hused : id ∈ k.used := (ht.mem_live id).mp hid
  have hcard : k.used.card ≠ 0 := Finset.card_ne_zero_of_mem hused
  refine ht.set ?_ (ht.nodup.erase id) (fun j => ?_) (fun hn => absurd rfl hn) fun _ => rfl
  · rw [Kmem.used_erase rfl,Finset.card_erase_of_mem hused,ht.nheaps]
    omega
  · rw [Kmem.used_erase rfl,ht.nodup.mem_erase_iff,Finset.mem_erase,ht.mem_live]

/-- A header in use changes in the rest of its fields. -/
theorem update (ht : HeapTable k live) (hid : id ∈ live) (hh : h.heap = (k.headerPool id).heap)
    (hs : h.self = (k.headerPool id).self) :
    HeapTable { k with headerPool := Function.update k.headerPool id h, mem := mem } live := by
  have hused := (ht.mem_live id).mp hid
  have hheap : h.heap ≠ none := by
    rw [hh]
    exact Kmem.mem_used.mp hused
  have hsame : ∀ {mem}, Kmem.used ⟨Function.update k.headerPool id h,k.cheapIdx,k.nheaps,mem⟩ =
      k.used := (Kmem.used_insert hheap).trans (Finset.insert_eq_self.mpr hused)
  refine ht.set ?_ ht.nodup (fun j => ?_) (fun _ => hs.trans (ht.self id hid)) fun hn =>
    absurd hn hheap
  · rw [hsame]
    exact ht.nheaps
  · rw [hsame]
    exact ht.mem_live j

/-- Only the index the next search begins at has moved. -/
theorem unused (ht : HeapTable k live) : HeapTable { k with cheapIdx := idx } live :=
  ⟨ht.nheaps,ht.nodup,ht.mem_live,ht.self,ht.free⟩

theorem mem_live_of_self (ht : HeapTable k live) (hs : (k.headerPool id).self = some id) :
    id ∈ live := by
  rw [ht.mem_live,Kmem.mem_used]
  intro hn
  rw [ht.free id hn] at hs
  cases hs

/-- The counter tells whether a header is free. -/
theorem full_iff (ht : HeapTable k live) :
    (kmemNheaps : ℤ) ≤ k.nheaps ↔ ∀ id, (k.headerPool id).heap ≠ none := by
  have hle : k.used.card ≤ kmemNheaps := (Finset.card_le_univ k.used).trans_eq (Fintype.card_fin _)
  have hall : k.used.card = kmemNheaps ↔ k.used = Finset.univ := by
    rw [← Finset.card_eq_iff_eq_univ,Fintype.card_fin]
  rw [ht.nheaps,Nat.cast_le,hle.ge_iff_eq',eq_comm,hall,Finset.eq_univ_iff_forall]
  exact forall_congr' fun id => Kmem.mem_used

end HeapTable

/-- The search comes past every header it has steps for. -/
theorem findHeader_none {headerPool : HeapId → HeapT} {n : ℕ} {i j : HeapId}
    (hf : findHeader headerPool n i = (none,j)) : ∀ d < n, (headerPool ((·+1)^[d] i)).heap ≠ none := by
  induction n generalizing i with
  | zero => exact fun d hd => absurd hd (Nat.not_lt_zero d)
  | succ n ih =>
    rw [findHeader] at hf
    by_cases hn : (headerPool i).heap = none
    · rw [if_pos hn] at hf
      cases hf
    · rw [if_neg hn] at hf
      intro d hd
      cases d with
      | zero => exact hn
      | succ d => exact ih hf d (Nat.lt_of_succ_lt_succ hd)

theorem heapId_reach : ∀ i id : HeapId, ∃ d < kmemNheaps, (·+1)^[d] i = id := by decide

theorem findHeader_all {headerPool : HeapId → HeapT} {i j : HeapId}
    (hf : findHeader headerPool kmemNheaps i = (none,j)) (id : HeapId) :
    (headerPool id).heap ≠ none := by
  obtain ⟨d,hd,rfl⟩ := heapId_reach i id
  exact findHeader_none hf d hd

/-- Arguments for which no arithmetic of `tk_create_heap` fails. -/
structure SaneSizes (hsize dsize : ℤ) : Prop where
  hsize_nonneg : 0 ≤ hsize
  hsize_lt : hsize < 2^31
  dsize_nonneg : 0 ≤ dsize
  dsize_lt : dsize < 2^31

theorem layHeap_total (mem : Memory) (heap hsize esz mxnum : ℤ) (opt : KmemOpt) (id : HeapId) :
    Spec (layHeap mem heap hsize esz mxnum opt id) (fun _ => True)
      (fun e => e ≠ .assertHeapid ∧ hsize < 0) := by
  simp only [layHeap,memset,spec_ite,spec_ok,spec_bind,spec_check,spec_pure]
  refine ⟨fun _ => trivial,fun _ => ⟨fun _ => ?_,fun _ => ⟨fun _ => ?_,fun _ => trivial⟩⟩⟩
  · exact ⟨fun _ => trivial,fun hneg => ⟨by decide,Int.not_le.mp hneg⟩⟩
  · exact ⟨fun _ => trivial,fun hneg => ⟨by decide,Int.not_le.mp hneg⟩⟩

variable {hsize dsize : ℤ} {opt : KmemOpt} {granted heapPtr : Option ℤ}

/-- When there is no heap to be had: all headers are in use, or `malloc` is asked and refuses. -/
def Kmem.NoHeap (k : Kmem) (granted heapPtr : Option ℤ) : Prop :=
  (∀ id, (k.headerPool id).heap ≠ none) ∨ heapPtr = none ∧ granted = none

/-- How `tk_create_heap` ends: ENOMEM just when there is no heap to be had, and then with the table
as it was. -/
def CreateEnds (k : Kmem) (granted heapPtr : Option ℤ) (k' : Kmem) (heapid : Option HeapId) : Prop :=
  (heapid = none ↔ k.NoHeap granted heapPtr) ∧
    (heapid = none → k'.headerPool = k.headerPool ∧ k'.nheaps = k.nheaps)

theorem HeapTable.create (ht : HeapTable k live) :
    Spec (tkCreateHeap k hsize dsize opt granted heapPtr)
      (fun x => HeapTable x.1 (x.2.toList ++ live) ∧ CreateEnds k granted heapPtr x.1 x.2)
      (fun e => e ≠ .assertHeapid ∧ ¬SaneSizes hsize dsize) := by
  have hdiv : SaneSizes hsize dsize → toInt32 (sizeofInt+dsize) ≠ 0 := by
    intro hs he
    have := hs.dsize_nonneg
    have := hs.dsize_lt
    rw [toInt32,Int.bmod_def,sizeofInt] at he
    omega
  have hmax : SaneSizes hsize dsize → hsize.tdiv (toInt32 (sizeofInt+dsize)) < 2^31 := by
    intro hs
    have := Int.natAbs_tdiv_le_natAbs hsize (toInt32 (sizeofInt+dsize))
    have := hs.hsize_nonneg
    have := hs.hsize_lt
    omega
  simp only [tkCreateHeap,spec_bind,spec_check,spec_ite,spec_pure]
  refine ⟨fun _ => ⟨fun _ => ⟨fun hfull => ?_,fun hroom => ?_⟩,fun h => ⟨nofun,fun hs => h (hmax hs)⟩⟩,
    fun h => ⟨nofun,fun hs => h (hdiv hs)⟩⟩
  · exact ⟨ht,iff_of_true rfl (Or.inl (ht.full_iff.mp hfull)),fun _ => ⟨rfl,rfl⟩⟩
  cases hfind : findHeader k.headerPool kmemNheaps k.cheapIdx with
  | mk found idx =>
    cases found with
    | none => exact absurd (ht.full_iff.mpr (findHeader_all hfind)) hroom
    | some id =>
      have hid := findHeader_heap hfind
      have hclear : Function.update k.headerPool id .cleared = k.headerPool :=
        Function.update_eq_self_iff.mpr (ht.free id hid).symm
      have hnot : ¬∀ j, (k.headerPool j).heap ≠ none := fun hall => hall id hid
      cases hgot : heapPtr.or granted with
      | none =>
        obtain ⟨hp,hg⟩ := Option.or_eq_none_iff.mp hgot
        simp only [spec_pure,hclear]
        exact ⟨ht.unused,iff_of_true rfl (Or.inr ⟨hp,hg⟩),fun _ => ⟨rfl,rfl⟩⟩
      | some heap =>
        have hheap : ¬k.NoHeap granted heapPtr := by
          rintro (hall | hnone)
          · exact hnot hall
          · rw [Option.or_eq_none_iff.mpr hnone] at hgot
            cases hgot
        simp only [spec_bind,spec_pure]
        refine (layHeap_total ..).mono ?_ fun e he => ⟨he.1,fun hs => ?_⟩
        · rintro ⟨mem,blocks,indx,last⟩ -
          exact ⟨ht.insert hid nofun rfl,iff_of_false nofun hheap,nofun⟩
        · exact absurd he.2 (Int.not_lt.mpr hs.hsize_nonneg)

/-- Only an id in use can be destroyed. -/
theorem HeapTable.destroy (ht : HeapTable k live) {k' : Kmem} (hd : tkDestroyHeap k id = .ok k') :
    HeapTable k' (live.erase id) := by
  rw [tkDestroyHeap] at hd
  by_cases hs : (k.headerPool id).self = some id
  · rw [if_neg (not_not.mpr hs)] at hd
    by_cases hb : (k.headerPool id).blocks = 0
    · rw [if_neg (not_not.mpr hb)] at hd
      cases hd
      exact ht.erase (ht.mem_live_of_self hs)
    · rw [if_pos hb] at hd
      cases hd
  · rw [if_pos hs] at hd
    cases hd

theorem HeapTable.malloct (ht : HeapTable k live) (id : HeapId) (size : ℕ) :
    Spec (tkMemMalloct k id size) (fun x => HeapTable x.1 live) (fun _ => True) := by
  simp only [tkMemMalloct,spec_ite,spec_ok]
  refine ⟨fun _ => ht,fun hs => ⟨fun _ => ht,fun _ => ?_⟩⟩
  cases hheap : (k.headerPool id).heap with
  | none => trivial
  | some heap =>
    simp only [spec_bind,spec_pure]
    -- whatever block the search finds
    generalize findFree _ _ _ _ _ _ = found
    refine spec_of_forall fun i => ?_
    exact ht.update (ht.mem_live_of_self (not_not.mp hs)) hheap.symm rfl

theorem HeapTable.memFree (ht : HeapTable k live) (id : HeapId) (ptr : ℤ) :
    HeapTable (tkMemFree k id ptr) live := by
  rw [tkMemFree]
  by_cases hs : (k.headerPool id).self = some id
  · rw [if_neg (not_not.mpr hs)]
    split
    · exact ht
    · exact ht.update (ht.mem_live_of_self hs) rfl rfl
  · rw [if_pos hs]
    exact ht

theorem heapsStep_table {s : HeapsState} (ht : HeapTable s.kmem s.live) (l : HeapsLabel) :
    Spec (heapsNext s l) (fun s' => HeapTable s'.kmem s'.live) (fun _ => True) := by
  cases l with
  | create hsize dsize opt granted heapPtr =>
    simp only [heapsNext,spec_bind,spec_pure]
    exact ht.create.mono (fun _ hx => hx.1) fun _ _ => trivial
  | destroy heapid =>
    rw [heapsNext]
    cases hd : tkDestroyHeap s.kmem heapid with
    | error e => exact ht
    | ok k => exact ht.destroy hd
  | malloct heapid size =>
    simp only [heapsNext,spec_bind,spec_pure]
    exact ht.malloct heapid size
  | free heapid ptr => exact ht.memFree heapid ptr

end

/-- After any calls `nheaps` is the number of headers in use, and these are the live ids, each with
`self` at itself. Whatever `tk_create_heap` is called with then, it does not fail its assert and
returns ENOMEM just when there is no heap to be had. -/
theorem heapsRun_table {mem : Memory} {ls : List HeapsLabel} {s : HeapsState}
    (hr : heapsMachine.run ⟨tkMem mem,[]⟩ ls = some s) :
    s.kmem.nheaps = s.kmem.used.card ∧ s.live.Nodup ∧ (∀ id, id ∈ s.live ↔ id ∈ s.kmem.used) ∧
      (∀ id ∈ s.live, (s.kmem.headerPool id).self = some id) ∧
      ∀ hsize dsize opt granted heapPtr, Spec (tkCreateHeap s.kmem hsize dsize opt granted heapPtr)
        (fun x => CreateEnds s.kmem granted heapPtr x.1 x.2)
        (fun e => e ≠ .assertHeapid ∧ ¬SaneSizes hsize dsize) := by
  have ht : HeapTable s.kmem s.live := heapsMachine.run_invariant_of_step
    (I:=fun s => HeapTable s.kmem s.live)
    (fun s l s' hi hs => (heapsStep_table hi l).of_ok hs.2) (HeapTable.start mem) hr
  exact ⟨ht.nheaps,ht.nodup,ht.mem_live,ht.self,fun _ _ _ _ _ => ht.create.imp fun _ hx => hx.2⟩

/-- Two heaps, the first one destroyed, a third one that `malloc` refuses, and one more. -/
def tableSteps : List HeapsLabel :=
  [.create 16 4 0 none (some 1000),.create 16 4 0 (some 2000) none,.destroy 0,.create 16 4 0 none none,
    .malloct 1 4,.destroy 1,.create 16 4 0 none (some 3000)]

theorem heapsRun_table_steps : ∃ s, heapsMachine.run ⟨tkMem fun _ => 0,[]⟩ tableSteps = some s ∧
    s.live = [3,1] ∧ s.kmem.nheaps = s.kmem.used.card := by
  obtain ⟨s,hr,hl⟩ := heapsMachine.exists_run (fun s => s.live = [3,1]) ⟨tkMem fun _ => 0,[]⟩
    tableSteps (by decide +kernel)
  exact ⟨s,hr,hl,(heapsRun_table hr).1⟩

end Tinker

import Tinker.Machine
import Tinker.MqOpen

/-! What a failing `mq_open` leaves behind. -/
namespace Tinker

open Outcome

variable {cfg : Config} {numQ : ℕ}

/-! ### A failing call -/

/-- The pools, the lock, the memory and the ITC objects are as before. -/
structure Unchanged (s s' : MqPools cfg numQ) : Prop where
  queues : s'.queuePool = s.queuePool
  files : s'.filePool = s.filePool
  lock : s'.access = s.access
  arrays : s'.arrays.mem = s.arrays.mem
  buffers : s'.buffers.mem = s.buffers.mem
  objects : s'.store.array = s.store.array

namespace MqPools

/-- The call asks for a new queue by a name it may have, and there is a slot for it. -/
def Claims (s : MqPools cfg numQ) (a : OpenArgs cfg) : Prop :=
  a.oflags &&& oCreat ≠ 0 ∧ a.mqName.length ≤ qnameLen ∧
    a.mqName.head? = some (BitVec.ofNat 8 '/'.toNat) ∧ ∃ q, (s.queuePool q).taken = false

variable {s s' : MqPools cfg numQ} {a : OpenArgs cfg} {q : QueueId} {qId : Option QueueId}

theorem unchanged_semPost (s : MqPools cfg numQ) (e : OpenErr) :
    Unchanged s (s.semWait.semPost.setErrno e) :=
  ⟨rfl,rfl,sub_add_cancel _ _,rfl,rfl,rfl⟩

theorem openFile_failed (h : s.openFile a qId = (s',.failed)) :
    ∃ e, s' = s.semPost.setErrno e := by
  unfold openFile at h
  split at h
  · split at h
    · exact ⟨.noEnt,(congrArg Prod.fst h).symm⟩
    · split at h
      · exact ⟨.zero,(congrArg Prod.fst h).symm⟩
      · cases congrArg Prod.snd h
  · cases congrArg Prod.snd h

theorem openFile_queuePool : (s.openFile a qId).1.queuePool = s.queuePool := by
  unfold openFile
  split
  · split
    · rfl
    · split <;> rfl
  · rfl

/-- Without a claim, a call that fails has only taken the lock and given it back. -/
theorem openLocked_unclaimed (hc : ¬s.Claims a) (h : s.semWait.openLocked a = .ok (s',.failed)) :
    Unchanged s s' := by
  obtain ⟨e,rfl⟩ : ∃ e, s' = s.semWait.semPost.setErrno e := by
    unfold openLocked at h
    split at h
    · cases h
      exact ⟨.zero,rfl⟩
    next hlen =>
    split at h
    · cases h
      exact ⟨.zero,rfl⟩
    next hhead =>
    split at h
    · next hcreat =>
      -- every slot is taken
      have hfull : (seekEmpty (fun q => (s.semWait.queuePool q).taken) numberOfQueues
          ⟨0,by decide⟩).2 = false := by
        rw [Bool.eq_false_iff,Ne,ItcStore.seekEmpty_snd]
        exact fun hfree => hc ⟨hcreat,by omega,by simpa using hhead,hfree⟩
      have hq : s.semWait.createQueue a = .ok (s.semWait.semPost,none) := by
        unfold createQueue
        split
        · rfl
        · next hs => rw [hs] at hfull; cases hfull
      rw [hq] at h
      cases h
      exact ⟨.zero,rfl⟩
    · exact openFile_failed (Except.ok.inj h)
  exact unchanged_semPost s e

/-! ### What the parts of the call leave alone -/

/-- Nothing changes that tells which object is whose, and a taken slot stays taken. -/
structure Keeps (s s' : MqPools cfg numQ) : Prop where
  once : s'.mqOnce = s.mqOnce
  lock : s'.poolAccessSem = s.poolAccessSem
  store : s'.store = s.store
  created : s'.created = s.created
  sem : ∀ q, (s'.queuePool q).sem = (s.queuePool q).sem
  taken : ∀ q, (s.queuePool q).taken = true → (s'.queuePool q).taken = true

theorem Keeps.refl (s : MqPools cfg numQ) : Keeps s s := ⟨rfl,rfl,rfl,rfl,fun _ => rfl,fun _ h => h⟩

theorem Keeps.trans {m : MqPools cfg numQ} (h : Keeps s m) (h' : Keeps m s') : Keeps s s' where
  once := h'.once.trans h.once
  lock := h'.lock.trans h.lock
  store := h'.store.trans h.store
  created := h'.created.trans h.created
  sem q := (h'.sem q).trans (h.sem q)
  taken q hq := h'.taken q (h.taken q hq)

theorem keeps_semPost (s : MqPools cfg numQ) (e : OpenErr) : Keeps s (s.semPost.setErrno e) :=
  ⟨rfl,rfl,rfl,rfl,fun _ => rfl,fun _ h => h⟩

theorem keeps_setErrno (s : MqPools cfg numQ) (e : OpenErr) : Keeps s (s.setErrno e) :=
  ⟨rfl,rfl,rfl,rfl,fun _ => rfl,fun _ h => h⟩

/-- A slot changes, but not its semaphore. -/
theorem keeps_setSlot {Q : QueueSlot} (hsem : Q.sem = (s.queuePool q).sem)
    (htaken : (s.queuePool q).taken = true → Q.taken = true) : Keeps s (s.setSlot q Q) where
  once := rfl
  lock := rfl
  store := rfl
  created := rfl
  sem u := by
    simp only [setSlot,Function.update_apply]
    split
    · next h => rw [hsem,h]
    · rfl
  taken u hu := by
    simp only [setSlot,Function.update_apply]
    split
    · next h => exact htaken (h ▸ hu)
    · exact hu

/-- The memory does not tell whose an object is. -/
theorem keeps_memory (s : MqPools cfg numQ) (arrays : Heap MessT) (buffers : Heap Byte) :
    Keeps s { s with arrays := arrays, buffers := buffers } :=
  ⟨rfl,rfl,rfl,rfl,fun _ => rfl,fun _ h => h⟩

theorem fillArray_keeps {attr : MqAttr} {granted : ℕ → Bool} {n k : ℕ} :
    Spec (fillArray q attr granted n k s) (fun r => Keeps s r.1) (fun _ => True) := by
  induction n generalizing k s with
  | zero => exact Keeps.refl s
  | succ n ih =>
    unfold fillArray
    split
    · simp only [spec_bind]
      refine spec_of_forall fun arrays => spec_of_forall fun arrays' => ih.imp fun r hr => ?_
      exact ((keeps_setSlot (s:=s) (q:=q) (Q:={ s.queuePool q with lastInOrder := 0 }) rfl
        id).trans (keeps_memory _ _ _)).trans hr
    · simp only [spec_bind]
      exact spec_of_forall fun arrays => spec_of_forall fun buffers => spec_of_forall fun arrays' =>
        keeps_memory s arrays' buffers

/-- A queue has been set up by a call with these flags: with a new semaphore, or with none. -/
structure Made (s s' : MqPools cfg numQ) (q : QueueId) (oflags : OFlags) : Prop where
  once : s'.mqOnce = s.mqOnce
  lock : s'.poolAccessSem = s.poolAccessSem
  created : s'.created = Function.update s.created q (some oflags)
  others : ∀ u, u ≠ q → (s'.queuePool u).sem = (s.queuePool u).sem
  taken : ∀ u, (s.queuePool u).taken = true → (s'.queuePool u).taken = true
  sem : (oflags &&& oNonblock ≠ 0 ∧ s'.store = s.store ∧
      (s'.queuePool q).sem = (s.queuePool q).sem) ∨
    (oflags &&& oNonblock = 0 ∧ ∃ i, s.store.array i = none ∧ s'.store = { s.store with
      idx := i, array := Function.update s.store.array i (some (smObj 0 0)) } ∧
      (s'.queuePool q).sem = i.val)

theorem Keeps.made {m : MqPools cfg numQ} {f : OFlags} (h : Keeps s m) (h' : Made m s' q f) :
    Made s s' q f where
  once := h'.once.trans h.once
  lock := h'.lock.trans h.lock
  created := h'.created.trans (by rw [h.created])
  others u hu := (h'.others u hu).trans (h.sem u)
  taken u hu := h'.taken u (h.taken u hu)
  sem := by
    have hsem := h'.sem
    rw [h.store,h.sem q] at hsem
    exact hsem

theorem Made.keeps {m : MqPools cfg numQ} {f : OFlags} (h : Made s m q f) (h' : Keeps m s') :
    Made s s' q f where
  once := h'.once.trans h.once
  lock := h'.lock.trans h.lock
  created := h'.created.trans h.created
  others u hu := (h'.sem u).trans (h.others u hu)
  taken u hu := h'.taken u (h.taken u hu)
  sem := by
    rw [h'.store,h'.sem q]
    exact h.sem

theorem initSem_made (s : MqPools cfg numQ) (q : QueueId) (f : OFlags) (granted : Bool) :
    Spec (s.initSem q f granted)
      (fun m => Made s { m with created := Function.update m.created q (some f) } q f)
      (fun _ => True) := by
  unfold initSem
  split
  · next hf =>
    obtain ⟨i,hi,hc⟩ | ⟨i,e,he,hc⟩ := s.store.create_spec (smObj 0 0) granted
    · rw [hc]
      simp only [spec_bind,spec_check,true_imp_iff,not_true_eq_false,false_imp_iff,and_true,
        spec_pure]
      refine ⟨rfl,rfl,rfl,fun u hu => ?_,fun u hu => ?_,Or.inr ⟨hf,i,hi,rfl,?_⟩⟩
      · simp only [setSlot,Function.update_of_ne hu]
      · simp only [setSlot,Function.update_apply]
        split
        · next h => exact h ▸ hu
        · exact hu
      · simp only [setSlot,Function.update_self]
    · rw [hc]
      simp only [spec_bind,spec_check]
      exact ⟨fun h => absurd h he,fun _ => trivial⟩
  · next hf => exact ⟨rfl,rfl,rfl,fun _ _ => rfl,fun _ h => h,Or.inl ⟨hf,rfl,rfl⟩⟩

/-- The slot `q` has been claimed: it is a queue now, or the call has failed on the way. -/
def Claimed (s : MqPools cfg numQ) (q : QueueId) (f : OFlags)
    (r : MqPools cfg numQ × Option QueueId) : Prop :=
  Made s r.1 q f ∧ r.2 = some q ∨ Keeps s r.1 ∧ r.2 = none

theorem makeRing_claimed {attr : MqAttr} :
    Spec (s.makeRing a q attr) (Claimed s q a.oflags) (fun _ => True) := by
  unfold makeRing
  split
  · simp only [spec_bind]
    refine fillArray_keeps.imp fun r hr => ?_
    have hk : Keeps s r.1 := by
      refine Keeps.trans (Keeps.trans (m:=s.setSlot q _) ?_ (keeps_memory _ _ _)) hr
      exact keeps_setSlot rfl id
    split
    · exact Or.inr ⟨hk.trans (keeps_semPost _ _),rfl⟩
    · simp only [spec_bind]
      refine (initSem_made _ q a.oflags a.semGranted).imp fun m hm => Or.inl ⟨?_,rfl⟩
      exact (hk.trans (keeps_setSlot (by rfl) (by exact id))).made hm
  · exact Or.inr ⟨(keeps_setSlot (by rfl) (by exact id)).trans (keeps_semPost _ _),rfl⟩

theorem Claimed.of_keeps {m : MqPools cfg numQ} {f : OFlags}
    {r : MqPools cfg numQ × Option QueueId} (h : Claimed m q f r) (hk : Keeps s m) :
    Claimed s q f r :=
  h.imp (fun h => ⟨hk.made h.1,h.2⟩) fun h => ⟨hk.trans h.1,h.2⟩

theorem Claimed.taken {f : OFlags} {r : MqPools cfg numQ × Option QueueId}
    (h : Claimed s q f r) {u : QueueId} (hu : (s.queuePool u).taken = true) :
    (r.1.queuePool u).taken = true :=
  h.elim (fun h => h.1.taken u hu) fun h => h.1.taken u hu

/-- The branch of `O_CREAT`: there is no slot, or a free one is claimed. -/
theorem createQueue_cases : Spec (s.createQueue a)
    (fun r => (∀ q, (s.queuePool q).taken = true) ∧ r = (s.semPost,none) ∨
      ∃ q, (s.queuePool q).taken = false ∧ (r.1.queuePool q).taken = true ∧
        Claimed s q a.oflags r) (fun _ => True) := by
  have hsnd := ItcStore.seekEmpty_snd (fun q => (s.queuePool q).taken)
    (⟨0,by decide⟩ : Fin numberOfQueues)
  have hfst := @ItcStore.seekEmpty_free numberOfQueues (fun q => (s.queuePool q).taken)
    numberOfQueues ⟨0,by decide⟩
  unfold createQueue
  split
  · next hs =>
    rw [hs] at hsnd
    refine Or.inl ⟨fun q => ?_,rfl⟩
    by_contra hq
    cases hsnd.mpr ⟨q,Bool.eq_false_iff.mpr hq⟩
  · next q hs =>
    rw [hs] at hfst
    -- the slot is taken before anything else is looked at
    have hm : Keeps s (s.setSlot q { s.queuePool q with taken := true }) :=
      keeps_setSlot rfl fun _ => rfl
    have htaken : ((s.setSlot q { s.queuePool q with taken := true }).queuePool q).taken = true := by
      simp only [setSlot,Function.update_self]
    refine Spec.imp (Q:=Claimed (s.setSlot q { s.queuePool q with taken := true }) q a.oflags) ?_
      fun r hr => Or.inr ⟨q,hfst rfl,hr.taken htaken,hr.of_keeps hm⟩
    dsimp only
    rw [spec_ite]
    refine ⟨fun _ => Or.inr ⟨keeps_semPost _ _,rfl⟩,fun _ => ?_⟩
    split
    · refine Or.inr ⟨Keeps.trans (keeps_setSlot ?_ ?_) (keeps_setErrno _ .inval),rfl⟩
      · rfl
      · exact id
    · exact makeRing_claimed.imp fun r hr => hr.of_keeps (keeps_setSlot rfl id)

theorem openFile_keeps : Keeps s (s.openFile a qId).1 := by
  unfold openFile
  split
  · split
    · exact keeps_semPost s .noEnt
    · split
      · exact keeps_semPost s .zero
      · exact ⟨rfl,rfl,rfl,rfl,fun _ => rfl,fun _ h => h⟩
  · exact keeps_semPost s .zero

/-- `mq_open` makes one free slot a queue, or nothing changes for the semaphores. -/
theorem openLocked_cases : Spec (s.openLocked a)
    (fun r => Keeps s r.1 ∨ ∃ q, (s.queuePool q).taken = false ∧ (r.1.queuePool q).taken = true ∧
      Made s r.1 q a.oflags) (fun _ => True) := by
  unfold openLocked
  split
  · exact Or.inl (keeps_semPost s .zero)
  split
  · exact Or.inl (keeps_semPost s .zero)
  split
  · simp only [spec_bind]
    refine createQueue_cases.imp fun r hr => ?_
    obtain ⟨-,rfl⟩ | ⟨q,hq,htaken,hr⟩ := hr
    · exact Or.inl (keeps_semPost s .zero)
    · obtain ⟨hmade,hok⟩ | ⟨hk,hnone⟩ := hr
      · obtain ⟨m,_ | v⟩ := r
        · cases hok
        · refine Or.inr ⟨q,hq,?_,hmade.keeps openFile_keeps⟩
          exact openFile_keeps.taken q htaken
      · obtain ⟨m,_ | v⟩ := r
        · exact Or.inl hk
        · cases hnone
  · exact Or.inl openFile_keeps

/-- A claimed slot is taken when the call returns. -/
theorem openLocked_claimed (hc : s.Claims a) : Spec (s.openLocked a)
    (fun r => ∃ q, (s.queuePool q).taken = false ∧ (r.1.queuePool q).taken = true)
    (fun _ => True) := by
  obtain ⟨hcreat,hlen,hhead,u,hu⟩ := hc
  unfold openLocked
  rw [if_neg (by omega),if_neg (not_not.mpr hhead),if_pos hcreat]
  simp only [spec_bind]
  refine createQueue_cases.imp fun r hr => ?_
  obtain ⟨hfull,-⟩ | ⟨q,hq,htaken,-⟩ := hr
  · rw [hfull u] at hu
    cases hu
  · obtain ⟨m,_ | v⟩ := r
    · exact ⟨q,hq,htaken⟩
    · refine ⟨q,hq,?_⟩
      rw [openFile_queuePool]
      exact htaken

end MqPools

/-! ### The memory of a call that fails -/

section

variable {arrays : Heap MessT} {buffers : Heap Byte} {b k n : ℕ} {l : List MessT}

theorem setMess_eq (hb : arrays.mem b = some l) (f : MessT → MessT) :
    setMess arrays (some b) k f = if k < l.length then
      .ok { arrays with mem := Function.update arrays.mem b (some (l.modify k f)) }
      else .error .outOfTable := by
  rw [setMess,Heap.get,hb]
  by_cases hk : k < l.length
  · rw [if_pos hk]
    simp [hk,check,bind,Except.bind,pure,Except.pure]
  · rw [if_neg hk]
    simp [hk,check,bind,Except.bind]

/-- The slots below `k` of the array `b` hold the buffers from `n` on, which are allocated. -/
structure Filled (arrays : Heap MessT) (buffers : Heap Byte) (b n k : ℕ) : Prop where
  slots : ∃ l, arrays.mem b = some l ∧ ∀ j < k, (l[j]?).map MessT.buffer = some (some (n+j))
  owned : ∀ j < k, (buffers.mem (n+j)).isSome = true

/-- The clean-up loop gives those buffers back, and no others. -/
theorem freeBuffers_eq (h : Filled arrays buffers b n k) :
    freeBuffers arrays (some b) k buffers = .ok { buffers with
      mem := fun c => if n ≤ c ∧ c < n+k then none else buffers.mem c } := by
  induction k generalizing buffers with
  | zero =>
    have hnone : ∀ c, ¬(n ≤ c ∧ c < n+0) := fun c => by omega
    simp only [freeBuffers,hnone,if_false]
  | succ k ih =>
    obtain ⟨l,hl,hslots⟩ := h.slots
    obtain ⟨m,hm,hbuf⟩ := Option.map_eq_some_iff.mp (hslots k (Nat.lt_succ_self k))
    have hmess : messAt arrays (some b) k = .ok m := by
      simp [messAt,Heap.get,hl,hm,bind,Except.bind,pure,Except.pure]
    have hfree : buffers.free Fault.badPointer m.buffer =
        .ok { buffers with mem := Function.update buffers.mem (n+k) none } := by
      rw [hbuf,Heap.free,if_pos (h.owned k (Nat.lt_succ_self k))]
    have hlower : Filled arrays { buffers with mem := Function.update buffers.mem (n+k) none } b n
        k := by
      refine ⟨⟨l,hl,fun j hj => hslots j (by omega)⟩,fun j hj => ?_⟩
      have hne : n+j ≠ n+k := by omega
      simp only [Function.update_of_ne hne]
      exact h.owned j (by omega)
    rw [freeBuffers,hmess]
    simp only [bind,Except.bind,hfree]
    rw [ih hlower]
    congr 2
    funext c
    simp only [Function.update_apply]
    by_cases hc : c = n+k
    · rw [if_neg (by omega),if_pos hc,if_pos (by omega)]
    · by_cases hlt : n ≤ c ∧ c < n+k
      · rw [if_pos hlt,if_pos (by omega)]
      · rw [if_neg hlt,if_neg hc,if_neg (by omega)]

/-- The clean-up when the slot `k` got no buffer: `free` lets its NULL through. -/
theorem freeBuffers_null (h : Filled arrays buffers b n k) (hl : arrays.mem b = some l)
    (hk : k < l.length) :
    freeBuffers { arrays with
      mem := Function.update arrays.mem b (some (l.modify k fun m => { m with buffer := none })) }
      (some b) (k+1) buffers =
        .ok { buffers with mem := fun c => if n ≤ c ∧ c < n+k then none else buffers.mem c } := by
  obtain ⟨l',hl',hslots⟩ := h.slots
  obtain rfl := Option.some.inj (hl.symm.trans hl')
  have hmess : messAt { arrays with
      mem := Function.update arrays.mem b (some (l.modify k fun m => { m with buffer := none })) }
      (some b) k = .ok { l[k] with buffer := none } := by
    simp [messAt,Heap.get,hk,bind,Except.bind,pure,Except.pure]
  rw [freeBuffers,hmess]
  simp only [bind,Except.bind,Heap.free]
  refine freeBuffers_eq ⟨⟨_,Function.update_self _ _ _,fun j hj => ?_⟩,h.owned⟩
  have hne : k ≠ j := by omega
  simpa [List.getElem?_modify,hne] using hslots j hj

end

namespace MqPools

variable {s s0 s' : MqPools cfg numQ} {a : OpenArgs cfg} {q : QueueId} {qId : Option QueueId}

/-- `k` slots of the new ring have got buffers, on top of the memory there was. -/
structure Filling (s0 s : MqPools cfg numQ) (q : QueueId) (k : ℕ) : Prop where
  files : s.filePool = s0.filePool
  array : (s.queuePool q).messArray = some s0.arrays.next
  filled : Filled s.arrays s.buffers s0.arrays.next s0.buffers.next k
  arrays : ∀ c, c ≠ s0.arrays.next → s.arrays.mem c = s0.arrays.mem c
  next : s.buffers.next = s0.buffers.next+k
  buffers : ∀ c, c < s0.buffers.next ∨ s0.buffers.next+k ≤ c → s.buffers.mem c = s0.buffers.mem c

/-- The memory is what it was. -/
def SameMemory (s s' : MqPools cfg numQ) : Prop :=
  s'.arrays.mem = s.arrays.mem ∧ s'.buffers.mem = s.buffers.mem

theorem fillArray_memory (ha : s0.arrays.Fresh) (hb : s0.buffers.Fresh) {attr : MqAttr}
    {granted : ℕ → Bool} {n k : ℕ} (h : Filling s0 s q k) :
    Spec (fillArray q attr granted n k s)
      (fun r => r.1.filePool = s0.filePool ∧ (r.2 = false → SameMemory s0 r.1))
      (fun e => e = .outOfTable) := by
  induction n generalizing k s with
  | zero => exact ⟨h.files,fun hf => by cases hf⟩
  | succ n ih =>
    obtain ⟨l,hl,hslots⟩ := h.filled.slots
    unfold fillArray
    rw [h.array]
    by_cases hk : k < l.length
    · split
      · simp only [setMess_eq hl,if_pos hk]
        rw [spec_bind,spec_ok,setMess_eq (Function.update_self _ _ _),
          if_pos (by rw [List.length_modify]; exact hk)]
        simp only [spec_bind,spec_ok]
        refine ih ⟨h.files,?_,⟨⟨_,Function.update_self _ _ _,fun j hj => ?_⟩,fun j hj => ?_⟩,fun c hc => ?_,
          ?_,fun c hc => ?_⟩
        · simp only [setSlot,Function.update_self]
          exact h.array
        · -- the slot `k` has got its buffer now
          simp only [List.getElem?_modify,Heap.malloc,h.next]
          obtain rfl | hne := eq_or_ne j k
          · simp [hk]
          · have := hslots j (by omega)
            simpa [hne.symm] using this
        · simp only [Heap.malloc,h.next,Function.update_apply]
          split
          · rfl
          · exact h.filled.owned j (by omega)
        · simp only [Function.update_of_ne hc]
          exact h.arrays c hc
        · simp only [Heap.malloc,h.next]
          omega
        · simp only [Heap.malloc,h.next]
          rw [Function.update_of_ne (by omega)]
          exact h.buffers c (by omega)
      · simp only [setMess_eq hl,if_pos hk]
        rw [spec_bind,spec_ok]
        -- the slot `k` holds NULL, those before it their buffers
        rw [freeBuffers_null h.filled hl hk]
        simp only [spec_bind,spec_ok]
        rw [Heap.free,if_pos (by simp)]
        simp only [spec_ok,spec_pure]
        refine ⟨h.files,fun _ => ⟨funext fun c => ?_,funext fun c => ?_⟩⟩
        · simp only [Function.update_apply]
          split
          · next hc => rw [hc,ha _ le_rfl]
          · next hc => exact h.arrays c hc
        · simp only
          split
          · next hc => rw [hb _ hc.1]
          · next hc => exact h.buffers c (by omega)
    · split
      · simp only [setMess_eq hl,if_neg hk]
        rfl
      · simp only [setMess_eq hl,if_neg hk]
        rfl

theorem initSem_memory (q : QueueId) (f : OFlags) (granted : Bool) :
    Spec (s.initSem q f granted) (fun m => m.filePool = s.filePool) (fun e => e = .assertSem) := by
  unfold initSem
  split
  · split
    simp only [spec_bind,spec_check,spec_pure]
    exact ⟨fun _ => rfl,fun _ => trivial⟩
  · rfl

theorem makeRing_memory (ha : s.arrays.Fresh) (hb : s.buffers.Fresh) {attr : MqAttr} :
    Spec (s.makeRing a q attr) (fun r => r.1.filePool = s.filePool ∧ (r.2 = none → SameMemory s r.1))
      (fun e => e = .outOfTable ∨ e = .assertSem) := by
  unfold makeRing
  split
  · simp only [spec_bind]
    refine (fillArray_memory ha hb ?_).mono (fun r hr => ?_) fun e he => Or.inl he
    · refine ⟨rfl,?_,⟨⟨_,Function.update_self _ _ _,fun j hj => absurd hj (Nat.not_lt_zero j)⟩,
        fun j hj => absurd hj (Nat.not_lt_zero j)⟩,fun c hc => Heap.malloc_mem_of_ne hc,rfl,
        fun _ _ => rfl⟩
      simp only [setSlot,Function.update_self,Heap.malloc]
    · split
      · next hf => exact ⟨hr.1,fun _ => hr.2 hf⟩
      · simp only [spec_bind]
        exact (initSem_memory q a.oflags a.semGranted).mono
          (fun m hm => ⟨hm.trans hr.1,fun hn => by cases hn⟩) fun e he => Or.inr he
  · exact ⟨rfl,fun _ => ⟨rfl,rfl⟩⟩

theorem createQueue_memory (ha : s.arrays.Fresh) (hb : s.buffers.Fresh) :
    Spec (s.createQueue a)
      (fun r => r.1.filePool = s.filePool ∧ (r.2 = none → SameMemory s r.1))
      (fun e => e = .outOfTable ∨ e = .assertSem) := by
  unfold createQueue
  split
  · exact ⟨rfl,fun _ => ⟨rfl,rfl⟩⟩
  · simp only
    split
    · exact ⟨rfl,fun _ => ⟨rfl,rfl⟩⟩
    · split
      · exact ⟨rfl,fun _ => ⟨rfl,rfl⟩⟩
      · refine (makeRing_memory ?_ ?_).imp fun r hr => hr
        · exact ha
        · exact hb

theorem openFile_memory : SameMemory s (s.openFile a qId).1 := by
  unfold openFile
  split
  · split
    · exact ⟨rfl,rfl⟩
    · split <;> exact ⟨rfl,rfl⟩
  · exact ⟨rfl,rfl⟩

/-- With a queue at hand, only a descriptor can be missing. -/
theorem openFile_some (h : (s.openFile a (some q)).2 = .failed) (d : Fin numberOfFiles) :
    (s.filePool d).taken = true := by
  have hsnd := ItcStore.seekEmpty_snd (fun d => (s.filePool d).taken)
    (⟨0,by decide⟩ : Fin numberOfFiles)
  unfold openFile at h
  rw [Option.some_or] at h
  split at h
  · simp only at h
    split at h
    · next hs =>
      rw [hs] at hsnd
      by_contra hd
      cases hsnd.mpr ⟨d,Bool.eq_false_iff.mpr hd⟩
    · cases h
  · cases h

/-- A call that fails gives back the memory it has got for a new queue, unless there is no
descriptor for it. It never frees anything else. -/
theorem openLocked_memory (ha : s.arrays.Fresh) (hb : s.buffers.Fresh) :
    Spec (s.openLocked a)
      (fun r => r.2 = .failed → SameMemory s r.1 ∨ ∀ d, (s.filePool d).taken = true)
      (fun e => e = .outOfTable ∨ e = .assertSem) := by
  unfold openLocked
  split
  · exact fun _ => Or.inl ⟨rfl,rfl⟩
  split
  · exact fun _ => Or.inl ⟨rfl,rfl⟩
  split
  · simp only [spec_bind]
    refine (createQueue_memory ha hb).imp fun r hr => ?_
    obtain ⟨m,_ | v⟩ := r
    · exact fun _ => Or.inl (hr.2 rfl)
    · intro he
      right
      have hfiles : m.filePool = s.filePool := hr.1
      rw [← hfiles]
      exact openFile_some he
  · exact fun _ => Or.inl openFile_memory

end MqPools

/-- What a failing `mq_open` leaves of the state behind `pthread_once`: everything, just when it did
not get as far as claiming a slot for a new queue; and all the memory, unless there is no descriptor
for the queue it has made. -/
structure Fails (s s' : MqPools cfg numQ) (a : OpenArgs cfg) : Prop where
  unchanged : Unchanged s s' ↔ ¬s.Claims a
  memory : s.arrays.Fresh → s.buffers.Fresh →
    s.SameMemory s' ∨ ∀ d, (s.filePool d).taken = true

/-- So every `mq_open` fails; and on its way it frees no block twice and none that is not its own. -/
theorem mqOpen_unchanged_iff {s s0 : MqPools cfg numQ} {a : OpenArgs cfg}
    (h0 : s.pthreadOnce a.onceGranted = .ok s0) :
    Spec (mqOpen s a) (fun r => r.2 = .failed → Fails s0 r.1 a)
      (fun e => s0.arrays.Fresh → s0.buffers.Fresh → e = .outOfTable ∨ e = .assertSem) := by
  rw [mqOpen,h0]
  simp only [spec_bind,spec_ok]
  have hmem : s0.arrays.Fresh → s0.buffers.Fresh → _ := fun ha hb =>
    MqPools.openLocked_memory (s:=s0.semWait) (a:=a) ha hb
  cases h : s0.semWait.openLocked a with
  | error e =>
    rw [h] at hmem
    exact hmem
  | ok r =>
    obtain ⟨s',ret⟩ := r
    rw [h] at hmem
    rintro ⟨⟩
    refine ⟨⟨fun hu hc => ?_,fun hc => MqPools.openLocked_unclaimed hc h⟩,
      fun ha hb => hmem ha hb rfl⟩
    obtain ⟨q,hq,ht⟩ := (MqPools.openLocked_claimed (s:=s0.semWait) hc).of_ok h
    rw [hu.queues] at ht
    cases hq.symm.trans ht

/-- The ITC objects when `tk_root` is called: the nine queues of the system, and `sem_once`. -/
def bootObjects : ItcStore gnuArm 50 :=
  (List.replicate 9 (qObj 10 0) ++ [smObj 1 0]).foldl (fun st o => (st.create o true).1)
    (ItcStore.clear ⟨0,by decide⟩)

/-- The module before its first call. -/
def noQueues : MqPools gnuArm 50 := mqStatic bootObjects 9 0

/-- A call for the queue of that name, which finds all the memory it wants. -/
def openCall (name : List Byte) (oflags : OFlags) (attr : Option MqAttr) : OpenArgs gnuArm :=
  ⟨name,oflags,attr,0,true,fun _ => true,fun _ => ⟨none,0,⟨0,0,0⟩⟩,true⟩

/-- The name "q". Its `EINVAL` is lost in the `sem_post` behind it. -/
theorem mqOpen_unchanged_iff_badName : ∃ s0 s',
    noQueues.pthreadOnce true = .ok s0 ∧
    mqOpen noQueues (openCall [0x71] oCreat none) = .ok (s',.failed) ∧ s'.errno = .zero ∧
    ¬s0.Claims (openCall [0x71] oCreat none) ∧ Fails s0 s' (openCall [0x71] oCreat none) := by
  obtain ⟨s0,h0,-⟩ := exists_ok (x:=noQueues.pthreadOnce true) (p:=fun _ => true)
    (by decide +kernel)
  obtain ⟨⟨s',r⟩,h,hr⟩ := exists_ok (x:=mqOpen noQueues (openCall [0x71] oCreat none))
    (p:=fun r => r.2 = .failed ∧ r.1.errno = .zero) (by decide +kernel)
  obtain ⟨rfl,herr⟩ : r = .failed ∧ s'.errno = .zero := of_decide_eq_true hr
  have hname : ¬s0.Claims (openCall [0x71] oCreat none) := fun hc => by cases hc.2.2.1
  exact ⟨s0,s',h0,h,herr,hname,(mqOpen_unchanged_iff h0).of_ok h rfl⟩

/-- The name "/q" with no attributes: the lock is not given back. -/
theorem mqOpen_not_unchanged : ¬∀ (s s0 s' : MqPools gnuArm 50) (a : OpenArgs gnuArm),
    s.pthreadOnce a.onceGranted = .ok s0 → mqOpen s a = .ok (s',.failed) → Unchanged s0 s' := by
  intro hall
  obtain ⟨s0,h0,ha⟩ := exists_ok (x:=noQueues.pthreadOnce true) (p:=fun s => s.access = 1)
    (by decide +kernel)
  obtain ⟨⟨s',r⟩,h,hr⟩ := exists_ok (x:=mqOpen noQueues (openCall [0x2F,0x71] oCreat none))
    (p:=fun r => r.1.access = 0 ∧ r.2 = .failed) (by decide +kernel)
  obtain ⟨hz,rfl⟩ : s'.access = 0 ∧ r = .failed := of_decide_eq_true hr
  have hlock := (hall noQueues s0 s' _ h0 h).lock
  rw [hz,of_decide_eq_true ha] at hlock
  cases hlock

end Tinker

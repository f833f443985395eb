import Tinker.ScheduleOps
import Tinker.WaitLists

/-! The blocked lists of the mutexes.
`SyncInv` says that each list holds exactly the threads whose `QUEUE` bit its mutex has set;
each primitive is an operation on one list and one owner. -/
namespace Tinker

open Outcome Counted

variable {cfg : Config}

/-- `t` has been blocked by mutex `r`, and not been let go since. -/
def Sync.BlockedOn (s : Sync cfg) (r : MutexRef) (t : Thid cfg) : Prop :=
  (s.kernel.pool t).state.has .queue = true ∧ (s.kernel.pool t).bOnId = ⟨.pmutex,.mutex r⟩

structure SyncInv (s : Sync cfg) : Prop where
  lists : ∀ r, Lists (s.mux r).thread (s.mux r).numb (s.waiters r)
  nodup : ∀ r, (s.waiters r).Nodup
  mem : ∀ r t, t ∈ s.waiters r ↔ s.BlockedOn r t
  queue : ∀ t, (s.kernel.pool t).state.has .queue = true → (s.kernel.pool t).state = .queue
  unowned : ∀ r, (s.mux r).owner = .null → s.waiters r = []
  alive : Alive s.kernel
  prio : ∀ t, (s.kernel.pool t).prio < cfg.maxPrioLevels

theorem Seated.syncInv {k : Kernel cfg} (h : Seated k) : SyncInv (Sync.init k) := by
  have hw := waitLists_init k
  have hnil := Sync.init_waiters k
  refine ⟨hw.lists,hw.nodup,fun r t => ?_,fun t ht => ?_,fun r _ => hnil r,h.alive,h.prio⟩
  · rw [hnil]
    refine ⟨fun hm => (by cases hm),fun hb => ?_⟩
    have hq : (k.pool t).state.has .queue = true := hb.1
    rw [h.unblocked] at hq
    cases hq
  · have hq : (k.pool t).state.has .queue = true := ht
    rw [h.unblocked] at hq
    cases hq

/-- What a call on mutex `r` leaves alone. -/
structure Only (s s' : Sync cfg) (r : MutexRef) : Prop where
  mux : ∀ r' ≠ r, s'.mux r' = s.mux r'
  coopMux : s'.coopMux = s.coopMux
  active : s'.kernel.activeThread = s.kernel.activeThread
  prio : ∀ t, (s'.kernel.pool t).prio = (s.kernel.pool t).prio

/-- The mutex was free and is the caller's. -/
structure Taken (s s' : Sync cfg) (r : MutexRef) : Prop extends Only s s' r where
  free : (s.mux r).owner = .null
  kernel : s'.kernel = s.kernel
  owner : (s'.mux r).owner = .thread s.kernel.activeThread
  waiters : s'.waiters r = s.waiters r

/-- The caller has queued up at the end. -/
structure Blocks (s s' : Sync cfg) (r : MutexRef) : Prop extends Only s s' r where
  owned : (s.mux r).owner ≠ .null
  kernel : s'.kernel = s.kernel.modTcb s.kernel.activeThread (blockOn r)
  owner : (s'.mux r).owner = (s.mux r).owner
  waiters : s'.waiters r = s.waiters r ++ [s.kernel.activeThread]

/-- Nobody was blocked, and the mutex is free. -/
structure Freed (s s' : Sync cfg) (r : MutexRef) : Prop extends Only s s' r where
  empty : s.waiters r = []
  kernel : s'.kernel = s.kernel
  owner : (s'.mux r).owner = .null
  waiters : s'.waiters r = []

/-- The mutex goes to `h`, the first blocked thread of the numerically smallest priority. -/
structure HandedTo (s s' : Sync cfg) (r : MutexRef) (pre : List (Thid cfg)) (h : Thid cfg)
    (post : List (Thid cfg)) : Prop extends Only s s' r where
  before : s.waiters r = pre ++ h :: post
  best : FirstLeast (fun t => (s.kernel.pool t).prio) pre h post
  kernel : s'.kernel = s.kernel.modTcb h unblock
  owner : (s'.mux r).owner = .thread h
  waiters : s'.waiters r = pre ++ post

/-- All blocked threads are let go. -/
structure LetAllGo (s s' : Sync cfg) (r : MutexRef) : Prop extends Only s s' r where
  blocked : s.waiters r ≠ []
  pool : ∀ t, s'.kernel.pool t =
    if t ∈ s.waiters r then unblock (s.kernel.pool t) else s.kernel.pool t
  owner : (s'.mux r).owner = (s.mux r).owner
  waiters : s'.waiters r = []

section

variable {s s' : Sync cfg} {r : MutexRef}

@[simp] theorem blockOn_prio (b : Tcb cfg) : (blockOn r b).prio = b.prio := rfl
@[simp] theorem unblock_prio (b : Tcb cfg) : (unblock b).prio = b.prio := rfl

theorem Kernel.modTcb_prio {k : Kernel cfg} {t : Thid cfg} {f : Tcb cfg → Tcb cfg}
    (hf : ∀ b, (f b).prio = b.prio) (u : Thid cfg) :
    ((k.modTcb t f).pool u).prio = (k.pool u).prio := by
  rw [Kernel.modTcb_pool]
  split
  · next h => subst h; exact hf _
  · rfl

theorem Only.waiters_ne (h : Only s s' r) {r' : MutexRef} (hr : r' ≠ r) :
    s'.waiters r' = s.waiters r' := by
  rw [Sync.waiters,h.mux r' hr,Sync.waiters]

theorem SyncInv.waitLists (h : SyncInv s) : WaitLists s where
  lists := h.lists
  nodup := h.nodup
  blocked := by
    intro r t ht
    obtain ⟨hq,hb⟩ := (h.mem r t).mp ht
    exact ⟨h.queue t hq,hb⟩

theorem SyncInv.notMem (h : SyncInv s) {t : Thid cfg} (ht : (s.kernel.pool t).state = .ready)
    (r : MutexRef) : t ∉ s.waiters r := h.waitLists.notMem ht r

/-- While a ready thread runs, a blocked list has a free cell. -/
theorem SyncInv.numb_lt (h : SyncInv s)
    (hr : (s.kernel.pool s.kernel.activeThread).state = .ready) (r : MutexRef) :
    (s.mux r).numb < cfg.maxThreads := h.waitLists.numb_lt hr r

/-- A thread is in one blocked list at most. -/
theorem SyncInv.mem_unique (h : SyncInv s) {r' : MutexRef} {t : Thid cfg}
    (ht : t ∈ s.waiters r) (ht' : t ∈ s.waiters r') : r = r' := h.waitLists.mem_unique ht ht'

theorem SyncInv.mapM_read (h : SyncInv s) (hn : (s.mux r).numb < cfg.maxThreads) :
    (List.range (s.mux r).numb).mapM (s.mux r).read = .ok (s.waiters r) := h.waitLists.mapM_read hn

/-- One mutex and its list change, and no other list does. -/
theorem SyncInv.change (h : SyncInv s) {k : Kernel cfg} {m : Mutex cfg} {l : List (Thid cfg)}
    (hl : Lists m.thread m.numb l) (hnd : l.Nodup) (hnull : m.owner = .null → l = [])
    (hpool : ∀ t, t ∈ l ∧ (k.pool t).state = .queue ∧ (k.pool t).bOnId = ⟨.pmutex,.mutex r⟩ ∨
      t ∉ l ∧ t ∈ s.waiters r ∧ (k.pool t).state.has .queue = false ∨
      t ∉ l ∧ t ∉ s.waiters r ∧ k.pool t = s.kernel.pool t)
    (hself : ∀ t ∈ l, t ∉ s.waiters r → (s.kernel.pool t).state.has .queue = false)
    (hsame : ∀ t, (k.pool t).valid = (s.kernel.pool t).valid ∧
      (k.pool t).state.has .zombi = (s.kernel.pool t).state.has .zombi ∧
      (k.pool t).prio = (s.kernel.pool t).prio) :
    SyncInv (({ s with kernel := k } : Sync cfg).setMux r m) ∧
    (({ s with kernel := k } : Sync cfg).setMux r m).waiters r = l := by
  have hwr : (({ s with kernel := k } : Sync cfg).setMux r m).waiters r = l := by
    rw [Sync.waiters,Sync.setMux_self]
    exact hl.live_eq
  have hwo : ∀ r' ≠ r, (({ s with kernel := k } : Sync cfg).setMux r m).waiters r' =
      s.waiters r' := by
    intro r' hr'
    rw [Sync.waiters,Sync.setMux_of_ne hr']
    rfl
  refine ⟨⟨fun r' => ?_,fun r' => ?_,fun r' t => ?_,fun t ht => ?_,fun r' ho => ?_,fun t ht => ?_,
    fun t => ?_⟩,hwr⟩
  · by_cases hr' : r' = r
    · subst hr'; rw [hwr,Sync.setMux_self]; exact hl
    · rw [hwo r' hr',Sync.setMux_of_ne hr']; exact h.lists r'
  · by_cases hr' : r' = r
    · subst hr'; rw [hwr]; exact hnd
    · rw [hwo r' hr']; exact h.nodup r'
  · have hb : (({ s with kernel := k } : Sync cfg).setMux r m).BlockedOn r' t ↔
        (k.pool t).state.has .queue = true ∧ (k.pool t).bOnId = ⟨.pmutex,.mutex r'⟩ := Iff.rfl
    rw [hb]
    by_cases hr' : r' = r
    · subst hr'
      rw [hwr]
      obtain ⟨ht,hs,hid⟩ | ⟨ht,_,hq⟩ | ⟨ht,hn,hp⟩ := hpool t
      · simp [ht,hs,hid]
      · simp [ht,hq]
      · simp only [ht,hp,false_iff]
        exact fun hb => hn ((h.mem r' t).mpr hb)
    · rw [hwo r' hr']
      obtain ⟨ht,hs,hid⟩ | ⟨_,ht,hq⟩ | ⟨_,_,hp⟩ := hpool t
      · refine iff_of_false (fun hm => ?_) fun hb => ?_
        · by_cases hw : t ∈ s.waiters r
          · exact hr' (h.mem_unique hm hw)
          · have := ((h.mem r' t).mp hm).1
            rw [hself t ht hw] at this
            cases this
        · rw [hid] at hb
          simp only [Bon.mk.injEq,BonEntity.mutex.injEq,true_and] at hb
          exact hr' hb.2.symm
      · exact iff_of_false (fun hm => hr' (h.mem_unique hm ht)) fun hb => by simp [hq] at hb
      · rw [hp]; exact h.mem r' t
  · have ht : (k.pool t).state.has .queue = true := ht
    obtain ⟨_,hs,_⟩ | ⟨_,_,hq⟩ | ⟨_,_,hp⟩ := hpool t
    · exact hs
    · rw [hq] at ht; cases ht
    · rw [hp] at ht
      exact (congrArg Tcb.state hp).trans (h.queue t ht)
  · by_cases hr' : r' = r
    · subst hr'; rw [hwr]; rw [Sync.setMux_self] at ho; exact hnull ho
    · rw [hwo r' hr']; rw [Sync.setMux_of_ne hr'] at ho; exact h.unowned r' ho
  · have ht : (k.pool t).valid = true := ht
    rw [(hsame t).1] at ht
    exact (hsame t).2.1.trans (h.alive t ht)
  · exact (hsame t).2.2 ▸ h.prio t

/-- `_mutex_lock_primitive` takes a free mutex, and else queues the caller up. -/
theorem SyncInv.lock (h : SyncInv s)
    (hr : (s.kernel.pool s.kernel.activeThread).state = .ready) (r : MutexRef) :
    Spec (mutexLockPrimitive s r) (fun p => SyncInv p.1 ∧
      (p.2 = false ∧ Taken s p.1 r ∨ p.2 = true ∧ Blocks s p.1 r)) (fun _ => False) := by
  have hnm := h.notMem hr r
  simp only [mutexLockPrimitive,spec_ite,spec_ok,spec_bind,spec_check,spec_pure]
  refine ⟨fun ho => ?_,fun ho => ⟨fun _ => ?_,fun hn => hn (h.numb_lt hr r)⟩⟩
  · have hnil := h.unowned r ho
    obtain ⟨hi,hw⟩ := h.change (k:=s.kernel) (m:={ s.mux r with
        owner := .thread s.kernel.activeThread, numb := 0 }) (l:=[]) (Lists.nil _) List.nodup_nil
      (fun _ => rfl) (fun t => Or.inr (Or.inr ⟨List.not_mem_nil,by rw [hnil]; exact List.not_mem_nil,
        rfl⟩)) (fun t ht => (by cases ht)) fun _ => ⟨rfl,rfl,rfl⟩
    exact ⟨hi,Or.inl ⟨trivial,⟨⟨fun _ => Sync.setMux_of_ne,rfl,rfl,fun _ => rfl⟩,ho,rfl,by rw [Sync.setMux_self],
      by rw [hnil]; exact hw⟩⟩⟩
  · have hnd : (s.waiters r ++ [s.kernel.activeThread]).Nodup := by
      rw [List.nodup_append]
      refine ⟨h.nodup r,List.nodup_singleton _,?_⟩
      rintro t ht u hu rfl
      exact hnm (List.mem_singleton.mp hu ▸ ht)
    obtain ⟨hi,hw⟩ := h.change (r:=r) (k:=s.kernel.modTcb s.kernel.activeThread (blockOn r))
      (m:={ s.mux r with
        thread := Function.update (s.mux r).thread (s.mux r).numb (some s.kernel.activeThread)
        numb := (s.mux r).numb+1 }) ((h.lists r).push s.kernel.activeThread) hnd
      (fun ho' => absurd ho' ho)
      (fun t => by
        rw [Kernel.modTcb_pool]
        by_cases ht : t = s.kernel.activeThread
        · subst ht
          exact Or.inl ⟨List.mem_append_right _ (List.mem_singleton_self _),by simp [blockOn,hr],
            by simp [blockOn]⟩
        · rw [if_neg ht]
          by_cases hm : t ∈ s.waiters r
          · have hb := (h.mem r t).mp hm
            exact Or.inl ⟨List.mem_append_left _ hm,h.queue t hb.1,hb.2⟩
          · exact Or.inr (Or.inr ⟨by simp [hm,ht],hm,rfl⟩))
      (fun t ht hn => by
        obtain ht | ht := List.mem_append.mp ht
        · exact absurd ht hn
        · rw [List.mem_singleton.mp ht,hr]
          simp)
      (fun t => by
        rw [Kernel.modTcb_pool]
        split
        · next ht => subst ht; simp only [blockOn,hr]; exact ⟨trivial,by decide,trivial⟩
        · exact ⟨rfl,rfl,rfl⟩)
    exact ⟨hi,Or.inr ⟨trivial,⟨⟨fun _ => Sync.setMux_of_ne,rfl,rfl,Kernel.modTcb_prio blockOn_prio⟩,ho,
      rfl,by rw [Sync.setMux_self],hw⟩⟩⟩

/-- A blocked thread that is let go is ready. -/
theorem SyncInv.unblock_ready (h : SyncInv s) {t : Thid cfg} (ht : t ∈ s.waiters r) :
    (unblock (s.kernel.pool t)).state = .ready := h.waitLists.unblock_ready ht

theorem SyncInv.unblock_same (h : SyncInv s) {t : Thid cfg} (ht : t ∈ s.waiters r) :
    (unblock (s.kernel.pool t)).valid = (s.kernel.pool t).valid ∧
    (unblock (s.kernel.pool t)).state.has .zombi = (s.kernel.pool t).state.has .zombi ∧
    (unblock (s.kernel.pool t)).prio = (s.kernel.pool t).prio := by
  refine ⟨rfl,?_,rfl⟩
  rw [h.unblock_ready ht,h.queue t ((h.mem r t).mp ht).1]
  decide

theorem SyncInv.freed (h : SyncInv s) (hl : (s.mux r).numb = 0) :
    SyncInv (s.setMux r { s.mux r with owner := .null }) ∧
    Freed s (s.setMux r { s.mux r with owner := .null }) r := by
  have hnil : s.waiters r = [] :=
    List.eq_nil_of_length_eq_zero ((h.lists r).numb_eq ▸ hl)
  obtain ⟨hi,hw⟩ := h.change (k:=s.kernel) (m:={ s.mux r with owner := .null }) (l:=[])
    (by have := h.lists r; rwa [hnil] at this) List.nodup_nil (fun _ => rfl)
    (fun t => Or.inr (Or.inr ⟨List.not_mem_nil,by rw [hnil]; exact List.not_mem_nil,rfl⟩))
    (fun t ht => (by cases ht)) fun _ => ⟨rfl,rfl,rfl⟩
  exact ⟨hi,⟨fun _ => Sync.setMux_of_ne,rfl,rfl,fun _ => rfl⟩,hnil,rfl,by rw [Sync.setMux_self],hw⟩

/-- A mutex that nobody owns is free already. -/
theorem SyncInv.freed_of_unowned (h : SyncInv s) (ho : (s.mux r).owner = .null) :
    (s.mux r).numb = 0 ∧ Freed s s r := by
  have hnil := h.unowned r ho
  have hnumb := (h.lists r).numb_eq
  rw [hnil,List.length_nil] at hnumb
  exact ⟨hnumb,⟨fun _ _ => rfl,rfl,rfl,fun _ => rfl⟩,hnil,rfl,ho,hnil⟩

/-- `_mutex_unlock_primitive` for one thread. -/
theorem SyncInv.unlock (h : SyncInv s)
    (hr : (s.kernel.pool s.kernel.activeThread).state = .ready) (r : MutexRef) :
    Spec (mutexUnlockPrimitive s r false) (fun p => SyncInv p.1 ∧
      (p.2 = false ∧ Freed s p.1 r ∨ p.2 = true ∧ ∃ pre h post, HandedTo s p.1 r pre h post))
      (fun _ => False) := by
  have hnumb := (h.lists r).numb_eq
  have hlt := h.numb_lt hr r
  simp only [mutexUnlockPrimitive,spec_ite,spec_bind,spec_check,spec_pure,spec_ok,
    Bool.false_eq_true,false_implies,not_false_eq_true,true_implies]
  refine ⟨fun ho => ?_,fun ho => ⟨fun hl => ?_,fun hl => ?_⟩⟩
  · obtain ⟨h0,hf⟩ := h.freed_of_unowned ho
    exact ⟨fun _ => ⟨h,Or.inl ⟨trivial,hf⟩⟩,fun hn => hn h0⟩
  · obtain ⟨hi,hf⟩ := h.freed hl
    exact ⟨hi,Or.inl ⟨trivial,hf⟩⟩
  · have hne : s.waiters r ≠ [] := fun hnil => hl (by rw [hnumb,hnil]; rfl)
    obtain ⟨pre,him,post,he,hs,hbest⟩ :=
      scan_eq (fun t => (s.kernel.pool t).prio) hne fun t _ => h.prio t
    have hlists := h.lists r
    rw [he] at hlists
    have hmem : ∀ t, t ∈ s.waiters r ↔ t = him ∨ t ∈ pre ++ post := by
      intro t
      rw [he]
      simp only [List.mem_append,List.mem_cons]
      tauto
    have hnd : him ∉ pre ++ post ∧ (pre ++ post).Nodup := by
      have := h.nodup r
      rwa [he,List.nodup_middle,List.nodup_cons] at this
    have hread : (s.mux r).read pre.length = .ok him := by
      have hj : pre.length < (pre ++ him :: post).length := by simp
      have hlen := hlists.numb_eq
      simp [Mutex.read,hlists.cell pre.length hj,check,
        show pre.length < cfg.maxThreads by omega,bind,Except.bind]
    simp only [h.mapM_read hlt,spec_ok,hs,hread,spec_bind,spec_pure]
    refine ⟨trivial,(hlists.closeGap Fault.outOfTable hlt).imp fun thread hthread => ?_⟩
    obtain ⟨hi,hw⟩ := h.change (r:=r) (k:=s.kernel.modTcb him unblock)
      (m:={ s.mux r with owner := .thread him, thread := thread, numb := (s.mux r).numb-1 }) hthread
      hnd.2 (fun ho' => (by cases ho'))
      (fun t => by
        rw [Kernel.modTcb_pool,hmem]
        by_cases ht : t = him
        · subst ht
          rw [if_pos rfl,h.unblock_ready ((hmem t).mpr (Or.inl rfl))]
          exact Or.inr (Or.inl ⟨hnd.1,Or.inl rfl,by simp⟩)
        · rw [if_neg ht]
          by_cases hm : t ∈ pre ++ post
          · have hb := (h.mem r t).mp ((hmem t).mpr (Or.inr hm))
            exact Or.inl ⟨hm,h.queue t hb.1,hb.2⟩
          · exact Or.inr (Or.inr ⟨hm,by tauto,rfl⟩))
      (fun t ht hn => absurd ((hmem t).mpr (Or.inr ht)) hn)
      (fun t => by
        rw [Kernel.modTcb_pool]
        split
        · next ht => subst ht; exact h.unblock_same ((hmem t).mpr (Or.inl rfl))
        · exact ⟨rfl,rfl,rfl⟩)
    exact ⟨hi,Or.inr ⟨trivial,pre,him,post,⟨fun _ => Sync.setMux_of_ne,rfl,rfl,
      Kernel.modTcb_prio unblock_prio⟩,he,hbest,rfl,by rw [Sync.setMux_self],hw⟩⟩

/-- `_mutex_unlock_primitive` for all threads. -/
theorem SyncInv.unlockBcast (h : SyncInv s)
    (hr : (s.kernel.pool s.kernel.activeThread).state = .ready) (r : MutexRef) :
    Spec (mutexUnlockPrimitive s r true) (fun p => SyncInv p.1 ∧
      (p.2 = false ∧ Freed s p.1 r ∨ p.2 = true ∧ LetAllGo s p.1 r)) (fun _ => False) := by
  have hnumb := (h.lists r).numb_eq
  have hlt := h.numb_lt hr r
  simp only [mutexUnlockPrimitive,spec_ite,spec_bind,spec_check,spec_pure,spec_ok,
    h.mapM_read hlt,not_true_eq_false,false_implies,true_implies,and_true]
  refine ⟨fun ho => ?_,fun ho => ⟨fun hl => ?_,fun hl => ?_⟩⟩
  · obtain ⟨h0,hf⟩ := h.freed_of_unowned ho
    exact ⟨fun _ => ⟨h,Or.inl ⟨trivial,hf⟩⟩,fun hn => hn h0⟩
  · obtain ⟨hi,hf⟩ := h.freed hl
    exact ⟨hi,Or.inl ⟨trivial,hf⟩⟩
  · have hne : s.waiters r ≠ [] := fun hnil => hl (by rw [hnumb,hnil]; rfl)
    obtain ⟨hp,ha⟩ := foldl_unblock (s.waiters r) (h.nodup r) s.kernel
    obtain ⟨hi,hw⟩ := h.change (r:=r)
      (k:=(s.waiters r).foldl (fun k t => k.modTcb t unblock) s.kernel)
      (m:={ s.mux r with numb := 0 }) (l:=[]) (Lists.nil _) List.nodup_nil (fun _ => rfl)
      (fun t => by
        rw [hp]
        by_cases ht : t ∈ s.waiters r
        · rw [if_pos ht,h.unblock_ready ht]
          exact Or.inr (Or.inl ⟨List.not_mem_nil,ht,by simp⟩)
        · exact Or.inr (Or.inr ⟨List.not_mem_nil,ht,if_neg ht⟩))
      (fun t ht => (by cases ht))
      (fun t => by
        rw [hp]
        split
        · next ht => exact h.unblock_same ht
        · exact ⟨rfl,rfl,rfl⟩)
    have hprio : ∀ t, (((s.waiters r).foldl (fun k t => k.modTcb t unblock) s.kernel).pool t).prio =
        (s.kernel.pool t).prio := by
      intro t
      rw [hp]
      split <;> rfl
    exact ⟨hi,Or.inr ⟨trivial,⟨fun _ => Sync.setMux_of_ne,rfl,ha,hprio⟩,hne,hp,
      by rw [Sync.setMux_self],hw⟩⟩

/-- An unlock that lets one thread go at most. -/
def Unlocked (s s' : Sync cfg) (r : MutexRef) : Prop :=
  Freed s s' r ∨ ∃ pre h post, HandedTo s s' r pre h post

theorem Unlocked.only (h : Unlocked s s' r) : Only s s' r := by
  obtain h | ⟨_,_,_,h⟩ := h
  · exact h.toOnly
  · exact h.toOnly

theorem Taken.ready (h : Taken s s' r)
    (hr : (s.kernel.pool s.kernel.activeThread).state = .ready) :
    (s'.kernel.pool s'.kernel.activeThread).state = .ready := by
  rw [h.active,h.kernel]
  exact hr

/-- The caller of an unlock stays ready. -/
theorem Unlocked.ready (h : Unlocked s s' r) (hi : SyncInv s)
    (hr : (s.kernel.pool s.kernel.activeThread).state = .ready) :
    (s'.kernel.pool s'.kernel.activeThread).state = .ready := by
  rw [h.only.active]
  obtain h | ⟨pre,him,post,h⟩ := h
  · rw [h.kernel]; exact hr
  · have hne : s.kernel.activeThread ≠ him := by
      rintro he
      refine hi.notMem hr r ?_
      rw [h.before,he]
      simp
    rw [h.kernel,Kernel.modTcb_pool,if_neg hne]
    exact hr

theorem LetAllGo.ready (h : LetAllGo s s' r) (hi : SyncInv s)
    (hr : (s.kernel.pool s.kernel.activeThread).state = .ready) :
    (s'.kernel.pool s'.kernel.activeThread).state = .ready := by
  rw [h.active,h.pool,if_neg (hi.notMem hr r)]
  exact hr

/-- Nobody blocked on a mutex has a timer running, so the sweep changes no list. -/
theorem SyncInv.sweep (h : SyncInv s) {k : Kernel cfg} {clk : Clock} (ha : Alive k)
    (hp : ∀ t, k.pool t = s.kernel.pool t ∨ k.pool t = timerTest clk (s.kernel.pool t)) :
    SyncInv { s with kernel := k } := by
  have hsame : ∀ t, (s.kernel.pool t).state.has .queue = true → k.pool t = s.kernel.pool t := by
    intro t hq
    obtain ht | ht := hp t
    · exact ht
    · rw [ht,timerTest,h.queue t hq]
      simp
  have hless : ∀ t, (k.pool t).state.has .queue = true →
      (s.kernel.pool t).state.has .queue = true := by
    intro t hq
    obtain ht | ht := hp t
    · rwa [ht] at hq
    · rw [ht,timerTest] at hq
      split at hq
      · rw [ProcState.clear_queueSleep_has_queue] at hq; cases hq
      · exact hq
  refine ⟨h.lists,h.nodup,fun r t => ?_,fun t ht => ?_,h.unowned,ha,fun t => ?_⟩
  · refine (h.mem r t).trans ⟨fun hb => ?_,fun hb => ?_⟩
    · exact ⟨by rw [hsame t hb.1]; exact hb.1,by rw [hsame t hb.1]; exact hb.2⟩
    · have hb1 : (k.pool t).state.has .queue = true := hb.1
      have hb2 : (k.pool t).bOnId = _ := hb.2
      have hq := hless t hb1
      rw [hsame t hq] at hb2
      exact ⟨hq,hb2⟩
  · have hq := hless t ht
    exact (congrArg Tcb.state (hsame t hq)).trans (h.queue t hq)
  · obtain ht | ht := hp t
    · exact ht ▸ h.prio t
    · refine lt_of_eq_of_lt ?_ (h.prio t)
      rw [ht,timerTest_eq]

end

/-! ### Ownership -/

/-- Mutex `r` is owned by the thread that holds it, or by the one it has been handed to that
still waits to run. -/
structure Excludes (s : Sync cfg) (r : MutexRef) (holds waits : Thid cfg → Prop) : Prop where
  waiting : ∀ t ∈ s.waiters r, waits t
  owns : ∀ t, (s.mux r).owner = .thread t ↔ holds t ∨ waits t ∧ t ∉ s.waiters r
  thread : (s.mux r).owner ≠ .one

section

variable {s s' : Sync cfg} {r : MutexRef} {holds waits holds' waits' : Thid cfg → Prop}

/-- A mutex nobody holds and nobody waits for. -/
theorem Excludes.free (hw : s.waiters r = []) (ho : (s.mux r).owner = .null)
    (hn : ∀ t, ¬holds t ∧ ¬waits t) : Excludes s r holds waits where
  waiting := by
    intro t ht
    rw [hw] at ht
    cases ht
  owns := by
    intro t
    rw [ho]
    exact iff_of_false (by rintro ⟨⟩) fun h => h.elim (hn t).1 fun h => (hn t).2 h.1
  thread := by rw [ho]; rintro ⟨⟩

theorem Excludes.unique (h : Excludes s r holds waits) {t u : Thid cfg} (ht : holds t)
    (hu : holds u) : t = u := by
  have h1 := (h.owns t).mpr (Or.inl ht)
  rw [(h.owns u).mpr (Or.inl hu)] at h1
  exact (Owner.thread.inj h1).symm

theorem Excludes.congr (h : Excludes s r holds waits) (hm : s'.mux r = s.mux r)
    (hh : ∀ t, holds' t ↔ holds t) (hw : ∀ t, waits' t ↔ waits t) : Excludes s' r holds' waits' := by
  have hl : s'.waiters r = s.waiters r := by rw [Sync.waiters,hm,Sync.waiters]
  refine ⟨fun t ht => ?_,fun t => ?_,?_⟩
  · rw [hl] at ht
    exact (hw t).mpr (h.waiting t ht)
  · rw [hm,hl,hh,hw]
    exact h.owns t
  · rw [hm]
    exact h.thread

theorem Excludes.taken (h : Excludes s r holds waits) (ht : Taken s s' r)
    (hh : ∀ t, holds' t ↔ t = s.kernel.activeThread ∨ holds t) (hw : ∀ t, waits' t ↔ waits t) :
    Excludes s' r holds' waits' := by
  have hnone : ∀ t, ¬(holds t ∨ waits t ∧ t ∉ s.waiters r) := by
    intro t ho
    have := (h.owns t).mpr ho
    rw [ht.free] at this
    cases this
  refine ⟨fun t hm => ?_,fun t => ?_,?_⟩
  · rw [ht.waiters] at hm
    exact (hw t).mpr (h.waiting t hm)
  · have := hnone t
    rw [ht.owner,ht.waiters,hh,hw,Owner.thread.injEq]
    tauto
  · rw [ht.owner]; rintro ⟨⟩

theorem Excludes.blocks (h : Excludes s r holds waits) (hb : Blocks s s' r)
    (hn : ¬holds s.kernel.activeThread ∧ ¬waits s.kernel.activeThread)
    (hh : ∀ t, holds' t ↔ holds t) (hw : ∀ t, waits' t ↔ t = s.kernel.activeThread ∨ waits t) :
    Excludes s' r holds' waits' := by
  refine ⟨fun t hm => ?_,fun t => ?_,?_⟩
  · rw [hb.waiters,List.mem_append,List.mem_singleton] at hm
    exact (hw t).mpr (hm.symm.imp_right (h.waiting t))
  · rw [hb.owner,hb.waiters,hh,hw,h.owns,List.mem_append,List.mem_singleton]
    by_cases ht : t = s.kernel.activeThread
    · subst ht; tauto
    · tauto
  · rw [hb.owner]; exact h.thread

/-- The holder gives the mutex up or hands it on. -/
theorem Excludes.unlocked (h : Excludes s r holds waits) (hi : SyncInv s) (hu : Unlocked s s' r)
    (hme : holds s.kernel.activeThread) (hn : ¬waits s.kernel.activeThread)
    (hh : ∀ t, holds' t ↔ t ≠ s.kernel.activeThread ∧ holds t) (hw : ∀ t, waits' t ↔ waits t) :
    Excludes s' r holds' waits' := by
  have hnone : ∀ t, ¬holds' t := by
    intro t hl
    obtain ⟨hne,hl⟩ := (hh t).mp hl
    exact hne (h.unique hl hme)
  have hgranted : ∀ t, waits t → t ∈ s.waiters r := by
    intro t hl
    by_contra hm
    have h1 := (h.owns t).mpr (Or.inr ⟨hl,hm⟩)
    rw [(h.owns _).mpr (Or.inl hme)] at h1
    rw [← Owner.thread.inj h1] at hl
    exact hn hl
  obtain hf | ⟨pre,him,post,ho⟩ := hu
  · refine ⟨fun t hm => ?_,fun t => ?_,by rw [hf.owner]; rintro ⟨⟩⟩
    · rw [hf.waiters] at hm; cases hm
    · rw [hf.owner]
      refine iff_of_false (by rintro ⟨⟩) fun hl => ?_
      obtain hl | ⟨hl,_⟩ := hl
      · exact hnone t hl
      · have := hgranted t ((hw t).mp hl)
        rw [hf.empty] at this
        cases this
  · have hnd := hi.nodup r
    rw [ho.before,List.nodup_middle,List.nodup_cons] at hnd
    have hmem : ∀ t, t ∈ s.waiters r ↔ t = him ∨ t ∈ pre ++ post := by
      intro t
      rw [ho.before]
      simp only [List.mem_append,List.mem_cons]
      tauto
    refine ⟨fun t hm => ?_,fun t => ?_,by rw [ho.owner]; rintro ⟨⟩⟩
    · rw [ho.waiters] at hm
      exact (hw t).mpr (h.waiting t ((hmem t).mpr (Or.inr hm)))
    · rw [ho.owner,ho.waiters,Owner.thread.injEq,hw]
      constructor
      · rintro rfl
        exact Or.inr ⟨h.waiting him ((hmem him).mpr (Or.inl rfl)),hnd.1⟩
      · rintro (hl | ⟨hl,hm⟩)
        · exact absurd hl (hnone t)
        · exact (((hmem t).mp (hgranted t hl)).resolve_right hm).symm

/-- The thread the mutex has been handed to runs on. -/
theorem Excludes.granted (h : Excludes s r holds waits) {t : Thid cfg} (ht : waits t)
    (hn : t ∉ s.waiters r) (hm : s'.mux r = s.mux r) (hh : ∀ u, holds' u ↔ u = t ∨ holds u)
    (hw : ∀ u, waits' u ↔ u ≠ t ∧ waits u) : Excludes s' r holds' waits' := by
  have hl : s'.waiters r = s.waiters r := by rw [Sync.waiters,hm,Sync.waiters]
  refine ⟨fun u hu => ?_,fun u => ?_,by rw [hm]; exact h.thread⟩
  · rw [hl] at hu
    exact (hw u).mpr ⟨by rintro rfl; exact hn hu,h.waiting u hu⟩
  · rw [hm,hl,h.owns,hh,hw]
    by_cases hu : u = t
    · subst hu; tauto
    · tauto

end

/-! ### Threads -/

section

variable {Loc : Type} {s s' : Threads cfg Loc}

structure ThreadsInv (s : Threads cfg Loc) : Prop where
  sync : SyncInv s.sync
  running : s.yielding = false → (s.sync.kernel.pool s.me).state = .ready

/-- The states of the threads may change in a yield, but nothing a program can see. -/
structure Yielded (s s' : Threads cfg Loc) : Prop where
  loc : s'.loc = s.loc
  yielding : s'.yielding = false
  mux : s'.sync.mux = s.sync.mux
  coopMux : s'.sync.coopMux = s.sync.coopMux
  prio : ∀ t, (s'.sync.kernel.pool t).prio = (s.sync.kernel.pool t).prio

theorem Yielded.waiters (h : Yielded s s') (r : MutexRef) : s'.sync.waiters r = s.sync.waiters r := by
  rw [Sync.waiters,h.mux,Sync.waiters]

theorem ThreadsInv.yield (h : ThreadsInv s) {clk : Clock} {t : Thid cfg}
    (hr : readyAfterSweep s.sync.kernel clk t = true) : Spec (s.yield clk t)
      (fun s' => ThreadsInv s' ∧ Yielded s s') (fun _ => False) := by
  simp only [Threads.yield,spec_bind,spec_pure]
  refine (h.sync.alive.yield hr).imp ?_
  rintro k ⟨ha,hp,hready⟩
  have hi := h.sync.sweep (k:=k.dispatch t) ha hp
  refine ⟨⟨hi,fun _ => hready⟩,rfl,rfl,rfl,rfl,fun u => ?_⟩
  obtain hu | hu := hp u
  · exact congrArg Tcb.prio hu
  · refine (congrArg Tcb.prio hu).trans ?_
    rw [timerTest_eq]

theorem Threads.goTo_pred (P : Loc → Prop) (sync : Sync cfg) (x : Loc) (y : Bool) (t : Thid cfg) :
    P ((s.goTo sync x y).loc t) ↔ t = s.me ∧ P x ∨ t ≠ s.me ∧ P (s.loc t) := by
  rw [Threads.goTo_loc]
  by_cases ht : t = s.me
  · simp [ht]
  · simp [ht]

/-- Mutex `r` belongs to the thread at a place of `H`, or to the one at a place of `W` that it
has been handed to. -/
def Threads.Excl (s : Threads cfg Loc) (r : MutexRef) (H W : Loc → Prop) : Prop :=
  Excludes s.sync r (fun t => H (s.loc t)) (fun t => W (s.loc t))

variable {sync : Sync cfg} {r : MutexRef} {H W : Loc → Prop} {x : Loc} {y : Bool}

/-- The running thread goes on, and keeps its part in mutex `r`. -/
theorem Threads.Excl.goOn (h : s.Excl r H W) (hm : sync.mux r = s.sync.mux r)
    (hh : H x ↔ H (s.loc s.me)) (hw : W x ↔ W (s.loc s.me)) : (s.goTo sync x y).Excl r H W := by
  refine Excludes.congr h hm (fun t => ?_) fun t => ?_
  · rw [Threads.goTo_pred H]
    by_cases ht : t = s.me
    · subst ht; simp [hh]
    · simp [ht]
  · rw [Threads.goTo_pred W]
    by_cases ht : t = s.me
    · subst ht; simp [hw]
    · simp [ht]

theorem Threads.Excl.taken (h : s.Excl r H W) (ht : Taken s.sync sync r) (hx : H x ∧ ¬W x)
    (hw : ¬W (s.loc s.me)) : (s.goTo sync x y).Excl r H W := by
  refine Excludes.taken h ht (fun t => ?_) fun t => ?_
  · rw [Threads.goTo_pred H]
    change _ ↔ t = s.me ∨ _
    tauto
  · rw [Threads.goTo_pred W]
    by_cases ht : t = s.me
    · subst ht; tauto
    · tauto

theorem Threads.Excl.blocks (h : s.Excl r H W) (hb : Blocks s.sync sync r) (hx : ¬H x ∧ W x)
    (hn : ¬H (s.loc s.me) ∧ ¬W (s.loc s.me)) : (s.goTo sync x y).Excl r H W := by
  refine Excludes.blocks h hb hn (fun t => ?_) fun t => ?_
  · rw [Threads.goTo_pred H]
    by_cases ht : t = s.me
    · subst ht; tauto
    · tauto
  · rw [Threads.goTo_pred W]
    change _ ↔ t = s.me ∨ _
    tauto

theorem Threads.Excl.unlocked (h : s.Excl r H W) (hi : SyncInv s.sync)
    (hu : Unlocked s.sync sync r) (hx : ¬H x ∧ ¬W x) (hme : H (s.loc s.me) ∧ ¬W (s.loc s.me)) :
    (s.goTo sync x y).Excl r H W := by
  refine Excludes.unlocked h hi hu hme.1 hme.2 (fun t => ?_) fun t => ?_
  · rw [Threads.goTo_pred H]
    change _ ↔ t ≠ s.me ∧ _
    tauto
  · rw [Threads.goTo_pred W]
    by_cases ht : t = s.me
    · subst ht; tauto
    · tauto

theorem Threads.Excl.granted (h : s.Excl r H W) (hm : sync.mux r = s.sync.mux r)
    (hx : H x ∧ ¬W x) (hme : W (s.loc s.me)) (hn : s.me ∉ s.sync.waiters r) :
    (s.goTo sync x y).Excl r H W := by
  refine Excludes.granted h hme hn hm (fun t => ?_) fun t => ?_
  · rw [Threads.goTo_pred H]
    tauto
  · rw [Threads.goTo_pred W]
    tauto

theorem Threads.Excl.yielded (h : s.Excl r H W) (hy : Yielded s s') : s'.Excl r H W := by
  refine Excludes.congr h (congrFun hy.mux r) (fun t => ?_) fun t => ?_
  · rw [hy.loc]
  · rw [hy.loc]

end

end Tinker

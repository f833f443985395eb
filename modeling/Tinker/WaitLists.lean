import Mathlib.Data.Fintype.Card
import Tinker.Pthread

/-! The blocked lists of the mutexes, whatever else goes on in the kernel. Whoever is in a list is
blocked on its mutex, so the calls let nobody go that waits for something else. -/
namespace Tinker

open Outcome Counted

variable {cfg : Config}

/-- The blocked threads, in the order in which they have queued up. -/
def Mutex.waiters (m : Mutex cfg) : List (Thid cfg) := live m.thread m.numb

/-- The threads blocked on mutex `r`. -/
def Sync.waiters (s : Sync cfg) (r : MutexRef) : List (Thid cfg) := (s.mux r).waiters

section

variable {s : Sync cfg} {r r' : MutexRef} {m : Mutex cfg}

@[simp] theorem Sync.setMux_self : (s.setMux r m).mux r = m := Function.update_self _ _ _
@[simp] theorem Sync.setMux_of_ne (h : r' ≠ r) : (s.setMux r m).mux r' = s.mux r' :=
  Function.update_of_ne h _ _
@[simp] theorem Sync.setMux_kernel : (s.setMux r m).kernel = s.kernel := rfl
@[simp] theorem Sync.setMux_coopMux : (s.setMux r m).coopMux = s.coopMux := rfl

theorem Sync.init_lists (k : Kernel cfg) (r : MutexRef) :
    Lists ((Sync.init k).mux r).thread ((Sync.init k).mux r).numb [] := by
  cases r <;> exact Lists.nil _

@[simp] theorem Sync.init_waiters (k : Kernel cfg) (r : MutexRef) : (Sync.init k).waiters r = [] :=
  (Sync.init_lists k r).live_eq

end

theorem Mutex.read_ok {m : Mutex cfg} {i : ℕ} {t : Thid cfg} (h : m.read i = .ok t) :
    m.thread i = some t := by
  have hspec : Spec (m.read i) (fun t => m.thread i = some t) (fun _ => True) := by
    simp only [Mutex.read,spec_bind,spec_check]
    refine ⟨fun _ => ?_,fun _ => trivial⟩
    split
    · next he => exact he
    · trivial
  exact hspec.of_ok h

/-- The threads in the lists are blocked, each of them on the mutex of its list. -/
structure WaitLists (s : Sync cfg) : Prop where
  lists : ∀ r, Lists (s.mux r).thread (s.mux r).numb (s.waiters r)
  nodup : ∀ r, (s.waiters r).Nodup
  blocked : ∀ r, ∀ t ∈ s.waiters r, (s.kernel.pool t).state = .queue ∧
    (s.kernel.pool t).bOnId = ⟨.pmutex,.mutex r⟩

theorem waitLists_init (k : Kernel cfg) : WaitLists (Sync.init k) where
  lists := by
    intro r
    rw [Sync.init_waiters]
    exact Sync.init_lists k r
  nodup := by
    intro r
    rw [Sync.init_waiters]
    exact List.nodup_nil
  blocked := by
    intro r t ht
    rw [Sync.init_waiters] at ht
    cases ht

/-- Threads of the lists have been let go; that is all. -/
structure Releases (s s' : Sync cfg) : Prop where
  lists : WaitLists s'
  left : ∀ r, ∀ t ∈ s'.waiters r, t ∈ s.waiters r
  pool : ∀ t, s'.kernel.pool t = s.kernel.pool t ∨
    (∃ r, t ∈ s.waiters r) ∧ s'.kernel.pool t = unblock (s.kernel.pool t)
  rest : s'.kernel = { s.kernel with pool := s'.kernel.pool }

/-- What a call comes to: threads of the lists have been let go, and the caller is blocked at most
where it yields. -/
structure Turns (s : Sync cfg) (y : Bool) (s' : Sync cfg) : Prop where
  lists : WaitLists s'
  pool : ∀ t, s'.kernel.pool t = s.kernel.pool t ∨
    (∃ r, t ∈ s.waiters r) ∧ s'.kernel.pool t = unblock (s.kernel.pool t) ∨
    t = s.kernel.activeThread ∧ y = true ∧ ∃ r, s'.kernel.pool t = blockOn r (s.kernel.pool t)
  rest : s'.kernel = { s.kernel with pool := s'.kernel.pool }

section

variable {s s' s'' : Sync cfg} {r : MutexRef}

theorem WaitLists.notMem (h : WaitLists s) {t : Thid cfg} (ht : (s.kernel.pool t).state = .ready)
    (r : MutexRef) : t ∉ s.waiters r := by
  intro hm
  have := (h.blocked r t hm).1
  rw [ht] at this
  cases this

/-- A thread is in one blocked list at most. -/
theorem WaitLists.mem_unique (h : WaitLists s) {r' : MutexRef} {t : Thid cfg}
    (ht : t ∈ s.waiters r) (ht' : t ∈ s.waiters r') : r = r' := by
  have h1 := (h.blocked r t ht).2
  rw [(h.blocked r' t ht').2] at h1
  simpa using h1.symm

/-- While a ready thread runs, a blocked list has a free cell. -/
theorem WaitLists.numb_lt (h : WaitLists s)
    (hr : (s.kernel.pool s.kernel.activeThread).state = .ready) (r : MutexRef) :
    (s.mux r).numb < cfg.maxThreads := by
  have hnd : (s.kernel.activeThread :: s.waiters r).Nodup :=
    List.nodup_cons.mpr ⟨h.notMem hr r,h.nodup r⟩
  have := hnd.length_le_card
  rw [List.length_cons,Fintype.card_fin] at this
  rw [(h.lists r).numb_eq]
  omega

theorem WaitLists.mapM_read (h : WaitLists s) (hn : (s.mux r).numb < cfg.maxThreads) :
    (List.range (s.mux r).numb).mapM (s.mux r).read = .ok (s.waiters r) := by
  refine mapM_eq_ok (List.ext_getElem ?_ fun i h1 h2 => ?_)
  · simp [(h.lists r).numb_eq]
  · simp only [List.length_map,List.length_range] at h1
    have hi : i < (s.waiters r).length := by rwa [← (h.lists r).numb_eq]
    simp [Mutex.read,(h.lists r).cell i hi,check,show i < cfg.maxThreads by omega,bind,Except.bind]

/-- The thread in a cell of a list. -/
theorem WaitLists.split_at (h : WaitLists s) {j : ℕ} {t : Thid cfg} (hj : j < 0+(s.waiters r).length)
    (hread : (s.mux r).read j = .ok t) :
    ∃ pre post, s.waiters r = pre ++ t :: post ∧ pre.length = j := by
  have hj : j < (s.waiters r).length := by omega
  have ht : (s.waiters r)[j] = t := by
    have hc := (h.lists r).cell j hj
    rw [Mutex.read_ok hread] at hc
    exact (Option.some.inj hc).symm
  refine ⟨(s.waiters r).take j,(s.waiters r).drop (j+1),?_,by simp; omega⟩
  rw [← ht,← List.drop_eq_getElem_cons hj,List.take_append_drop]

/-- The kernel goes on, and the threads in the lists stay blocked. -/
theorem WaitLists.congr (h : WaitLists s) (hm : s'.mux = s.mux)
    (hp : ∀ r, ∀ t ∈ s.waiters r, (s'.kernel.pool t).state = (s.kernel.pool t).state ∧
      (s'.kernel.pool t).bOnId = (s.kernel.pool t).bOnId) : WaitLists s' := by
  have hw : ∀ r, s'.waiters r = s.waiters r := fun r => by rw [Sync.waiters,hm,Sync.waiters]
  refine ⟨fun r => ?_,fun r => ?_,fun r t ht => ?_⟩
  · rw [hw,hm]; exact h.lists r
  · rw [hw]; exact h.nodup r
  · rw [hw] at ht
    obtain ⟨hs,hb⟩ := hp r t ht
    rw [hs,hb]
    exact h.blocked r t ht

/-- One list changes, and the threads of the others stay as they are. -/
theorem WaitLists.change (h : WaitLists s) {k : Kernel cfg} {m : Mutex cfg} {l : List (Thid cfg)}
    (hl : Lists m.thread m.numb l) (hnd : l.Nodup)
    (hin : ∀ t ∈ l, (k.pool t).state = .queue ∧ (k.pool t).bOnId = ⟨.pmutex,.mutex r⟩)
    (hout : ∀ r' ≠ r, ∀ t ∈ s.waiters r', k.pool t = s.kernel.pool t) :
    WaitLists (({ s with kernel := k } : Sync cfg).setMux r m) ∧
    ∀ r', (({ s with kernel := k } : Sync cfg).setMux r m).waiters r' =
      if r' = r then l else s.waiters r' := by
  have hw : ∀ r', (({ s with kernel := k } : Sync cfg).setMux r m).waiters r' =
      if r' = r then l else s.waiters r' := by
    intro r'
    rw [Sync.waiters]
    split
    · next he => rw [he,Sync.setMux_self]; exact hl.live_eq
    · next he => rw [Sync.setMux_of_ne he]; rfl
  refine ⟨⟨fun r' => ?_,fun r' => ?_,fun r' t ht => ?_⟩,hw⟩
  · rw [hw]
    split
    · next he => rw [he,Sync.setMux_self]; exact hl
    · next he => rw [Sync.setMux_of_ne he]; exact h.lists r'
  · rw [hw]
    split
    · exact hnd
    · exact h.nodup r'
  · rw [hw] at ht
    split at ht
    · next he => rw [he]; exact hin t ht
    · next he =>
      rw [Sync.setMux_kernel,hout r' he t ht]
      exact h.blocked r' t ht

theorem Releases.refl (h : WaitLists s) : Releases s s :=
  ⟨h,fun _ _ ht => ht,fun _ => Or.inl rfl,rfl⟩

/-- A blocked thread that is let go is ready. -/
theorem WaitLists.unblock_ready (h : WaitLists s) {t : Thid cfg} (ht : t ∈ s.waiters r) :
    (unblock (s.kernel.pool t)).state = .ready := by
  simp only [unblock,(h.blocked r t ht).1]
  decide

theorem Releases.trans (h : WaitLists s) (h1 : Releases s s') (h2 : Releases s' s'') :
    Releases s s'' where
  lists := h2.lists
  left := fun r t ht => h1.left r t (h2.left r t ht)
  pool := by
    intro t
    obtain ht2 | ⟨⟨r,hm⟩,ht2⟩ := h2.pool t
    · rw [ht2]; exact h1.pool t
    · -- who is still in a list has not been let go before
      obtain ht1 | ⟨⟨r',hm'⟩,ht1⟩ := h1.pool t
      · rw [ht2,ht1]
        exact Or.inr ⟨⟨r,h1.left r t hm⟩,rfl⟩
      · have hq := (h1.lists.blocked r t hm).1
        rw [ht1,h.unblock_ready hm'] at hq
        cases hq
  rest := by
    rw [h2.rest,h1.rest]

theorem Releases.ready (h : WaitLists s) (hr : Releases s s') {t : Thid cfg}
    (ht : (s.kernel.pool t).state = .ready) : s'.kernel.pool t = s.kernel.pool t := by
  obtain he | ⟨⟨r,hm⟩,_⟩ := hr.pool t
  · exact he
  · exact absurd hm (h.notMem ht r)

theorem Releases.active (hr : Releases s s') :
    s'.kernel.activeThread = s.kernel.activeThread := by
  rw [hr.rest]

/-- The caller stays ready. -/
theorem Releases.stays (h : WaitLists s) (hs : Releases s s')
    (hr : (s.kernel.pool s.kernel.activeThread).state = .ready) :
    (s'.kernel.pool s'.kernel.activeThread).state = .ready := by
  rw [hs.active,hs.ready h hr]
  exact hr

theorem Releases.turns (hr : Releases s s') (y : Bool) : Turns s y s' where
  lists := hr.lists
  pool := fun t => (hr.pool t).imp_right Or.inl
  rest := hr.rest

/-- A loop that lets threads go. -/
theorem foldl_unblock (l : List (Thid cfg)) (hl : l.Nodup) (k : Kernel cfg) :
    (∀ t, (l.foldl (fun k t => k.modTcb t unblock) k).pool t =
      if t ∈ l then unblock (k.pool t) else k.pool t) ∧
    (l.foldl (fun k t => k.modTcb t unblock) k).activeThread = k.activeThread := by
  induction l generalizing k with
  | nil => exact ⟨fun _ => rfl,rfl⟩
  | cons u l ih =>
    obtain ⟨hu,hl⟩ := List.nodup_cons.mp hl
    obtain ⟨hp,ha⟩ := ih hl (k.modTcb u unblock)
    refine ⟨fun t => ?_,ha⟩
    rw [List.foldl_cons,hp,Kernel.modTcb_pool]
    by_cases ht : t = u
    · subst ht; simp [hu]
    · simp [ht]

theorem foldl_unblock_rest (l : List (Thid cfg)) (k : Kernel cfg) :
    l.foldl (fun k t => k.modTcb t unblock) k =
      { k with pool := (l.foldl (fun k t => k.modTcb t unblock) k).pool } := by
  induction l generalizing k with
  | nil => rfl
  | cons u l ih =>
    rw [List.foldl_cons]
    exact ih (k.modTcb u unblock)

/-- `_mutex_lock_primitive` takes a free mutex, and else queues the caller up. -/
theorem WaitLists.lock (h : WaitLists s)
    (hr : (s.kernel.pool s.kernel.activeThread).state = .ready) (r : MutexRef) :
    Spec (mutexLockPrimitive s r) (fun p => WaitLists p.1 ∧
      (p.2 = false ∧ p.1.kernel = s.kernel ∨
        p.2 = true ∧ p.1.kernel = s.kernel.modTcb s.kernel.activeThread (blockOn r)))
      (fun _ => True) := by
  have hnm := h.notMem hr
  simp only [mutexLockPrimitive,spec_ite,spec_ok,spec_bind,spec_check,spec_pure]
  refine ⟨fun _ => ?_,fun _ => ⟨fun _ => ?_,fun _ => trivial⟩⟩
  · have hc := (h.change (r:=r) (k:=s.kernel) (m:={ s.mux r with
      owner := .thread s.kernel.activeThread, numb := 0 }) (Lists.nil _) List.nodup_nil
      (fun t ht => (by cases ht)) fun _ _ _ _ => rfl).1
    exact ⟨hc,Or.inl ⟨trivial,rfl⟩⟩
  · have hnd : (s.waiters r ++ [s.kernel.activeThread]).Nodup := by
      rw [List.nodup_append]
      refine ⟨h.nodup r,List.nodup_singleton _,?_⟩
      rintro t ht u hu rfl
      exact hnm r (List.mem_singleton.mp hu ▸ ht)
    have hothers : ∀ r', ∀ t ∈ s.waiters r',
        (s.kernel.modTcb s.kernel.activeThread (blockOn r)).pool t = s.kernel.pool t := by
      intro r' t ht
      rw [Kernel.modTcb_pool,if_neg]
      rintro rfl
      exact hnm r' ht
    have hc := (h.change (r:=r) (k:=s.kernel.modTcb s.kernel.activeThread (blockOn r))
      (m:={ s.mux r with
        thread := Function.update (s.mux r).thread (s.mux r).numb (some s.kernel.activeThread)
        numb := (s.mux r).numb+1 }) ((h.lists r).push s.kernel.activeThread) hnd
      (fun t ht => by
        obtain ht | ht := List.mem_append.mp ht
        · rw [hothers r t ht]
          exact h.blocked r t ht
        · rw [List.mem_singleton.mp ht,Kernel.modTcb_pool,if_pos rfl]
          simp [blockOn,hr])
      fun r' _ => hothers r').1
    exact ⟨hc,Or.inr ⟨trivial,rfl⟩⟩

/-- One thread of a list is let go, or all of them are. -/
theorem WaitLists.releases (h : WaitLists s) {k : Kernel cfg} {m : Mutex cfg}
    (out : List (Thid cfg)) {l : List (Thid cfg)} (hl : Lists m.thread m.numb l)
    (hmem : ∀ t, t ∈ s.waiters r ↔ t ∈ out ∨ t ∈ l) (hnd : l.Nodup) (hout : ∀ t ∈ out, t ∉ l)
    (hpool : ∀ t, k.pool t = if t ∈ out then unblock (s.kernel.pool t) else s.kernel.pool t)
    (hrest : k = { s.kernel with pool := k.pool }) :
    Releases s (({ s with kernel := k } : Sync cfg).setMux r m) := by
  obtain ⟨hc,hw⟩ := h.change (r:=r) (k:=k) hl hnd
    (fun t ht => by
      rw [hpool,if_neg fun ho => hout t ho ht]
      exact h.blocked r t ((hmem t).mpr (Or.inr ht)))
    (fun r' hr' t ht => by
      rw [hpool,if_neg]
      intro ho
      exact hr' (h.mem_unique ht ((hmem t).mpr (Or.inl ho))))
  refine ⟨hc,fun r' t ht => ?_,fun t => ?_,hrest⟩
  · rw [hw] at ht
    split at ht
    · next he => rw [he]; exact (hmem t).mpr (Or.inr ht)
    · exact ht
  · rw [Sync.setMux_kernel,hpool]
    split
    · next ho => exact Or.inr ⟨⟨r,(hmem t).mpr (Or.inl ho)⟩,rfl⟩
    · exact Or.inl rfl

/-- `_mutex_unlock_primitive` lets one thread go, or all of them. -/
theorem WaitLists.unlock (h : WaitLists s)
    (hr : (s.kernel.pool s.kernel.activeThread).state = .ready) (r : MutexRef) (bcast : Bool) :
    Spec (mutexUnlockPrimitive s r bcast) (fun p => Releases s p.1) (fun _ => True) := by
  have hlt := h.numb_lt hr r
  have hread := h.mapM_read hlt
  simp only [mutexUnlockPrimitive,spec_ite,spec_ok,spec_bind,spec_check,spec_pure,hread]
  refine ⟨fun _ => ⟨fun _ => Releases.refl h,fun _ => trivial⟩,fun _ => ⟨fun _ => ?_,fun _ =>
    ⟨fun _ => ?_,fun _ => ?_⟩⟩⟩
  · exact h.releases [] (h.lists r) (fun t => by simp) (h.nodup r) (fun t ht => by cases ht)
      (fun t => by simp) rfl
  · exact h.releases (s.waiters r) (Lists.nil _) (fun t => by simp) List.nodup_nil
      (fun t _ => List.not_mem_nil) (foldl_unblock (s.waiters r) (h.nodup r) s.kernel).1
      (foldl_unblock_rest _ _)
  · split
    · trivial
    · next j hscan =>
      cases hj : (s.mux r).read j with
      | error e => trivial
      | ok him =>
        obtain ⟨pre,post,he,rfl⟩ := h.split_at (r:=r) ((scan_lt hscan).resolve_left (by rintro ⟨⟩)) hj
        have hlists := h.lists r
        have hnd := h.nodup r
        rw [he] at hlists hnd
        rw [List.nodup_middle,List.nodup_cons] at hnd
        simp only [spec_bind,spec_ok]
        refine (hlists.closeGap Fault.outOfTable hlt).mono (fun thread hthread => ?_) fun _ => False.elim
        refine h.releases [him] hthread (fun t => ?_) hnd.2 (fun t ht => ?_) (fun t => ?_) rfl
        · rw [he]
          simp only [List.mem_append,List.mem_cons,List.not_mem_nil,or_false]
          tauto
        · rw [List.mem_singleton.mp ht]
          exact hnd.1
        · rw [Kernel.modTcb_pool]
          split
          · next ht => rw [ht,if_pos (List.mem_singleton_self _)]
          · next ht => rw [if_neg fun hm => ht (List.mem_singleton.mp hm)]

theorem Releases.setOwner (h : WaitLists s) (o : Owner cfg) :
    Releases s (s.setMux r { s.mux r with owner := o }) :=
  h.releases (k:=s.kernel) [] (h.lists r) (fun t => by simp) (h.nodup r)
    (fun t ht => by cases ht) (fun t => by simp) rfl

/-- Threads are let go, and then the caller locks a mutex. -/
theorem Releases.lock (h : WaitLists s) (hs : Releases s s')
    (hr : (s.kernel.pool s.kernel.activeThread).state = .ready) (r : MutexRef) :
    Spec (mutexLockPrimitive s' r) (fun p => Turns s p.2 p.1) (fun _ => True) := by
  have hme := hs.ready h hr
  refine (hs.lists.lock (hs.stays h hr) r).imp ?_
  rintro ⟨s'',y⟩ ⟨hl,⟨_,hk⟩ | ⟨rfl,hk⟩⟩
  · refine ⟨hl,fun t => ?_,?_⟩
    · rw [hk]
      exact (hs.pool t).imp_right Or.inl
    · rw [hk]
      exact hs.rest
  · refine ⟨hl,fun t => ?_,?_⟩
    · rw [hk,Kernel.modTcb_pool,hs.active]
      split
      · next ht => subst ht; rw [hme]; exact Or.inr (Or.inr ⟨rfl,rfl,r,rfl⟩)
      · exact (hs.pool t).imp_right Or.inl
    · rw [hk,Kernel.modTcb,hs.rest]

theorem pthreadCondSignalEnd_releases (h : WaitLists s)
    (hr : (s.kernel.pool s.kernel.activeThread).state = .ready) {c : ℕ} :
    Spec (pthreadCondSignalEnd s c) (fun p => Releases s p.1) (fun _ => True) := by
  unfold pthreadCondSignalEnd
  split
  · trivial
  · exact h.unlock hr _ false

theorem keepCvOwned_releases (h : WaitLists s) {c : ℕ} :
    Spec (keepCvOwned s c) (Releases s) (fun _ => True) := by
  simp only [keepCvOwned,spec_ite,spec_bind,spec_check,spec_pure,spec_ok]
  exact ⟨fun _ => ⟨fun _ => Releases.setOwner h .one,fun _ => trivial⟩,fun _ => Releases.refl h⟩

theorem pthreadCondSignal_releases (h : WaitLists s)
    (hr : (s.kernel.pool s.kernel.activeThread).state = .ready) {c : ℕ} :
    Spec (pthreadCondSignal s c) (fun p => Releases s p.1) (fun _ => True) := by
  unfold pthreadCondSignal
  split
  · exact Releases.refl h
  · simp only [spec_bind]
    refine (h.unlock hr _ false).imp ?_
    rintro ⟨s1,y⟩ h1
    refine (keepCvOwned_releases h1.lists).imp fun s2 h2 => ?_
    have h2 := h1.trans h h2
    simp only [spec_ite,spec_bind,spec_pure]
    exact ⟨fun _ => h2,fun _ => (pthreadCondSignalEnd_releases h2.lists (h2.stays h hr)).imp
      fun p hp => h2.trans h hp⟩

theorem pthreadCondBroadcast_releases (h : WaitLists s)
    (hr : (s.kernel.pool s.kernel.activeThread).state = .ready) {c : ℕ} :
    Spec (pthreadCondBroadcast s c) (fun p => Releases s p.1) (fun _ => True) := by
  unfold pthreadCondBroadcast
  split
  · exact Releases.refl h
  · next r _ =>
    simp only [spec_bind]
    refine (h.unlock hr _ true).imp ?_
    rintro ⟨s1,y1⟩ h1
    have h2 : Releases s (if (s1.mux (.cvMux c)).numb = 0 then
        s1.setMux (.cvMux c) { s1.mux (.cvMux c) with owner := .one } else s1) := by
      split
      · exact h1.trans h (Releases.setOwner h1.lists .one)
      · exact h1
    exact (h2.lists.unlock (h2.stays h hr) r false).imp fun p hp => h2.trans h hp

theorem pthreadCondWait_turns (h : WaitLists s)
    (hr : (s.kernel.pool s.kernel.activeThread).state = .ready) {c : ℕ} :
    Spec (pthreadCondWait s c r) (Turns s true) (fun _ => True) := by
  simp only [pthreadCondWait,spec_bind,spec_check,spec_pure]
  have hcoop : WaitLists { s with coopMux := Function.update s.coopMux c (some r) } :=
    ⟨h.lists,h.nodup,h.blocked⟩
  refine (hcoop.unlock hr r false).imp fun p hp => ?_
  refine (hp.lock hcoop hr (.cvMux c)).imp fun p' hp' => ?_
  refine ⟨fun hy => ?_,fun _ => trivial⟩
  rw [hy] at hp'
  exact ⟨hp'.lists,hp'.pool,hp'.rest⟩

theorem pthreadCondWaitEnd_turns (h : WaitLists s)
    (hr : (s.kernel.pool s.kernel.activeThread).state = .ready) {c : ℕ} :
    Spec (pthreadCondWaitEnd s c) (fun p => Turns s p.2 p.1) (fun _ => True) := by
  unfold pthreadCondWaitEnd
  split
  · trivial
  · exact (Releases.refl h).lock h hr _

end

end Tinker

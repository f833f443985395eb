import Tinker.MutexLists

/-! Condition variables whose threads all use one mutex: who is blocked on which of them. -/
namespace Tinker

open Outcome Counted

variable {cfg : Config}

/-- `cv_mux` is always owned, every condition variable cooperates with a mutex of `P`, and nobody
waits on one that has not been used. -/
structure CvInv (P : MutexRef → Prop) (s : Sync cfg) : Prop extends SyncInv s where
  cvOwned : ∀ c, (s.mux (.cvMux c)).owner ≠ .null
  coop : ∀ c r, s.coopMux c = some r → P r
  unused : ∀ c, s.coopMux c = none → s.waiters (.cvMux c) = []

/-- `cv_mux` is always owned, every condition variable cooperates with the one mutex, and
nobody waits on one that has not been used. -/
structure CondInv (s : Sync cfg) : Prop extends SyncInv s where
  cvOwned : ∀ c, (s.mux (.cvMux c)).owner ≠ .null
  coop : ∀ c r, s.coopMux c = some r → r = theMutex
  unused : ∀ c, s.coopMux c = none → s.waiters (.cvMux c) = []

theorem condInv_iff {s : Sync cfg} : CondInv s ↔ CvInv (· = theMutex) s :=
  ⟨fun h => ⟨h.toSyncInv,h.cvOwned,h.coop,h.unused⟩,fun h => ⟨h.toSyncInv,h.cvOwned,h.coop,h.unused⟩⟩

theorem cvMux_ne (c : ℕ) : MutexRef.cvMux c ≠ theMutex := by rintro ⟨⟩

theorem Seated.cvInv {k : Kernel cfg} (h : Seated k) (P : MutexRef → Prop) :
    CvInv P (Sync.init k) where
  toSyncInv := h.syncInv
  cvOwned := by rintro c ⟨⟩
  coop := by rintro c r ⟨⟩
  unused := fun c _ => (Lists.nil (fun _ => none)).live_eq

theorem Seated.condInv {k : Kernel cfg} (h : Seated k) : CondInv (Sync.init k) :=
  condInv_iff.mpr (h.cvInv _)

/-- A call that changes the sleepers of condition variable `c` only, and not the running thread. -/
structure OnCond (s s' : Sync cfg) (c : ℕ) : Prop where
  cvs : ∀ d ≠ c, s'.waiters (.cvMux d) = s.waiters (.cvMux d)
  coopMux : s'.coopMux = s.coopMux
  active : s'.kernel.activeThread = s.kernel.activeThread
  prio : ∀ t, (s'.kernel.pool t).prio = (s.kernel.pool t).prio
  ready : (s'.kernel.pool s'.kernel.activeThread).state = .ready

/-- One sleeper is let go if there is any, the first one of the numerically smallest priority. -/
def WakesOne (s s' : Sync cfg) (c : ℕ) : Prop :=
  s.waiters (.cvMux c) = [] ∧ s'.waiters (.cvMux c) = [] ∨
  ∃ pre him post, s.waiters (.cvMux c) = pre ++ him :: post ∧
    FirstLeast (fun t => (s.kernel.pool t).prio) pre him post ∧
    s'.waiters (.cvMux c) = pre ++ post

/-- Nobody who is ready stops being so. -/
def StaysReady (s s' : Sync cfg) : Prop :=
  ∀ t, (s.kernel.pool t).state = .ready → (s'.kernel.pool t).state = .ready

/-- `pthread_cond_signal` has let one sleeper go and yields, or nobody slept. -/
def Signalled (s : Sync cfg) (p : Sync cfg × SignalResult) (c : ℕ) : Prop :=
  (∃ pre him post, HandedTo s p.1 (.cvMux c) pre him post ∧ p.2 = .yields) ∨
  s.waiters (.cvMux c) = [] ∧ p.1.waiters (.cvMux c) = []

section

variable {s s' : Sync cfg} {c : ℕ} {P : MutexRef → Prop} {r : MutexRef}

theorem StaysReady.trans {s'' : Sync cfg} (h : StaysReady s s') (h' : StaysReady s' s'') :
    StaysReady s s'' := fun t ht => h' t (h t ht)

theorem unblock_ready {b : Tcb cfg} (h : b.state = .ready) : (unblock b).state = .ready := by
  simp only [unblock,h]
  decide

theorem Unlocked.staysReady (h : Unlocked s s' r) : StaysReady s s' := by
  intro t ht
  obtain h | ⟨pre,him,post,h⟩ := h
  · rw [h.kernel]
    exact ht
  · rw [h.kernel,Kernel.modTcb_pool]
    split
    · next he =>
      subst he
      exact unblock_ready ht
    · exact ht

theorem LetAllGo.staysReady (h : LetAllGo s s' r) : StaysReady s s' := by
  intro t ht
  rw [h.pool]
  split
  · exact unblock_ready ht
  · exact ht

theorem OnCond.refl (hr : (s.kernel.pool s.kernel.activeThread).state = .ready) : OnCond s s c :=
  ⟨fun _ _ => rfl,rfl,rfl,fun _ => rfl,hr⟩

theorem OnCond.trans {s'' : Sync cfg} (h : OnCond s s' c) (h' : OnCond s' s'' c) :
    OnCond s s'' c where
  cvs := fun d hd => (h'.cvs d hd).trans (h.cvs d hd)
  coopMux := h'.coopMux.trans h.coopMux
  active := h'.active.trans h.active
  prio := fun t => (h'.prio t).trans (h.prio t)
  ready := h'.ready

theorem Only.onCond (h : Only s s' r) (hr : ∀ d, .cvMux d ≠ r) (c : ℕ)
    (hready : (s'.kernel.pool s'.kernel.activeThread).state = .ready) : OnCond s s' c :=
  ⟨fun d _ => h.waiters_ne (hr d),h.coopMux,h.active,h.prio,hready⟩

/-- A mutex may change hands under the condition variables. -/
theorem CvInv.of_only (h : CvInv P s) (hr : ∀ d, .cvMux d ≠ r) (hi : SyncInv s')
    (ho : Only s s' r) : CvInv P s' where
  toSyncInv := hi
  cvOwned := fun c => by rw [ho.mux _ (hr c)]; exact h.cvOwned c
  coop := by rw [ho.coopMux]; exact h.coop
  unused := by
    intro c
    rw [ho.coopMux,ho.waiters_ne (hr c)]
    exact h.unused c

theorem CvInv.lock (h : CvInv P s) (hready : (s.kernel.pool s.kernel.activeThread).state = .ready)
    (hr : ∀ d, .cvMux d ≠ r) : Spec (pthreadMutexLock s r) (fun p => CvInv P p.1 ∧
      (p.2 = false ∧ Taken s p.1 r ∨ p.2 = true ∧ Blocks s p.1 r)) (fun _ => False) := by
  refine (h.toSyncInv.lock hready r).imp ?_
  rintro p ⟨hi,⟨hy,ht⟩ | ⟨hy,hb⟩⟩
  · exact ⟨h.of_only hr hi ht.toOnly,Or.inl ⟨hy,ht⟩⟩
  · exact ⟨h.of_only hr hi hb.toOnly,Or.inr ⟨hy,hb⟩⟩

theorem CvInv.unlock (h : CvInv P s) (hready : (s.kernel.pool s.kernel.activeThread).state = .ready)
    (hr : ∀ d, .cvMux d ≠ r) : Spec (pthreadMutexUnlock s r) (fun p => CvInv P p.1 ∧
      Unlocked s p.1 r ∧ (p.2 = false ↔ s.waiters r = [])) (fun _ => False) := by
  refine (h.toSyncInv.unlock hready r).imp ?_
  rintro p ⟨hi,⟨hy,hf⟩ | ⟨hy,pre,him,post,ho⟩⟩
  · exact ⟨h.of_only hr hi hf.toOnly,Or.inl hf,iff_of_true hy hf.empty⟩
  · refine ⟨h.of_only hr hi ho.toOnly,Or.inr ⟨pre,him,post,ho⟩,iff_of_false (by simp [hy]) ?_⟩
    rw [ho.before]
    simp

/-- Setting the owner of `cv_mux` changes no list. -/
theorem SyncInv.setOwner (h : SyncInv s) (r : MutexRef) {o : Owner cfg} (ho : o ≠ .null) :
    SyncInv (s.setMux r { s.mux r with owner := o }) ∧
    ∀ r', (s.setMux r { s.mux r with owner := o }).waiters r' = s.waiters r' := by
  have hw : ∀ r', (s.setMux r { s.mux r with owner := o }).waiters r' = s.waiters r' := by
    intro r'
    by_cases hr : r' = r
    · subst hr; rw [Sync.waiters,Sync.setMux_self]; rfl
    · rw [Sync.waiters,Sync.setMux_of_ne hr]; rfl
  refine ⟨⟨fun r' => ?_,fun r' => ?_,fun r' t => ?_,h.queue,fun r' hn => ?_,h.alive,h.prio⟩,hw⟩
  · rw [hw]
    by_cases hr : r' = r
    · subst hr; rw [Sync.setMux_self]; exact h.lists r'
    · rw [Sync.setMux_of_ne hr]; exact h.lists r'
  · rw [hw]; exact h.nodup r'
  · rw [hw]; exact h.mem r' t
  · rw [hw]
    by_cases hr : r' = r
    · subst hr; rw [Sync.setMux_self] at hn; exact absurd hn ho
    · rw [Sync.setMux_of_ne hr] at hn; exact h.unowned r' hn

/-- One condition variable changes its sleepers and stays owned. -/
theorem CvInv.of_cv (h : CvInv P s) (hi : SyncInv s') (ho : Only s s' (.cvMux c))
    (hc : s.coopMux c ≠ none) (hown : (s'.mux (.cvMux c)).owner ≠ .null) : CvInv P s' where
  toSyncInv := hi
  cvOwned := by
    intro d
    by_cases hd : d = c
    · subst hd; exact hown
    · rw [ho.mux (.cvMux d) (by simpa using hd)]; exact h.cvOwned d
  coop := by rw [ho.coopMux]; exact h.coop
  unused := by
    intro d hn
    rw [ho.coopMux] at hn
    have hd : d ≠ c := by rintro rfl; exact hc hn
    rw [ho.waiters_ne (by simpa using hd)]
    exact h.unused d hn

theorem Only.onCv (h : Only s s' (.cvMux c))
    (hr : (s'.kernel.pool s'.kernel.activeThread).state = .ready) : OnCond s s' c :=
  ⟨fun d hd => h.waiters_ne (by simpa using hd),h.coopMux,h.active,h.prio,hr⟩

/-- The first half of `pthread_cond_signal`: a sleeper is let go, and `cv_mux` stays owned. -/
theorem CvInv.wakeOne (h : CvInv P s)
    (hr : (s.kernel.pool s.kernel.activeThread).state = .ready) (hc : s.coopMux c ≠ none) :
    Spec (do let (s,y) ← mutexUnlockPrimitive s (.cvMux c) false
             let s ← keepCvOwned s c
             return (s,y))
      (fun p => CvInv P p.1 ∧ OnCond s p.1 c ∧ StaysReady s p.1 ∧
        (p.2 = true ∧ (∃ pre him post, HandedTo s p.1 (.cvMux c) pre him post) ∨
          p.2 = false ∧ s.waiters (.cvMux c) = [] ∧ p.1.waiters (.cvMux c) = []))
      (fun _ => False) := by
  simp only [spec_bind,spec_pure]
  refine (h.toSyncInv.unlock hr (.cvMux c)).imp ?_
  rintro ⟨s1,y⟩ ⟨hi,⟨hy,hf⟩ | ⟨hy,pre,him,post,ho⟩⟩
  · have hf : Freed s s1 (.cvMux c) := hf
    have hr1 := Unlocked.ready (Or.inl hf) h.toSyncInv hr
    have hn : (s1.mux (.cvMux c)).numb = 0 := by
      rw [(hi.lists (.cvMux c)).numb_eq,hf.waiters]
      rfl
    have hi : SyncInv s1 := hi
    simp only [keepCvOwned,hf.owner,if_true,spec_bind,spec_check,spec_pure]
    refine ⟨fun _ => ?_,fun hne => hne hn⟩
    obtain ⟨hi2,hw⟩ := hi.setOwner (.cvMux c) (o:=.one) (by rintro ⟨⟩)
    have hot : Only s (s1.setMux (.cvMux c) { s1.mux (.cvMux c) with owner := .one }) (.cvMux c) := by
      refine ⟨fun r hr => ?_,hf.coopMux,hf.active,hf.prio⟩
      rw [Sync.setMux_of_ne hr]
      exact hf.mux r hr
    have hsr : StaysReady s s1 := Unlocked.staysReady (Or.inl hf)
    refine ⟨h.of_cv hi2 hot hc (by rw [Sync.setMux_self]; rintro ⟨⟩),hot.onCv hr1,hsr,
      Or.inr ⟨hy,hf.empty,?_⟩⟩
    rw [hw]
    exact hf.waiters
  · have ho : HandedTo s s1 (.cvMux c) pre him post := ho
    have hu : Unlocked s s1 (.cvMux c) := Or.inr ⟨pre,him,post,ho⟩
    have hown : (s1.mux (.cvMux c)).owner ≠ .null := by rw [ho.owner]; rintro ⟨⟩
    simp only [keepCvOwned,if_neg hown,spec_ok]
    exact ⟨h.of_cv hi ho.toOnly hc hown,ho.toOnly.onCv (hu.ready h.toSyncInv hr),hu.staysReady,
      Or.inl ⟨hy,pre,him,post,ho⟩⟩

/-- `pthread_cond_signal` after its own yield is an unlock. -/
theorem CvInv.signalEnd (h : CvInv P s) (hP : ∀ r, P r → ∀ d, .cvMux d ≠ r)
    (hready : (s.kernel.pool s.kernel.activeThread).state = .ready) (hc : s.coopMux c ≠ none) :
    Spec (pthreadCondSignalEnd s c) (fun p => CvInv P p.1 ∧ ∃ r, P r ∧ Unlocked s p.1 r ∧
      (p.2 = false ↔ s.waiters r = [])) (fun _ => False) := by
  obtain ⟨r,hc⟩ := Option.ne_none_iff_exists'.mp hc
  have hr := h.coop c r hc
  simp only [pthreadCondSignalEnd,hc]
  exact (h.unlock hready (hP r hr)).imp fun p hp => ⟨hp.1,r,hr,hp.2⟩

theorem CvInv.waitEnd (h : CvInv P s) (hP : ∀ r, P r → ∀ d, .cvMux d ≠ r)
    (hready : (s.kernel.pool s.kernel.activeThread).state = .ready) (hc : s.coopMux c ≠ none) :
    Spec (pthreadCondWaitEnd s c) (fun p => CvInv P p.1 ∧ ∃ r, P r ∧
      (p.2 = false ∧ Taken s p.1 r ∨ p.2 = true ∧ Blocks s p.1 r)) (fun _ => False) := by
  obtain ⟨r,hc⟩ := Option.ne_none_iff_exists'.mp hc
  have hr := h.coop c r hc
  simp only [pthreadCondWaitEnd,hc]
  exact (h.lock hready (hP r hr)).imp fun p hp => ⟨hp.1,r,hr,hp.2⟩

/-- `pthread_cond_signal` lets one sleeper go. Where nobody has ever waited it does nothing. -/
theorem CvInv.signal (h : CvInv P s) (hP : ∀ r, P r → ∀ d, .cvMux d ≠ r)
    (hr : (s.kernel.pool s.kernel.activeThread).state = .ready) (c : ℕ) :
    Spec (pthreadCondSignal s c) (fun p => CvInv P p.1 ∧ OnCond s p.1 c ∧ StaysReady s p.1 ∧
      Signalled s p c ∧ (p.2 ≠ .done → s.coopMux c ≠ none)) (fun _ => False) := by
  cases hc : s.coopMux c with
  | none =>
    simp only [pthreadCondSignal,hc,spec_ok]
    have hnil := h.unused c hc
    exact ⟨h,OnCond.refl hr,fun _ ht => ht,Or.inr ⟨hnil,hnil⟩,fun hn => absurd rfl hn⟩
  | some r =>
    have hc' : s.coopMux c ≠ none := by rw [hc]; rintro ⟨⟩
    have hw := h.wakeOne hr hc'
    simp only [pthreadCondSignal,hc,spec_bind,spec_pure,spec_ite] at hw ⊢
    refine hw.imp ?_
    rintro ⟨s1,y⟩ hp
    refine Spec.imp hp fun s2 h2 => ?_
    obtain ⟨hi,hon,hsr,⟨rfl,pre,him,post,ho⟩ | ⟨rfl,hnil,hnil2⟩⟩ := h2
    · exact ⟨fun _ => ⟨hi,hon,hsr,Or.inl ⟨pre,him,post,ho,rfl⟩,fun _ => (by rintro ⟨⟩)⟩,
        fun hn => absurd rfl hn⟩
    · refine ⟨by rintro ⟨⟩,fun _ => ?_⟩
      refine (hi.signalEnd hP hon.ready (by rw [hon.coopMux]; exact hc')).imp ?_
      rintro ⟨s3,y⟩ ⟨hi3,r3,hr3,hu,_⟩
      have hu : Unlocked s2 s3 r3 := hu
      have hon3 := hu.only.onCond (hP r3 hr3) c (hu.ready hi.toSyncInv hon.ready)
      refine ⟨hi3,hon.trans hon3,hsr.trans hu.staysReady,Or.inr ⟨hnil,?_⟩,fun _ => (by rintro ⟨⟩)⟩
      exact (hu.only.waiters_ne (hP r3 hr3 c)).trans hnil2

/-- `pthread_cond_broadcast` lets all sleepers go, and unlocks the mutex. -/
theorem CvInv.broadcast (h : CvInv P s) (hP : ∀ r, P r → ∀ d, .cvMux d ≠ r)
    (hr : (s.kernel.pool s.kernel.activeThread).state = .ready) (c : ℕ) :
    Spec (pthreadCondBroadcast s c) (fun p => CvInv P p.1 ∧ OnCond s p.1 c ∧ StaysReady s p.1 ∧
      p.1.waiters (.cvMux c) = [] ∧
      ∀ t ∈ s.waiters (.cvMux c), (p.1.kernel.pool t).state = .ready) (fun _ => False) := by
  by_cases hc : s.coopMux c = none
  · simp only [pthreadCondBroadcast,hc,spec_ok]
    refine ⟨h,OnCond.refl hr,fun _ ht => ht,h.unused c hc,fun t ht => ?_⟩
    rw [h.unused c hc] at ht
    cases ht
  obtain ⟨r,hr'⟩ := Option.ne_none_iff_exists'.mp hc
  have hne := hP r (h.coop c r hr')
  simp only [pthreadCondBroadcast,hr',spec_bind,spec_pure]
  refine (h.toSyncInv.unlockBcast hr (.cvMux c)).imp ?_
  rintro ⟨s1,y⟩ ⟨hi,hcase⟩
  have hi : SyncInv s1 := hi
  obtain ⟨ho,hw,hr1,hsr,hgo⟩ : Only s s1 (.cvMux c) ∧ s1.waiters (.cvMux c) = [] ∧
      (s1.kernel.pool s1.kernel.activeThread).state = .ready ∧ StaysReady s s1 ∧
      ∀ t ∈ s.waiters (.cvMux c), (s1.kernel.pool t).state = .ready := by
    obtain ⟨_,hf⟩ | ⟨_,hl⟩ := hcase
    · refine ⟨hf.toOnly,hf.waiters,Unlocked.ready (Or.inl hf) h.toSyncInv hr,
        Unlocked.staysReady (Or.inl hf),fun t ht => ?_⟩
      rw [hf.empty] at ht
      cases ht
    · refine ⟨hl.toOnly,hl.waiters,hl.ready h.toSyncInv hr,hl.staysReady,fun t ht => ?_⟩
      rw [hl.pool,if_pos ht]
      exact h.toSyncInv.unblock_ready ht
  have hn : (s1.mux (.cvMux c)).numb = 0 := by
    rw [(hi.lists (.cvMux c)).numb_eq,hw]
    rfl
  simp only [if_pos hn]
  obtain ⟨hi2,hw2⟩ := hi.setOwner (.cvMux c) (o:=.one) (by rintro ⟨⟩)
  have hot : Only s (s1.setMux (.cvMux c) { s1.mux (.cvMux c) with owner := .one }) (.cvMux c) := by
    refine ⟨fun r hr => ?_,ho.coopMux,ho.active,ho.prio⟩
    rw [Sync.setMux_of_ne hr]
    exact ho.mux r hr
  have hcv := h.of_cv hi2 hot hc (by rw [Sync.setMux_self]; rintro ⟨⟩)
  refine (hcv.unlock hr1 hne).imp ?_
  rintro ⟨s3,y3⟩ ⟨hi3,hu,_⟩
  have hu : Unlocked _ s3 r := hu
  refine ⟨hi3,(hot.onCv hr1).trans (hu.only.onCond hne c (hu.ready hi2 hr1)),
    hsr.trans hu.staysReady,?_,fun t ht => hu.staysReady t (hgo t ht)⟩
  rw [hu.only.waiters_ne (hne c),hw2,hw]

/-- The running thread falls asleep on condition variable `c`, mutex `r` unlocked. -/
structure SleepsOnWith (s s' : Sync cfg) (c : ℕ) (r : MutexRef) : Prop where
  waiters : s'.waiters (.cvMux c) = s.waiters (.cvMux c) ++ [s.kernel.activeThread]
  cvs : ∀ d ≠ c, s'.waiters (.cvMux d) = s.waiters (.cvMux d)
  coopMux : s'.coopMux = Function.update s.coopMux c (some r)
  active : s'.kernel.activeThread = s.kernel.activeThread
  prio : ∀ t, (s'.kernel.pool t).prio = (s.kernel.pool t).prio
  unlocked : ∃ s1, Unlocked { s with coopMux := Function.update s.coopMux c (some r) } s1 r ∧
    s'.mux r = s1.mux r
  staysReady : ∀ t, t ≠ s.kernel.activeThread → (s.kernel.pool t).state = .ready →
    (s'.kernel.pool t).state = .ready

/-- `pthread_cond_wait` unlocks the mutex and puts the caller to sleep. -/
theorem CvInv.wait (h : CvInv P s) (hP : ∀ r, P r → ∀ d, .cvMux d ≠ r) (hr : P r)
    (hready : (s.kernel.pool s.kernel.activeThread).state = .ready) (c : ℕ) :
    Spec (pthreadCondWait s c r) (fun s' => CvInv P s' ∧ SleepsOnWith s s' c r)
      (fun _ => False) := by
  have hne := hP r hr
  have h0 : CvInv P { s with coopMux := Function.update s.coopMux c (some r) } := by
    refine ⟨⟨h.lists,h.nodup,h.mem,h.queue,h.unowned,h.alive,h.prio⟩,h.cvOwned,fun d r' hd => ?_,
      fun d hd => ?_⟩
    · simp only [Function.update_apply] at hd
      split at hd
      · exact Option.some.inj hd ▸ hr
      · exact h.coop d r' hd
    · simp only [Function.update_apply] at hd
      split at hd
      · cases hd
      · exact h.unused d hd
  simp only [pthreadCondWait,spec_bind,spec_check,spec_pure]
  refine (h0.unlock hready hne).imp ?_
  rintro ⟨s1,y⟩ ⟨hi1,hu,_⟩
  have hu : Unlocked _ s1 r := hu
  have hr1 := hu.ready h0.toSyncInv hready
  refine (hi1.toSyncInv.lock hr1 (.cvMux c)).imp ?_
  rintro ⟨s2,y2⟩ ⟨hi2,⟨_,ht⟩ | ⟨rfl,hb⟩⟩
  · exact absurd ht.free (hi1.cvOwned c)
  · have hb : Blocks s1 s2 (.cvMux c) := hb
    have hcoop : s1.coopMux = Function.update s.coopMux c (some r) := hu.only.coopMux
    have hme : s1.kernel.activeThread = s.kernel.activeThread := hu.only.active
    refine ⟨fun _ => ⟨hi1.of_cv hi2 hb.toOnly ?_ ?_,?_,fun d hd => ?_,hb.coopMux.trans hcoop,
      hb.active.trans hme,fun t => (hb.prio t).trans (hu.only.prio t),⟨s1,hu,
      hb.mux r (hne c).symm⟩,fun t ht hs => ?_⟩,fun hn => absurd rfl hn⟩
    · rw [hcoop,Function.update_self]; rintro ⟨⟩
    · rw [hb.owner]; exact hi1.cvOwned c
    · rw [hb.waiters,hu.only.waiters_ne (hne c),hme]
      rfl
    · rw [hb.waiters_ne (by simpa using hd),hu.only.waiters_ne (hne d)]
      rfl
    · have hs1 : (s1.kernel.pool t).state = .ready := hu.staysReady t hs
      rw [hb.kernel,Kernel.modTcb_pool,if_neg (by rw [hme]; exact ht)]
      exact hs1

/-! ### Programs with one mutex -/

theorem CondInv.lock (h : CondInv s) (hr : (s.kernel.pool s.kernel.activeThread).state = .ready) :
    Spec (pthreadMutexLock s theMutex) (fun p => CondInv p.1 ∧
      (p.2 = false ∧ Taken s p.1 theMutex ∨ p.2 = true ∧ Blocks s p.1 theMutex))
      (fun _ => False) :=
  ((condInv_iff.mp h).lock hr cvMux_ne).imp fun _ hp => ⟨condInv_iff.mpr hp.1,hp.2⟩

theorem CondInv.unlock (h : CondInv s) (hr : (s.kernel.pool s.kernel.activeThread).state = .ready) :
    Spec (pthreadMutexUnlock s theMutex) (fun p => CondInv p.1 ∧ Unlocked s p.1 theMutex ∧
      (p.2 = false ↔ s.waiters theMutex = [])) (fun _ => False) :=
  ((condInv_iff.mp h).unlock hr cvMux_ne).imp fun _ hp => ⟨condInv_iff.mpr hp.1,hp.2⟩

theorem onlyTheMutex : ∀ r, r = theMutex → ∀ d, MutexRef.cvMux d ≠ r := by
  rintro r rfl
  exact cvMux_ne

theorem CondInv.signalEnd (h : CondInv s)
    (hr : (s.kernel.pool s.kernel.activeThread).state = .ready) (hc : s.coopMux c ≠ none) :
    Spec (pthreadCondSignalEnd s c) (fun p => CondInv p.1 ∧ Unlocked s p.1 theMutex ∧
      (p.2 = false ↔ s.waiters theMutex = [])) (fun _ => False) := by
  refine ((condInv_iff.mp h).signalEnd onlyTheMutex hr hc).imp ?_
  rintro p ⟨hi,_,rfl,hu⟩
  exact ⟨condInv_iff.mpr hi,hu⟩

theorem CondInv.waitEnd (h : CondInv s)
    (hr : (s.kernel.pool s.kernel.activeThread).state = .ready) (hc : s.coopMux c ≠ none) :
    Spec (pthreadCondWaitEnd s c) (fun p => CondInv p.1 ∧
      (p.2 = false ∧ Taken s p.1 theMutex ∨ p.2 = true ∧ Blocks s p.1 theMutex))
      (fun _ => False) := by
  refine ((condInv_iff.mp h).waitEnd onlyTheMutex hr hc).imp ?_
  rintro p ⟨hi,_,rfl,hp⟩
  exact ⟨condInv_iff.mpr hi,hp⟩

theorem Signalled.wakesOne {p : Sync cfg × SignalResult} (h : Signalled s p c) : WakesOne s p.1 c := by
  obtain ⟨pre,him,post,ho,_⟩ | hnil := h
  · exact Or.inr ⟨pre,him,post,ho.before,ho.best,ho.waiters⟩
  · exact Or.inl hnil

theorem CondInv.signal (h : CondInv s)
    (hr : (s.kernel.pool s.kernel.activeThread).state = .ready) (c : ℕ) :
    Spec (pthreadCondSignal s c) (fun p => CondInv p.1 ∧ OnCond s p.1 c ∧ WakesOne s p.1 c ∧
      (p.2 ≠ .done → s.coopMux c ≠ none)) (fun _ => False) := by
  refine ((condInv_iff.mp h).signal onlyTheMutex hr c).imp ?_
  rintro p ⟨hi,hon,_,hs,hc⟩
  exact ⟨condInv_iff.mpr hi,hon,hs.wakesOne,hc⟩

theorem CondInv.broadcast (h : CondInv s)
    (hr : (s.kernel.pool s.kernel.activeThread).state = .ready) (c : ℕ) :
    Spec (pthreadCondBroadcast s c) (fun p => CondInv p.1 ∧ OnCond s p.1 c ∧
      p.1.waiters (.cvMux c) = []) (fun _ => False) := by
  refine ((condInv_iff.mp h).broadcast onlyTheMutex hr c).imp ?_
  rintro p ⟨hi,hon,_,hw,_⟩
  exact ⟨condInv_iff.mpr hi,hon,hw⟩

/-- The running thread falls asleep on condition variable `c`, its mutex unlocked. -/
structure SleepsOn (s s' : Sync cfg) (c : ℕ) : Prop where
  waiters : s'.waiters (.cvMux c) = s.waiters (.cvMux c) ++ [s.kernel.activeThread]
  cvs : ∀ d ≠ c, s'.waiters (.cvMux d) = s.waiters (.cvMux d)
  coopMux : s'.coopMux = Function.update s.coopMux c (some theMutex)
  active : s'.kernel.activeThread = s.kernel.activeThread
  prio : ∀ t, (s'.kernel.pool t).prio = (s.kernel.pool t).prio
  unlocked : ∃ s1, Unlocked { s with coopMux := Function.update s.coopMux c (some theMutex) } s1
    theMutex ∧ s'.mux theMutex = s1.mux theMutex

theorem CondInv.wait (h : CondInv s)
    (hr : (s.kernel.pool s.kernel.activeThread).state = .ready) (c : ℕ) :
    Spec (pthreadCondWait s c theMutex) (fun s' => CondInv s' ∧ SleepsOn s s' c)
      (fun _ => False) := by
  refine ((condInv_iff.mp h).wait onlyTheMutex rfl hr c).imp ?_
  rintro p ⟨hi,hs⟩
  exact ⟨condInv_iff.mpr hi,hs.waiters,hs.cvs,hs.coopMux,hs.active,hs.prio,hs.unlocked⟩

/-- A call that lets sleepers go at most, and changes hands of the mutex. -/
structure Keeps (s s' : Sync cfg) : Prop where
  cond : CondInv s'
  sub : ∀ d t, t ∈ s'.waiters (.cvMux d) → t ∈ s.waiters (.cvMux d)
  coopMux : s'.coopMux = s.coopMux
  active : s'.kernel.activeThread = s.kernel.activeThread
  prio : ∀ t, (s'.kernel.pool t).prio = (s.kernel.pool t).prio

theorem Keeps.refl (h : CondInv s) : Keeps s s := ⟨h,fun _ _ ht => ht,rfl,rfl,fun _ => rfl⟩

theorem Keeps.trans {s'' : Sync cfg} (h : Keeps s s') (h' : Keeps s' s'') : Keeps s s'' where
  cond := h'.cond
  sub := fun d t ht => h.sub d t (h'.sub d t ht)
  coopMux := h'.coopMux.trans h.coopMux
  active := h'.active.trans h.active
  prio := fun t => (h'.prio t).trans (h.prio t)

theorem Only.keeps (h : Only s s' theMutex) (hi : CondInv s') : Keeps s s' :=
  ⟨hi,fun d t ht => by rwa [h.waiters_ne (cvMux_ne d)] at ht,h.coopMux,h.active,h.prio⟩

theorem OnCond.keeps (h : OnCond s s' c) (hi : CondInv s')
    (hc : ∀ t, t ∈ s'.waiters (.cvMux c) → t ∈ s.waiters (.cvMux c)) : Keeps s s' := by
  refine ⟨hi,fun d t ht => ?_,h.coopMux,h.active,h.prio⟩
  by_cases hd : d = c
  · subst hd; exact hc t ht
  · rwa [h.cvs d hd] at ht

theorem WakesOne.sub (h : WakesOne s s' c) (t : Thid cfg) (ht : t ∈ s'.waiters (.cvMux c)) :
    t ∈ s.waiters (.cvMux c) := by
  obtain ⟨_,hn⟩ | ⟨pre,him,post,hb,_,ha⟩ := h
  · rw [hn] at ht; cases ht
  · rw [ha] at ht
    rw [hb]
    simp only [List.mem_append,List.mem_cons] at ht ⊢
    tauto

end

end Tinker

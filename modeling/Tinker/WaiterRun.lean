import Tinker.CondLists
import Tinker.Machine

/-! Threads that wait on, signal and broadcast condition variables, holding a mutex or not: who
sleeps on which of them, and who wakes up. -/
namespace Tinker

open Outcome Counted

variable {cfg : Config}

/-- Where a thread is: in its own code, or behind a yield. `returning` is behind the last yield of
a call. -/
inductive WaiterLoc
  | out | returning | inWait (c : ℕ) | inSignal (c : ℕ)
  deriving DecidableEq

/-- The mutexes are those of the program, and no `cv_mux`. -/
inductive WaiterLabel (cfg : Config)
  | lock (i : ℕ) | unlock (i : ℕ) | wait (c i : ℕ) | signal (c : ℕ) | broadcast (c : ℕ) | resume
  | yield (clk : Clock) (t : Thid cfg)

/-- The running thread is in its own code. -/
def waiterRuns (s : Threads cfg WaiterLoc) : Bool := !s.yielding && decide (s.loc s.me = .out)

def waiterEnabled (s : Threads cfg WaiterLoc) : WaiterLabel cfg → Bool
  | .resume => !s.yielding && decide (s.loc s.me ≠ .out)
  | .yield clk t => (s.yielding || waiterRuns s) && readyAfterSweep s.sync.kernel clk t
  | _ => waiterRuns s

/-- The end of a call, or its last yield. -/
def endCall (s : Threads cfg WaiterLoc) (sync : Sync cfg) (y : Bool) : Threads cfg WaiterLoc :=
  s.goTo sync (if y then .returning else .out) y

/-- What a thread does when it runs again behind the yield of a call. -/
def waiterResume (s : Threads cfg WaiterLoc) : Except Fault (Threads cfg WaiterLoc) :=
  match s.loc s.me with
  | .out => .ok s
  | .returning => .ok (s.goTo s.sync .out false)
  | .inWait c => do
    let (sync,y) ← pthreadCondWaitEnd s.sync c
    return endCall s sync y
  | .inSignal c => do
    let (sync,y) ← pthreadCondSignalEnd s.sync c
    return endCall s sync y

def waiterNext (s : Threads cfg WaiterLoc) :
    WaiterLabel cfg → Except Fault (Threads cfg WaiterLoc)
  | .lock i => do
    let (sync,y) ← pthreadMutexLock s.sync (.mutex i)
    return endCall s sync y
  | .unlock i => do
    let (sync,y) ← pthreadMutexUnlock s.sync (.mutex i)
    return endCall s sync y
  | .wait c i => do
    let sync ← pthreadCondWait s.sync c (.mutex i)
    return s.goTo sync (.inWait c) true
  | .signal c => do
    let (sync,r) ← pthreadCondSignal s.sync c
    match r with
    | .done => return endCall s sync false
    | .yields => return s.goTo sync (.inSignal c) true
    | .yieldsUnlock => return endCall s sync true
  | .broadcast c => do
    let (sync,y) ← pthreadCondBroadcast s.sync c
    return endCall s sync y
  | .resume => waiterResume s
  | .yield clk t => s.yield clk t

def waiterMachine (cfg : Config) : Machine (Threads cfg WaiterLoc) (WaiterLabel cfg) Fault where
  enabled := waiterEnabled
  next := waiterNext

def waiterInit (k : Kernel cfg) : Threads cfg WaiterLoc := ⟨Sync.init k,fun _ => .out,false⟩

/-- A mutex of the program. -/
def OwnMutex (r : MutexRef) : Prop := ∃ i, r = .mutex i

theorem OwnMutex.ne_cvMux {r : MutexRef} (h : OwnMutex r) (d : ℕ) : MutexRef.cvMux d ≠ r := by
  obtain ⟨i,rfl⟩ := h
  rintro ⟨⟩

/-- A thread in a wait sleeps in the list, or has been let go since; and only such threads do. -/
structure WaiterInv (s : Threads cfg WaiterLoc) : Prop where
  cv : CvInv OwnMutex s.sync
  running : s.yielding = false → (s.sync.kernel.pool s.me).state = .ready
  waits : ∀ t c, s.loc t = .inWait c →
    t ∈ s.sync.waiters (.cvMux c) ∨ (s.sync.kernel.pool t).state = .ready
  inside : ∀ t c, t ∈ s.sync.waiters (.cvMux c) → s.loc t = .inWait c
  used : ∀ t c, s.loc t = .inWait c ∨ s.loc t = .inSignal c → s.sync.coopMux c ≠ none

theorem waiterInit_inv {k : Kernel cfg} (hk : Seated k) : WaiterInv (waiterInit k) where
  cv := hk.cvInv _
  running := fun _ => hk.ready
  waits := (by rintro _ _ ⟨⟩)
  inside := by
    intro t c ht
    have hnil := (hk.cvInv OwnMutex).unused c rfl
    exact absurd (hnil ▸ ht : t ∈ []) List.not_mem_nil
  used := by rintro t c (h | h) <;> cases h

/-- Sleepers of the condition variables in `C` may be let go, and no others. -/
def LetsGo (s s' : Sync cfg) (C : ℕ → Prop) : Prop := ∀ c t, t ∈ s.waiters (.cvMux c) →
  t ∈ s'.waiters (.cvMux c) ∨ C c ∧ (s'.kernel.pool t).state = .ready

/-- What a call does to the sleepers: the running thread may go to sleep at place `x`, and those of
`C` may be let go. -/
structure WakesOnly (s : Threads cfg WaiterLoc) (sync : Sync cfg) (x : WaiterLoc) (C : ℕ → Prop) :
    Prop where
  stays : ∀ t ≠ s.me, (s.sync.kernel.pool t).state = .ready → (sync.kernel.pool t).state = .ready
  goes : LetsGo s.sync sync C
  sub : ∀ c, ∀ t ≠ s.me, t ∈ sync.waiters (.cvMux c) → t ∈ s.sync.waiters (.cvMux c)
  own : ∀ c, s.me ∈ sync.waiters (.cvMux c) ↔ x = .inWait c
  coop : ∀ c, s.sync.coopMux c ≠ none → sync.coopMux c ≠ none
  used : ∀ c, x = .inWait c ∨ x = .inSignal c → sync.coopMux c ≠ none

/-- The condition variable whose sleepers a call lets go. -/
def WaiterLabel.Wakes (l : WaiterLabel cfg) (c : ℕ) : Prop := l = .signal c ∨ l = .broadcast c

/-- A step to `s'` has kept the invariant, and let sleepers of `C` go at most. -/
def WaiterStep (s : Threads cfg WaiterLoc) (C : ℕ → Prop) (s' : Threads cfg WaiterLoc) : Prop :=
  WaiterInv s' ∧ LetsGo s.sync s'.sync C

section

variable {s : Threads cfg WaiterLoc} {sync : Sync cfg} {x : WaiterLoc} {y : Bool} {C : ℕ → Prop}

theorem WaiterInv.goTo (h : WaiterInv s) (hcv : CvInv OwnMutex sync)
    (hr : y = false → (sync.kernel.pool sync.kernel.activeThread).state = .ready)
    (hw : WakesOnly s sync x C) : WaiterStep s C (s.goTo sync x y) := by
  refine ⟨⟨hcv,hr,fun t c hl => ?_,fun t c hin => ?_,fun t c hl => ?_⟩,hw.goes⟩
  · rw [Threads.goTo_loc] at hl
    split at hl
    · next ht =>
      subst ht
      exact Or.inl ((hw.own c).mpr hl)
    · next ht =>
      obtain hin | hs := h.waits t c hl
      · exact (hw.goes c t hin).imp_right And.right
      · exact Or.inr (hw.stays t ht hs)
  · rw [Threads.goTo_loc]
    split
    · next ht =>
      subst ht
      exact (hw.own c).mp hin
    · next ht => exact h.inside t c (hw.sub c t ht hin)
  · rw [Threads.goTo_loc] at hl
    split at hl
    · exact hw.used c hl
    · exact hw.coop c (h.used t c hl)

/-- A running thread sleeps nowhere. -/
theorem WaiterInv.awake (h : WaiterInv s) (hy : s.yielding = false) (c : ℕ) :
    s.me ∉ s.sync.waiters (.cvMux c) := h.cv.notMem (h.running hy) _

/-- A call on a mutex of the program lets no sleeper go. -/
theorem WaiterInv.wakesOnly (h : WaiterInv s) (hy : s.yielding = false) {r : MutexRef}
    (hr : OwnMutex r) (ho : Only s.sync sync r)
    (hs : ∀ t ≠ s.me, (s.sync.kernel.pool t).state = .ready → (sync.kernel.pool t).state = .ready)
    (hx : (∀ c, x ≠ .inWait c) ∧ ∀ c, x ≠ .inSignal c) : WakesOnly s sync x C where
  stays := hs
  goes := fun c t ht => Or.inl (by rw [ho.waiters_ne (hr.ne_cvMux c)]; exact ht)
  sub := fun c t _ ht => by rwa [ho.waiters_ne (hr.ne_cvMux c)] at ht
  own := by
    intro c
    rw [ho.waiters_ne (hr.ne_cvMux c)]
    exact iff_of_false (h.awake hy c) (hx.1 c)
  coop := fun c hc => by rw [ho.coopMux]; exact hc
  used := fun c hc => hc.elim (fun hc => absurd hc (hx.1 c)) fun hc => absurd hc (hx.2 c)

theorem endCall_loc (y : Bool) :
    (∀ c, (if y then WaiterLoc.returning else .out) ≠ .inWait c) ∧
      ∀ c, (if y then WaiterLoc.returning else .out) ≠ .inSignal c := by
  cases y <;> exact ⟨by rintro _ ⟨⟩,by rintro _ ⟨⟩⟩

/-- A call ends by locking a mutex. -/
theorem WaiterInv.locked (h : WaiterInv s) (hy : s.yielding = false) {r : MutexRef}
    (hr : OwnMutex r) {p : Sync cfg × Bool} (hcv : CvInv OwnMutex p.1)
    (hp : p.2 = false ∧ Taken s.sync p.1 r ∨ p.2 = true ∧ Blocks s.sync p.1 r) :
    WaiterStep s C (endCall s p.1 p.2) := by
  obtain ⟨sync,y⟩ := p
  obtain ⟨rfl,ht⟩ | ⟨rfl,hb⟩ := hp
  · have ht : Taken s.sync sync r := ht
    refine h.goTo hcv (fun _ => ht.ready (h.running hy))
      (h.wakesOnly hy hr ht.toOnly (fun t _ hs => ?_) (endCall_loc false))
    rw [ht.kernel]
    exact hs
  · have hb : Blocks s.sync sync r := hb
    refine h.goTo hcv (by rintro ⟨⟩)
      (h.wakesOnly hy hr hb.toOnly (fun t hne hs => ?_) (endCall_loc true))
    have hne : t ≠ s.sync.kernel.activeThread := hne
    rw [hb.kernel,Kernel.modTcb_pool,if_neg hne]
    exact hs

/-- A call ends by unlocking a mutex. -/
theorem WaiterInv.unlocked (h : WaiterInv s) (hy : s.yielding = false) {r : MutexRef}
    (hr : OwnMutex r) {p : Sync cfg × Bool} (hcv : CvInv OwnMutex p.1)
    (hu : Unlocked s.sync p.1 r) : WaiterStep s C (endCall s p.1 p.2) :=
  h.goTo hcv (fun _ => hu.ready h.cv.toSyncInv (h.running hy))
    (h.wakesOnly hy hr hu.only (fun t _ hs => hu.staysReady t hs) (endCall_loc p.2))

/-- A call that lets sleepers of `c` go. -/
theorem WaiterInv.wakes (h : WaiterInv s) (hy : s.yielding = false) {c : ℕ}
    (ho : OnCond s.sync sync c) (hs : StaysReady s.sync sync)
    (hC : C c) (hgoes : ∀ t ∈ s.sync.waiters (.cvMux c),
      t ∈ sync.waiters (.cvMux c) ∨ (sync.kernel.pool t).state = .ready)
    (hsub : ∀ t ∈ sync.waiters (.cvMux c), t ∈ s.sync.waiters (.cvMux c))
    (hx : (∀ d, x ≠ .inWait d) ∧ ∀ d, x = .inSignal d → s.sync.coopMux d ≠ none) :
    WakesOnly s sync x C := by
  have hcv : ∀ d t, t ∈ sync.waiters (.cvMux d) → t ∈ s.sync.waiters (.cvMux d) := by
    intro d t ht
    by_cases hd : d = c
    · subst hd
      exact hsub t ht
    · rwa [ho.cvs d hd] at ht
  refine ⟨fun t _ => hs t,fun d t ht => ?_,fun d t _ => hcv d t,fun d => ?_,fun d hd => ?_,
    fun d hd => ?_⟩
  · by_cases hd : d = c
    · subst hd
      exact (hgoes t ht).imp_right fun hr => ⟨hC,hr⟩
    · exact Or.inl (by rw [ho.cvs d hd]; exact ht)
  · exact iff_of_false (fun hin => h.awake hy d (hcv d _ hin)) (hx.1 d)
  · rw [ho.coopMux]
    exact hd
  · rw [ho.coopMux]
    exact hd.elim (fun hd => absurd hd (hx.1 d)) (hx.2 d)

theorem Signalled.goes {p : Sync cfg × SignalResult} {c : ℕ} (h : Signalled s.sync p c)
    (hi : SyncInv s.sync) : (∀ t ∈ s.sync.waiters (.cvMux c), t ∈ p.1.waiters (.cvMux c) ∨
      (p.1.kernel.pool t).state = .ready) ∧
    ∀ t ∈ p.1.waiters (.cvMux c), t ∈ s.sync.waiters (.cvMux c) := by
  obtain ⟨pre,him,post,ho,_⟩ | ⟨hn,hn'⟩ := h
  · rw [ho.before,ho.waiters]
    refine ⟨fun t ht => ?_,fun t ht => ?_⟩
    · by_cases he : t = him
      · subst he
        rw [ho.kernel,Kernel.modTcb_pool,if_pos rfl]
        exact Or.inr (hi.unblock_ready (by rw [ho.before]; exact ht))
      · left
        simp only [List.mem_append,List.mem_cons] at ht ⊢
        tauto
    · simp only [List.mem_append,List.mem_cons] at ht ⊢
      tauto
  · rw [hn,hn']
    exact ⟨by rintro _ ⟨⟩,by rintro _ ⟨⟩⟩

theorem WaiterInv.resume (h : WaiterInv s) (he : waiterEnabled s .resume = true) :
    Spec (waiterNext s .resume) (WaiterStep s C) (fun _ => False) := by
  simp only [waiterEnabled,Bool.and_eq_true,Bool.not_eq_true',decide_eq_true_eq] at he
  obtain ⟨hy,hout⟩ := he
  simp only [waiterNext,waiterResume]
  cases hl : s.loc s.me with
  | out => exact absurd hl hout
  | returning =>
    have hsame : Only s.sync s.sync (.mutex 0) := ⟨fun _ _ => rfl,rfl,rfl,fun _ => rfl⟩
    exact h.goTo h.cv (fun _ => h.running hy)
      (h.wakesOnly hy ⟨0,rfl⟩ hsame (fun _ _ ht => ht) ⟨by rintro _ ⟨⟩,by rintro _ ⟨⟩⟩)
  | inWait c =>
    simp only [spec_bind,spec_pure]
    refine (h.cv.waitEnd (fun _ => OwnMutex.ne_cvMux) (h.running hy)
      (h.used s.me c (Or.inl hl))).imp fun p hp => ?_
    obtain ⟨hi,r,hr,hp⟩ := hp
    exact h.locked hy hr hi hp
  | inSignal c =>
    simp only [spec_bind,spec_pure]
    refine (h.cv.signalEnd (fun _ => OwnMutex.ne_cvMux) (h.running hy)
      (h.used s.me c (Or.inr hl))).imp fun p hp => ?_
    obtain ⟨hi,r,hr,hu,_⟩ := hp
    exact h.unlocked hy hr hi hu

theorem WaiterInv.wait (h : WaiterInv s) {c i : ℕ} (hy : s.yielding = false) :
    Spec (waiterNext s (.wait c i)) (WaiterStep s C) (fun _ => False) := by
  simp only [waiterNext,spec_bind,spec_pure]
  refine (h.cv.wait (fun _ => OwnMutex.ne_cvMux) ⟨i,rfl⟩ (h.running hy) c).imp ?_
  rintro sync ⟨hi,hs⟩
  have hme : s.sync.kernel.activeThread = s.me := rfl
  refine h.goTo hi (by rintro ⟨⟩) ⟨hs.staysReady,fun d t ht => Or.inl ?_,fun d t hne ht => ?_,fun d => ?_,
    fun d hd => ?_,fun d hd => ?_⟩
  · by_cases hd : d = c
    · subst hd
      rw [hs.waiters]
      exact List.mem_append_left _ ht
    · rw [hs.cvs d hd]
      exact ht
  · by_cases hd : d = c
    · subst hd
      rw [hs.waiters] at ht
      exact (List.mem_append.mp ht).resolve_right fun ht => hne (List.mem_singleton.mp ht)
    · rwa [hs.cvs d hd] at ht
  · by_cases hd : d = c
    · subst hd
      rw [hs.waiters]
      exact iff_of_true (List.mem_append_right _ (List.mem_singleton_self _)) rfl
    · rw [hs.cvs d hd]
      exact iff_of_false (h.awake hy d) fun hx => hd (WaiterLoc.inWait.inj hx).symm
  · rw [hs.coopMux,Function.update_apply]
    split
    · rintro ⟨⟩
    · exact hd
  · obtain hd | hd := hd
    · cases hd
      rw [hs.coopMux,Function.update_self]
      rintro ⟨⟩
    · cases hd

theorem WaiterInv.signal (h : WaiterInv s) {c : ℕ} (hy : s.yielding = false) :
    Spec (waiterNext s (.signal c)) (WaiterStep s (· = c)) (fun _ => False) := by
  simp only [waiterNext,spec_bind]
  refine (h.cv.signal (fun _ => OwnMutex.ne_cvMux) (h.running hy) c).imp ?_
  rintro ⟨sync,r⟩ ⟨hi,ho,hs,hsig,hc⟩
  obtain ⟨hgoes,hsub⟩ := hsig.goes h.cv.toSyncInv
  have hend : ∀ y, WaiterStep s (· = c) (endCall s sync y) := fun y =>
    h.goTo hi (fun _ => ho.ready) (h.wakes hy ho hs rfl hgoes hsub
      ⟨(endCall_loc y).1,fun d hd => absurd hd ((endCall_loc y).2 d)⟩)
  cases r with
  | done => exact hend false
  | yieldsUnlock => exact hend true
  | yields =>
    refine h.goTo hi (by rintro ⟨⟩) (h.wakes hy ho hs rfl hgoes hsub ⟨by rintro _ ⟨⟩,fun d hd => ?_⟩)
    cases hd
    exact hc (by rintro ⟨⟩)

theorem WaiterInv.broadcast (h : WaiterInv s) {c : ℕ} (hy : s.yielding = false) :
    Spec (waiterNext s (.broadcast c)) (WaiterStep s (· = c)) (fun _ => False) := by
  simp only [waiterNext,spec_bind,spec_pure]
  refine (h.cv.broadcast (fun _ => OwnMutex.ne_cvMux) (h.running hy) c).imp ?_
  rintro ⟨sync,y⟩ ⟨hi,ho,hs,hw,hgo⟩
  have hw : sync.waiters (.cvMux c) = [] := hw
  refine h.goTo hi (fun _ => ho.ready) (h.wakes hy ho hs rfl (fun t ht => Or.inr (hgo t ht)) ?_
    ⟨(endCall_loc y).1,fun d hd => absurd hd ((endCall_loc y).2 d)⟩)
  rw [hw]
  rintro t ⟨⟩

theorem WaiterInv.yield (h : WaiterInv s) {clk : Clock} {t : Thid cfg}
    (he : waiterEnabled s (.yield clk t) = true) :
    Spec (waiterNext s (.yield clk t)) (WaiterStep s C) (fun _ => False) := by
  have hr := (Bool.and_eq_true_iff.mp he).2
  have hstays : Spec (s.yield clk t) (fun s' => StaysReady s.sync s'.sync) (fun _ => False) := by
    simp only [Threads.yield,spec_bind,spec_pure]
    refine (h.cv.toSyncInv.alive.yield hr).imp ?_
    rintro k ⟨_,hp,_⟩ u hu
    obtain he | he := hp u
    · exact (congrArg Tcb.state he).trans hu
    · refine (congrArg Tcb.state he).trans ?_
      rw [timerTest,hu]
      exact hu
  refine spec_total_iff.mpr ?_
  obtain ⟨s',hs',hi,hy⟩ := spec_total_iff.mp
    (ThreadsInv.yield (s:=s) ⟨h.cv.toSyncInv,h.running⟩ hr)
  have hst := hstays.of_ok hs'
  have hi : ThreadsInv s' := hi
  refine ⟨s',hs',⟨⟨hi.sync,fun c => by rw [hy.mux]; exact h.cv.cvOwned c,
    fun c => by rw [hy.coopMux]; exact h.cv.coop c,fun c => ?_⟩,hi.running,fun u c hl => ?_,
    fun u c hin => ?_,fun u c hl => ?_⟩,fun c u hu => Or.inl (by rw [hy.waiters]; exact hu)⟩
  · rw [hy.coopMux,hy.waiters]
    exact h.cv.unused c
  · rw [hy.loc] at hl
    rw [hy.waiters]
    exact (h.waits u c hl).imp_right (hst u)
  · rw [hy.waiters] at hin
    rw [hy.loc]
    exact h.inside u c hin
  · rw [hy.loc] at hl
    rw [hy.coopMux]
    exact h.used u c hl

theorem WaiterStep.mono {C' : ℕ → Prop} {s' : Threads cfg WaiterLoc} (h : WaiterStep s C s')
    (hc : ∀ c, C c → C' c) : WaiterStep s C' s' :=
  ⟨h.1,fun c t ht => (h.2 c t ht).imp_right fun hg => ⟨hc c hg.1,hg.2⟩⟩

theorem waiterStep_spec {l : WaiterLabel cfg} (h : WaiterInv s) (he : waiterEnabled s l = true) :
    Spec (waiterNext s l) (WaiterStep s l.Wakes) (fun _ => False) := by
  have hy : waiterRuns s = true → s.yielding = false := fun hr => by
    simpa using (Bool.and_eq_true_iff.mp hr).1
  cases l with
  | lock i =>
    simp only [waiterNext,spec_bind,spec_pure]
    refine (h.cv.lock (h.running (hy he)) (OwnMutex.ne_cvMux ⟨i,rfl⟩)).imp fun p hp => ?_
    exact h.locked (hy he) ⟨i,rfl⟩ hp.1 hp.2
  | unlock i =>
    simp only [waiterNext,spec_bind,spec_pure]
    refine (h.cv.unlock (h.running (hy he)) (OwnMutex.ne_cvMux ⟨i,rfl⟩)).imp fun p hp => ?_
    exact h.unlocked (hy he) ⟨i,rfl⟩ hp.1 hp.2.1
  | wait c i => exact h.wait (hy he)
  | signal c =>
    refine (h.signal (hy he)).imp fun _ hs => hs.mono ?_
    rintro _ rfl
    exact Or.inl rfl
  | broadcast c =>
    refine (h.broadcast (hy he)).imp fun _ hs => hs.mono ?_
    rintro _ rfl
    exact Or.inr rfl
  | resume => exact h.resume he
  | yield clk t => exact h.yield he

/-- A signal with sleepers is one hand-over and yields. -/
theorem WaiterInv.signal_wakes (h : WaiterInv s) {c : ℕ} (hy : s.yielding = false)
    (hne : s.sync.waiters (.cvMux c) ≠ []) : Spec (waiterNext s (.signal c)) (fun s' =>
      ∃ pre him post, HandedTo s.sync s'.sync (.cvMux c) pre him post) (fun _ => False) := by
  simp only [waiterNext,spec_bind]
  refine (h.cv.signal (fun _ => OwnMutex.ne_cvMux) (h.running hy) c).imp ?_
  rintro ⟨sync,r⟩ ⟨_,_,_,⟨pre,him,post,ho,rfl⟩ | ⟨hnil,_⟩,_⟩
  · exact ⟨pre,him,post,ho⟩
  · exact absurd hnil hne

theorem WaiterInv.broadcast_wakes (h : WaiterInv s) {c : ℕ} (hy : s.yielding = false) :
    Spec (waiterNext s (.broadcast c)) (fun s' => s'.sync.waiters (.cvMux c) = [] ∧
      ∀ t ∈ s.sync.waiters (.cvMux c), (s'.sync.kernel.pool t).state = .ready)
      (fun _ => False) := by
  simp only [waiterNext,spec_bind,spec_pure]
  exact (h.cv.broadcast (fun _ => OwnMutex.ne_cvMux) (h.running hy) c).imp fun _ hp => hp.2.2.2

end

/-- Who sleeps on condition variables, and who is woken by the next step. -/
structure WellWoken (s : Threads cfg WaiterLoc) : Prop where
  owned : ∀ c, (s.sync.mux (.cvMux c)).owner ≠ .null
  /-- The list as it stands in the array. -/
  cells : ∀ c, (List.range (s.sync.mux (.cvMux c)).numb).map (s.sync.mux (.cvMux c)).thread =
    (s.sync.waiters (.cvMux c)).map some
  /-- A thread in a wait that has not been readied is in the list. -/
  listed : ∀ t c, s.loc t = .inWait c → (s.sync.kernel.pool t).state ≠ .ready →
    t ∈ s.sync.waiters (.cvMux c)
  waits : ∀ t c, t ∈ s.sync.waiters (.cvMux c) →
    s.loc t = .inWait c ∧ (s.sync.kernel.pool t).state = .queue
  readied : ∀ l s', (waiterMachine cfg).Step s l s' → ∀ c, ∀ t ∈ s.sync.waiters (.cvMux c),
    (s'.sync.kernel.pool t).state ≠ .queue → l = .signal c ∨ l = .broadcast c
  signal : ∀ c s', (waiterMachine cfg).Step s (.signal c) s' → s.sync.waiters (.cvMux c) ≠ [] →
    ∃ pre him post, s.sync.waiters (.cvMux c) = pre ++ him :: post ∧
      FirstLeast (fun t => (s.sync.kernel.pool t).prio) pre him post ∧
      s'.sync.waiters (.cvMux c) = pre ++ post ∧ (s'.sync.kernel.pool him).state = .ready ∧
      ∀ t ≠ him, s'.sync.kernel.pool t = s.sync.kernel.pool t
  broadcast : ∀ c s', (waiterMachine cfg).Step s (.broadcast c) s' →
    s'.sync.waiters (.cvMux c) = [] ∧
    ∀ t ∈ s.sync.waiters (.cvMux c), (s'.sync.kernel.pool t).state = .ready
  /-- No call fails an assertion or leaves the array. -/
  safe : ∀ l, waiterEnabled s l = true → ∃ s', waiterNext s l = .ok s'

theorem CvInv.asleep {P : MutexRef → Prop} {s : Sync cfg} (h : CvInv P s) {r : MutexRef}
    {t : Thid cfg} (ht : t ∈ s.waiters r) : (s.kernel.pool t).state = .queue :=
  h.queue t ((h.mem r t).mp ht).1

theorem WaiterInv.wellWoken {s : Threads cfg WaiterLoc} (h : WaiterInv s) : WellWoken s where
  owned := h.cv.cvOwned
  cells := fun c => (h.cv.lists _).map_range
  listed := fun t c hl hs => (h.waits t c hl).resolve_right hs
  waits := fun t c ht => ⟨h.inside t c ht,h.cv.asleep ht⟩
  readied := by
    intro l s' hstep c t ht hs
    obtain ⟨hi,hgo⟩ := (waiterStep_spec h hstep.1).of_ok hstep.2
    exact (hgo c t ht).elim (fun hin => absurd (hi.cv.asleep hin) hs) And.left
  signal := by
    intro c s' hstep hne
    have hr : waiterRuns s = true := hstep.1
    have hy : s.yielding = false := by simpa using (Bool.and_eq_true_iff.mp hr).1
    obtain ⟨pre,him,post,ho⟩ := (h.signal_wakes hy hne).of_ok hstep.2
    refine ⟨pre,him,post,ho.before,ho.best,ho.waiters,?_,fun t ht => ?_⟩
    · rw [ho.kernel,Kernel.modTcb_pool,if_pos rfl]
      exact h.cv.toSyncInv.unblock_ready (r:=.cvMux c) (by rw [ho.before]; simp)
    · rw [ho.kernel,Kernel.modTcb_pool,if_neg ht]
  broadcast := by
    intro c s' hstep
    have hr : waiterRuns s = true := hstep.1
    have hy : s.yielding = false := by simpa using (Bool.and_eq_true_iff.mp hr).1
    exact (h.broadcast_wakes hy).of_ok hstep.2
  safe := by
    intro l he
    obtain ⟨s',hs,_⟩ := spec_total_iff.mp (waiterStep_spec h he)
    exact ⟨s',hs⟩

/-- In every run of threads that wait, signal and broadcast, every wait is in order, and no wake-up
is lost. -/
theorem waiterRun_wellWoken {k : Kernel cfg} (hk : Seated k) {ls : List (WaiterLabel cfg)}
    {s : Threads cfg WaiterLoc} (hr : (waiterMachine cfg).run (waiterInit k) ls = some s) :
    WellWoken s := by
  refine WaiterInv.wellWoken ((waiterMachine cfg).run_invariant_of_step ?_ (waiterInit_inv hk) hr)
  intro s l s' hi hstep
  exact ((waiterStep_spec hi hstep.1).of_ok hstep.2).1

/-- Two threads wait, and a third one that holds no mutex signals. -/
def wakeOneSteps : List (WaiterLabel gnuArm) :=
  [.lock 0,.wait 0 0,.yield 0 1,.lock 0,.wait 0 0,.yield 0 2,.signal 0]

theorem waiterRun_wellWoken_signal : ∃ s : Threads gnuArm WaiterLoc,
    (waiterMachine gnuArm).run (waiterInit fiveThreads) wakeOneSteps = some s ∧
    s.sync.waiters (.cvMux 0) = [1] ∧ WellWoken s := by
  obtain ⟨s,hr,hw⟩ := (waiterMachine gnuArm).exists_run (fun s => s.sync.waiters (.cvMux 0) = [1])
    (waiterInit fiveThreads) wakeOneSteps (by decide +kernel)
  exact ⟨s,hr,hw,waiterRun_wellWoken fiveThreads_seated hr⟩

end Tinker

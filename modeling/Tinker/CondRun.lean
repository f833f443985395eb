import Tinker.CondLists
import Tinker.Machine

/-! Threads that lock one mutex and wait on, signal and broadcast condition variables with it. -/
namespace Tinker

open Outcome Counted

variable {cfg : Config}

/-- Where a thread is: outside, in its critical section, or behind a yield: of
`pthread_mutex_lock` and `pthread_mutex_unlock`, of `pthread_cond_wait` and of the lock it ends
with, of `pthread_cond_signal` and of the unlock it ends with, of `pthread_cond_broadcast`. -/
inductive CondLoc
  | out | inLock | holds | inUnlock
  | inWait (c : ℕ) | inRelock | inSignal (c : ℕ) | inSignalUnlock | inBcast
  deriving DecidableEq

/-- Between the return from the lock (or the wait) and the next unlock (or wait). -/
def CondLoc.Critical (x : CondLoc) : Prop :=
  x = .holds ∨ (∃ c, x = .inSignal c) ∨ x = .inSignalUnlock ∨ x = .inBcast

inductive CondLabel (cfg : Config)
  | lock | unlock | wait (c : ℕ) | signal (c : ℕ) | broadcast (c : ℕ) | resume
  | yield (clk : Clock) (t : Thid cfg)

def condEnabled (s : Threads cfg CondLoc) : CondLabel cfg → Bool
  | .lock => !s.yielding && decide (s.loc s.me = .out)
  | .unlock => !s.yielding && decide (s.loc s.me = .holds)
  | .wait _ => !s.yielding && decide (s.loc s.me = .holds)
  | .signal _ => !s.yielding && decide (s.loc s.me = .holds)
  | .broadcast _ => !s.yielding && decide (s.loc s.me = .holds)
  | .resume => !s.yielding && decide (s.loc s.me ≠ .out ∧ s.loc s.me ≠ .holds)
  | .yield clk t => (s.yielding || decide (s.loc s.me = .out ∨ s.loc s.me = .holds)) &&
      readyAfterSweep s.sync.kernel clk t

/-- What a thread does when it runs again behind the yield of a call. -/
def condResume (s : Threads cfg CondLoc) : Except Fault (Threads cfg CondLoc) :=
  match s.loc s.me with
  | .out => .ok s
  | .holds => .ok s
  | .inUnlock => .ok (s.goTo s.sync .out false)
  | .inWait c => do
    let (sync,y) ← pthreadCondWaitEnd s.sync c
    return s.goTo sync (if y then .inRelock else .holds) y
  | .inSignal c => do
    let (sync,y) ← pthreadCondSignalEnd s.sync c
    return s.goTo sync (if y then .inSignalUnlock else .holds) y
  | .inLock => .ok (s.goTo s.sync .holds false)
  | .inRelock => .ok (s.goTo s.sync .holds false)
  | .inSignalUnlock => .ok (s.goTo s.sync .holds false)
  | .inBcast => .ok (s.goTo s.sync .holds false)

def condNext (s : Threads cfg CondLoc) : CondLabel cfg → Except Fault (Threads cfg CondLoc)
  | .lock => do
    let (sync,y) ← pthreadMutexLock s.sync theMutex
    return s.goTo sync (if y then .inLock else .holds) y
  | .unlock => do
    let (sync,y) ← pthreadMutexUnlock s.sync theMutex
    return s.goTo sync (if y then .inUnlock else .out) y
  | .wait c => do
    let sync ← pthreadCondWait s.sync c theMutex
    return s.goTo sync (.inWait c) true
  | .signal c => do
    let (sync,r) ← pthreadCondSignal s.sync c
    match r with
    | .done => return s.goTo sync .holds false
    | .yields => return s.goTo sync (.inSignal c) true
    | .yieldsUnlock => return s.goTo sync .inSignalUnlock true
  | .broadcast c => do
    let (sync,y) ← pthreadCondBroadcast s.sync c
    return s.goTo sync (if y then .inBcast else .holds) y
  | .resume => condResume s
  | .yield clk t => s.yield clk t

def condMachine (cfg : Config) : Machine (Threads cfg CondLoc) (CondLabel cfg) Fault where
  enabled := condEnabled
  next := condNext

def condInit (k : Kernel cfg) : Threads cfg CondLoc := ⟨Sync.init k,fun _ => .out,false⟩

/-- A signal or a broadcast is made only while nobody has waited on the condition variable yet,
so that its `coop_mux` is NULL. -/
def Unused (s : Threads cfg CondLoc) : CondLabel cfg → Prop
  | .signal c => s.sync.coopMux c = none
  | .broadcast c => s.sync.coopMux c = none
  | _ => True

instance (s : Threads cfg CondLoc) (x : CondLabel cfg) : Decidable (Unused s x) := by
  unfold Unused; split <;> infer_instance

def CondLoc.Locks (x : CondLoc) : Prop := x = .inLock ∨ x = .inRelock

structure CondRunInv (s : Threads cfg CondLoc) : Prop where
  cond : CondInv s.sync
  running : s.yielding = false → (s.sync.kernel.pool s.me).state = .ready
  excl : s.Excl theMutex (· = .holds) CondLoc.Locks
  plain : ∀ t, (s.loc t).Critical → s.loc t = .holds
  used : ∀ t c, s.loc t = .inWait c → s.sync.coopMux c ≠ none

theorem condInit_inv {k : Kernel cfg} (hk : Seated k) : CondRunInv (condInit k) where
  cond := hk.condInv
  running := fun _ => hk.ready
  excl := Excludes.free (hk.syncInv.unowned _ rfl) rfl fun _ =>
    ⟨by rintro ⟨⟩,by rintro (h | h) <;> cases h⟩
  plain := by rintro t (h | ⟨c,h⟩ | h | h) <;> cases h
  used := by rintro t c ⟨⟩

section

variable {s : Threads cfg CondLoc}

/-- The running thread comes to a place that is no yield of a signal or a broadcast. -/
theorem CondRunInv.goTo (h : CondRunInv s) {sync : Sync cfg} {x : CondLoc} {y : Bool}
    (hc : CondInv sync) (hr : y = false → (sync.kernel.pool sync.kernel.activeThread).state = .ready)
    (he : (s.goTo sync x y).Excl theMutex (· = .holds) CondLoc.Locks)
    (hx : x.Critical → x = .holds) (hu : ∀ c, x = .inWait c → sync.coopMux c ≠ none)
    (hcoop : ∀ c, s.sync.coopMux c ≠ none → sync.coopMux c ≠ none) :
    CondRunInv (s.goTo sync x y) where
  cond := hc
  running := hr
  excl := he
  plain := by
    intro t
    rw [Threads.goTo_loc]
    split
    · exact hx
    · exact h.plain t
  used := by
    intro t c
    rw [Threads.goTo_loc]
    split
    · exact hu c
    · exact fun hl => hcoop c (h.used t c hl)

/-- The running thread locks the mutex, and comes to a place of its own where it blocks. -/
theorem CondRunInv.locked (h : CondRunInv s) (hy : s.yielding = false)
    (hn : s.loc s.me ≠ .holds ∧ ¬(s.loc s.me).Locks) {z : CondLoc} (hz : z.Locks)
    {p : Sync cfg × Bool} (hi : CondInv p.1)
    (hp : p.2 = false ∧ Taken s.sync p.1 theMutex ∨ p.2 = true ∧ Blocks s.sync p.1 theMutex) :
    CondRunInv (s.goTo p.1 (if p.2 then z else .holds) p.2) := by
  have hzh : z ≠ .holds ∧ ¬z.Critical ∧ ∀ c, z ≠ .inWait c := by
    obtain rfl | rfl := hz <;> exact ⟨by rintro ⟨⟩,by simp [CondLoc.Critical],by rintro c ⟨⟩⟩
  obtain ⟨sync,y⟩ := p
  obtain ⟨hy',ht⟩ | ⟨hy',hb⟩ := hp
  · obtain rfl : y = false := hy'
    refine h.goTo hi (fun _ => ht.ready (h.running hy))
      (h.excl.taken ht (by simp [CondLoc.Locks]) hn.2) (fun _ => rfl)
      (by rintro c ⟨⟩) fun c hc => by rw [ht.coopMux]; exact hc
  · obtain rfl : y = true := hy'
    refine h.goTo hi (fun hf => (by cases hf)) (h.excl.blocks hb ⟨hzh.1,hz⟩ hn)
      (fun hc => absurd hc hzh.2.1) (fun c hc => absurd hc (hzh.2.2 c))
      fun c hc => by rw [hb.coopMux]; exact hc

theorem CondRunInv.lock (h : CondRunInv s) (he : condEnabled s .lock = true) :
    Spec (condNext s .lock) CondRunInv (fun _ => False) := by
  simp only [condEnabled,Bool.and_eq_true,Bool.not_eq_true',decide_eq_true_eq] at he
  obtain ⟨hy,hout⟩ := he
  simp only [condNext,spec_bind,spec_pure]
  refine (h.cond.lock (h.running hy)).imp fun p hp => ?_
  exact h.locked hy (by simp [hout,CondLoc.Locks]) (Or.inl rfl) hp.1 hp.2

theorem CondRunInv.unlock (h : CondRunInv s) (he : condEnabled s .unlock = true) :
    Spec (condNext s .unlock) CondRunInv (fun _ => False) := by
  simp only [condEnabled,Bool.and_eq_true,Bool.not_eq_true',decide_eq_true_eq] at he
  obtain ⟨hy,hl⟩ := he
  simp only [condNext,spec_bind,spec_pure]
  refine (h.cond.unlock (h.running hy)).imp ?_
  rintro ⟨sync,y⟩ ⟨hi,hu,_⟩
  have hx : (if y = true then CondLoc.inUnlock else CondLoc.out) = .inUnlock ∨
      (if y = true then CondLoc.inUnlock else CondLoc.out) = .out := by
    cases y <;> simp
  refine h.goTo hi (fun _ => hu.ready h.cond.toSyncInv (h.running hy))
    (h.excl.unlocked h.cond.toSyncInv hu ?_ (by simp [CondLoc.Locks,hl])) ?_ ?_
    fun c hc => by rw [hu.only.coopMux]; exact hc
  · obtain hx | hx := hx <;> simp [hx,CondLoc.Locks]
  · obtain hx | hx := hx <;> simp [hx,CondLoc.Critical]
  · obtain hx | hx := hx <;> simp [hx]

theorem CondRunInv.wait (h : CondRunInv s) {c : ℕ} (he : condEnabled s (.wait c) = true) :
    Spec (condNext s (.wait c)) CondRunInv (fun _ => False) := by
  simp only [condEnabled,Bool.and_eq_true,Bool.not_eq_true',decide_eq_true_eq] at he
  obtain ⟨hy,hl⟩ := he
  simp only [condNext,spec_bind,spec_pure]
  refine (h.cond.wait (h.running hy) c).imp ?_
  rintro sync ⟨hi,hs⟩
  obtain ⟨s1,hu,hm⟩ := hs.unlocked
  -- the unlock half moves the mutex, the lock of `cv_mux` leaves it alone
  have hex : (s.goTo s1 (.inWait c) true).Excl theMutex (· = .holds) CondLoc.Locks := by
    let s0 : Threads cfg CondLoc := { s with sync := { s.sync with
      coopMux := Function.update s.sync.coopMux c (some theMutex) } }
    have hsi := h.cond.toSyncInv
    have h0 : s0.Excl theMutex (· = .holds) CondLoc.Locks :=
      Excludes.congr h.excl rfl (fun _ => Iff.rfl) fun _ => Iff.rfl
    have hl0 : s0.loc s0.me = .holds := hl
    exact h0.unlocked ⟨hsi.lists,hsi.nodup,hsi.mem,hsi.queue,hsi.unowned,hsi.alive,hsi.prio⟩ hu
      (by simp [CondLoc.Locks]) (by simp [CondLoc.Locks,hl0])
  have hused : ∀ d, d = c ∨ s.sync.coopMux d ≠ none → sync.coopMux d ≠ none := by
    intro d hd
    rw [hs.coopMux,Function.update_apply]
    split
    · rintro ⟨⟩
    · next hne => exact hd.resolve_left hne
  refine h.goTo hi (fun hf => (by cases hf)) (Excludes.congr hex hm (fun _ => Iff.rfl) fun _ => Iff.rfl)
    (by simp [CondLoc.Critical]) ?_ fun d hd => hused d (Or.inr hd)
  rintro d ⟨⟩
  exact hused c (Or.inl rfl)

/-- A thread that comes back from a call to its critical section, or leaves it. -/
theorem CondRunInv.goOn (h : CondRunInv s) (hy : s.yielding = false) {x : CondLoc}
    (hh : x = .holds ↔ s.loc s.me = .holds) (hw : ¬x.Locks ∧ ¬(s.loc s.me).Locks)
    (hx : x.Critical → x = .holds) (hu : ∀ c, x ≠ .inWait c) : CondRunInv (s.goTo s.sync x false) :=
  h.goTo h.cond (fun _ => h.running hy) (h.excl.goOn rfl hh (iff_of_false hw.1 hw.2)) hx
    (fun c hc => absurd hc (hu c)) fun _ hc => hc

theorem CondRunInv.signal (h : CondRunInv s) {c : ℕ} (he : condEnabled s (.signal c) = true)
    (hc : Unused s (.signal c)) : Spec (condNext s (.signal c)) CondRunInv (fun _ => False) := by
  simp only [condEnabled,Bool.and_eq_true,Bool.not_eq_true',decide_eq_true_eq] at he
  obtain ⟨hy,hl⟩ := he
  have hc : s.sync.coopMux c = none := hc
  simp only [condNext,pthreadCondSignal,hc,spec_bind,spec_ok,spec_pure]
  exact h.goOn hy (by simp [hl]) (by simp [hl,CondLoc.Locks]) (fun _ => rfl) (by rintro c ⟨⟩)

theorem CondRunInv.broadcast (h : CondRunInv s) {c : ℕ} (he : condEnabled s (.broadcast c) = true)
    (hc : Unused s (.broadcast c)) :
    Spec (condNext s (.broadcast c)) CondRunInv (fun _ => False) := by
  simp only [condEnabled,Bool.and_eq_true,Bool.not_eq_true',decide_eq_true_eq] at he
  obtain ⟨hy,hl⟩ := he
  have hc : s.sync.coopMux c = none := hc
  simp only [condNext,pthreadCondBroadcast,hc,spec_bind,spec_ok,spec_pure]
  exact h.goOn hy (by simp [hl]) (by simp [hl,CondLoc.Locks]) (fun _ => rfl) (by rintro c ⟨⟩)

theorem CondRunInv.resume (h : CondRunInv s) (he : condEnabled s .resume = true) :
    Spec (condNext s .resume) CondRunInv (fun _ => False) := by
  simp only [condEnabled,Bool.and_eq_true,Bool.not_eq_true',decide_eq_true_eq] at he
  obtain ⟨hy,hl⟩ := he
  have hplain := h.plain s.me
  have hgrant : (s.loc s.me).Locks → CondRunInv (s.goTo s.sync .holds false) := by
    intro hw
    exact h.goTo h.cond (fun _ => h.running hy) (h.excl.granted rfl (by simp [CondLoc.Locks]) hw
      (h.cond.notMem (h.running hy) _)) (fun _ => rfl) (by rintro c ⟨⟩) fun _ hc => hc
  simp only [condNext,condResume]
  cases hloc : s.loc s.me with
  | out => exact absurd hloc hl.1
  | holds => exact absurd hloc hl.2
  | inLock => exact hgrant (by rw [hloc]; exact Or.inl rfl)
  | inRelock => exact hgrant (by rw [hloc]; exact Or.inr rfl)
  | inUnlock =>
    exact h.goOn hy (by simp [hloc]) (by simp [hloc,CondLoc.Locks]) (by simp [CondLoc.Critical])
      (by rintro c ⟨⟩)
  | inWait c =>
    simp only [spec_bind,spec_pure]
    refine (h.cond.waitEnd (h.running hy) (h.used s.me c hloc)).imp fun p hp => ?_
    exact h.locked hy (by simp [hloc,CondLoc.Locks]) (Or.inr rfl) hp.1 hp.2
  | inSignal c => rw [hloc] at hplain; cases hplain (Or.inr (Or.inl ⟨c,rfl⟩))
  | inSignalUnlock => rw [hloc] at hplain; cases hplain (Or.inr (Or.inr (Or.inl rfl)))
  | inBcast => rw [hloc] at hplain; cases hplain (Or.inr (Or.inr (Or.inr rfl)))

theorem CondRunInv.yield (h : CondRunInv s) {clk : Clock} {t : Thid cfg}
    (he : condEnabled s (.yield clk t) = true) :
    Spec (condNext s (.yield clk t)) CondRunInv (fun _ => False) := by
  refine (ThreadsInv.yield (s:=s) ⟨h.cond.toSyncInv,h.running⟩ (Bool.and_eq_true_iff.mp he).2).imp ?_
  rintro s' ⟨hi,hy⟩
  refine ⟨⟨hi.sync,fun c => by rw [hy.mux]; exact h.cond.cvOwned c,
    fun c => by rw [hy.coopMux]; exact h.cond.coop c,fun c => ?_⟩,hi.running,h.excl.yielded hy,
    fun t => by rw [hy.loc]; exact h.plain t,fun t c => by rw [hy.loc,hy.coopMux]; exact h.used t c⟩
  rw [hy.coopMux,hy.waiters]
  exact h.cond.unused c

theorem condStep_spec {x : CondLabel cfg} (h : CondRunInv s) (he : condEnabled s x = true)
    (hc : Unused s x) : Spec (condNext s x) CondRunInv (fun _ => False) := by
  cases x with
  | lock => exact h.lock he
  | unlock => exact h.unlock he
  | wait c => exact h.wait he
  | signal c => exact h.signal he hc
  | broadcast c => exact h.broadcast he hc
  | resume => exact h.resume he
  | yield clk t => exact h.yield he

end

/-- One thread at most is in its critical section, also while it is in a signal or a broadcast,
and it owns the mutex. -/
structure WellGuarded (s : Threads cfg CondLoc) : Prop where
  unique : ∀ t u, (s.loc t).Critical → (s.loc u).Critical → t = u
  owner : ∀ t, (s.loc t).Critical → (s.sync.mux theMutex).owner = .thread t

theorem CondRunInv.wellGuarded {s : Threads cfg CondLoc} (h : CondRunInv s) : WellGuarded s where
  unique := fun t u ht hu => Excludes.unique h.excl (h.plain t ht) (h.plain u hu)
  owner := fun t ht => (h.excl.owns t).mpr (Or.inl (h.plain t ht))

/-- Where nobody signals a condition variable that has been waited on, the mutex excludes, and
no call faults. -/
theorem condRun_wellGuarded {k : Kernel cfg} (hk : Seated k) {ls : List (CondLabel cfg)}
    {s : Threads cfg CondLoc} (hc : (condMachine cfg).Along Unused (condInit k) ls)
    (hr : (condMachine cfg).run (condInit k) ls = some s) :
    WellGuarded s ∧ ∀ x, condEnabled s x = true → Unused s x → ∃ s', condNext s x = .ok s' := by
  have hi : CondRunInv s := by
    refine (condMachine cfg).run_invariant ?_ (condInit_inv hk) hc hr
    intro s x s' hi hc hstep
    exact (condStep_spec hi hstep.1 hc).of_ok hstep.2
  refine ⟨hi.wellGuarded,fun x he hc => ?_⟩
  obtain ⟨s',hs,_⟩ := spec_total_iff.mp (condStep_spec hi he hc)
  exact ⟨s',hs⟩

/-- Thread 0 waits; thread 1 signals another condition variable and unlocks. -/
def unusedSteps : List (CondLabel gnuArm) :=
  [.lock,.wait 0,.yield 0 1,.lock,.signal 1,.broadcast 1]

theorem condRun_wellGuarded_unused : ∃ s : Threads gnuArm CondLoc,
    (condMachine gnuArm).run (condInit fiveThreads) unusedSteps = some s ∧ s.loc 1 = .holds ∧
    s.loc 0 = .inWait 0 ∧ WellGuarded s := by
  obtain ⟨s,hr,h1,h0⟩ := (condMachine gnuArm).exists_run
    (fun s => s.loc 1 = .holds ∧ s.loc 0 = .inWait 0) (condInit fiveThreads) unusedSteps
    (by decide +kernel)
  exact ⟨s,hr,h1,h0,(condRun_wellGuarded fiveThreads_seated (by decide +kernel) hr).1⟩

/-- Thread 1 signals thread 0, which gets the mutex from inside the signal. -/
def signalSteps : List (CondLabel gnuArm) :=
  [.lock,.wait 0,.yield 0 1,.lock,.signal 0,.yield 0 0,.resume,.yield 0 1,.resume,.yield 0 0,.resume]

/-- Both threads are in their critical sections. -/
theorem condRun_not_wellGuarded :
    ¬∀ (k : Kernel gnuArm) (ls : List (CondLabel gnuArm)) (s : Threads gnuArm CondLoc), Seated k →
      (condMachine gnuArm).run (condInit k) ls = some s → WellGuarded s := by
  intro h
  obtain ⟨s,hr,h0,h1⟩ := (condMachine gnuArm).exists_run
    (fun s => s.loc 0 = .holds ∧ s.loc 1 = .inSignalUnlock) (condInit fiveThreads) signalSteps
    (by decide +kernel)
  have := (h _ _ s fiveThreads_seated hr).unique 0 1 (Or.inl h0) (Or.inr (Or.inr (Or.inl h1)))
  exact absurd this (by decide)

end Tinker

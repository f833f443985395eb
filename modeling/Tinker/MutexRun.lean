import Tinker.Machine
import Tinker.MutexLists

/-! Threads that lock and unlock one mutex. -/
namespace Tinker

open Outcome Counted

variable {cfg : Config}

/-- Where a thread is: outside, behind the yield of `pthread_mutex_lock`, in its critical section,
or behind the yield of `pthread_mutex_unlock`. -/
inductive MutexLoc
  | out | inLock | holds | inUnlock
  deriving DecidableEq

inductive MutexLabel (cfg : Config)
  | lock | unlock | resume
  | yield (clk : Clock) (t : Thid cfg)

/-- The running thread is in its own code. -/
def mutexRuns (s : Threads cfg MutexLoc) : Bool :=
  !s.yielding && decide (s.loc s.me = .out ∨ s.loc s.me = .holds)

def mutexEnabled (s : Threads cfg MutexLoc) : MutexLabel cfg → Bool
  | .lock => !s.yielding && decide (s.loc s.me = .out)
  | .unlock => !s.yielding && decide (s.loc s.me = .holds)
  | .resume => !s.yielding && decide (s.loc s.me = .inLock ∨ s.loc s.me = .inUnlock)
  | .yield clk t => (s.yielding || mutexRuns s) && readyAfterSweep s.sync.kernel clk t

def mutexNext (s : Threads cfg MutexLoc) :
    MutexLabel cfg → Except Fault (Threads cfg MutexLoc)
  | .lock => do
    let (sync,y) ← pthreadMutexLock s.sync theMutex
    return s.goTo sync (if y then .inLock else .holds) y
  | .unlock => do
    let (sync,y) ← pthreadMutexUnlock s.sync theMutex
    return s.goTo sync (if y then .inUnlock else .out) y
  | .resume => .ok (s.goTo s.sync (if s.loc s.me = .inLock then .holds else .out) false)
  | .yield clk t => s.yield clk t

def mutexMachine (cfg : Config) : Machine (Threads cfg MutexLoc) (MutexLabel cfg) Fault where
  enabled := mutexEnabled
  next := mutexNext

def mutexInit (k : Kernel cfg) : Threads cfg MutexLoc := ⟨Sync.init k,fun _ => .out,false⟩

structure MutexInv (s : Threads cfg MutexLoc) : Prop extends ThreadsInv s where
  excl : s.Excl theMutex (· = .holds) (· = .inLock)

theorem mutexInit_inv {k : Kernel cfg} (hk : Seated k) : MutexInv (mutexInit k) where
  sync := hk.syncInv
  running := fun _ => hk.ready
  excl := Excludes.free (hk.syncInv.unowned _ rfl) rfl fun _ => ⟨by rintro ⟨⟩,by rintro ⟨⟩⟩

section

variable {s : Threads cfg MutexLoc}

theorem MutexInv.lock (h : MutexInv s) (he : mutexEnabled s .lock = true) :
    Spec (mutexNext s .lock) MutexInv (fun _ => False) := by
  simp only [mutexEnabled,Bool.and_eq_true,Bool.not_eq_true',decide_eq_true_eq] at he
  obtain ⟨hy,hout⟩ := he
  simp only [mutexNext,pthreadMutexLock,spec_bind,spec_pure]
  refine (h.sync.lock (h.running hy) theMutex).imp ?_
  rintro ⟨sync,y⟩ ⟨hi,⟨rfl,ht⟩ | ⟨rfl,hb⟩⟩
  · exact ⟨⟨hi,fun _ => ht.ready (h.running hy)⟩,h.excl.taken ht (by simp) (by simp [hout])⟩
  · exact ⟨⟨hi,fun hf => (by cases hf)⟩,h.excl.blocks hb (by simp) (by simp [hout])⟩

theorem MutexInv.unlock (h : MutexInv s) (he : mutexEnabled s .unlock = true) :
    Spec (mutexNext s .unlock) (fun s' => MutexInv s' ∧ Unlocked s.sync s'.sync theMutex)
      (fun _ => False) := by
  simp only [mutexEnabled,Bool.and_eq_true,Bool.not_eq_true',decide_eq_true_eq] at he
  obtain ⟨hy,hl⟩ := he
  simp only [mutexNext,pthreadMutexUnlock,spec_bind,spec_pure]
  refine (h.sync.unlock (h.running hy) theMutex).imp ?_
  rintro ⟨sync,y⟩ ⟨hi,hu⟩
  have hu : Unlocked s.sync sync theMutex := hu.imp And.right And.right
  have hx : ∀ y, (if y = true then MutexLoc.inUnlock else MutexLoc.out) ≠ .holds ∧
      (if y = true then MutexLoc.inUnlock else MutexLoc.out) ≠ .inLock := by decide
  exact ⟨⟨⟨hi,fun _ => hu.ready h.sync (h.running hy)⟩,
    h.excl.unlocked h.sync hu (hx y) (by simp [hl])⟩,hu⟩

theorem MutexInv.resume (h : MutexInv s) (he : mutexEnabled s .resume = true) :
    Spec (mutexNext s .resume) MutexInv (fun _ => False) := by
  simp only [mutexEnabled,Bool.and_eq_true,Bool.not_eq_true',decide_eq_true_eq] at he
  obtain ⟨hy,hl | hl⟩ := he
  · refine ⟨⟨h.sync,fun _ => h.running hy⟩,?_⟩
    exact h.excl.granted rfl (by simp [hl]) hl (h.sync.notMem (h.running hy) _)
  · refine ⟨⟨h.sync,fun _ => h.running hy⟩,?_⟩
    exact h.excl.goOn rfl (by simp [hl]) (by simp [hl])

theorem mutexStep_spec {x : MutexLabel cfg} (h : MutexInv s) (he : mutexEnabled s x = true) :
    Spec (mutexNext s x) MutexInv (fun _ => False) := by
  cases x with
  | lock => exact h.lock he
  | unlock => exact (h.unlock he).imp fun _ hi => hi.1
  | resume => exact h.resume he
  | yield clk t =>
    refine (h.yield (Bool.and_eq_true_iff.mp he).2).imp ?_
    rintro s' ⟨hi,hy⟩
    exact ⟨hi,h.excl.yielded hy⟩

end

/-- Mutual exclusion, the blocked list, and what the next `pthread_mutex_unlock` does to it. -/
structure WellExcluded (s : Threads cfg MutexLoc) : Prop where
  unique : ∀ t u, s.loc t = .holds → s.loc u = .holds → t = u
  owner : ∀ t, s.loc t = .holds → (s.sync.mux theMutex).owner = .thread t
  list : ∃ l : List (Thid cfg),
    (List.range (s.sync.mux theMutex).numb).map (s.sync.mux theMutex).thread = l.map some ∧
    l.Nodup ∧ (∀ t, t ∈ l ↔ s.sync.BlockedOn theMutex t) ∧
    (∀ t, (s.sync.mux theMutex).owner = .thread t → t ∉ l) ∧
    ((s.sync.mux theMutex).owner = .null → l = [])
  /-- The first blocked thread of the numerically smallest priority gets the mutex. -/
  unlock : ∀ s' l, (List.range (s.sync.mux theMutex).numb).map (s.sync.mux theMutex).thread =
      List.map some l → (mutexMachine cfg).Step s .unlock s' →
    l = [] ∧ (s'.sync.mux theMutex).owner = .null ∨ ∃ pre him post, l = pre ++ him :: post ∧
      FirstLeast (fun t => (s.sync.kernel.pool t).prio) pre him post ∧
      (s'.sync.mux theMutex).owner = .thread him ∧
      (List.range (s'.sync.mux theMutex).numb).map (s'.sync.mux theMutex).thread =
        (pre ++ post).map some
  /-- No call fails an assertion or leaves the array. -/
  safe : ∀ x, mutexEnabled s x = true → ∃ s', mutexNext s x = .ok s'

theorem MutexInv.wellExcluded {s : Threads cfg MutexLoc} (h : MutexInv s) : WellExcluded s where
  unique := fun t u ht hu => Excludes.unique h.excl ht hu
  owner := fun t ht => (h.excl.owns t).mpr (Or.inl ht)
  list := by
    refine ⟨_,(h.sync.lists theMutex).map_range,h.sync.nodup _,h.sync.mem _,fun t ht hm => ?_,
      h.sync.unowned _⟩
    obtain hl | ⟨_,hn⟩ := (h.excl.owns t).mp ht
    · have := h.excl.waiting t hm
      rw [hl] at this
      cases this
    · exact hn hm
  unlock := by
    intro s' l hl hstep
    obtain rfl : l = s.sync.waiters theMutex :=
      List.map_injective_iff.mpr (Option.some_injective _)
        (hl.symm.trans (h.sync.lists theMutex).map_range)
    obtain ⟨hi,hf | ⟨pre,him,post,ho⟩⟩ := (h.unlock hstep.1).of_ok hstep.2
    · exact Or.inl ⟨hf.empty,hf.owner⟩
    · refine Or.inr ⟨pre,him,post,ho.before,ho.best,ho.owner,?_⟩
      rw [← ho.waiters]
      exact (hi.sync.lists theMutex).map_range
  safe := by
    intro x he
    obtain ⟨s',hs,_⟩ := spec_total_iff.mp (mutexStep_spec h he)
    exact ⟨s',hs⟩

/-- Every run of threads that lock and unlock one mutex keeps them apart. -/
theorem mutexRun_wellExcluded {k : Kernel cfg} (hk : Seated k) {ls : List (MutexLabel cfg)}
    {s : Threads cfg MutexLoc} (hr : (mutexMachine cfg).run (mutexInit k) ls = some s) :
    WellExcluded s := by
  refine MutexInv.wellExcluded ((mutexMachine cfg).run_invariant_of_step ?_ (mutexInit_inv hk) hr)
  intro s x s' hi hstep
  exact (mutexStep_spec hi hstep.1).of_ok hstep.2

/-- Thread 0 blocks on the mutex thread 1 holds, and gets it handed over. -/
def handOnSteps : List (MutexLabel gnuArm) :=
  [.lock,.yield 20 0,.lock,.yield 20 1,.unlock,.yield 20 0,.resume]

theorem mutexRun_wellExcluded_handOn : ∃ s : Threads gnuArm MutexLoc,
    (mutexMachine gnuArm).run (mutexInit sleeperFirst) handOnSteps = some s ∧ s.loc 0 = .holds ∧
    WellExcluded s := by
  obtain ⟨s,hr,hl⟩ := (mutexMachine gnuArm).exists_run (fun s => s.loc 0 = .holds)
    (mutexInit sleeperFirst) handOnSteps (by decide +kernel)
  exact ⟨s,hr,hl,mutexRun_wellExcluded sleeperFirst_seated hr⟩

end Tinker

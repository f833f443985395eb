import Mathlib.Data.BitVec
import Mathlib.Data.Fintype.Basic
import Mathlib.Logic.Function.Basic

/-! Data model of the kernel: tuning constants, thread state words and control blocks.
Thread identifiers are indices into the thread pool, so an identifier outside the
pool cannot be built; a `Gid` of -1 is `none`. -/
namespace Tinker

/-- Tuning constants of a build, with the bounds every shipped configuration meets. -/
structure Config where
  maxThreads : ℕ
  maxPrioLevels : ℕ
  maxThreadsAtPrio : ℕ
  threadNameLen : ℕ
  maxBlockedOnQ : ℕ
  one_lt_maxThreads : 1 < maxThreads
  one_lt_maxPrioLevels : 1 < maxPrioLevels
  maxThreadsAtPrio_pos : 0 < maxThreadsAtPrio
  maxBlockedOnQ_pos : 0 < maxBlockedOnQ
  maxBlockedOnQ_lt : maxBlockedOnQ < 2 ^ 31

/-- The defaults of the ARM board support packages. -/
def gnuArm : Config where
  maxThreads := 10
  maxPrioLevels := 16
  maxThreadsAtPrio := 3
  threadNameLen := 0x17
  maxBlockedOnQ := 10
  one_lt_maxThreads := by decide
  one_lt_maxPrioLevels := by decide
  maxThreadsAtPrio_pos := by decide
  maxBlockedOnQ_pos := by decide
  maxBlockedOnQ_lt := by decide

variable {cfg : Config}

abbrev Thid (cfg : Config) := Fin cfg.maxThreads

instance : NeZero cfg.maxThreads := ⟨by have := cfg.one_lt_maxThreads; omega⟩

/-- The root thread, slot 0 of the pool. -/
def root : Thid cfg := ⟨0,by have := cfg.one_lt_maxThreads; omega⟩

/-- The bits ZQST of `PROCSTATE`. -/
abbrev ProcState := BitVec 4

namespace ProcState

def ready : ProcState := 0x0#4
def term : ProcState := 0x1#4
def sleep : ProcState := 0x2#4
def queue : ProcState := 0x4#4
def queueSleep : ProcState := 0x6#4
def queueSleepTerm : ProcState := 0x7#4
def zombi : ProcState := 0x8#4

/-- The test `state & mask`. -/
def has (s mask : ProcState) : Bool := s &&& mask != 0#4

@[simp] theorem has_ready (m : ProcState) : ready.has m = false := by
  simp [has,ready]
@[simp] theorem queue_has_queue : queue.has queue = true := by decide
@[simp] theorem queueSleep_has_queue : queueSleep.has queue = true := by decide
@[simp] theorem queue_has_sleep : queue.has sleep = false := by decide
@[simp] theorem queueSleep_has_sleep : queueSleep.has sleep = true := by decide
@[simp] theorem zombi_has_zombi : zombi.has zombi = true := by decide
@[simp] theorem zombi_has_term : zombi.has term = false := by decide
@[simp] theorem zombi_has_sleep : zombi.has sleep = false := by decide
@[simp] theorem ready_or (m : ProcState) : ready ||| m = m := by simp [ready]

theorem or_term_has_zombi : ∀ s : ProcState, (s ||| term).has zombi = s.has zombi := by decide
theorem clear_term_has_zombi : ∀ s : ProcState, (s &&& ~~~term).has zombi = s.has zombi := by
  decide
theorem clear_queueSleep_has_zombi : ∀ s : ProcState,
    (s &&& ~~~queueSleep).has zombi = s.has zombi := by decide
theorem clear_queueSleep_has_term : ∀ s : ProcState,
    (s &&& ~~~queueSleep).has term = s.has term := by decide
theorem clear_queueSleep_has_queue : ∀ s : ProcState,
    (s &&& ~~~queueSleep).has queue = false := by decide
theorem clear_queueSleepTerm_has_zombi : ∀ s : ProcState,
    (s &&& ~~~queueSleepTerm).has zombi = s.has zombi := by decide
theorem clear_queueSleepTerm_has_term : ∀ s : ProcState,
    (s &&& ~~~queueSleepTerm).has term = false := by decide
theorem clear_queueSleepTerm_has_queue : ∀ s : ProcState,
    (s &&& ~~~queueSleepTerm).has queue = false := by decide
theorem clear_queueSleep_has_sleep : ∀ s : ProcState,
    (s &&& ~~~queueSleep).has sleep = false := by decide
theorem clear_term_has_sleep : ∀ s : ProcState, (s &&& ~~~term).has sleep = s.has sleep := by decide
theorem clear_queue_has_sleep : ∀ s : ProcState, (s &&& ~~~queue).has sleep = s.has sleep := by
  decide
theorem clear_queueSleepTerm_has_sleep : ∀ s : ProcState,
    (s &&& ~~~queueSleepTerm).has sleep = false := by decide
theorem or_queueSleep_has_sleep : ∀ s : ProcState, (s ||| queueSleep).has sleep = true := by decide
theorem clear_term_has_term : ∀ s : ProcState, (s &&& ~~~term).has term = false := by decide
theorem or_queue_has_zombi : ∀ s : ProcState, (s ||| queue).has zombi = s.has zombi := by decide
theorem or_queueSleep_has_zombi : ∀ s : ProcState, (s ||| queueSleep).has zombi = s.has zombi := by
  decide
theorem clear_queue_has_zombi : ∀ s : ProcState, (s &&& ~~~queue).has zombi = s.has zombi := by
  decide
theorem or_sleep_has_zombi : ∀ s : ProcState, (s ||| sleep).has zombi = s.has zombi := by decide
theorem or_sleep_has_sleep : ∀ s : ProcState, (s ||| sleep).has sleep = true := by decide
theorem or_sleep_has_term : ∀ s : ProcState, (s ||| sleep).has term = s.has term := by decide

end ProcState

inductive WakeEvent
  | none | childDeath | timer | itc | itc2
  deriving DecidableEq

inductive BonSel
  | sched | itc | pmutex | semaphore | ptimer
  deriving DecidableEq

/-- Address of a mutex: one of its own, or the `cv_mux` inside a condition variable. -/
inductive MutexRef
  | mutex (i : ℕ) | cvMux (c : ℕ)
  deriving DecidableEq

/-- The pointer in the union `bOnId.entity`, as it was last written. -/
inductive BonEntity (cfg : Config)
  | null | tcb (t : Thid cfg) | mutex (r : MutexRef)
  deriving DecidableEq

structure Bon (cfg : Config) where
  kind : BonSel
  entity : BonEntity cfg
  deriving DecidableEq

/-- `clock_t` and `time_t` of the 32-bit targets. -/
abbrev Clock := BitVec 32

def clocksPerSec : ℕ := 1000000
def clkTck : ℕ := clocksPerSec

/-- `_tk_difftime`, a signed 32-bit difference. -/
def tkDifftime (t1 t0 : Clock) : ℤ := (t1 - t0).toInt

/-- The fields of `tcb_t_` that the modelled functions read or write. -/
structure Tcb (cfg : Config) where
  thid : Thid cfg
  gid : Option (Thid cfg)
  noChilds : ℤ
  valid : Bool
  state : ProcState
  bOnId : Bon cfg
  wakeuptime : Clock
  wakeupEvent : WakeEvent
  retval : ℕ
  prio : ℕ
  idx : ℕ
  deriving DecidableEq

abbrev Pool (cfg : Config) := Thid cfg → Tcb cfg

/-- The timer test `_tk_wakeup_timedout_threads` makes on one thread. -/
def timerTest (actTimeUs : Clock) (b : Tcb cfg) : Tcb cfg :=
  if b.state.has .sleep && decide (0 ≤ tkDifftime actTimeUs b.wakeuptime) then
    { b with state := b.state &&& ~~~ProcState.queueSleep, wakeupEvent := .timer }
  else b

/-- The microsecond clock the sweep compares with. -/
def actTimeUs (clk : Clock) : Clock := clk * (1000000 / clocksPerSec : ℕ)

/-- What ends a call that does not return: a failed assert, `tk_exit`, an access
outside a table, a NULL dereference, a pointer to memory that is not allocated for this use,
an unset local or a search that never ends. -/
inductive Fault
  | exit (code : ℕ)
  | assertSchedule | assertParent | assertNoChilds | assertChildDeath
  | assertUnowned | assertCondBlocked | assertOneWriter | assertConsistent | assertPreempt
  | assertCancel | assertSem | assertBest
  | outOfTable | nullPointer | badPointer | unset | diverges
  deriving DecidableEq

end Tinker

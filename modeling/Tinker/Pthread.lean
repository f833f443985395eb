import Tinker.Counted
import Tinker.Kernel

/-! Mutexes and condition variables of `pthread_sync.c`, `pthread_mutex.c` and `pthread_cond.c`.
A call is cut at its `pthread_yield`s. Every access to `blocked.thread` goes through a bounds
check. -/
namespace Tinker

open Kernel Outcome Counted

variable {cfg : Config}

/-- A `pthread_t`: NULL, the `(pthread_t)1` that owns the mutex of an unused condition variable,
or a thread. -/
inductive Owner (cfg : Config)
  | null | one | thread (t : Thid cfg)
  deriving DecidableEq

/-- `pthread_mutex_t`; `numb` and `thread` are those of `_pthread_blocked_t`. -/
structure Mutex (cfg : Config) where
  owner : Owner cfg
  numb : ℕ
  thread : ℕ → Option (Thid cfg)

/-- The kernel with its mutexes and condition variables; the `cv_mux` of condition variable `c`
is the mutex `.cvMux c`. -/
structure Sync (cfg : Config) where
  kernel : Kernel cfg
  mux : MutexRef → Mutex cfg
  coopMux : ℕ → Option MutexRef

/-- The objects as `PTHREAD_MUTEX_INITIALIZER` and `PTHREAD_COND_INITIALIZER` set them up. -/
def Sync.init (k : Kernel cfg) : Sync cfg where
  kernel := k
  mux := fun
    | .mutex _ => ⟨.null,0,fun _ => none⟩
    | .cvMux _ => ⟨.one,0,fun _ => none⟩
  coopMux := fun _ => none

def Sync.setMux (s : Sync cfg) (r : MutexRef) (m : Mutex cfg) : Sync cfg :=
  { s with mux := Function.update s.mux r m }

/-- Reading `blocked.thread[i]`. -/
def Mutex.read (m : Mutex cfg) (i : ℕ) : Except Fault (Thid cfg) := do
  check (i < cfg.maxThreads) .outOfTable
  match m.thread i with
  | some t => .ok t
  | none => .error .nullPointer

/-- The control block of a thread that blocks on a mutex. -/
def blockOn (r : MutexRef) (b : Tcb cfg) : Tcb cfg :=
  { b with bOnId := ⟨.pmutex,.mutex r⟩, state := b.state ||| .queue }

/-- The control block of a thread a mutex lets go. -/
def unblock (b : Tcb cfg) : Tcb cfg :=
  { b with bOnId := ⟨.sched,.null⟩, state := b.state &&& ~~~ProcState.queue, wakeupEvent := .itc }

/-- `_mutex_lock_primitive`; the flag is its result. -/
def mutexLockPrimitive (s : Sync cfg) (r : MutexRef) : Except Fault (Sync cfg × Bool) :=
  let self := s.kernel.activeThread
  let m := s.mux r
  if m.owner = .null then .ok (s.setMux r { m with owner := .thread self, numb := 0 },false)
  else do
    check (m.numb < cfg.maxThreads) .outOfTable
    let s := { s with kernel := s.kernel.modTcb self (blockOn r) }
    return (s.setMux r { m with
      thread := Function.update m.thread m.numb (some self)
      numb := m.numb+1 },true)

/-- `_mutex_unlock_primitive`; the flag is its result. The loop over the blocked threads leaves
the index unset where no priority is below the number of levels. -/
def mutexUnlockPrimitive (s : Sync cfg) (r : MutexRef) (bcast : Bool) :
    Except Fault (Sync cfg × Bool) :=
  let m := s.mux r
  if m.owner = .null then do
    check (m.numb = 0) .assertUnowned
    return (s,false)
  else if m.numb = 0 then .ok (s.setMux r { m with owner := .null },false)
  else if bcast then do
    let ts ← (List.range m.numb).mapM m.read
    let s := { s with kernel := ts.foldl (fun k t => k.modTcb t unblock) s.kernel }
    return (s.setMux r { m with numb := 0 },true)
  else do
    let ts ← (List.range m.numb).mapM m.read
    match scan (fun t => (s.kernel.pool t).prio) ts 0 none cfg.maxPrioLevels with
    | none => .error .unset
    | some j =>
      let newOwner ← m.read j
      let thread ← closeGap cfg.maxThreads .outOfTable (m.numb-j) j m.thread
      let s := { s with kernel := s.kernel.modTcb newOwner unblock }
      return (s.setMux r { m with
        owner := .thread newOwner
        thread := thread
        numb := m.numb-1 },true)

/-- `pthread_mutex_lock`; the flag tells whether it yields. -/
def pthreadMutexLock (s : Sync cfg) (r : MutexRef) : Except Fault (Sync cfg × Bool) :=
  mutexLockPrimitive s r

/-- `pthread_mutex_unlock`; the flag tells whether it yields. -/
def pthreadMutexUnlock (s : Sync cfg) (r : MutexRef) : Except Fault (Sync cfg × Bool) :=
  mutexUnlockPrimitive s r false

/-- Where `pthread_cond_signal` stands: returned, at its own yield, or at the yield of the
`pthread_mutex_unlock` it ends with. -/
inductive SignalResult
  | done | yields | yieldsUnlock
  deriving DecidableEq

/-- `pthread_cond_signal` after its own yield. -/
def pthreadCondSignalEnd (s : Sync cfg) (c : ℕ) : Except Fault (Sync cfg × Bool) :=
  match s.coopMux c with
  | none => .error .nullPointer
  | some r => pthreadMutexUnlock s r

/-- The statement of `pthread_cond_signal` that keeps `cv_mux` owned. -/
def keepCvOwned (s : Sync cfg) (c : ℕ) : Except Fault (Sync cfg) :=
  let m := s.mux (.cvMux c)
  if m.owner = .null then do
    check (m.numb = 0) .assertCondBlocked
    return s.setMux (.cvMux c) { m with owner := .one }
  else .ok s

/-- `pthread_cond_signal` up to its first yield. -/
def pthreadCondSignal (s : Sync cfg) (c : ℕ) : Except Fault (Sync cfg × SignalResult) :=
  match s.coopMux c with
  | none => .ok (s,.done)
  | some _ => do
    let (s,y) ← mutexUnlockPrimitive s (.cvMux c) false
    let s ← keepCvOwned s c
    if y then return (s,.yields)
    else
      let (s,y) ← pthreadCondSignalEnd s c
      return (s,if y then .yieldsUnlock else .done)

/-- `pthread_cond_broadcast`; the flag tells whether it yields. -/
def pthreadCondBroadcast (s : Sync cfg) (c : ℕ) : Except Fault (Sync cfg × Bool) :=
  match s.coopMux c with
  | none => .ok (s,false)
  | some r => do
    let (s,y1) ← mutexUnlockPrimitive s (.cvMux c) true
    let m := s.mux (.cvMux c)
    let s := if m.numb = 0 then s.setMux (.cvMux c) { m with owner := .one } else s
    let (s,y2) ← mutexUnlockPrimitive s r false
    return (s,y1 || y2)

/-- `pthread_cond_wait` up to its yield. -/
def pthreadCondWait (s : Sync cfg) (c : ℕ) (r : MutexRef) : Except Fault (Sync cfg) := do
  let s := { s with coopMux := Function.update s.coopMux c (some r) }
  let (s,_) ← mutexUnlockPrimitive s r false
  let (s,y) ← mutexLockPrimitive s (.cvMux c)
  check (y = true) .assertCondBlocked
  return s

/-- `pthread_cond_wait` after its yield. -/
def pthreadCondWaitEnd (s : Sync cfg) (c : ℕ) : Except Fault (Sync cfg × Bool) :=
  match s.coopMux c with
  | none => .error .nullPointer
  | some r => pthreadMutexLock s r

/-- The one mutex of a program. -/
def theMutex : MutexRef := .mutex 0

/-- Threads of a program that synchronise: the objects, where each thread is between two
yields, and whether the running one has called `pthread_yield`. -/
structure Threads (cfg : Config) (Loc : Type) where
  sync : Sync cfg
  loc : Thid cfg → Loc
  yielding : Bool

namespace Threads

variable {Loc : Type}

def me (s : Threads cfg Loc) : Thid cfg := s.sync.kernel.activeThread

/-- The running thread comes to `x`, and yields there or goes on. -/
def goTo (s : Threads cfg Loc) (sync : Sync cfg) (x : Loc) (yields : Bool) : Threads cfg Loc :=
  ⟨sync,Function.update s.loc s.me x,yields⟩

@[simp] theorem goTo_loc (s : Threads cfg Loc) (sync : Sync cfg) (x : Loc) (y : Bool)
    (t : Thid cfg) : (s.goTo sync x y).loc t = if t = s.me then x else s.loc t :=
  Function.update_apply _ _ _ _
@[simp] theorem goTo_sync (s : Threads cfg Loc) (sync : Sync cfg) (x : Loc) (y : Bool) :
    (s.goTo sync x y).sync = sync := rfl
@[simp] theorem goTo_yielding (s : Threads cfg Loc) (sync : Sync cfg) (x : Loc) (y : Bool) :
    (s.goTo sync x y).yielding = y := rfl

/-- The sweep and the dispatch of a `pthread_yield`. -/
def yield (s : Threads cfg Loc) (clk : Clock) (t : Thid cfg) : Except Fault (Threads cfg Loc) := do
  let k ← tkWakeupTimedoutThreads s.sync.kernel clk
  return { s with sync := { s.sync with kernel := k.dispatch t }, yielding := false }

end Threads

end Tinker

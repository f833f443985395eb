import Mathlib.Data.Int.Notation
import Tinker.Machine
import Tinker.Pthread
import Tinker.ScheduleOps

/-! The read-write lock of `pthread_rwlock.c`.
A call is cut at every yield it makes, also at those inside the mutex and the condition
variables; the local `blocked_writers_granted` is kept with the place of the thread. -/
namespace Tinker

open Outcome

variable {cfg : Config}

/-- The counters of `pthread_rwlock_t`, which are `int`s there. Its `mx_self` is `theMutex`. -/
structure Rwlock where
  readersReading : ℤ
  writersWriting : ℤ
  blockedWriters : ℤ
  blockedReaders : ℤ
  bwritersPrio : ℕ → ℤ

/-- The condition variables `readers_lock` and `writers_lock`. -/
def readersLock : ℕ := 0
def writersLock : ℕ := 1

/-- `PTHREAD_RWLOCK_INITIALIZER`. -/
def Rwlock.init : Rwlock := ⟨0,0,0,0,fun _ => 0⟩

def Rwlock.free (rw : Rwlock) : Prop := rw.readersReading = 0 ∧ rw.writersWriting = 0

instance (rw : Rwlock) : Decidable rw.free := instDecidableAnd

inductive RwErr
  | ok | einval
  deriving DecidableEq

/-- Where a thread is: in its own code, or behind a yield of `pthread_rwlock_rdlock` (`rd`),
`pthread_rwlock_wrlock` (`wr`) or `pthread_rwlock_unlock` (`un`). -/
inductive RwLoc
  | out
  | rdLock | rdSignal (g : ℤ) | rdSignalUnlock (g : ℤ) | rdWait (g : ℤ) | rdRelock (g : ℤ) | rdUnlock
  | wrLock | wrWait | wrRelock | wrUnlock
  | unLock | unSignal (c : ℕ) | unSignalUnlock | unBcast | unUnlock (rc : RwErr)
  deriving DecidableEq

/-- Where a call leaves the objects, the counters and its thread, whether it yields there, and
its result where it has returned. -/
structure RwCall (cfg : Config) where
  sync : Sync cfg
  rw : Rwlock
  loc : RwLoc
  yields : Bool
  ret : Option RwErr

def RwCall.yieldsAt (sync : Sync cfg) (rw : Rwlock) (x : RwLoc) : RwCall cfg := ⟨sync,rw,x,true,none⟩

def RwCall.returns (sync : Sync cfg) (rw : Rwlock) (rc : RwErr) : RwCall cfg :=
  ⟨sync,rw,.out,false,some rc⟩

/-- The last `pthread_mutex_unlock` of a call, with the place of its yield. -/
def unlockAndReturn (sync : Sync cfg) (rw : Rwlock) (x : RwLoc) (rc : RwErr) :
    Except Fault (RwCall cfg) := do
  let (sync,y) ← pthreadMutexUnlock sync theMutex
  return if y then .yieldsAt sync rw x else .returns sync rw rc

/-- The priority of `pthread_self()`. -/
def selfPrio (sync : Sync cfg) : ℕ := (sync.kernel.pool sync.kernel.activeThread).prio

/-- The loops that add up `bwriters_prio`. -/
def addBwriters (cfg : Config) (rw : Rwlock) (g : ℤ) (is : List ℕ) : Except Fault ℤ :=
  is.foldlM (fun g i => do
    check (i < cfg.maxPrioLevels) .outOfTable
    return g + rw.bwritersPrio i) g

/-- `blocked_writers_granted` as a reader computes it first, and as `pthread_rwlock_unlock` does:
the blocked writers of the own priority or a numerically smaller one. -/
def grantedDown (sync : Sync cfg) (rw : Rwlock) : Except Fault ℤ :=
  if rw.blockedWriters ≠ 0 then addBwriters cfg rw 0 (List.range (selfPrio sync+1)).reverse
  else .ok 0

/-- `blocked_writers_granted` as a reader computes it after a wait: the blocked writers of the
own priority or a numerically larger one are added to what it was. -/
def grantedUp (sync : Sync cfg) (rw : Rwlock) (g : ℤ) : Except Fault ℤ :=
  if rw.blockedWriters ≠ 0 then
    addBwriters cfg rw g (List.range' (selfPrio sync) (cfg.maxPrioLevels-selfPrio sync))
  else .ok 0

/-! ### `pthread_rwlock_rdlock` -/

/-- The end of `pthread_rwlock_rdlock`. -/
def rdTake (sync : Sync cfg) (rw : Rwlock) : Except Fault (RwCall cfg) :=
  unlockAndReturn sync { rw with readersReading := rw.readersReading+1 } .rdUnlock .ok

/-- The body of its loop from `blocked_readers++` on. -/
def rdSleep (sync : Sync cfg) (rw : Rwlock) (g : ℤ) : Except Fault (RwCall cfg) := do
  let rw := { rw with blockedReaders := rw.blockedReaders+1 }
  let sync ← pthreadCondWait sync readersLock theMutex
  return .yieldsAt sync rw (.rdWait g)

/-- The test of its loop and what follows. -/
def rdLoop (sync : Sync cfg) (rw : Rwlock) (g : ℤ) : Except Fault (RwCall cfg) :=
  if rw.writersWriting ≠ 0 ∨ g ≠ 0 then
    if g ≠ 0 ∧ rw.writersWriting = 0 ∧ rw.readersReading = 0 then do
      let (sync,r) ← pthreadCondSignal sync writersLock
      match r with
      | .done => rdSleep sync rw g
      | .yields => return .yieldsAt sync rw (.rdSignal g)
      | .yieldsUnlock => return .yieldsAt sync rw (.rdSignalUnlock g)
    else rdSleep sync rw g
  else rdTake sync rw

/-- `pthread_rwlock_rdlock` once `mx_self` is locked. -/
def rdLocked (sync : Sync cfg) (rw : Rwlock) : Except Fault (RwCall cfg) := do
  let g ← grantedDown sync rw
  rdLoop sync rw g

/-- `pthread_rwlock_rdlock` after a wait, with `mx_self` locked again. -/
def rdWoken (sync : Sync cfg) (rw : Rwlock) (g : ℤ) : Except Fault (RwCall cfg) := do
  let rw := { rw with blockedReaders := rw.blockedReaders-1 }
  let g ← grantedUp sync rw g
  rdLoop sync rw g

def pthreadRwlockRdlock (sync : Sync cfg) (rw : Rwlock) : Except Fault (RwCall cfg) := do
  let (sync,y) ← pthreadMutexLock sync theMutex
  if y then return .yieldsAt sync rw .rdLock else rdLocked sync rw

/-! ### `pthread_rwlock_wrlock` -/

/-- `bwriters_prio[pthread_self()->Prio] += d`, and `blocked_writers` with it. -/
def addBlockedWriter (sync : Sync cfg) (rw : Rwlock) (d : ℤ) : Except Fault Rwlock := do
  let p := selfPrio sync
  check (p < cfg.maxPrioLevels) .outOfTable
  return { rw with
    blockedWriters := rw.blockedWriters+d
    bwritersPrio := Function.update rw.bwritersPrio p (rw.bwritersPrio p+d) }

/-- The test of the loop of `pthread_rwlock_wrlock` and what follows. -/
def wrLoop (sync : Sync cfg) (rw : Rwlock) : Except Fault (RwCall cfg) :=
  if rw.readersReading ≠ 0 ∨ rw.writersWriting ≠ 0 then do
    let rw ← addBlockedWriter sync rw 1
    let sync ← pthreadCondWait sync writersLock theMutex
    return .yieldsAt sync rw .wrWait
  else do
    let rw := { rw with writersWriting := rw.writersWriting+1 }
    check (rw.writersWriting < 2) .assertOneWriter
    unlockAndReturn sync rw .wrUnlock .ok

/-- `pthread_rwlock_wrlock` after a wait, with `mx_self` locked again. -/
def wrWoken (sync : Sync cfg) (rw : Rwlock) : Except Fault (RwCall cfg) := do
  let rw ← addBlockedWriter sync rw (-1)
  wrLoop sync rw

def pthreadRwlockWrlock (sync : Sync cfg) (rw : Rwlock) : Except Fault (RwCall cfg) := do
  let (sync,y) ← pthreadMutexLock sync theMutex
  if y then return .yieldsAt sync rw .wrLock else wrLoop sync rw

/-! ### `pthread_rwlock_unlock` -/

def unEnd (sync : Sync cfg) (rw : Rwlock) (rc : RwErr) : Except Fault (RwCall cfg) :=
  unlockAndReturn sync rw (.unUnlock rc) rc

/-- A `pthread_cond_signal` and the end of the call. -/
def unSignal (sync : Sync cfg) (rw : Rwlock) (c : ℕ) : Except Fault (RwCall cfg) := do
  let (sync,r) ← pthreadCondSignal sync c
  match r with
  | .done => unEnd sync rw .ok
  | .yields => return .yieldsAt sync rw (.unSignal c)
  | .yieldsUnlock => return .yieldsAt sync rw .unSignalUnlock

/-- A `pthread_cond_broadcast` and the end of the call. -/
def unBroadcast (sync : Sync cfg) (rw : Rwlock) (c : ℕ) : Except Fault (RwCall cfg) := do
  let (sync,y) ← pthreadCondBroadcast sync c
  if y then return .yieldsAt sync rw .unBcast else unEnd sync rw .ok

/-- `pthread_rwlock_unlock` once `mx_self` is locked. -/
def unLocked (sync : Sync cfg) (rw : Rwlock) : Except Fault (RwCall cfg) :=
  if rw.readersReading = 0 ∧ rw.writersWriting = 0 then unEnd sync rw .einval
  else do
    check (rw.writersWriting < 2) .assertOneWriter
    if rw.writersWriting ≠ 0 then
      let rw := { rw with writersWriting := 0 }
      if rw.blockedWriters ≠ 0 then
        let granted ← grantedDown sync rw
        if granted ≠ 0 then unSignal sync rw writersLock
        else if rw.blockedReaders ≠ 0 then unBroadcast sync rw readersLock
        else unSignal sync rw writersLock
      else unBroadcast sync rw readersLock
    else unSignal sync { rw with readersReading := rw.readersReading-1 } readersLock

def pthreadRwlockUnlock (sync : Sync cfg) (rw : Rwlock) : Except Fault (RwCall cfg) := do
  let (sync,y) ← pthreadMutexLock sync theMutex
  if y then return .yieldsAt sync rw .unLock else unLocked sync rw

/-! ### Runs -/

/-- What the call at a place has yet to do: get the lock for reading, for writing, or give it
back. -/
inductive RwWant
  | read | write | release
  deriving DecidableEq

def RwLoc.want : RwLoc → Option RwWant
  | .rdLock => some .read
  | .rdSignal _ => some .read
  | .rdSignalUnlock _ => some .read
  | .rdWait _ => some .read
  | .rdRelock _ => some .read
  | .wrLock => some .write
  | .wrWait => some .write
  | .wrRelock => some .write
  | .unLock => some .release
  | _ => none

/-- How often a thread holds the lock for reading and for writing. -/
structure RwHolds where
  rd : ℕ
  wr : ℕ
  deriving DecidableEq

/-- The holds of a thread whose call has done what it had to. -/
def RwHolds.after (h : RwHolds) : Option RwWant → RwHolds
  | none => h
  | some .read => { h with rd := h.rd+1 }
  | some .write => { h with wr := h.wr+1 }
  | some .release => if 0 < h.wr then { h with wr := h.wr-1 } else { h with rd := h.rd-1 }

/-- `holds` only counts, along the places the threads come to. -/
structure RwState (cfg : Config) extends Threads cfg RwLoc where
  rw : Rwlock
  ret : Thid cfg → Option RwErr
  holds : Thid cfg → RwHolds

inductive RwLabel (cfg : Config)
  | rdlock | wrlock | unlock | resume
  | yield (clk : Clock) (t : Thid cfg)

/-- The running thread is in its own code. -/
def RwState.runs (s : RwState cfg) : Bool := !s.yielding && decide (s.loc s.me = .out)

/-- The lock is unlocked only by a thread that holds it. -/
def rwEnabled (s : RwState cfg) : RwLabel cfg → Bool
  | .rdlock => s.runs
  | .wrlock => s.runs
  | .unlock => s.runs && decide (0 < (s.holds s.me).rd+(s.holds s.me).wr)
  | .resume => !s.yielding && decide (s.loc s.me ≠ .out)
  | .yield clk t => (s.yielding || s.runs) && readyAfterSweep s.sync.kernel clk t

/-- The running thread goes on as its call says, which had `w` to do. -/
def RwState.goOn (s : RwState cfg) (w : Option RwWant) (c : RwCall cfg) : RwState cfg where
  toThreads := s.goTo c.sync c.loc c.yields
  rw := c.rw
  ret := match c.ret with
    | some rc => Function.update s.ret s.me (some rc)
    | none => s.ret
  holds := if c.loc.want = w then s.holds
    else Function.update s.holds s.me ((s.holds s.me).after w)

/-- What a thread does when it runs again at a place. -/
def rwResume (sync : Sync cfg) (rw : Rwlock) : RwLoc → Except Fault (RwCall cfg)
  | .out => .ok ⟨sync,rw,.out,false,none⟩
  | .rdLock => rdLocked sync rw
  | .rdSignal g => do
    let (sync,y) ← pthreadCondSignalEnd sync writersLock
    if y then return .yieldsAt sync rw (.rdSignalUnlock g) else rdSleep sync rw g
  | .rdSignalUnlock g => rdSleep sync rw g
  | .rdWait g => do
    let (sync,y) ← pthreadCondWaitEnd sync readersLock
    if y then return .yieldsAt sync rw (.rdRelock g) else rdWoken sync rw g
  | .rdRelock g => rdWoken sync rw g
  | .rdUnlock => .ok (.returns sync rw .ok)
  | .wrLock => wrLoop sync rw
  | .wrWait => do
    let (sync,y) ← pthreadCondWaitEnd sync writersLock
    if y then return .yieldsAt sync rw .wrRelock else wrWoken sync rw
  | .wrRelock => wrWoken sync rw
  | .wrUnlock => .ok (.returns sync rw .ok)
  | .unLock => unLocked sync rw
  | .unSignal c => do
    let (sync,y) ← pthreadCondSignalEnd sync c
    if y then return .yieldsAt sync rw .unSignalUnlock else unEnd sync rw .ok
  | .unSignalUnlock => unEnd sync rw .ok
  | .unBcast => unEnd sync rw .ok
  | .unUnlock rc => .ok (.returns sync rw rc)

def rwNext (s : RwState cfg) : RwLabel cfg → Except Fault (RwState cfg)
  | .rdlock => do
    let c ← pthreadRwlockRdlock s.sync s.rw
    return s.goOn (some .read) c
  | .wrlock => do
    let c ← pthreadRwlockWrlock s.sync s.rw
    return s.goOn (some .write) c
  | .unlock => do
    let c ← pthreadRwlockUnlock s.sync s.rw
    return s.goOn (some .release) c
  | .resume => do
    let c ← rwResume s.sync s.rw (s.loc s.me)
    return s.goOn (s.loc s.me).want c
  | .yield clk t => do
    let threads ← s.toThreads.yield clk t
    return { s with toThreads := threads }

def rwMachine (cfg : Config) : Machine (RwState cfg) (RwLabel cfg) Fault where
  enabled := rwEnabled
  next := rwNext

def rwInit (k : Kernel cfg) : RwState cfg where
  toThreads := ⟨Sync.init k,fun _ => .out,false⟩
  rw := .init
  ret := fun _ => none
  holds := fun _ => ⟨0,0⟩

end Tinker

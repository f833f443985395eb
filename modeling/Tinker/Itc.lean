import Tinker.Kernel
import Tinker.Ring

/-! Semaphores and fixed-size queues of `tk_itc.c` and `tk_itcshared.c`.
A call that blocks is cut at its `tk_yield`: the first half says where it goes to sleep and
the second half is what the thread does when it is dispatched again. -/
namespace Tinker

open Kernel Outcome Ring

variable {cfg : Config}

/-- `ipc_flags_t`. -/
abbrev IpcFlags := BitVec 32

def fifo : IpcFlags := 0x00
def prior : IpcFlags := 0x02
def nowait : IpcFlags := 0x08

/-- `itc_set_t`. -/
inductive ItcSet
  | sem | sQueue | vQueue
  deriving DecidableEq

/-- `ERR_OK` and the `ITC_ERROR_CODES` the modelled calls return. -/
inductive ItcErr
  | ok | timeout | objDel | objType | objFull | bufSiz | full | noSem | noMem | blockLimit
  deriving DecidableEq

/-- `q_t`, one message. -/
abbrev Msg := Fin 4 → BitVec 32

/-- `itc_t`; `blocked_procs` is a ring of `TK_MAX_BLOCKED_ON_Q` cells. -/
structure Itc (cfg : Config) where
  token : ℤ
  flags : IpcFlags
  sizeofQ : ℕ
  bType : ItcSet
  blockedProcs : ℕ → Option (Thid cfg)
  inIdx : ℕ
  outIdx : ℕ
  minIdx : ℕ
  moutIdx : ℕ
  q : ℕ → Msg

/-- The value an `int` keeps. -/
def toInt32 (z : ℤ) : ℤ := Int.bmod z (2^32)

theorem toInt32_of_int {z : ℤ} (hlo : -2^31 ≤ z) (hhi : z < 2^31) : toInt32 z = z := by
  rw [toInt32,Int.bmod_def]
  omega

/-- `_itc_removeBlocked`. The tests for an index above the limit catch the wrap of an
unsigned index below zero. -/
def itcRemoveBlocked (q : Itc cfg) (idx : ℕ) : Itc cfg :=
  let n := cfg.maxBlockedOnQ
  if q.outIdx = idx then
    { q with
      blockedProcs := Function.update q.blockedProcs idx none
      outIdx := succ n q.outIdx
      token := q.token+1 }
  else if pred n q.inIdx = idx then
    { q with
      blockedProcs := Function.update q.blockedProcs idx none
      inIdx := pred n q.inIdx
      token := q.token+1 }
  else
    { q with
      blockedProcs := shift n q.inIdx n idx q.blockedProcs
      inIdx := pred n q.inIdx
      token := q.token+1 }

/-- The indices a loop from `out_idx` up to `in_idx` visits. -/
def Itc.idxs (q : Itc cfg) : List ℕ := walk cfg.maxBlockedOnQ q.inIdx cfg.maxBlockedOnQ q.outIdx

/-- The thread in a cell of the ring. -/
def Itc.proc (q : Itc cfg) (i : ℕ) : Except Fault (Thid cfg) :=
  match q.blockedProcs i with
  | some t => .ok t
  | none => .error .nullPointer

/-- `_itc_proveConcistency`. -/
def itcProveConcistency (k : Kernel cfg) (q : Itc cfg) : Except Fault Bool :=
  if 0 < q.token then .ok true
  else do
    let ts ← q.idxs.mapM q.proc
    let count := ts.countP fun t =>
      (k.pool t).state.has .queue || decide ((k.pool t).state = .ready)
    return decide (count = q.token.natAbs)

/-- Where a call stands after its first half. -/
inductive LockResult
  | ret (e : ItcErr) | waits (markIdx : Option ℕ)
  deriving DecidableEq

/-- The millisecond clock of `lock_stage`. -/
def actTimeMs (clk : Clock) : Clock := clk / (clkTck : ℕ) * 1000

/-- The control block of a thread that goes to sleep on an object. -/
def goToSleep (timeout clk : Clock) (b : Tcb cfg) : Tcb cfg :=
  if timeout = 0 then { b with state := b.state ||| .queue, wakeupEvent := .none }
  else { b with state := b.state ||| .queueSleep, wakeuptime := actTimeMs clk + timeout }

theorem goToSleep_state (timeout clk : Clock) {b : Tcb cfg} (hb : b.state = .ready) :
    (goToSleep timeout clk b).state = if timeout = 0 then .queue else .queueSleep := by
  unfold goToSleep
  split <;> simp [hb]

/-- `lock_stage` up to its yield; a timed wait remembers `mark_idx`. -/
def lockStage (k : Kernel cfg) (q : Itc cfg) (timeout clk : Clock) :
    Kernel cfg × Itc cfg × LockResult :=
  let me := k.activeThread
  if 0 < q.token then (k,{ q with token := q.token-1 },.ret .ok)
  else if q.token.natAbs < cfg.maxBlockedOnQ-1 then
    let q := { q with
      token := q.token-1
      blockedProcs := Function.update q.blockedProcs q.inIdx (some me)
      inIdx := succ cfg.maxBlockedOnQ q.inIdx }
    (k.modTcb me (goToSleep timeout clk),q,.waits (if timeout = 0 then none else some q.inIdx))
  else (k,q,.ret .blockLimit)

/-- The do-while of `lock_stage` that takes the other timed out threads out of the ring. -/
def dropTimedOut : ℕ → ℕ → Kernel cfg → Itc cfg → Except Fault (Kernel cfg × Itc cfg)
  | 0, _, _, _ => .error .diverges
  | fuel+1, markIdx, k, q => do
    let t ← q.proc markIdx
    let (k,q) :=
      if (k.pool t).state = .ready ∧ (k.pool t).wakeupEvent = .timer then
        (k.modTcb t fun b => { b with wakeupEvent := .itc2 },itcRemoveBlocked q markIdx)
      else (k,q)
    if markIdx = q.inIdx then return (k,q)
    else
      let markIdx := succ cfg.maxBlockedOnQ markIdx
      if q.token < 0 ∧ markIdx ≠ q.inIdx then dropTimedOut fuel markIdx k q else return (k,q)

/-- `lock_stage` after the yield of a timed wait. -/
def lockStageWoken (k : Kernel cfg) (q : Itc cfg) (markIdx : ℕ) :
    Except Fault (Kernel cfg × Itc cfg × ItcErr) :=
  match (k.pool k.activeThread).wakeupEvent with
  | .timer =>
    if 0 ≤ q.token then .ok (k,q,.timeout)
    else
      let q := itcRemoveBlocked q (pred cfg.maxBlockedOnQ markIdx)
      if 0 ≤ q.token then .ok (k,q,.timeout)
      else do
        let (k,q) ← dropTimedOut (cfg.maxBlockedOnQ*(q.token.natAbs+1)) q.outIdx k q
        return (k,q,.timeout)
  | .itc2 => .ok (k,q,.timeout)
  | _ => .ok (k,q,.ok)

/-- `unlock_stage`, the loop of the FIFO branch: threads that no longer wait are passed over. -/
def popBlocked (k : Kernel cfg) : ℕ → Itc cfg → Except Fault (Thid cfg × Itc cfg)
  | 0, _ => .error .diverges
  | fuel+1, q => do
    let him ← q.proc q.outIdx
    let q := { q with outIdx := succ cfg.maxBlockedOnQ q.outIdx, token := q.token+1 }
    if (k.pool him).state.has .queue = false ∧ q.token < 0 then popBlocked k fuel q
    else return (him,q)

/-- The thread is made ready by the object itself. -/
def readyByItc (k : Kernel cfg) (t : Thid cfg) : Kernel cfg :=
  k.modTcb t fun b => { b with
    state := b.state &&& ~~~ProcState.queueSleepTerm, wakeupEvent := .itc }

/-- `unlock_stage`, the loop of the PRIOR branch: the first thread of the numerically
smallest priority, with the index of its cell. Every thread has a priority below the one that the
loop starts with. -/
def bestBlocked (k : Kernel cfg) (q : Itc cfg) : Except Fault (Option (ℕ × Thid cfg)) :=
  q.idxs.foldlM (fun best i => do
    let t ← q.proc i
    match best with
    | none => return some (i,t)
    | some (j,u) => return if (k.pool t).prio < (k.pool u).prio then some (i,t) else some (j,u)) none

/-- `unlock_stage` up to its yield; the flag tells whether it yields. -/
def unlockStage (k : Kernel cfg) (q : Itc cfg) : Except Fault (Kernel cfg × Itc cfg × Bool) :=
  if q.token < 0 then
    if q.flags &&& prior ≠ 0 then do
      match ← bestBlocked k q with
      | none => return (k,q,false)
      | some (i,t) => return (readyByItc k t,itcRemoveBlocked q i,true)
    else do
      let (him,q) ← popBlocked k q.token.natAbs q
      return (readyByItc k him,q,true)
  else .ok (k,{ q with token := toInt32 (q.token+1) },false)

/-- `sm_create` once a slot is found and its memory granted. -/
def smCreate (count : ℕ) (flags : IpcFlags) : Itc cfg where
  token := toInt32 count
  flags := flags
  sizeofQ := 0
  bType := .sem
  blockedProcs := fun _ => none
  inIdx := 0
  outIdx := 0
  minIdx := 0
  moutIdx := 0
  q := fun _ _ => 0

/-- `sm_p` up to its yield, on the contents of the slot its `qid` names. -/
def smP (k : Kernel cfg) (slot : Option (Itc cfg)) (flags : IpcFlags) (timeout clk : Clock) :
    Kernel cfg × Option (Itc cfg) × LockResult :=
  match slot with
  | none => (k,none,.ret .objDel)
  | some q =>
    if q.bType ≠ .sem then (k,some q,.ret .objType)
    else if q.token ≤ 0 ∧ flags &&& nowait ≠ 0 then (k,some q,.ret .noSem)
    else
      let (k,q,r) := lockStage k q timeout clk
      (k,some q,r)

/-- `sm_v` up to its yield. -/
def smV (k : Kernel cfg) (slot : Option (Itc cfg)) :
    Except Fault (Kernel cfg × Option (Itc cfg) × Bool × ItcErr) :=
  match slot with
  | none => .ok (k,none,false,.objDel)
  | some q =>
    if q.bType ≠ .sem then .ok (k,some q,false,.objType)
    else do
      let (k,q,yields) ← unlockStage k q
      return (k,some q,yields,.ok)

/-- `q_create` once the memory is granted. -/
def qCreate (count : ℕ) (flags : IpcFlags) : Itc cfg :=
  { smCreate 0 flags with sizeofQ := count, bType := .sQueue }

/-- The end of `q_receive` once `lock_stage` has returned: the message is copied out. -/
def qReceiveEnd (k : Kernel cfg) (q : Itc cfg) (rc : ItcErr) :
    Except Fault (Itc cfg × ItcErr × Option Msg) := do
  let consistent ← itcProveConcistency k q
  check (consistent = true) .assertConsistent
  if rc ≠ .ok then return (q,rc,none)
  else return ({ q with moutIdx := (q.moutIdx+1) % q.sizeofQ },.ok,some (q.q q.moutIdx))

/-- How `q_receive` ends or where it goes to sleep. -/
inductive RecvResult
  | ret (e : ItcErr) (msg : Option Msg) | waits (markIdx : Option ℕ)

/-- `q_receive` up to the yield of its `lock_stage`, or to its end where there is none. -/
def qReceive (k : Kernel cfg) (slot : Option (Itc cfg)) (flags : IpcFlags) (timeout clk : Clock) :
    Except Fault (Kernel cfg × Option (Itc cfg) × RecvResult) :=
  match slot with
  | none => .ok (k,none,.ret .objDel none)
  | some q =>
    if q.bType ≠ .sQueue then .ok (k,some q,.ret .objType none)
    else if q.token ≤ 0 ∧ flags &&& nowait ≠ 0 then .ok (k,some q,.ret .noSem none)
    else
      match lockStage k q timeout clk with
      | (k,q,.waits m) => .ok (k,some q,.waits m)
      | (k,q,.ret rc) => do
        let (q,e,msg) ← qReceiveEnd k q rc
        return (k,some q,.ret e msg)

/-- The end of `q_send` once `unlock_stage` has returned. -/
def qSendEnd (k : Kernel cfg) (q : Itc cfg) : Except Fault ItcErr := do
  let consistent ← itcProveConcistency k q
  check (consistent = true) .assertConsistent
  return .ok

/-- `q_send` up to the yield of its `unlock_stage`, or to its end where there is none. -/
def qSend (k : Kernel cfg) (slot : Option (Itc cfg)) (msg : Msg) :
    Except Fault (Kernel cfg × Option (Itc cfg) × Option ItcErr) :=
  match slot with
  | none => .ok (k,none,some .objDel)
  | some q =>
    if q.bType ≠ .sQueue then .ok (k,some q,some .objType)
    else if 0 < q.token ∧ ¬q.token < toInt32 q.sizeofQ then .ok (k,some q,some .full)
    else do
      let (k,q,yields) ← unlockStage k { q with
        q := Function.update q.q q.minIdx msg
        minIdx := (q.minIdx+1) % q.sizeofQ }
      if yields then return (k,some q,none)
      else
        let e ← qSendEnd k q
        return (k,some q,some e)

end Tinker

import Tinker.ItcObjects
import Tinker.ScheduleOps

/-! The message queues of `mqueue.c`: a ring of message slots that is sorted at every send, the
descriptors threads use it by, and `mq_send` and `mq_receive` with the semaphores they wait on. -/
namespace Tinker

open Kernel Outcome

variable {cfg : Config}

def numberOfQueues : ℕ := 100

def numberOfFiles : ℕ := 100

abbrev QueueId := Fin numberOfQueues

instance : NeZero numberOfQueues := ⟨by decide⟩

/-- `size_t` and `unsigned int` are 32 bits wide. -/
def sizeMod : ℕ := 2^32

/-- The bits of `oflags`. -/
abbrev OFlags := BitVec 32

def oRdonly : OFlags := 0x01
def oWronly : OFlags := 0x02
def oRdwr : OFlags := 0x04
def oNonblock : OFlags := 0x40

structure OrderT where
  time : ℤ
  prio : ℕ
  inOrder : ℕ
  deriving DecidableEq

structure MessT where
  buffer : Option ℕ
  msgSz : ℤ
  order : OrderT
  deriving DecidableEq

structure MBox where
  mIdxIn : ℕ
  mIdxOut : ℕ
  messArray : ℕ → MessT
  lastInOrder : ℕ

structure MqAttr where
  mqMsgsize : ℕ
  mqMaxmsg : ℕ

/-- A queue with the object its `sem` names. -/
structure QueueD (cfg : Config) where
  taken : Bool
  mqAttr : MqAttr
  mBox : MBox
  sem : Itc cfg

structure FileD (cfg : Config) where
  taken : Bool
  tId : Thid cfg
  oflags : OFlags
  qId : QueueId

/-- An `int` as a `size_t`. -/
def sizeOfInt (z : ℤ) : ℕ := (z % (sizeMod : ℤ)).toNat

/-- `NUMB_MESS`. -/
def numbMess (Q : QueueD cfg) : ℕ :=
  if Q.mBox.mIdxOut ≤ Q.mBox.mIdxIn then Q.mBox.mIdxIn-Q.mBox.mIdxOut
  else Q.mqAttr.mqMaxmsg-Q.mBox.mIdxOut+Q.mBox.mIdxIn

def compMess (e1 e2 : MessT) : ℤ :=
  if e2.order.prio < e1.order.prio then -1
  else if e1.order.prio < e2.order.prio then 1
  else if e1.order.time < e2.order.time then -1
  else if e2.order.time < e1.order.time then 1
  else if e1.order.inOrder < e2.order.inOrder then -1
  else if e2.order.inOrder < e1.order.inOrder then 1
  else 0

/-- `n` slots from `i` on, where `next` leads from one to the next. -/
def takeFrom (next : ℕ → ℕ) (slots : ℕ → MessT) : ℕ → ℕ → List MessT
  | 0, _ => []
  | n+1, i => slots i :: takeFrom next slots n (next i)

/-- The messages are written to the slots from `i` on. -/
def putFrom (next : ℕ → ℕ) : List MessT → ℕ → (ℕ → MessT) → ℕ → MessT
  | [], _, slots => slots
  | m :: ms, i, slots => putFrom next ms (next i) (Function.update slots i m)

/-- The library's `qsort` on a slice, with its comparison. -/
abbrev Qsort := (MessT → MessT → ℤ) → List MessT → List MessT

/-- `sortByPrio`; a ring that wraps is sorted in memory of its own. -/
def sortByPrio (qsort : Qsort) (Q : QueueD cfg) (granted : Bool) : Except Fault (QueueD cfg) :=
  let szMess := numbMess Q
  let box := Q.mBox
  if box.mIdxOut ≤ box.mIdxIn then
    let sorted := qsort compMess (takeFrom (·+1) box.messArray szMess box.mIdxOut)
    .ok { Q with mBox := { box with messArray := putFrom (·+1) sorted box.mIdxOut box.messArray } }
  else do
    check (granted = true) .nullPointer
    let next := Ring.succ Q.mqAttr.mqMaxmsg
    let tempT := qsort compMess (takeFrom next box.messArray szMess box.mIdxOut)
    return { Q with mBox := { box with messArray := putFrom next tempT box.mIdxOut box.messArray } }

/-- What `mq_send` is given, with the reading of `time` it will take and whether `sortByPrio` will
get its memory. -/
structure SendArgs where
  mq : ℤ
  msg : List Byte
  msgprio : ℕ
  now : ℤ
  granted : Bool
  deriving DecidableEq

/-- What `mq_receive` is given; `msgprio` tells whether that pointer is not NULL. -/
structure RecvArgs where
  mq : ℤ
  buflen : ℕ
  msgprio : Bool
  deriving DecidableEq

inductive MqErr
  | badf | msgSize | again
  deriving DecidableEq

/-- How the two calls end. -/
inductive MqRet
  | sent | failed (e : MqErr)
  | received (bytes : List Byte) (msgprio : Option ℕ)
  deriving DecidableEq

/-- A received message with the priority it was sent with, and the priorities of the messages that
were stored then, itself among them. -/
structure Receipt where
  bytes : List Byte
  prio : ℕ
  ranks : List ℕ
  deriving DecidableEq

namespace QueueD

/-- `mq_send` copies its message into the slot at `mIdxIn`. -/
def store (Q : QueueD cfg) (heap : Heap Byte) (a : SendArgs) :
    Except Fault (QueueD cfg × Heap Byte) := do
  let box := Q.mBox
  check (box.mIdxIn < Q.mqAttr.mqMaxmsg) .outOfTable
  let m := box.messArray box.mIdxIn
  let heap ← heap.write .nullPointer .badPointer m.buffer a.msg
  return ({ Q with mBox := { box with
    messArray := Function.update box.messArray box.mIdxIn
      ⟨m.buffer,toInt32 a.msg.length,⟨a.now,a.msgprio,box.lastInOrder⟩⟩
    lastInOrder := (box.lastInOrder+1) % sizeMod
    mIdxIn := (box.mIdxIn+1) % Q.mqAttr.mqMaxmsg } },heap)

/-- The stored messages, in the order of the ring. -/
def messages (Q : QueueD cfg) : List MessT :=
  takeFrom (Ring.succ Q.mqAttr.mqMaxmsg) Q.mBox.messArray (numbMess Q) Q.mBox.mIdxOut

/-- `mq_receive` copies the message at `mIdxOut` out. -/
def fetch (Q : QueueD cfg) (heap : Heap Byte) (msgprio : Bool) :
    Except Fault (QueueD cfg × MqRet × Receipt) := do
  let box := Q.mBox
  check (box.mIdxOut < Q.mqAttr.mqMaxmsg) .outOfTable
  let m := box.messArray box.mIdxOut
  let bytes ← heap.read .nullPointer .badPointer m.buffer (sizeOfInt m.msgSz)
  check (box.mIdxIn < Q.mqAttr.mqMaxmsg) .outOfTable
  let prio := if msgprio then some (box.messArray box.mIdxIn).order.prio else none
  return ({ Q with mBox := { box with mIdxOut := (box.mIdxOut+1) % Q.mqAttr.mqMaxmsg } },
    .received bytes prio,⟨bytes,m.order.prio,Q.messages.map fun m => m.order.prio⟩)

end QueueD

/-- The semaphores of the module. -/
inductive MqSem
  | pool | queue (q : QueueId)
  deriving DecidableEq

/-- Where a thread is: in its own code, behind the yield of a `sem_wait` or `sem_post` inside one of
the two calls, or behind the last one, with the result. -/
inductive MqLoc
  | user | leaving (r : MqRet)
  | sendWait (a : SendArgs) | sendPost
  | recvWait (a : RecvArgs) | recvPost (a : RecvArgs) (q : QueueId)
  | recvSem (a : RecvArgs) (q : QueueId)
  deriving DecidableEq

/-- `accepted` and `returned` are the messages that `mq_send` has taken and `mq_receive` has copied
out, oldest first. -/
structure MqState (cfg : Config) where
  kernel : Kernel cfg
  poolAccessSem : Itc cfg
  queuePool : QueueId → QueueD cfg
  filePool : Fin numberOfFiles → FileD cfg
  heap : Heap Byte
  loc : Thid cfg → MqLoc
  yielding : Bool
  ret : Thid cfg → Option MqRet
  accepted : QueueId → List (List Byte × ℕ)
  returned : QueueId → List Receipt

inductive MqLabel (cfg : Config)
  | mqSend (a : SendArgs) (clk : Clock) | mqReceive (a : RecvArgs) (clk : Clock)
  | resume (clk : Clock) | yield (clk : Clock) (t : Thid cfg)

namespace MqState

def me (s : MqState cfg) : Thid cfg := s.kernel.activeThread

def runs (s : MqState cfg) : Bool := !s.yielding && decide (s.loc s.me = .user)

/-- The running thread yields at `x`. -/
def goTo (s : MqState cfg) (x : MqLoc) : MqState cfg :=
  { s with loc := Function.update s.loc s.me x, yielding := true }

/-- The call of the running thread ends. -/
def endCall (s : MqState cfg) (r : MqRet) : MqState cfg :=
  { s with loc := Function.update s.loc s.me .user, ret := Function.update s.ret s.me (some r) }

def setQueue (s : MqState cfg) (q : QueueId) (Q : QueueD cfg) : MqState cfg :=
  { s with queuePool := Function.update s.queuePool q Q }

def sem (s : MqState cfg) : MqSem → Itc cfg
  | .pool => s.poolAccessSem
  | .queue q => (s.queuePool q).sem

def setSem (s : MqState cfg) (r : MqSem) (k : Kernel cfg) (o : Itc cfg) : MqState cfg :=
  match r with
  | .pool => { s with kernel := k, poolAccessSem := o }
  | .queue q => { s.setQueue q { s.queuePool q with sem := o } with kernel := k }

/-- `sem_wait` with the assert around it, up to its yield; the flag tells whether it yields. -/
def semWait (s : MqState cfg) (r : MqSem) (clk : Clock) : Except Fault (MqState cfg × Bool) :=
  match smP s.kernel (some (s.sem r)) 0 0 clk with
  | (k,o,.waits _) => .ok (s.setSem r k (o.getD (s.sem r)),true)
  | (k,o,.ret e) => do
    check (e = .ok) .assertSem
    return (s.setSem r k (o.getD (s.sem r)),false)

/-- `sem_post` with the assert around it, up to its yield. -/
def semPost (s : MqState cfg) (r : MqSem) : Except Fault (MqState cfg × Bool) := do
  let (k,o,yields,e) ← smV s.kernel (some (s.sem r))
  check (e = .ok) .assertSem
  return (s.setSem r k (o.getD (s.sem r)),yields)

/-- The descriptor `mq`, if it is one. -/
def descriptor (s : MqState cfg) (mq : ℤ) : Option (FileD cfg) :=
  if h : 0 ≤ mq ∧ mq < (numberOfFiles : ℤ) then some (s.filePool ⟨mq.toNat,by omega⟩) else none

/-- The checks of both calls, up to the queue the descriptor is for. -/
def openQueue (s : MqState cfg) (mq : ℤ) (access : OFlags) : Except MqErr (FileD cfg) :=
  match s.descriptor mq with
  | none => .error .badf
  | some f =>
    if ¬(f.taken = true ∧ f.tId = s.me) then .error .badf
    else if f.oflags &&& access = 0 then .error .badf
    else if (s.queuePool f.qId).taken = false then .error .badf
    else .ok f

def sendCheck (s : MqState cfg) (a : SendArgs) : Except MqErr QueueId :=
  match s.openQueue a.mq (oWronly ||| oRdwr) with
  | .error e => .error e
  | .ok f =>
    let Q := s.queuePool f.qId
    if ¬a.msg.length ≤ Q.mqAttr.mqMsgsize then .error .msgSize
    else if ¬numbMess Q < (Q.mqAttr.mqMaxmsg+(sizeMod-1)) % sizeMod then .error .again
    else .ok f.qId

def recvCheck (s : MqState cfg) (a : RecvArgs) : Except MqErr QueueId :=
  match s.openQueue a.mq (oRdonly ||| oRdwr) with
  | .error e => .error e
  | .ok f =>
    let Q := s.queuePool f.qId
    if ¬Q.mqAttr.mqMsgsize ≤ a.buflen then .error .msgSize
    else if numbMess Q = 0 ∧ f.oflags &&& oNonblock ≠ 0 then .error .again
    else .ok f.qId

/-- The last `sem_post(&poolAccessSem)` of a call. -/
def release (s : MqState cfg) (r : MqRet) : Except Fault (MqState cfg) := do
  let (s,yields) ← s.semPost .pool
  return if yields then s.goTo (.leaving r) else s.endCall r

/-- `mq_send` with the pool to itself. -/
def sendLocked (qsort : Qsort) (s : MqState cfg) (a : SendArgs) : Except Fault (MqState cfg) :=
  match s.sendCheck a with
  | .error e => s.release (.failed e)
  | .ok q => do
    let (Q,heap) ← (s.queuePool q).store s.heap a
    let Q ← sortByPrio qsort Q a.granted
    let s := { s.setQueue q Q with
      heap := heap
      accepted := Function.update s.accepted q (s.accepted q ++ [(a.msg,a.msgprio)]) }
    let (s,yields) ← s.semPost (.queue q)
    if yields then return s.goTo .sendPost else s.release .sent

/-- `mq_receive` behind `sem_wait(&Q->sem)`. -/
def recvCopy (s : MqState cfg) (a : RecvArgs) (q : QueueId) : Except Fault (MqState cfg) := do
  let (Q,ret,receipt) ← (s.queuePool q).fetch s.heap a.msgprio
  let s := { s.setQueue q Q with
    returned := Function.update s.returned q (s.returned q ++ [receipt]) }
  return s.endCall ret

/-- `mq_receive` from `sem_wait(&Q->sem)` on. -/
def recvToken (s : MqState cfg) (a : RecvArgs) (q : QueueId) (clk : Clock) :
    Except Fault (MqState cfg) := do
  let (s,yields) ← s.semWait (.queue q) clk
  if yields then return s.goTo (.recvSem a q) else s.recvCopy a q

/-- `mq_receive` with the pool to itself. -/
def recvLocked (s : MqState cfg) (a : RecvArgs) (clk : Clock) : Except Fault (MqState cfg) :=
  match s.recvCheck a with
  | .error e => s.release (.failed e)
  | .ok q => do
    let (s,yields) ← s.semPost .pool
    if yields then return s.goTo (.recvPost a q) else s.recvToken a q clk

end MqState

def mqEnabled (s : MqState cfg) : MqLabel cfg → Bool
  | .mqSend _ _ => s.runs
  | .mqReceive _ _ => s.runs
  | .resume _ => !s.yielding && decide (s.loc s.me ≠ .user)
  | .yield clk t => (s.yielding || s.runs) && readyAfterSweep s.kernel clk t

def mqNext (qsort : Qsort) (s : MqState cfg) : MqLabel cfg → Except Fault (MqState cfg)
  | .mqSend a clk => do
    let (s,yields) ← s.semWait .pool clk
    if yields then return s.goTo (.sendWait a) else s.sendLocked qsort a
  | .mqReceive a clk => do
    let (s,yields) ← s.semWait .pool clk
    if yields then return s.goTo (.recvWait a) else s.recvLocked a clk
  | .resume clk =>
    match s.loc s.me with
    | .user => .ok s
    | .leaving r => .ok (s.endCall r)
    | .sendWait a => s.sendLocked qsort a
    | .sendPost => s.release .sent
    | .recvWait a => s.recvLocked a clk
    | .recvPost a q => s.recvToken a q clk
    | .recvSem a q => s.recvCopy a q
  | .yield clk t => do
    let k ← tkWakeupTimedoutThreads s.kernel clk
    return { s with kernel := k.dispatch t, yielding := false }

def mqMachine (cfg : Config) (qsort : Qsort) : Machine (MqState cfg) (MqLabel cfg) Fault where
  enabled := mqEnabled
  next := mqNext qsort

/-- Threads in their own code, queues and descriptors as `mq_open` has made them. -/
def mqInit (k : Kernel cfg) (queuePool : QueueId → QueueD cfg)
    (filePool : Fin numberOfFiles → FileD cfg) (heap : Heap Byte) : MqState cfg where
  kernel := k
  poolAccessSem := smCreate 1 0
  queuePool := queuePool
  filePool := filePool
  heap := heap
  loc := fun _ => .user
  yielding := false
  ret := fun _ => none
  accepted := fun _ => []
  returned := fun _ => []

end Tinker

import Tinker.ItcObjects
import Tinker.Machine
import Tinker.Pthread
import Tinker.ScheduleOps

/-! The whole kernel at work: threads that create, end, delete and join each other, sleep, change
priorities, use every kind of ITC object, and lock and wait with mutexes and condition variables.
A step is what a thread does between two yields, or the sweep and the dispatch inside `tk_yield`,
or the passing of time. -/
namespace Tinker

open Kernel Outcome

variable {cfg : Config} {numQ : ℕ}

deriving instance DecidableEq for ThreadReq

/-- A call of `sm_p`, `q_receive` or `q_vreceive`, as its object tells: the slot with the number of
the object in it, the timeout, and the time of the call. -/
structure TakeCall (numQ : ℕ) where
  op : ItcSet
  qid : Fin numQ
  gen : ℕ
  timeout : Clock
  since : ℕ
  deriving DecidableEq

/-- Where a thread is between two yields. `returning` is behind the yield of a call that does
nothing more, `inSend` behind that of `q_send` and `q_vsend`. -/
inductive Place (cfg : Config) (numQ : ℕ)
  | user | returning | ended
  | inTake (c : TakeCall numQ) (markIdx : Option ℕ)
  | inSend (qid : Fin numQ) (gen : ℕ)
  | inJoin (t : Thid cfg) (inst : ℕ)
  | inCreate (r : ThreadReq) (validProcIdx : Thid cfg)
  | inWait (c : ℕ) | inSignal (c : ℕ)
  deriving DecidableEq

/-- What has happened: a take has returned, `q_vsend` has accepted and `q_vreceive` delivered a
message, a thread has ended, `tk_join` has returned a value. -/
inductive Event (cfg : Config) (numQ : ℕ)
  | took (t : Thid cfg) (c : TakeCall numQ) (e : ItcErr) (now : ℕ)
  | accepted (qid : Fin numQ) (gen : ℕ) (msg : VMsg)
  | delivered (qid : Fin numQ) (gen : ℕ) (bytes : List Byte) (len : ℕ)
  | ended (inst value : ℕ)
  | joined (inst value : ℕ)
  deriving DecidableEq

/-- The kernel with its objects, where each thread is, whether the running one has called
`tk_yield`, and the time in microseconds. The other fields only count: `gen` numbers the objects
of a slot, `inst` the threads of a slot of the pool. -/
structure World (cfg : Config) (numQ : ℕ) extends Sync cfg where
  store : ItcStore cfg numQ
  place : Thid cfg → Place cfg numQ
  yielding : Bool
  now : ℕ
  gen : Fin numQ → ℕ
  inst : Thid cfg → ℕ
  born : ℕ
  log : List (Event cfg numQ)

/-- The arguments of `sm_create`, `q_create` and `q_vcreate`. -/
inductive ItcReq
  | sem (count : ℕ) (flags : IpcFlags)
  | sQueue (count : ℕ) (flags : IpcFlags)
  | vQueue (count mmlen : ℕ) (flags : IpcFlags)

def ItcReq.obj : ItcReq → ItcObj cfg
  | .sem count flags => smObj count flags
  | .sQueue count flags => qObj count flags
  | .vQueue count mmlen flags => qVobj count mmlen flags

/-- What `sm_v`, `q_send` and `q_vsend` hand over. -/
inductive Payload
  | token | words (m : Msg) | bytes (m : VMsg) (granted : Bool)

inductive WorldLabel (cfg : Config) (numQ : ℕ)
  | createItc (r : ItcReq) (granted : Bool) | deleteItc (op : ItcSet) (qid : Fin numQ) | destructItc
  | take (op : ItcSet) (qid : Fin numQ) (flags : IpcFlags) (timeout : Clock) (bufLen : ℕ)
  | give (qid : Fin numQ) (p : Payload)
  | lock (r : MutexRef) | unlock (r : MutexRef)
  | wait (c : ℕ) (r : MutexRef) | signal (c : ℕ) | broadcast (c : ℕ)
  | create (r : ThreadReq) | exit (retval : ℕ) | delete (t : Thid cfg) | join (t : Thid cfg)
  | msleep (ms : BitVec 32) | changePrio (t : Thid cfg) (newPrio : ℤ)
  | resume | yield (t : Thid cfg) | advance (us : ℕ)

namespace World

def me (w : World cfg numQ) : Thid cfg := w.kernel.activeThread

/-- The reading of the clock, which wraps. -/
def clock (w : World cfg numQ) : Clock := BitVec.ofNat 32 w.now

/-- The running thread comes to `x`, and yields there or goes on. -/
def goTo (w : World cfg numQ) (x : Place cfg numQ) (yields : Bool) : World cfg numQ :=
  { w with place := Function.update w.place w.me x, yielding := yields }

def setKernel (w : World cfg numQ) (k : Kernel cfg) : World cfg numQ := { w with kernel := k }

def setStore (w : World cfg numQ) (st : ItcStore cfg numQ) : World cfg numQ := { w with store := st }

def setSync (w : World cfg numQ) (s : Sync cfg) : World cfg numQ := { w with toSync := s }

/-- The stages have worked on the object in slot `qid`, if there is one. -/
def putItc (w : World cfg numQ) (qid : Fin numQ) : Option (Itc cfg) → World cfg numQ
  | none => w
  | some q => w.setStore (w.store.putItc qid q)

def emit (w : World cfg numQ) (e : Event cfg numQ) : World cfg numQ := { w with log := w.log ++ [e] }

/-- A take returns, to the thread's own code. -/
def endTake (w : World cfg numQ) (c : TakeCall numQ) (e : ItcErr) : World cfg numQ :=
  (w.goTo .user false).emit (.took w.me c e w.now)

/-- `q_vreceive` has copied a message out. -/
def deliver (w : World cfg numQ) (c : TakeCall numQ) : Option (List Byte × ℕ) → World cfg numQ
  | none => w
  | some (bytes,len) => w.emit (.delivered c.qid c.gen bytes len)

def createItc (w : World cfg numQ) (r : ItcReq) (granted : Bool) : World cfg numQ :=
  match w.store.create r.obj granted with
  | (st,.ok) => { w.setStore st with gen := Function.update w.gen st.idx (w.gen st.idx+1) }
  | (st,_) => w.setStore st

def deleteItc (w : World cfg numQ) (op : ItcSet) (qid : Fin numQ) : Except Fault (World cfg numQ) := do
  let st ← match op with
    | .sem => w.store.smDelete qid
    | .sQueue => w.store.qDelete qid
    | .vQueue => w.store.qVdelete qid
  return w.setStore st

/-- `sm_p`, `q_receive` and `q_vreceive` up to their yield. -/
def take (w : World cfg numQ) (op : ItcSet) (qid : Fin numQ) (flags : IpcFlags) (timeout : Clock)
    (bufLen : ℕ) : Except Fault (World cfg numQ) :=
  let c : TakeCall numQ := ⟨op,qid,w.gen qid,timeout,w.now⟩
  match op with
  | .sem => do
    let o ← w.store.slot qid
    match smP w.kernel (o.map ItcObj.toItc) flags timeout w.clock with
    | (k,q,.ret e) => return ((w.setKernel k).putItc qid q).endTake c e
    | (k,q,.waits m) => return ((w.setKernel k).putItc qid q).goTo (.inTake c m) true
  | .sQueue => do
    let o ← w.store.slot qid
    match ← qReceive w.kernel (o.map ItcObj.toItc) flags timeout w.clock with
    | (k,q,.ret e _) => return ((w.setKernel k).putItc qid q).endTake c e
    | (k,q,.waits m) => return ((w.setKernel k).putItc qid q).goTo (.inTake c m) true
  | .vQueue => do
    match ← w.store.qVreceive w.kernel qid flags timeout w.clock bufLen with
    | (k,st,.ret e msg) => return (((w.setKernel k).setStore st).endTake c e).deliver c msg
    | (k,st,.waits m) => return ((w.setKernel k).setStore st).goTo (.inTake c m) true

/-- The end of `lock_stage` after its yield; an untimed wait touches the object no more. -/
def lockEnd (w : World cfg numQ) (qid : Fin numQ) :
    Option ℕ → Except Fault (World cfg numQ × ItcErr)
  | none => .ok (w,.ok)
  | some markIdx => do
    let o ← w.store.deref qid
    let (k,q,e) ← lockStageWoken w.kernel o.toItc markIdx
    return ((w.setKernel k).putItc qid (some q),e)

/-- `sm_p`, `q_receive` and `q_vreceive` after their yield. -/
def takeWoken (w : World cfg numQ) (c : TakeCall numQ) (markIdx : Option ℕ) :
    Except Fault (World cfg numQ) := do
  let (w,rc) ← w.lockEnd c.qid markIdx
  match c.op with
  | .sem => return w.endTake c rc
  | .sQueue =>
    let o ← w.store.deref c.qid
    let (q,e,_) ← qReceiveEnd w.kernel o.toItc rc
    return (w.putItc c.qid (some q)).endTake c e
  | .vQueue =>
    let (st,e,msg) ← w.store.qVreceiveEnd w.kernel c.qid rc
    return ((w.setStore st).endTake c e).deliver c msg

/-- `q_vsend` up to its yield. -/
def giveBytes (printk : Bool) (w : World cfg numQ) (qid : Fin numQ) (m : VMsg) (granted : Bool) :
    Except Fault (World cfg numQ) := do
  let (k,st,e) ← w.store.qVsend printk w.kernel qid m granted
  let w := (w.setKernel k).setStore st
  let w := if e = none ∨ e = some .ok then w.emit (.accepted qid (w.gen qid) m) else w
  return if e.isNone then w.goTo (.inSend qid (w.gen qid)) true else w

/-- `sm_v`, `q_send` and `q_vsend` up to their yield, where `printk` is voided. -/
def give (w : World cfg numQ) (qid : Fin numQ) : Payload → Except Fault (World cfg numQ)
  | .token => do
    let o ← w.store.slot qid
    let (k,q,yields,_) ← smV w.kernel (o.map ItcObj.toItc)
    let w := (w.setKernel k).putItc qid q
    return if yields then w.goTo .returning true else w
  | .words m => do
    let o ← w.store.slot qid
    let (k,q,e) ← qSend w.kernel (o.map ItcObj.toItc) m
    let w := (w.setKernel k).putItc qid q
    return if e.isNone then w.goTo (.inSend qid (w.gen qid)) true else w
  | .bytes m granted => w.giveBytes false qid m granted

/-- The calls on mutexes and condition variables up to their first yield. -/
def lock (w : World cfg numQ) (r : MutexRef) : Except Fault (World cfg numQ) := do
  let (s,y) ← pthreadMutexLock w.toSync r
  return if y then (w.setSync s).goTo .returning true else w.setSync s

def unlock (w : World cfg numQ) (r : MutexRef) : Except Fault (World cfg numQ) := do
  let (s,y) ← pthreadMutexUnlock w.toSync r
  return if y then (w.setSync s).goTo .returning true else w.setSync s

def wait (w : World cfg numQ) (c : ℕ) (r : MutexRef) : Except Fault (World cfg numQ) := do
  let s ← pthreadCondWait w.toSync c r
  return (w.setSync s).goTo (.inWait c) true

def signal (w : World cfg numQ) (c : ℕ) : Except Fault (World cfg numQ) := do
  match ← pthreadCondSignal w.toSync c with
  | (s,.done) => return w.setSync s
  | (s,.yields) => return (w.setSync s).goTo (.inSignal c) true
  | (s,.yieldsUnlock) => return (w.setSync s).goTo .returning true

def broadcast (w : World cfg numQ) (c : ℕ) : Except Fault (World cfg numQ) := do
  let (s,y) ← pthreadCondBroadcast w.toSync c
  return if y then (w.setSync s).goTo .returning true else w.setSync s

/-- `tk_create_thread` up to the yield of the constructor, on the new thread. -/
def create (w : World cfg numQ) (r : ThreadReq) : Except Fault (World cfg numQ) := do
  let (k,t) ← tkCreateThreadBegin w.kernel r
  return { w.goTo (.inCreate r t) true with
    kernel := k
    place := Function.update (Function.update w.place w.me (.inCreate r t)) t .user
    inst := Function.update w.inst t w.born
    born := w.born+1 }

/-- The start function returns, into `_tk_destructor`. -/
def exit (w : World cfg numQ) (retval : ℕ) : World cfg numQ :=
  ((w.goTo .ended true).setKernel (tkDestructor w.kernel retval w.clock)).emit
    (.ended (w.inst w.me) retval)

def delete (w : World cfg numQ) (t : Thid cfg) : Except Fault (World cfg numQ) := do
  let (k,_) ← tkDeleteThread w.kernel t
  return w.setKernel k

/-- `tk_join` up to its yield, or to its end where there is none. -/
def join (w : World cfg numQ) (t : Thid cfg) : Except Fault (World cfg numQ) := do
  let (k,r) ← tkJoin w.kernel t
  match r with
  | .ok value => return (w.setKernel k).emit (.joined (w.inst t) value)
  | .waits => return (w.setKernel k).goTo (.inJoin t (w.inst t)) true
  | .einval => return w.setKernel k
  | .esrch => return w.setKernel k

def joinWoken (w : World cfg numQ) (inst : ℕ) : Except Fault (World cfg numQ) := do
  match ← tkJoinWoken w.kernel with
  | .ok value => return (w.goTo .user false).emit (.joined inst value)
  | _ => return w.goTo .user false

def msleep (w : World cfg numQ) (ms : BitVec 32) : World cfg numQ :=
  (w.setKernel (tkMsleep w.kernel ms w.clock)).goTo .returning true

def changePrio (w : World cfg numQ) (t : Thid cfg) (newPrio : ℤ) : Except Fault (World cfg numQ) := do
  let (k,_) ← tkChangePrio w.kernel t newPrio
  return w.setKernel k

/-- What a thread does when it runs again behind the yield of a call. -/
def resume (w : World cfg numQ) : Except Fault (World cfg numQ) :=
  match w.place w.me with
  | .user => .ok w
  | .ended => .ok w
  | .returning => .ok (w.goTo .user false)
  | .inTake c markIdx => w.takeWoken c markIdx
  | .inSend qid _ => do
    let _ ← w.store.sendEnd w.kernel qid
    return w.goTo .user false
  | .inJoin _ inst => w.joinWoken inst
  | .inCreate r t => do
    let (k,_) ← tkCreateThreadEnd w.kernel r t
    return (w.goTo .user false).setKernel k
  | .inWait c => do
    let (s,y) ← pthreadCondWaitEnd w.toSync c
    return (w.setSync s).goTo (if y then .returning else .user) y
  | .inSignal c => do
    let (s,y) ← pthreadCondSignalEnd w.toSync c
    return (w.setSync s).goTo (if y then .returning else .user) y

/-- The sweep and the dispatch of `tk_yield`. -/
def yield (w : World cfg numQ) (t : Thid cfg) : Except Fault (World cfg numQ) := do
  let k ← tkWakeupTimedoutThreads w.kernel w.clock
  return { w.setKernel (k.dispatch t) with yielding := false }

/-- The running thread is in its own code. -/
def runs (w : World cfg numQ) : Bool := !w.yielding && decide (w.place w.me = .user)

end World

/-- A thread in its own code may make any call; the root thread and the idle thread have no start
function to return from. -/
def worldEnabled (w : World cfg numQ) : WorldLabel cfg numQ → Bool
  | .exit _ => w.runs && decide (w.me ≠ root ∧ w.me ≠ w.kernel.idleThid)
  | .resume => !w.yielding && decide (w.place w.me ≠ .user ∧ w.place w.me ≠ .ended)
  | .yield t => (w.yielding || w.runs) && readyAfterSweep w.kernel w.clock t
  | .advance _ => true
  | _ => w.runs

def worldNext (w : World cfg numQ) : WorldLabel cfg numQ → Except Fault (World cfg numQ)
  | .createItc r granted => .ok (w.createItc r granted)
  | .deleteItc op qid => w.deleteItc op qid
  | .destructItc => do
    let st ← w.store.tkItcDestruct
    return w.setStore st
  | .take op qid flags timeout bufLen => w.take op qid flags timeout bufLen
  | .give qid p => w.give qid p
  | .lock r => w.lock r
  | .unlock r => w.unlock r
  | .wait c r => w.wait c r
  | .signal c => w.signal c
  | .broadcast c => w.broadcast c
  | .create r => w.create r
  | .exit retval => .ok (w.exit retval)
  | .delete t => w.delete t
  | .join t => w.join t
  | .msleep ms => .ok (w.msleep ms)
  | .changePrio t newPrio => w.changePrio t newPrio
  | .resume => w.resume
  | .yield t => w.yield t
  | .advance us => .ok { w with now := w.now+us }

def worldMachine (cfg : Config) (numQ : ℕ) : Machine (World cfg numQ) (WorldLabel cfg numQ) Fault where
  enabled := worldEnabled
  next := worldNext

/-- The world on a kernel whose threads are all in their own code, with no ITC object yet. -/
def worldInit (k : Kernel cfg) (i : Fin numQ) : World cfg numQ where
  toSync := Sync.init k
  store := ItcStore.clear i
  place := fun _ => .user
  yielding := false
  now := 0
  gen := fun _ => 0
  inst := fun t => t.val
  born := cfg.maxThreads
  log := []

end Tinker

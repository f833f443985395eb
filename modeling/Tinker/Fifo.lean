import Tinker.CanFrame
import Tinker.MqueueCalls
import Tinker.Owned

/-! The driver of FIFOs, `fifo.c`. A FIFO is a message queue whose messages are of one size: a length
and a pointer to a copy of what has been written, which `fifo_read` frees. -/
namespace Tinker

open Kernel Outcome

variable {cfg : Config}

/-- `fifo_msg_t`. -/
structure FifoMsgT where
  len : ℤ
  data : ℕ
  deriving DecidableEq

namespace FifoMsgT

/-- `sizeof(fifo_msg_t)`. -/
def size : ℕ := 8

/-- The bytes of a message. -/
def bytes (msg : FifoMsgT) : List Byte := leBytes 4 (sizeOfInt msg.len) ++ leBytes 4 msg.data

def ofBytes (l : List Byte) : FifoMsgT := ⟨toInt32 (leNat (l.take 4)),leNat ((l.drop 4).take 4)⟩

end FifoMsgT

/-- `DEF_PRIO`, which is the `prio` of every FIFO. -/
def defPrio : ℕ := 10

/-- The asserts of `fifo_write` and `fifo_read`, a block that is read or freed and is not allocated, and
what stops the call of the queue below. -/
inductive FifoFault
  | mq (f : Fault)
  | assertData | assertSent | assertRlen | assertLen
  | badPointer
  deriving DecidableEq

/-- What a thread is in; a writer has copied the data at `ptr` to `p`. -/
inductive FifoCall
  | idle | writing (p : ℕ) (ptr : List Byte) | reading (len : ℤ)
  deriving DecidableEq

/-- The blocks the driver has got from `malloc` and not freed are in `data`. `ret` is what a call has
returned last, with what it has put at `ptr`. `written` and `got` are what the calls have brought to
each queue and taken from it, oldest first. -/
structure FifoState (cfg : Config) where
  mq : MqState cfg
  data : ℕ → Option (List Byte)
  call : Thid cfg → FifoCall
  ret : Thid cfg → Option (ℤ × List Byte)
  written : QueueId → List (List Byte)
  got : QueueId → List (List Byte)

/-- A call is made on a handle whose `q` is `q`; `block` is what `malloc` will answer, `now` and
`granted` are for the send below it. -/
inductive FifoLabel (cfg : Config)
  | fifoWrite (q : ℤ) (ptr : List Byte) (block : Option ℕ) (now : ℤ) (granted : Bool) (clk : Clock)
  | fifoRead (q : ℤ) (len : ℤ) (clk : Clock)
  | resume (clk : Clock) | yield (clk : Clock) (t : Thid cfg)

/-- Where `after` has one more than `before`, `bytes` are noted. -/
def logged {A : Type*} (before after : QueueId → List A) (bytes : List Byte)
    (log : QueueId → List (List Byte)) : QueueId → List (List Byte) := fun q =>
  if (before q).length < (after q).length then log q ++ [bytes] else log q

namespace FifoState

variable (s : FifoState cfg)

/-- The call of the running thread ends. -/
def endFifo (r : ℤ) (bytes : List Byte) : FifoState cfg :=
  { s with
    call := Function.update s.call s.mq.me .idle
    ret := Function.update s.ret s.mq.me (some (r,bytes)) }

/-- `fifo_write` behind its `mq_send`; it returns the size of an `int`. -/
def writeEnds : Except FifoFault (FifoState cfg) := do
  check (s.mq.ret s.mq.me = some .sent) .assertSent
  return s.endFifo 4 []

/-- `fifo_read` behind its `mq_receive`. -/
def readEnds (len : ℤ) (returned : QueueId → List Receipt) : Except FifoFault (FifoState cfg) :=
  match s.mq.ret s.mq.me with
  | some (.received rbytes _) => do
    check (rbytes.length = FifoMsgT.size) .assertRlen
    let msg := FifoMsgT.ofBytes rbytes
    check (msg.len ≤ len) .assertLen
    match s.data msg.data with
    | none => throw .badPointer
    | some block => do
      check (sizeOfInt msg.len ≤ block.length) .badPointer
      let bytes := block.take (sizeOfInt msg.len)
      return { s with
        data := Function.update s.data msg.data none
        got := logged returned s.mq.returned bytes s.got }.endFifo msg.len bytes
  | _ => throw .assertRlen

def setMq (mq : MqState cfg) : FifoState cfg := { s with mq := mq }

/-- The queue below has taken the message, or not yet. -/
def noteWrite (mq : MqState cfg) (ptr : List Byte) : FifoState cfg :=
  { s.setMq mq with written := logged s.mq.accepted mq.accepted ptr s.written }

/-- The call of the running thread goes on below it, and behind that if it has come back. -/
def goOn (x : Except Fault (MqState cfg)) : Except FifoFault (FifoState cfg) := do
  let mq ← x.mapError .mq
  match s.call mq.me with
  | .idle => return s.setMq mq
  | .writing _ ptr =>
    if mq.loc mq.me = .user then (s.noteWrite mq ptr).writeEnds else return s.noteWrite mq ptr
  | .reading len =>
    if mq.loc mq.me = .user then (s.setMq mq).readEnds len s.mq.returned else return s.setMq mq

def setCall (x : FifoCall) : FifoState cfg :=
  { s with call := Function.update s.call s.mq.me x }

/-- The data of the running thread is copied to a new block. -/
def copyTo (p : ℕ) (ptr : List Byte) : FifoState cfg :=
  { s.setCall (.writing p ptr) with data := Function.update s.data p (some ptr) }

end FifoState

/-- What `fifo_write` sends. -/
def fifoSend (q : ℤ) (ptr : List Byte) (p : ℕ) (now : ℤ) (granted : Bool) : SendArgs :=
  ⟨q,(FifoMsgT.mk ptr.length p).bytes,defPrio,now,granted⟩

def fifoRecv (q : ℤ) : RecvArgs := ⟨q,FifoMsgT.size,false⟩

/-- `len` is an `int`; `malloc` answers with a pointer to memory that is not in use, or NULL. -/
def fifoEnabled (s : FifoState cfg) : FifoLabel cfg → Bool
  | .fifoWrite _ ptr block _ _ _ => s.mq.runs && decide (ptr.length < 2^31) &&
    block.all fun p => decide (0 < p ∧ p < 2^32) && (s.data p).isNone
  | .fifoRead _ _ _ => s.mq.runs
  | .resume clk => mqEnabled s.mq (.resume clk)
  | .yield clk t => mqEnabled s.mq (.yield clk t)

def fifoNext (qsort : Qsort) (s : FifoState cfg) :
    FifoLabel cfg → Except FifoFault (FifoState cfg)
  | .fifoWrite q ptr block now granted clk =>
    match block with
    | none => .error .assertData
    | some p => (s.copyTo p ptr).goOn (mqNext qsort s.mq (.mqSend (fifoSend q ptr p now granted) clk))
  | .fifoRead q len clk =>
    (s.setCall (.reading len)).goOn (mqNext qsort s.mq (.mqReceive (fifoRecv q) clk))
  | .resume clk => s.goOn (mqNext qsort s.mq (.resume clk))
  | .yield clk t => do
    let mq ← (mqNext qsort s.mq (.yield clk t)).mapError .mq
    return s.setMq mq

/-- The call of the queue that a step makes. -/
def FifoLabel.below : FifoLabel cfg → MqLabel cfg
  | .fifoWrite q ptr block now granted clk =>
    .mqSend (fifoSend q ptr (block.getD 0) now granted) clk
  | .fifoRead q _ clk => .mqReceive (fifoRecv q) clk
  | .resume clk => .resume clk
  | .yield clk t => .yield clk t

def fifoMachine (cfg : Config) (qsort : Qsort) :
    Machine (FifoState cfg) (FifoLabel cfg) FifoFault where
  enabled := fifoEnabled
  next := fifoNext qsort

/-- Threads in their own code, and FIFOs in which nothing has been written. -/
def fifoInit (mq : MqState cfg) : FifoState cfg where
  mq := mq
  data := fun _ => none
  call := fun _ => .idle
  ret := fun _ => none
  written := fun _ => []
  got := fun _ => []

/-- What a receiver would get of the stored messages of a queue. -/
def MqState.contents (s : MqState cfg) (q : QueueId) : List (Option (List Byte × ℕ)) :=
  (s.queuePool q).messages.map fun m => m.content s.heap

namespace FifoState

variable (s : FifoState cfg)

/-- The blocks that the stored messages of a queue point to. -/
def inQueue (q : QueueId) : List ℕ :=
  (s.mq.contents q).map fun c => (FifoMsgT.ofBytes (c.getD ([],0)).1).data

/-- The block a writer has not sent yet. -/
def inHand (t : Thid cfg) : List ℕ :=
  match s.call t with
  | .writing p _ => if (s.mq.loc t).leaves = some .sent then [] else [p]
  | _ => []

/-- Who has which blocks: a queue those of its messages, a writer its own. -/
def held : QueueId ⊕ Thid cfg → List ℕ
  | .inl q => if (s.mq.queuePool q).taken then s.inQueue q else []
  | .inr t => s.inHand t

end FifoState

end Tinker

import Mathlib.Data.List.Basic
import Tinker.Mqueue

/-! `mq_open` of `mqueue.c`: the pools of queues and descriptors, the memory of a new ring, and the
semaphore a queue is given. -/
namespace Tinker

open Outcome

variable {cfg : Config} {numQ : ℕ}

def oCreat : OFlags := 0x10

def qnameLen : ℕ := 24

def createOnly : ℤ := numberOfFiles+1

/-- The size of a `MessT`, whose members are all 32 bits wide. -/
def sizeofMessT : ℕ := 20

/-- A `QueueD` of the pool: its ring is an array from `malloc`, and `sem` is the id of an ITC
object. -/
structure QueueSlot where
  taken : Bool
  mqName : List Byte
  mqAttr : MqAttr
  mIdxIn : ℕ
  mIdxOut : ℕ
  messArray : Option ℕ
  lastInOrder : ℕ
  sem : ℕ

/-- What `mq_open` is given, with what `malloc` will answer: in `sem_init` on the first call, for
the array (0) and the buffers of its slots (from 1 on), and in `sem_init` for the new queue. `junk`
is what the slots hold at first. -/
structure OpenArgs (cfg : Config) where
  mqName : List Byte
  oflags : OFlags
  mqAttr : Option MqAttr
  self : Thid cfg
  onceGranted : Bool
  granted : ℕ → Bool
  junk : ℕ → MessT
  semGranted : Bool

/-- `errno` as a call leaves it; 0 is what `sem_wait` and `sem_post` set it to. -/
inductive OpenErr
  | zero | nameTooLong | inval | mFile | exist | nFile | noEnt
  deriving DecidableEq

inductive OpenRet
  | opened (dId : ℤ) | failed
  deriving DecidableEq

/-- The static data of `mqueue.c` and the memory it points to, with the `sem_once` that
`pthread_once` uses. `access` is the token count of `poolAccessSem`. `created` keeps the flags of the
call that has set up a queue. -/
structure MqPools (cfg : Config) (numQ : ℕ) where
  errno : OpenErr
  semOnce : ℕ
  mqOnce : Bool
  poolAccessSem : ℕ
  access : ℤ
  queuePool : QueueId → QueueSlot
  filePool : Fin numberOfFiles → FileD cfg
  arrays : Heap MessT
  buffers : Heap Byte
  store : ItcStore cfg numQ
  created : QueueId → Option OFlags

/-- A char array up to its end or to the first zero. -/
def cString (chars : List Byte) : List Byte := (chars.take qnameLen).takeWhile (· ≠ 0)

/-- `strncpy` into a `mq_name`. -/
def strncpy (name : List Byte) : List Byte :=
  name.take qnameLen ++ List.replicate (qnameLen-name.length) 0

/-- The slot `k` of an array is read. -/
def messAt (arrays : Heap MessT) (p : Option ℕ) (k : ℕ) : Except Fault MessT := do
  let l ← arrays.get .nullPointer .badPointer p
  match l[k]? with
  | none => throw .outOfTable
  | some m => return m

/-- The slot `k` of an array is written. -/
def setMess (arrays : Heap MessT) (p : Option ℕ) (k : ℕ) (f : MessT → MessT) :
    Except Fault (Heap MessT) := do
  let l ← arrays.get .nullPointer .badPointer p
  check (k < l.length) .outOfTable
  return { arrays with mem := Function.update arrays.mem (p.getD 0) (some (l.modify k f)) }

/-- The clean-up loop, from slot `k-1` down. -/
def freeBuffers (arrays : Heap MessT) (p : Option ℕ) : ℕ → Heap Byte → Except Fault (Heap Byte)
  | 0, buffers => .ok buffers
  | k+1, buffers => do
    let m ← messAt arrays p k
    let buffers ← buffers.free .badPointer m.buffer
    freeBuffers arrays p k buffers

namespace MqPools

def setSlot (s : MqPools cfg numQ) (q : QueueId) (Q : QueueSlot) : MqPools cfg numQ :=
  { s with queuePool := Function.update s.queuePool q Q }

/-- `sem_wait(&poolAccessSem)`, once it returns. -/
def semWait (s : MqPools cfg numQ) : MqPools cfg numQ :=
  { s with access := s.access-1, errno := .zero }

/-- `sem_post(&poolAccessSem)`. -/
def semPost (s : MqPools cfg numQ) : MqPools cfg numQ :=
  { s with access := s.access+1, errno := .zero }

def setErrno (s : MqPools cfg numQ) (e : OpenErr) : MqPools cfg numQ := { s with errno := e }

/-- `initialize`. -/
def initPools (s : MqPools cfg numQ) (granted : Bool) : Except Fault (MqPools cfg numQ) :=
  match s.store.create (smObj 1 0) granted with
  | (store,e) => do
    check (e = .ok) .assertSem
    return { s with
      errno := .zero
      mqOnce := true
      store := store
      poolAccessSem := store.idx
      access := 1
      queuePool := fun q => { s.queuePool q with
        taken := false, mqName := 0 :: List.replicate (qnameLen-1) (BitVec.ofNat 8 'Q'.toNat) }
      filePool := fun d => { s.filePool d with taken := false } }

/-- `sm_p(sem_once)` and the `sm_v` behind it, with their asserts, once both have returned: it must
be a semaphore. -/
def passOnce (s : MqPools cfg numQ) : Except Fault Unit :=
  if h : s.semOnce < numQ then do
    match ← s.store.slot ⟨s.semOnce,h⟩ with
    | none => throw .assertSem
    | some o => check (o.bType = .sem) .assertSem
  else throw .outOfTable

/-- `pthread_once(&mq_once, initialize)`. -/
def pthreadOnce (s : MqPools cfg numQ) (granted : Bool) : Except Fault (MqPools cfg numQ) := do
  s.passOnce
  if s.mqOnce then return s
  else
    let s ← s.initPools granted
    s.passOnce
    return s

/-- The first taken queue of that name. -/
def findName (s : MqPools cfg numQ) (name : List Byte) : Option QueueId :=
  (List.finRange numberOfQueues).find? fun q =>
    (s.queuePool q).taken && decide (cString (s.queuePool q).mqName = cString name)

/-- The loop over the slots of a new ring, `n` of them from `k` on; the flag tells whether each of
them has got its buffer. -/
def fillArray (q : QueueId) (attr : MqAttr) (granted : ℕ → Bool) :
    ℕ → ℕ → MqPools cfg numQ → Except Fault (MqPools cfg numQ × Bool)
  | 0, _, s => .ok (s,true)
  | n+1, k, s =>
    let p := (s.queuePool q).messArray
    if granted (k+1) then do
      let (buffers,b) := s.buffers.malloc (List.replicate attr.mqMsgsize 0)
      let arrays ← setMess s.arrays p k fun m => { m with buffer := some b }
      let arrays ← setMess arrays p k fun m => { m with msgSz := 0, order := ⟨0,0,0⟩ }
      fillArray q attr granted n (k+1) { s.setSlot q { s.queuePool q with lastInOrder := 0 } with
        arrays := arrays, buffers := buffers }
    else do
      let arrays ← setMess s.arrays p k fun m => { m with buffer := none }
      let buffers ← freeBuffers arrays p (k+1) s.buffers
      let arrays ← arrays.free .badPointer p
      return ({ s with arrays := arrays, buffers := buffers },false)

/-- The semaphore of a new queue, which one with `O_NONBLOCK` is not given. -/
def initSem (s : MqPools cfg numQ) (q : QueueId) (oflags : OFlags) (granted : Bool) :
    Except Fault (MqPools cfg numQ) :=
  if oflags &&& oNonblock = 0 then
    match s.store.create (smObj 0 0) granted with
    | (store,e) => do
      check (e = .ok) .assertSem
      return { s.setSlot q { s.queuePool q with sem := store.idx } with store := store, errno := .zero }
  else .ok s

/-- `mq_open` from the array of a new queue on; without a queue it returns -1. -/
def makeRing (s : MqPools cfg numQ) (a : OpenArgs cfg) (q : QueueId) (attr : MqAttr) :
    Except Fault (MqPools cfg numQ × Option QueueId) :=
  if a.granted 0 then do
    let slots := attr.mqMaxmsg*sizeofMessT % sizeMod/sizeofMessT
    let (arrays,b) := s.arrays.malloc ((List.range slots).map a.junk)
    let (s,filled) ← fillArray q attr a.granted attr.mqMaxmsg 0
      { s.setSlot q { s.queuePool q with mqAttr := attr, messArray := some b } with
        arrays := arrays }
    if filled = false then return (s.semPost.setErrno .nFile,none)
    else
      let s ← (s.setSlot q { s.queuePool q with mIdxIn := 0, mIdxOut := 0 }).initSem q a.oflags
        a.semGranted
      return ({ s with created := Function.update s.created q (some a.oflags) },some q)
  else
    let s := s.setSlot q { s.queuePool q with mqAttr := attr, messArray := none }
    .ok (s.semPost.setErrno .nFile,none)

/-- The branch of `O_CREAT`. The search begins at `qPIdx`, which is 0 and stays so, and so finds the
slot in as many steps as its index says. -/
def createQueue (s : MqPools cfg numQ) (a : OpenArgs cfg) :
    Except Fault (MqPools cfg numQ × Option QueueId) :=
  match seekEmpty (fun q => (s.queuePool q).taken) numberOfQueues ⟨0,by decide⟩ with
  | (_,false) => .ok ((s.setErrno .mFile).semPost,none)
  | (q,true) =>
    let s := s.setSlot q { s.queuePool q with taken := true }
    if s.findName a.mqName ≠ none then .ok (s.semPost.setErrno .exist,none)
    else
      let s := s.setSlot q { s.queuePool q with mqName := strncpy a.mqName }
      match a.mqAttr with
      | none => .ok (s.setErrno .inval,none)
      | some attr => s.makeRing a q attr

/-- The end of `mq_open`: a descriptor for the queue just created, or for that of the name. -/
def openFile (s : MqPools cfg numQ) (a : OpenArgs cfg) (qId : Option QueueId) :
    MqPools cfg numQ × OpenRet :=
  if a.oflags &&& (oRdonly ||| oWronly ||| oRdwr) ≠ 0 then
    match qId.or (s.findName a.mqName) with
    | none => (s.semPost.setErrno .noEnt,.failed)
    | some q =>
      match seekEmpty (fun d => (s.filePool d).taken) numberOfFiles ⟨0,by decide⟩ with
      | (_,false) => ((s.setErrno .mFile).semPost,.failed)
      | (d,true) =>
        (semPost { s with filePool := Function.update s.filePool d ⟨true,a.self,a.oflags,q⟩ },
          .opened d)
  else (s.semPost,.opened createOnly)

/-- `mq_open` with the pool to itself. -/
def openLocked (s : MqPools cfg numQ) (a : OpenArgs cfg) :
    Except Fault (MqPools cfg numQ × OpenRet) :=
  if qnameLen < a.mqName.length then .ok ((s.setErrno .nameTooLong).semPost,.failed)
  else if a.mqName.head? ≠ some (BitVec.ofNat 8 '/'.toNat) then
    .ok ((s.setErrno .inval).semPost,.failed)
  else if a.oflags &&& oCreat ≠ 0 then do
    match ← s.createQueue a with
    | (s,none) => return (s,.failed)
    | (s,some q) => return s.openFile a (some q)
  else .ok (s.openFile a none)

end MqPools

/-- `mq_open`; it blocks nowhere between its `sem_wait` and its `sem_post`. -/
def mqOpen (s : MqPools cfg numQ) (a : OpenArgs cfg) : Except Fault (MqPools cfg numQ × OpenRet) := do
  let s ← s.pthreadOnce a.onceGranted
  s.semWait.openLocked a

/-- The static data before the first call, all zero, over the ITC objects there are. -/
def mqStatic (st : ItcStore cfg numQ) (semOnce : ℕ) (t : Thid cfg) : MqPools cfg numQ where
  errno := .zero
  semOnce := semOnce
  mqOnce := false
  poolAccessSem := 0
  access := 0
  queuePool := fun _ => ⟨false,List.replicate qnameLen 0,⟨0,0⟩,0,0,none,0,0⟩
  filePool := fun _ => ⟨false,t,0,⟨0,by decide⟩⟩
  arrays := Heap.empty
  buffers := Heap.empty
  store := st
  created := fun _ => none

end Tinker

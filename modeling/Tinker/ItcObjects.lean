import Tinker.Heap
import Tinker.Itc

/-! The table `__itc_array`: creation and deletion of its objects, and the variable-length queues
of `tk_itc.c`. The messages of such a queue are buffers of their own on the heap. -/
namespace Tinker

open Kernel Outcome

variable {cfg : Config} {numQ : ℕ}

abbrev Byte := BitVec 8

/-- `qv_t`. -/
structure Qv where
  mb : Option ℕ
  s : ℕ
  deriving DecidableEq

/-- What `q_vsend` is given: `msg_len` bytes and the one behind them, which it copies too. -/
structure VMsg where
  bytes : List Byte
  stop : Byte
  deriving DecidableEq

def VMsg.copied (m : VMsg) : List Byte := m.bytes ++ [m.stop]

/-- `itc_t` with what only a variable-length queue uses. The union `m` holds `q` or `qv`, as
`bType` says. -/
structure ItcObj (cfg : Config) extends Itc cfg where
  maxSizeofM : ℕ
  qv : ℕ → Qv

/-- In the examples `TK_MAX_NUM_Q` is 4. -/
instance fourSlots : NeZero 4 := ⟨by decide⟩

/-- `__itc_array` of `TK_MAX_NUM_Q` cells, `__itc_idx` and the message buffers; `freed` marks the
objects `tk_itc_destruct` has freed while their pointers stay in the table. -/
structure ItcStore (cfg : Config) (numQ : ℕ) where
  array : Fin numQ → Option (ItcObj cfg)
  idx : Fin numQ
  heap : Heap Byte
  freed : Fin numQ → Bool

/-- `sm_create` once a slot is found and its memory granted. -/
def smObj (count : ℕ) (flags : IpcFlags) : ItcObj cfg :=
  { smCreate count flags with maxSizeofM := 0, qv := fun _ => ⟨none,0⟩ }

/-- `q_create` once the memory is granted. -/
def qObj (count : ℕ) (flags : IpcFlags) : ItcObj cfg :=
  { qCreate count flags with maxSizeofM := 0, qv := fun _ => ⟨none,0⟩ }

/-- `q_vcreate` once the memory is granted; `calloc` clears the slots. -/
def qVobj (count mmlen : ℕ) (flags : IpcFlags) : ItcObj cfg :=
  { smCreate 0 flags with
    sizeofQ := count, bType := .vQueue, maxSizeofM := mmlen, qv := fun _ => ⟨none,0⟩ }

def nextQ (i : Fin numQ) : Fin numQ := ⟨(i.val+1) % numQ,Nat.mod_lt _ (Nat.zero_lt_of_lt i.isLt)⟩

/-- The search of `_itc_findNextEmpySlot`, `fuel` slots at most. -/
def seekEmpty (taken : Fin numQ → Bool) : ℕ → Fin numQ → Fin numQ × Bool
  | 0, i => (i,false)
  | fuel+1, i => if taken i then seekEmpty taken fuel (nextQ i) else (i,true)

/-- How `q_vreceive` ends or where it goes to sleep; a message comes with its length. -/
inductive VRecvResult
  | ret (e : ItcErr) (msg : Option (List Byte × ℕ)) | waits (markIdx : Option ℕ)

namespace ItcStore

/-- The table as `tk_itc` clears it. -/
def clear (i : Fin numQ) : ItcStore cfg numQ := ⟨fun _ => none,i,Heap.empty,fun _ => false⟩

def setObj (st : ItcStore cfg numQ) (i : Fin numQ) (o : Option (ItcObj cfg)) : ItcStore cfg numQ :=
  { st with array := Function.update st.array i o }

/-- Reading `__itc_array[qid]` and what it points to. -/
def slot (st : ItcStore cfg numQ) (qid : Fin numQ) : Except Fault (Option (ItcObj cfg)) :=
  if st.freed qid then .error .badPointer else .ok (st.array qid)

/-- The object that a call goes on with after its checks. -/
def deref (st : ItcStore cfg numQ) (qid : Fin numQ) : Except Fault (ItcObj cfg) := do
  match ← st.slot qid with
  | none => .error .nullPointer
  | some o => return o

/-- The part of the object that the stages work on is written back. -/
def putItc (st : ItcStore cfg numQ) (qid : Fin numQ) (q : Itc cfg) : ItcStore cfg numQ :=
  st.setObj qid ((st.array qid).map fun o => { o with toItc := q })

/-- `_itc_findNextEmpySlot`. -/
def itcFindNextEmpySlot (st : ItcStore cfg numQ) : ItcStore cfg numQ × ItcErr :=
  let (i,found) := seekEmpty (fun i => (st.array i).isSome) numQ st.idx
  ({ st with idx := i },if found then .ok else .objFull)

/-- `sm_create`, `q_create` and `q_vcreate` with the object they set up; `granted` tells whether
they get their memory. One that gets a part of it only is `ItcStore.halfWay`. -/
def create (st : ItcStore cfg numQ) (o : ItcObj cfg) (granted : Bool) : ItcStore cfg numQ × ItcErr :=
  match st.itcFindNextEmpySlot with
  | (st,.ok) => if granted then (st.setObj st.idx (some o),.ok) else (st.setObj st.idx none,.noMem)
  | (st,e) => (st,e)

theorem seekEmpty_free (taken : Fin numQ → Bool) {fuel : ℕ} {i : Fin numQ}
    (h : (seekEmpty taken fuel i).2 = true) : taken (seekEmpty taken fuel i).1 = false := by
  induction fuel generalizing i with
  | zero => cases h
  | succ fuel ih =>
    unfold seekEmpty at h ⊢
    split at h
    · next ht => rw [if_pos ht]; exact ih h
    · next ht => rw [if_neg ht]; exact Bool.eq_false_iff.mpr ht

theorem seekEmpty_found (taken : Fin numQ → Bool) {fuel d : ℕ} {i j : Fin numQ} (hd : d < fuel)
    (hj : j.val = (i.val+d) % numQ) (ht : taken j = false) : (seekEmpty taken fuel i).2 = true := by
  induction fuel generalizing i d with
  | zero => cases hd
  | succ fuel ih =>
    unfold seekEmpty
    split
    · next hi =>
      obtain _ | d := d
      · rw [Nat.add_zero,Nat.mod_eq_of_lt i.isLt] at hj
        rw [← Fin.ext hj,ht] at hi
        cases hi
      · refine ih (d:=d) (by omega) ?_
        rw [nextQ,Nat.mod_add_mod,hj,Nat.add_assoc,Nat.add_comm 1 d]
    · rfl

/-- A round through all slots finds an empty one just when there is one. -/
theorem seekEmpty_snd (taken : Fin numQ → Bool) (i : Fin numQ) :
    (seekEmpty taken numQ i).2 = true ↔ ∃ j, taken j = false := by
  refine ⟨fun h => ⟨_,seekEmpty_free taken h⟩,fun ⟨j,hj⟩ => ?_⟩
  have hi := i.isLt
  have hlt := j.isLt
  refine seekEmpty_found taken (d:=(j.val+numQ-i.val) % numQ) (Nat.mod_lt _ (by omega)) ?_ hj
  rw [Nat.add_mod_mod,show i.val+(j.val+numQ-i.val) = j.val+numQ by omega,Nat.add_mod_right,
    Nat.mod_eq_of_lt hlt]

/-- A creation takes an empty slot, or changes no slot. -/
theorem create_spec (st : ItcStore cfg numQ) (o : ItcObj cfg) (granted : Bool) :
    (∃ i, st.array i = none ∧ st.create o granted =
      ({ st with idx := i, array := Function.update st.array i (some o) },.ok)) ∨
    ∃ i e, e ≠ .ok ∧ st.create o granted = ({ st with idx := i },e) := by
  have hfree := @seekEmpty_free numQ (fun i => (st.array i).isSome) numQ st.idx
  unfold create itcFindNextEmpySlot
  cases hs : seekEmpty (fun i => (st.array i).isSome) numQ st.idx with
  | mk i found =>
    rw [hs] at hfree
    cases found with
    | false => exact Or.inr ⟨i,.objFull,by decide,rfl⟩
    | true =>
      have hnone : st.array i = none := by simpa using hfree rfl
      cases granted with
      | true => exact Or.inl ⟨i,hnone,rfl⟩
      | false =>
        refine Or.inr ⟨i,.noMem,by decide,?_⟩
        have hsame : Function.update st.array i none = st.array :=
          Function.update_eq_self_iff.mpr hnone.symm
        simp [setObj,hsame]

/-- A creation that gets its `itc_t` but no `blocked_procs`: what lay in that memory stays in the
table. -/
def halfWay (st : ItcStore cfg numQ) (junk : ItcObj cfg) : ItcStore cfg numQ × ItcErr :=
  match st.itcFindNextEmpySlot with
  | (st,.ok) => (st.setObj st.idx (some junk),.noMem)
  | (st,e) => (st,e)

/-- `sm_delete`. -/
def smDelete (st : ItcStore cfg numQ) (qid : Fin numQ) : Except Fault (ItcStore cfg numQ) := do
  let _ ← st.deref qid
  return st.setObj qid none

/-- `q_delete`; a semaphore has no `m.q` to free. -/
def qDelete (st : ItcStore cfg numQ) (qid : Fin numQ) : Except Fault (ItcStore cfg numQ) := do
  let o ← st.deref qid
  check (o.bType ≠ .sem) .badPointer
  st.smDelete qid

/-- The loop over the slots in `q_vdelete` and `tk_itc_destruct`. -/
def freeSlots (heap : Heap Byte) (o : ItcObj cfg) : Except Fault (Heap Byte) :=
  (List.range o.sizeofQ).foldlM (fun h i => h.free .badPointer (o.qv i).mb) heap

/-- `q_vdelete`. -/
def qVdelete (st : ItcStore cfg numQ) (qid : Fin numQ) : Except Fault (ItcStore cfg numQ) := do
  let o ← st.deref qid
  check (o.bType = .vQueue) .badPointer
  let heap ← freeSlots st.heap o
  smDelete { st with heap := heap } qid

/-- One round of `tk_itc_destruct`. -/
def destructOne (st : ItcStore cfg numQ) (i : Fin numQ) : Except Fault (ItcStore cfg numQ) := do
  match ← st.slot i with
  | none => return st
  | some o =>
    let heap ← if o.bType = .vQueue then freeSlots st.heap o else pure st.heap
    return { st with heap := heap, freed := Function.update st.freed i true }

/-- `tk_itc_destruct`. -/
def tkItcDestruct (st : ItcStore cfg numQ) : Except Fault (ItcStore cfg numQ) :=
  (List.finRange numQ).foldlM destructOne st

/-- `__itc_array[__itc_idx]->m.qv[i].mb = malloc(n)` in `q_vsend`. -/
def mallocMb (st : ItcStore cfg numQ) (i n : ℕ) (granted : Bool) :
    Except Fault (ItcStore cfg numQ) := do
  let o ← st.deref st.idx
  check (o.bType = .vQueue) .badPointer
  check (i < o.sizeofQ) .outOfTable
  let (heap,mb) := if granted then
      ((st.heap.malloc (List.replicate n 0)).1,some (st.heap.malloc (List.replicate n 0)).2)
    else (st.heap,none)
  return { st.setObj st.idx (some { o with
    qv := Function.update o.qv i ⟨mb,(o.qv i).s⟩ }) with heap := heap }

/-- The message is copied to `__itc_array[qid]->m.qv[min_idx].mb`, and the slot is entered. -/
def fillSlot (st : ItcStore cfg numQ) (qid : Fin numQ) (msg : VMsg) :
    Except Fault (ItcStore cfg numQ) := do
  let o ← st.deref qid
  check (o.minIdx < o.sizeofQ) .outOfTable
  let heap ← st.heap.write .nullPointer .badPointer (o.qv o.minIdx).mb msg.copied
  return { st.setObj qid (some { o with
    qv := Function.update o.qv o.minIdx ⟨(o.qv o.minIdx).mb,msg.bytes.length⟩
    minIdx := (o.minIdx+1) % o.sizeofQ }) with heap := heap }

/-- The end of `q_send` and `q_vsend` once `unlock_stage` has returned. -/
def sendEnd (st : ItcStore cfg numQ) (k : Kernel cfg) (qid : Fin numQ) : Except Fault ItcErr := do
  let o ← st.deref qid
  qSendEnd k o.toItc

/-- The `printk` of `q_vsend`, in a build that does not void it. The object whose id is the queue's
`mout_idx` tells by its own `mout_idx` which string of the queue is printed. -/
def printkMb (printk : Bool) (st : ItcStore cfg numQ) (qid : Fin numQ) : Except Fault Unit :=
  if printk = false then .ok () else do
    let o ← st.deref qid
    if h : o.moutIdx < numQ then
      let o' ← st.deref ⟨o.moutIdx,h⟩
      -- nobody has set the one of a semaphore
      check (o'.bType ≠ .sem) .unset
      check (o'.moutIdx < o.sizeofQ) .outOfTable
      let bytes ← st.heap.get .nullPointer .badPointer (o.qv o'.moutIdx).mb
      check (bytes.contains 0 = true) .badPointer
    else throw .outOfTable

/-- `q_vsend` up to the yield of its `unlock_stage`, or to its end where there is none. -/
def qVsend (printk : Bool) (st : ItcStore cfg numQ) (k : Kernel cfg) (qid : Fin numQ) (msg : VMsg)
    (granted : Bool) : Except Fault (Kernel cfg × ItcStore cfg numQ × Option ItcErr) := do
  match ← st.slot qid with
  | none => return (k,st,some .objDel)
  | some o =>
    if o.bType ≠ .vQueue then return (k,st,some .objType)
    else if 0 < o.token ∧ ¬o.token < toInt32 o.sizeofQ then return (k,st,some .full)
    else
      let st ← st.mallocMb o.minIdx msg.copied.length granted
      if granted = false then return (k,st,some .noMem)
      else
        let st ← st.fillSlot qid msg
        st.printkMb printk qid
        let o ← st.deref qid
        let (k,q,yields) ← unlockStage k o.toItc
        let st := st.putItc qid q
        if yields then return (k,st,none)
        else
          let e ← st.sendEnd k qid
          return (k,st,some e)

/-- The end of `q_vreceive` once `lock_stage` has returned: the message is copied out and its
buffer freed. -/
def qVreceiveEnd (st : ItcStore cfg numQ) (k : Kernel cfg) (qid : Fin numQ) (rc : ItcErr) :
    Except Fault (ItcStore cfg numQ × ItcErr × Option (List Byte × ℕ)) := do
  let o ← st.deref qid
  let consistent ← itcProveConcistency k o.toItc
  check (consistent = true) .assertConsistent
  if rc ≠ .ok then return (st,rc,none)
  else
    check (o.moutIdx < o.sizeofQ) .outOfTable
    let bytes ← st.heap.read .nullPointer .badPointer (o.qv o.moutIdx).mb ((o.qv o.moutIdx).s+1)
    let heap ← st.heap.free .badPointer (o.qv o.moutIdx).mb
    return ({ st.setObj qid (some { o with moutIdx := (o.moutIdx+1) % o.sizeofQ }) with
      heap := heap },.ok,some (bytes,(o.qv o.moutIdx).s))

/-- `q_vreceive` up to the yield of its `lock_stage`, or to its end where there is none. -/
def qVreceive (st : ItcStore cfg numQ) (k : Kernel cfg) (qid : Fin numQ) (flags : IpcFlags)
    (timeout clk : Clock) (bufLen : ℕ) :
    Except Fault (Kernel cfg × ItcStore cfg numQ × VRecvResult) := do
  match ← st.slot qid with
  | none => return (k,st,.ret .objDel none)
  | some o =>
    if o.bType ≠ .vQueue then return (k,st,.ret .objType none)
    else if o.token ≤ 0 ∧ flags &&& nowait ≠ 0 then return (k,st,.ret .noSem none)
    else if o.maxSizeofM < bufLen then return (k,st,.ret .bufSiz none)
    else
      match lockStage k o.toItc timeout clk with
      | (k,q,.waits m) => return (k,st.putItc qid q,.waits m)
      | (k,q,.ret rc) => do
        let (st,e,msg) ← (st.putItc qid q).qVreceiveEnd k qid rc
        return (k,st,.ret e msg)

end ItcStore

end Tinker

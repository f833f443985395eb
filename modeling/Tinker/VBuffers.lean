import Tinker.VQueueRun

/-! The three lengths of a variable-length queue: the maximum declared to `q_vcreate`, the length
`q_vsend` is given, and the length of the buffer `q_vreceive` is given. -/
namespace Tinker

open Kernel Outcome

variable {cfg : Config} {numQ : ℕ}

namespace ItcStore

/-- `q_vreceive` to its end; where it waits, it comes back from `lock_stage` with a token in the
state `k'`, `st'`. -/
def qVreceiveWhole (st : ItcStore cfg numQ) (k : Kernel cfg) (qid : Fin numQ) (flags : IpcFlags)
    (timeout clk : Clock) (bufLen : ℕ) (k' : Kernel cfg) (st' : ItcStore cfg numQ) :
    Except Fault (ItcStore cfg numQ × ItcErr × Option (List Byte × ℕ)) := do
  match ← st.qVreceive k qid flags timeout clk bufLen with
  | (_,st,.ret e msg) => return (st,e,msg)
  | (_,_,.waits _) => st'.qVreceiveEnd k' qid .ok

/-- The message `q_vreceive` will copy is `m`. -/
structure NextIs (st : ItcStore cfg numQ) (k : Kernel cfg) (qid : Fin numQ) (m : VMsg) : Prop where
  here : st.freed qid = false
  next : ∃ o, st.array qid = some o ∧ o.moutIdx < o.sizeofQ ∧
    slotMsg st.heap (o.qv o.moutIdx) = some m.out ∧ itcProveConcistency k o.toItc = .ok true

/-- Some `q_vsend` of `m` to a queue in slot `qid` with the declared maximum `mmlen` did not
return an error. -/
def WasAccepted (cfg : Config) (qid : Fin numQ) (mmlen : ℕ) (m : VMsg) : Prop :=
  ∃ (st st' : ItcStore cfg numQ) (k k' : Kernel cfg) (o : ItcObj cfg) (granted : Bool)
    (e : Option ItcErr), st.slot qid = .ok (some o) ∧ o.maxSizeofM = mmlen ∧
    st.qVsend false k qid m granted = .ok (k',st',e) ∧ (e = none ∨ e = some .ok)

/-- A call of `q_vreceive` on the queue `o` gets a token, at once or after a wait that ends in the
state `k'`, `st'`, and the message it then finds is the accepted `m`. -/
structure Turn (st : ItcStore cfg numQ) (k : Kernel cfg) (qid : Fin numQ) (o : ItcObj cfg)
    (flags : IpcFlags) (timeout clk : Clock) (k' : Kernel cfg) (st' : ItcStore cfg numQ) (m : VMsg) :
    Prop where
  slot : st.slot qid = .ok (some o)
  vQueue : o.bType = .vQueue
  asks : ¬(o.token ≤ 0 ∧ flags &&& nowait ≠ 0)
  gets : (∃ k1 q, lockStage k o.toItc timeout clk = (k1,q,.ret .ok) ∧
      (st.putItc qid q).NextIs k1 qid m) ∨
    (∃ k1 q i, lockStage k o.toItc timeout clk = (k1,q,.waits i)) ∧ st'.NextIs k' qid m
  sent : WasAccepted cfg qid o.maxSizeofM m

/-- What the three lengths are to mean, for an accepted message `m` of the queue `o`, a buffer of
`bufLen` bytes and the call's outcome `r`. -/
structure RespectsBuffer (st : ItcStore cfg numQ) (o : ItcObj cfg) (m : VMsg) (bufLen : ℕ)
    (r : Except Fault (ItcStore cfg numQ × ItcErr × Option (List Byte × ℕ))) : Prop where
  short : m.bytes.length ≤ o.maxSizeofM
  fits : ∀ st' bytes len, r = .ok (st',.ok,some (bytes,len)) →
    bytes.length ≤ bufLen ∧ len = m.bytes.length
  small : bufLen < o.maxSizeofM → r = .ok (st,.bufSiz,none)

variable {st st' : ItcStore cfg numQ} {k k' : Kernel cfg} {qid : Fin numQ} {o : ItcObj cfg}
  {m : VMsg} {flags : IpcFlags} {timeout clk : Clock} {bufLen : ℕ}

/-- `q_vsend` looks at no length: a message of any length is accepted by some queue of any
declared maximum. -/
theorem wasAccepted (cfg : Config) (qid : Fin numQ) (mmlen : ℕ) (m : VMsg) :
    WasAccepted cfg qid mmlen m := by
  let o : ItcObj cfg := qVobj 1 mmlen fifo
  let st : ItcStore cfg numQ :=
    { (ItcStore.clear qid : ItcStore cfg numQ) with array := Function.update (fun _ => none) qid (some o) }
  have hs : st.slot qid = .ok (some o) := slot_of rfl (by simp [st])
  have hfull : ¬isFull o.toItc := by
    rintro ⟨ht,_⟩
    exact absurd (show (0 : ℤ) < 0 from ht) (lt_irrefl 0)
  have hacc : st.Accepts qid o := ⟨hs,rfl,hfull⟩
  have hstage : unlockStage (clearKernel : Kernel cfg)
      (o.enter (some st.heap.next) m.bytes.length).toItc = .ok (clearKernel,
        { (o.enter (some st.heap.next) m.bytes.length).toItc with token := 1 },false) := rfl
  let st' : ItcStore cfg numQ := (st.enter qid o m).putItc qid
    { (o.enter (some st.heap.next) m.bytes.length).toItc with token := 1 }
  have hend : st'.sendEnd clearKernel qid = .ok .ok := by
    have hd : st'.deref qid = .ok { o.enter (some st.heap.next) m.bytes.length with token := 1 } := by
      refine deref_of rfl ?_
      simp [st',putItc,setObj,enter]
    rw [sendEnd,hd]
    rfl
  refine ⟨st,st',clearKernel,clearKernel,o,true,some .ok,hs,rfl,?_,Or.inr rfl⟩
  rw [qVsend_eq hacc rfl Nat.one_pos,hstage]
  simp only [bind,Except.bind]
  exact show (if false = true then _ else do
    let e ← st'.sendEnd clearKernel qid
    return (clearKernel,st',some e)) = _ by rw [hend]; rfl

/-- The whole message is copied with the byte behind it, and its length is reported. -/
theorem NextIs.qVreceiveEnd (h : st.NextIs k qid m) :
    ∃ st1, st.qVreceiveEnd k qid .ok = .ok (st1,.ok,some (m.copied,m.bytes.length)) := by
  obtain ⟨o,ho,hm,hs,hc⟩ := h.next
  obtain ⟨p,hp,hb,hlen⟩ := slotMsg_eq_some hs
  refine ⟨st.leave qid o p,?_⟩
  rw [qVreceiveEnd_eq st h.here ho hc hm hp hb (by rw [hlen]; simp [VMsg.out,VMsg.copied]),hlen]
  rfl

/-- Where the slots hold the messages accepted and not yet delivered, the oldest one is next. -/
theorem Holding.nextIs {stored : Fin numQ → List VMsg} {rest : List VMsg} (h : st.Holding stored)
    (k : Kernel cfg) (ho : st.array qid = some o) (hb : o.bType = .vQueue)
    (hs : stored qid = m :: rest) :
    (st.putItc qid { o.toItc with token := o.token-1 }).NextIs k qid m := by
  have hstores := h.stores qid o ho hb
  rw [hs] at hstores
  obtain ⟨p,hp,hmem,hlen,hmi,hrest⟩ := hstores.leave fun x y p hx hy hp =>
    (h.unshared qid qid o o x y p ho ho hx hy hp).2
  refine ⟨h.here qid,{ o with token := o.token-1 },?_,hmi,?_,?_⟩
  · simp [putItc,setObj,ho]
  · exact show slotMsg st.heap (o.qv o.moutIdx) = _ by simp [slotMsg,hp,hmem,hlen,VMsg.out]
  · exact Itc.Queued.proveConcistency (l:=[]) ⟨hstores.queued.holds,hrest.queued.length⟩
      (by rintro _ ⟨⟩)

/-- With a buffer longer than the declared maximum the call fails. -/
theorem Turn.bufSiz (h : Turn st k qid o flags timeout clk k' st' m) (hb : o.maxSizeofM < bufLen) :
    st.qVreceiveWhole k qid flags timeout clk bufLen k' st' = .ok (st,.bufSiz,none) := by
  have hcall : st.qVreceive k qid flags timeout clk bufLen = .ok (k,st,.ret .bufSiz none) := by
    simp only [ItcStore.qVreceive,h.slot,bind,Except.bind,if_neg (not_not_intro h.vQueue),
      if_neg h.asks,if_pos hb]
    rfl
  rw [qVreceiveWhole,hcall]
  rfl

/-- With any other buffer it takes the message. -/
theorem Turn.takes (h : Turn st k qid o flags timeout clk k' st' m) (hb : ¬o.maxSizeofM < bufLen) :
    ∃ st1, st.qVreceiveWhole k qid flags timeout clk bufLen k' st' =
      .ok (st1,.ok,some (m.copied,m.bytes.length)) := by
  have hcall := qVreceive_eq k timeout clk h.slot h.vQueue h.asks hb
  obtain ⟨k1,q,hl,hn⟩ | ⟨⟨k1,q,i,hl⟩,hn⟩ := h.gets
  · obtain ⟨st1,hend⟩ := hn.qVreceiveEnd
    refine ⟨st1,?_⟩
    rw [qVreceiveWhole,hcall,hl]
    simp only [hend]
    rfl
  · obtain ⟨st1,hend⟩ := hn.qVreceiveEnd
    refine ⟨st1,?_⟩
    rw [qVreceiveWhole,hcall,hl]
    exact hend

/-- The lengths mean what they are to mean just when the message is no longer than the maximum,
the maximum no longer than the buffer, and the buffer longer than the message. -/
theorem qVreceive_respectsBuffer_iff (h : Turn st k qid o flags timeout clk k' st' m) :
    RespectsBuffer st o m bufLen (st.qVreceiveWhole k qid flags timeout clk bufLen k' st') ↔
      m.bytes.length ≤ o.maxSizeofM ∧ o.maxSizeofM ≤ bufLen ∧ m.bytes.length < bufLen := by
  have hcopied : m.copied.length = m.bytes.length+1 := by simp [VMsg.copied]
  by_cases hb : o.maxSizeofM < bufLen
  · rw [h.bufSiz hb]
    constructor
    · intro hr
      exact ⟨hr.short,hb.le,Nat.lt_of_le_of_lt hr.short hb⟩
    · rintro ⟨hs,_,_⟩
      exact ⟨hs,fun st1 bytes len hr => (by cases hr),fun _ => rfl⟩
  · obtain ⟨st1,hr⟩ := h.takes hb
    rw [hr]
    constructor
    · intro hrb
      have hle : o.maxSizeofM ≤ bufLen := by
        by_contra hlt
        cases hrb.small (Nat.lt_of_not_le hlt)
      have hfit := (hrb.fits st1 _ _ rfl).1
      exact ⟨hrb.short,hle,by omega⟩
    · rintro ⟨hs,hle,hlt⟩
      refine ⟨hs,fun st2 bytes len he => ?_,fun hsm => absurd hsm (by omega)⟩
      cases he
      exact ⟨by omega,rfl⟩

end ItcStore

/-- A queue for messages of at most 3 bytes, with a message of one byte in it. -/
def oneByteMail : ItcStore gnuArm 4 :=
  { (ItcStore.clear 0 : ItcStore gnuArm 4) with
    array := fun i => if i = 0 then some { (qVobj 2 3 fifo : ItcObj gnuArm) with
      token := 1, qv := fun x => if x = 0 then ⟨some 0,1⟩ else ⟨none,0⟩, minIdx := 1 } else none
    heap := ⟨fun p => if p = 0 then some (letter 7).copied else none,1⟩ }

def mailObj : ItcObj gnuArm := (oneByteMail.array 0).getD (qVobj 2 3 fifo)

theorem oneByteMail_turn : ItcStore.Turn oneByteMail fiveThreads 0 mailObj fifo 0 0 fiveThreads
    oneByteMail (letter 7) where
  slot := rfl
  vQueue := rfl
  asks := by decide
  gets := Or.inl ⟨_,{ mailObj.toItc with token := 0 },rfl,rfl,{ mailObj with token := 0 },rfl,
    by decide,by decide,rfl⟩
  sent := ItcStore.wasAccepted gnuArm 0 3 (letter 7)

theorem qVreceive_respectsBuffer_three : ItcStore.RespectsBuffer oneByteMail mailObj (letter 7) 3
    (oneByteMail.qVreceiveWhole fiveThreads 0 fifo 0 0 3 fiveThreads oneByteMail) :=
  (ItcStore.qVreceive_respectsBuffer_iff oneByteMail_turn).mpr (by decide)

/-- Two bytes are written to a buffer of one. -/
theorem qVreceive_not_respectsBuffer : ¬∀ (st st' : ItcStore gnuArm 4) (k k' : Kernel gnuArm)
    (qid : Fin 4) (o : ItcObj gnuArm) (flags : IpcFlags) (timeout clk : Clock) (m : VMsg)
    (bufLen : ℕ), ItcStore.Turn st k qid o flags timeout clk k' st' m →
      ItcStore.RespectsBuffer st o m bufLen
        (st.qVreceiveWhole k qid flags timeout clk bufLen k' st') := by
  intro h
  have hr := h oneByteMail oneByteMail fiveThreads fiveThreads 0 mailObj fifo 0 0 (letter 7) 1
    oneByteMail_turn
  obtain ⟨st1,he⟩ := oneByteMail_turn.takes (show ¬mailObj.maxSizeofM < 1 by decide)
  exact absurd (hr.fits st1 _ _ he).1 (by decide)

end Tinker

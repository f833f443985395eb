import Tinker.QueueRun
import Tinker.SystemMoves

/-! What the calls on a variable-length queue do to its slots and to the buffers, where `q_vsend`
asks for memory in the queue it is called on. -/
namespace Tinker

open Kernel Outcome Ring

variable {cfg : Config} {numQ : ℕ}

/-- What a receiver gets of a message. -/
def VMsg.out (m : VMsg) : List Byte × ℕ := (m.copied,m.bytes.length)

/-- The slot at `min_idx` is entered. -/
def ItcObj.enter (o : ItcObj cfg) (mb : Option ℕ) (len : ℕ) : ItcObj cfg :=
  { o with
    qv := Function.update o.qv o.minIdx ⟨mb,len⟩
    minIdx := (o.minIdx+1) % o.sizeofQ }

namespace ItcStore

/-- The checks of `q_vsend` before it asks for memory. -/
def Accepts (st : ItcStore cfg numQ) (qid : Fin numQ) (o : ItcObj cfg) : Prop :=
  st.slot qid = .ok (some o) ∧ o.bType = .vQueue ∧ ¬isFull o.toItc

/-- A message in a new buffer, entered in queue `qid`. -/
def enter (st : ItcStore cfg numQ) (qid : Fin numQ) (o : ItcObj cfg) (msg : VMsg) :
    ItcStore cfg numQ :=
  { st with
    array := Function.update st.array qid (some (o.enter (some st.heap.next) msg.bytes.length))
    heap := (st.heap.malloc msg.copied).1 }

/-- The oldest message of queue `qid` is taken out and its buffer `p` freed. -/
def leave (st : ItcStore cfg numQ) (qid : Fin numQ) (o : ItcObj cfg) (p : ℕ) :
    ItcStore cfg numQ :=
  { st with
    array := Function.update st.array qid (some { o with moutIdx := succ o.sizeofQ o.moutIdx })
    heap := { st.heap with mem := Function.update st.heap.mem p none } }

end ItcStore

section

variable {st : ItcStore cfg numQ} {k : Kernel cfg} {qid : Fin numQ} {o : ItcObj cfg} {msg : VMsg}

theorem ItcStore.slot_eq (h : st.slot qid = .ok (some o)) :
    st.freed qid = false ∧ st.array qid = some o := by
  refine ⟨?_,ItcStore.slot_ok h⟩
  unfold ItcStore.slot at h
  split at h
  · cases h
  · next hf => exact Bool.eq_false_iff.mpr hf

theorem ItcStore.slot_of (hf : st.freed qid = false) (ho : st.array qid = some o) :
    st.slot qid = .ok (some o) := by
  unfold ItcStore.slot
  rw [if_neg (by rw [hf]; exact Bool.false_ne_true),ho]

theorem ItcStore.deref_of (hf : st.freed qid = false) (ho : st.array qid = some o) :
    st.deref qid = .ok o := ItcStore.deref_of_slot (ItcStore.slot_of hf ho)

variable (st qid) in
theorem ItcStore.forall_slot (P : ItcObj cfg → Prop) :
    (∀ o ∈ st.array qid, st.freed qid = false → P o) ↔ ∀ o, st.slot qid = .ok (some o) → P o :=
  ⟨fun h o hs => h o (slot_eq hs).2 (slot_eq hs).1,fun h o ho hf => h o (slot_of hf ho)⟩

variable (st qid) in
theorem ItcStore.forall_accepts (P : ItcObj cfg → Prop) :
    (∀ o, st.slot qid = .ok (some o) → o.bType = .vQueue → ¬isFull o.toItc → P o) ↔
      ∀ o, st.Accepts qid o → P o :=
  ⟨fun h o ha => h o ha.1 ha.2.1 ha.2.2,fun h o hs hb hfull => h o ⟨hs,hb,hfull⟩⟩

/-- A slot holds one object at most, so what is said of all objects in it can be tested. -/
instance decidableForallSlot (P : ItcObj cfg → Prop) [DecidablePred P] :
    Decidable (∀ o, st.slot qid = .ok (some o) → P o) :=
  decidable_of_iff _ (ItcStore.forall_slot st qid P)

instance decidableForallAccepts (P : ItcObj cfg → Prop) [DecidablePred P] :
    Decidable (∀ o, st.Accepts qid o → P o) :=
  decidable_of_iff _ (ItcStore.forall_accepts st qid P)

/-- The memory asked for is the memory that is filled. -/
theorem ItcStore.fill_eq (msg : VMsg) (h : st.slot qid = .ok (some o)) (hi : st.idx = qid)
    (hb : o.bType = .vQueue) (hm : o.minIdx < o.sizeofQ) :
    (do let st ← st.mallocMb o.minIdx msg.copied.length true
        st.fillSlot qid msg) = .ok (st.enter qid o msg) := by
  subst hi
  obtain ⟨hf,ho⟩ := ItcStore.slot_eq h
  let o1 : ItcObj cfg := { o with
    qv := Function.update o.qv o.minIdx ⟨some st.heap.next,(o.qv o.minIdx).s⟩ }
  let st1 : ItcStore cfg numQ := { st.setObj st.idx (some o1) with
    heap := (st.heap.malloc (List.replicate msg.copied.length 0)).1 }
  have hmalloc : st.mallocMb o.minIdx msg.copied.length true = .ok st1 := by
    simp only [ItcStore.mallocMb,ItcStore.deref_of hf ho,check,if_pos hb,if_pos hm,bind,
      Except.bind,pure,Except.pure,if_true]
    rfl
  have hd1 : st1.deref st.idx = .ok o1 := ItcStore.deref_of hf (Function.update_self _ _ _)
  have hp : (o1.qv o1.minIdx).mb = some st.heap.next := by
    simp only [o1,Function.update_self]
  have hget : st1.heap.get Fault.nullPointer .badPointer (some st.heap.next) =
      .ok (List.replicate msg.copied.length 0) := by
    simp only [Heap.get,st1,Heap.malloc,Function.update_self]
  have hlen : msg.copied.length ≤ (List.replicate msg.copied.length (0 : Byte)).length := by
    rw [List.length_replicate]
  have hwrite : st1.heap.write Fault.nullPointer .badPointer (o1.qv o1.minIdx).mb msg.copied =
      .ok (st.heap.malloc msg.copied).1 := by
    rw [hp]
    simp only [Heap.write,hget,check,if_pos hlen,bind,Except.bind,pure,Except.pure]
    refine congrArg Except.ok ?_
    simp [st1,Heap.malloc]
  rw [hmalloc]
  simp only [bind,Except.bind,ItcStore.fillSlot,hd1,check,o1,if_pos hm] at hwrite ⊢
  rw [hwrite]
  simp [ItcStore.enter,ItcObj.enter,ItcStore.setObj,st1,pure,Except.pure]

/-- `q_vsend` on the queue `__itc_idx` names, once its memory is granted. -/
theorem qVsend_fills (printk : Bool) (h : st.Accepts qid o) (hi : st.idx = qid)
    (hm : o.minIdx < o.sizeofQ) : st.qVsend printk k qid msg true = (do
      (st.enter qid o msg).printkMb printk qid
      let (k,q,yields) ← unlockStage k (o.enter (some st.heap.next) msg.bytes.length).toItc
      let st := (st.enter qid o msg).putItc qid q
      if yields then return (k,st,none)
      else
        let e ← st.sendEnd k qid
        return (k,st,some e)) := by
  obtain ⟨hs,hb,hfull⟩ := h
  obtain ⟨hf,ho⟩ := ItcStore.slot_eq hs
  have hfull : ¬(0 < o.token ∧ ¬o.token < toInt32 o.sizeofQ) := hfull
  have hfill := ItcStore.fill_eq msg hs hi hb hm
  have hd : (st.enter qid o msg).deref qid =
      .ok (o.enter (some st.heap.next) msg.bytes.length) :=
    ItcStore.deref_of hf (Function.update_self _ _ _)
  cases hmal : st.mallocMb o.minIdx msg.copied.length true with
  | error e => rw [hmal] at hfill; cases hfill
  | ok st1 =>
    rw [hmal] at hfill
    have hfill : st1.fillSlot qid msg = .ok (st.enter qid o msg) := hfill
    simp only [ItcStore.qVsend,hs,bind,Except.bind,if_neg (not_not.mpr hb),if_neg hfull,hmal,
      Bool.true_eq_false,if_false,hfill,hd]

theorem qVsend_eq (h : st.Accepts qid o) (hi : st.idx = qid) (hm : o.minIdx < o.sizeofQ) :
    st.qVsend false k qid msg true = (do
      let (k,q,yields) ← unlockStage k (o.enter (some st.heap.next) msg.bytes.length).toItc
      let st := (st.enter qid o msg).putItc qid q
      if yields then return (k,st,none)
      else
        let e ← st.sendEnd k qid
        return (k,st,some e)) :=
  qVsend_fills false h hi hm

/-- Without memory, `q_vsend` leaves NULL in the slot. -/
theorem qVsend_noMem {printk : Bool} (h : st.Accepts qid o) (hi : st.idx = qid)
    (hm : o.minIdx < o.sizeofQ) : st.qVsend printk k qid msg false = .ok (k,st.setObj qid (some { o with
      qv := Function.update o.qv o.minIdx ⟨none,(o.qv o.minIdx).s⟩ }),some .noMem) := by
  subst hi
  obtain ⟨hs,hb,hfull⟩ := h
  obtain ⟨hf,ho⟩ := ItcStore.slot_eq hs
  have hfull : ¬(0 < o.token ∧ ¬o.token < toInt32 o.sizeofQ) := hfull
  simp only [ItcStore.qVsend,hs,bind,Except.bind,if_neg (not_not.mpr hb),if_neg hfull,
    ItcStore.mallocMb,ItcStore.deref_of hf ho,check,if_pos hb,if_pos hm,pure,Except.pure,if_true]
  simp [ItcStore.setObj]

/-- A `q_vsend` that fails its checks changes nothing. -/
theorem qVsend_refused {slot : Option (ItcObj cfg)} (hs : st.slot qid = .ok slot)
    (h : ∀ o, ¬st.Accepts qid o) {granted : Bool} :
    ∃ e, e ≠ .ok ∧ ∀ printk, st.qVsend printk k qid msg granted = .ok (k,st,some e) := by
  cases slot with
  | none => exact ⟨.objDel,by decide,fun _ => by simp only [ItcStore.qVsend,hs]; rfl⟩
  | some o =>
    by_cases hb : o.bType ≠ .vQueue
    · exact ⟨.objType,by decide,fun _ => by
        simp only [ItcStore.qVsend,hs,bind,Except.bind,if_pos hb]; rfl⟩
    · by_cases hfull : 0 < o.token ∧ ¬o.token < toInt32 o.sizeofQ
      · exact ⟨.full,by decide,fun _ => by
          simp only [ItcStore.qVsend,hs,bind,Except.bind,if_neg hb,if_pos hfull]; rfl⟩
      · exact absurd ⟨hs,not_not.mp hb,hfull⟩ (h o)

/-- `q_vsend` comes to the same where `printk` prints and where it is voided, if it does not stop
there. -/
theorem qVsend_voided {printk granted : Bool} {r : Kernel cfg × ItcStore cfg numQ × Option ItcErr}
    (h : st.qVsend printk k qid msg granted = .ok r) : st.qVsend false k qid msg granted = .ok r := by
  unfold ItcStore.qVsend at h ⊢
  obtain ⟨slot,hs,h⟩ := bind_eq_ok.mp h
  rw [hs]
  cases slot with
  | none => exact h
  | some o =>
    simp only [bind,Except.bind] at h ⊢
    split_ifs at h ⊢
    · exact h
    · exact h
    · exact h
    · obtain ⟨st1,hm,h⟩ := bind_eq_ok.mp h
      obtain ⟨st2,hf,h⟩ := bind_eq_ok.mp h
      obtain ⟨u,-,h⟩ := bind_eq_ok.mp h
      rw [hm]
      dsimp only
      rw [hf]
      exact h

/-- The string that `printk` will print is there and ends, with `msg` in the slot at `min_idx`. -/
def ItcStore.prints (st : ItcStore cfg numQ) (o : ItcObj cfg) (msg : VMsg) : Bool :=
  if h : o.moutIdx < numQ then
    (st.array ⟨o.moutIdx,h⟩).any fun o' => decide (o'.bType ≠ .sem ∧ o'.moutIdx < o.sizeofQ) &&
      if o'.moutIdx = o.minIdx then msg.copied.contains 0
      else ((o.qv o'.moutIdx).mb.bind st.heap.mem).any fun bytes => bytes.contains 0
  else false

/-- A message that is entered leaves the kind of every object and its `mout_idx`. -/
theorem ItcStore.enter_deref (h : st.Accepts qid o) (hfree : ∀ i, st.freed i = false) (msg : VMsg)
    {j : Fin numQ} {o' : ItcObj cfg} (ho' : st.array j = some o') :
    ∃ o2, (st.enter qid o msg).deref j = .ok o2 ∧ o2.bType = o'.bType ∧
      o2.moutIdx = o'.moutIdx := by
  by_cases hq : j = qid
  · subst hq
    cases (ItcStore.slot_eq h.1).2.symm.trans ho'
    exact ⟨_,ItcStore.deref_of (hfree j) (Function.update_self _ _ _),rfl,rfl⟩
  · exact ⟨o',ItcStore.deref_of (hfree j) ((Function.update_of_ne hq _ _).trans ho'),rfl,rfl⟩

/-- A string of the queue, once the message has been entered. -/
theorem ItcStore.enter_string (qid : Fin numQ) (hfresh : st.heap.Fresh) {x : ℕ}
    (hstr : (if x = o.minIdx then msg.copied.contains 0
      else ((o.qv x).mb.bind st.heap.mem).any fun bytes => bytes.contains 0) = true) :
    ∃ bytes, (st.enter qid o msg).heap.get Fault.nullPointer .badPointer
      ((o.enter (some st.heap.next) msg.bytes.length).qv x).mb = .ok bytes ∧
        bytes.contains 0 = true := by
  by_cases hm : x = o.minIdx
  · rw [if_pos hm] at hstr
    refine ⟨msg.copied,?_,hstr⟩
    simp [ItcStore.enter,ItcObj.enter,hm,Heap.get,Heap.malloc]
  · rw [if_neg hm] at hstr
    obtain ⟨bytes,hbytes,hz⟩ := (Option.any_eq_true _ _).mp hstr
    obtain ⟨p,hmb,hmem⟩ := Option.bind_eq_some_iff.mp hbytes
    refine ⟨bytes,?_,hz⟩
    simp only [ItcStore.enter,ItcObj.enter,Function.update_of_ne hm,hmb,Heap.get,
      Heap.malloc_mem_of_ne (hfresh.lt hmem).ne,hmem]

theorem ItcStore.printkMb_enter (h : st.Accepts qid o) (hfresh : st.heap.Fresh)
    (hfree : ∀ i, st.freed i = false) (hp : st.prints o msg = true) :
    (st.enter qid o msg).printkMb true qid = .ok () := by
  unfold prints at hp
  split at hp
  · next hlt =>
    obtain ⟨o',ho',hp⟩ := (Option.any_eq_true _ _).mp hp
    simp only [Bool.and_eq_true,decide_eq_true_eq] at hp
    obtain ⟨⟨hb,hx⟩,hstr⟩ := hp
    have hd : (st.enter qid o msg).deref qid =
        .ok (o.enter (some st.heap.next) msg.bytes.length) :=
      ItcStore.deref_of (hfree qid) (Function.update_self _ _ _)
    obtain ⟨o2,hd2,hb2,hx2⟩ := ItcStore.enter_deref h hfree msg ho'
    obtain ⟨bytes,hget,hz⟩ := ItcStore.enter_string qid hfresh hstr
    have hlt' : (o.enter (some st.heap.next) msg.bytes.length).moutIdx < numQ := hlt
    have hx' : o2.moutIdx < (o.enter (some st.heap.next) msg.bytes.length).sizeofQ := hx2 ▸ hx
    have hd2' : (st.enter qid o msg).deref
        ⟨(o.enter (some st.heap.next) msg.bytes.length).moutIdx,hlt'⟩ = .ok o2 := hd2
    rw [← hx2] at hget
    simp only [printkMb,Bool.true_eq_false,if_false,hd,bind,Except.bind,dif_pos hlt',hd2',
      check_of (hb2.trans_ne hb),check_of hx',hget,check_of hz]
  · cases hp

/-- Then `printk` makes no difference. -/
theorem qVsend_prints {printk granted : Bool} (h : st.Accepts qid o) (hi : st.idx = qid)
    (hm : o.minIdx < o.sizeofQ) (hf : st.heap.Fresh) (hfree : ∀ i, st.freed i = false)
    (hp : printk = true → granted = true → st.prints o msg = true) :
    st.qVsend printk k qid msg granted = st.qVsend false k qid msg granted := by
  cases granted with
  | false => rw [qVsend_noMem h hi hm,qVsend_noMem h hi hm]
  | true =>
    have hprints : (st.enter qid o msg).printkMb printk qid = .ok () := by
      cases printk with
      | false => rfl
      | true => exact ItcStore.printkMb_enter h hf hfree (hp rfl rfl)
    rw [qVsend_fills _ h hi hm,qVsend_fills _ h hi hm,hprints]
    rfl

/-- `q_vreceive` behind its checks. -/
theorem ItcStore.qVreceive_eq (k : Kernel cfg) (timeout clk : Clock) {flags : IpcFlags} {bufLen : ℕ}
    (hs : st.slot qid = .ok (some o)) (hb : o.bType = .vQueue)
    (hns : ¬(o.token ≤ 0 ∧ flags &&& nowait ≠ 0)) (hbuf : ¬o.maxSizeofM < bufLen) :
    st.qVreceive k qid flags timeout clk bufLen =
      (match lockStage k o.toItc timeout clk with
      | (k,q,.waits m) => .ok (k,st.putItc qid q,.waits m)
      | (k,q,.ret rc) => do
        let (st,e,msg) ← (st.putItc qid q).qVreceiveEnd k qid rc
        return (k,st,.ret e msg)) := by
  simp only [ItcStore.qVreceive,hs,bind,Except.bind,if_neg (not_not_intro hb),if_neg hns,if_neg hbuf]
  rfl

/-- The oldest message is copied out. -/
theorem qVreceiveEnd_eq (st : ItcStore cfg numQ) (hf : st.freed qid = false)
    (ho : st.array qid = some o)
    (hc : itcProveConcistency k o.toItc = .ok true) (hm : o.moutIdx < o.sizeofQ) {p : ℕ}
    {bytes : List Byte} (hp : (o.qv o.moutIdx).mb = some p) (hb : st.heap.mem p = some bytes)
    (hs : (o.qv o.moutIdx).s+1 = bytes.length) :
    st.qVreceiveEnd k qid .ok =
      .ok (st.leave qid o p,.ok,some (bytes,(o.qv o.moutIdx).s)) := by
  have hread : st.heap.read Fault.nullPointer .badPointer (o.qv o.moutIdx).mb
      ((o.qv o.moutIdx).s+1) = .ok bytes := by
    simp [Heap.read,Heap.get,hp,hb,check,hs,bind,Except.bind,pure,Except.pure]
  have hfree : st.heap.free Fault.badPointer (o.qv o.moutIdx).mb =
      .ok { st.heap with mem := Function.update st.heap.mem p none } := by
    simp [Heap.free,hp,hb]
  simp only [ItcStore.qVreceiveEnd,ItcStore.deref_of hf ho,hc,check,if_pos hm,hread,hfree,bind,
    Except.bind,pure,Except.pure]
  rfl

/-- A receiver that has got no token leaves the queue alone. -/
theorem qVreceiveEnd_err (hf : st.freed qid = false) (ho : st.array qid = some o)
    (hc : itcProveConcistency k o.toItc = .ok true) {rc : ItcErr} (hrc : rc ≠ .ok) :
    st.qVreceiveEnd k qid rc = .ok (st,rc,none) := by
  simp only [ItcStore.qVreceiveEnd,ItcStore.deref_of hf ho,hc,check,bind,Except.bind,pure,
    Except.pure,if_pos hrc]
  rfl

end

end Tinker

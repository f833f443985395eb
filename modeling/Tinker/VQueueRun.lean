import Tinker.Builds

/-! One thread that creates ITC objects of every kind and sends and receives on the
variable-length queues among them. -/
namespace Tinker

open Kernel Outcome Ring

variable {cfg : Config} {numQ : ℕ}

/-- What a receiver would get of a slot. -/
def slotMsg (h : Heap Byte) (v : Qv) : Option (List Byte × ℕ) :=
  v.mb.bind fun p => (h.mem p).map fun bytes => (bytes,v.s)

/-- The message in the slot at `min_idx` counts. -/
def ItcObj.sent (o : ItcObj cfg) (mb : Option ℕ) (len : ℕ) : ItcObj cfg :=
  { o.enter mb len with token := o.token+1 }

/-- The object has no thread blocked on it and the messages `l` in its slots, oldest first. -/
structure ItcObj.Stores (o : ItcObj cfg) (h : Heap Byte) (l : List VMsg) : Prop where
  queued : o.toItc.Queued []
  token : o.token = l.length
  slotless : o.sizeofQ = 0 → l = []
  fills : 0 < o.sizeofQ →
    Fills o.sizeofQ (fun x => slotMsg h (o.qv x)) o.moutIdx (l.map fun m => some m.out)
  minIdx : 0 < o.sizeofQ → o.minIdx = Ring.place o.sizeofQ o.moutIdx l.length

namespace ItcStore

/-- No buffer is reached from two slots. -/
def Unshared (st : ItcStore cfg numQ) : Prop :=
  ∀ i j oi oj x y p, st.array i = some oi → st.array j = some oj → (oi.qv x).mb = some p →
    (oj.qv y).mb = some p → (st.heap.mem p).isSome → i = j ∧ x = y

/-- The variable-length queues hold the messages that `stored` tells. -/
structure Holding (st : ItcStore cfg numQ) (stored : Fin numQ → List VMsg) : Prop where
  fresh : st.heap.Fresh
  here : ∀ i, st.freed i = false
  stores : ∀ i o, st.array i = some o → o.bType = .vQueue → o.Stores st.heap (stored i)
  empty : ∀ i, (∀ o, st.array i = some o → o.bType ≠ .vQueue) → stored i = []
  known : ∀ i o x p, st.array i = some o → (o.qv x).mb = some p → p < st.heap.next
  unshared : st.Unshared

/-- Queue `qid` apart, the objects and what their slots lead to stay as they are. -/
structure Isolates (st : ItcStore cfg numQ) (qid : Fin numQ) (st' : ItcStore cfg numQ) : Prop where
  object : ∀ i, i ≠ qid → st'.array i = st.array i
  buffer : ∀ i o x p bytes, i ≠ qid → st.array i = some o → (o.qv x).mb = some p →
    st.heap.mem p = some bytes → st'.heap.mem p = some bytes

theorem Isolates.refl (st : ItcStore cfg numQ) (qid : Fin numQ) : st.Isolates qid st :=
  ⟨fun _ _ => rfl,fun _ _ _ _ _ _ _ _ hp => hp⟩

end ItcStore

section

variable {st : ItcStore cfg numQ} {k : Kernel cfg} {qid : Fin numQ} {o o' : ItcObj cfg} {msg : VMsg}
  {h h' : Heap Byte} {l : List VMsg} {stored : Fin numQ → List VMsg}

theorem slotMsg_eq_some {v : Qv} {out : List Byte × ℕ} (hv : slotMsg h v = some out) :
    ∃ p, v.mb = some p ∧ h.mem p = some out.1 ∧ v.s = out.2 := by
  simp only [slotMsg,Option.bind_eq_some_iff,Option.map_eq_some_iff] at hv
  obtain ⟨p,hp,bytes,hb,rfl⟩ := hv
  exact ⟨p,hp,hb,rfl⟩

theorem slotMsg_mono {v : Qv} {out : List Byte × ℕ} (hv : slotMsg h v = some out)
    (hh : ∀ p bytes, v.mb = some p → h.mem p = some bytes → h'.mem p = some bytes) :
    slotMsg h' v = some out := by
  obtain ⟨p,hp,hb,hs⟩ := slotMsg_eq_some hv
  simp [slotMsg,hp,hh p _ hp hb,hs]

/-- The slots hold their messages as long as the buffers they lead to stay. -/
theorem ItcObj.Stores.mono (hs : o.Stores h l)
    (hh : ∀ x p bytes, (o.qv x).mb = some p → h.mem p = some bytes → h'.mem p = some bytes) :
    o.Stores h' l := by
  refine ⟨hs.queued,hs.token,hs.slotless,fun hn => ?_,hs.minIdx⟩
  have hf := hs.fills hn
  refine ⟨hf.out_lt,hf.room,fun i hi => ?_⟩
  have hslot := hf.slot i hi
  rw [List.getElem_map] at hslot ⊢
  exact slotMsg_mono hslot (hh _)

/-- The next message goes into a slot of the queue. -/
theorem ItcObj.Stores.minIdx_lt (hs : o.Stores h l) (hn : 0 < o.sizeofQ) :
    o.minIdx < o.sizeofQ := by
  rw [hs.minIdx hn]
  exact place_lt hn _ _

/-- A queue that accepts a message has a free slot for it. -/
theorem ItcObj.Stores.room (hs : o.Stores h l) (hn : 0 < o.sizeofQ) (hfull : ¬isFull o.toItc) :
    l.length < o.sizeofQ ∧ toInt32 (o.token+1) = o.token+1 := by
  have htok := hs.token
  have hmax := toInt32_lt o.sizeofQ
  have hle : toInt32 o.sizeofQ ≤ o.sizeofQ := toInt32_le (by omega)
  rw [isFull,not_and_not_right] at hfull
  have hpos : 0 < o.token → o.token < toInt32 o.sizeofQ := hfull
  refine ⟨?_,toInt32_of_range (by omega) ?_⟩
  · by_cases h0 : 0 < o.token
    · have := hpos h0; omega
    · omega
  · by_cases h0 : 0 < o.token
    · have := hpos h0; omega
    · omega

/-- A new message behind the others. -/
theorem ItcObj.Stores.enter (msg : VMsg) (hs : o.Stores h l) (hf : h.Fresh) (hn : 0 < o.sizeofQ)
    (hroom : l.length < o.sizeofQ) :
    (o.sent (some h.next) msg.bytes.length).Stores (h.malloc msg.copied).1 (l ++ [msg]) where
  queued := ⟨hs.queued.holds,by
    have := hs.token
    simp only [ItcObj.sent,List.length_nil]
    omega⟩
  token := by
    rw [List.length_append,List.length_singleton,ItcObj.sent,hs.token]
    rfl
  slotless := fun h0 => absurd h0 hn.ne'
  fills := by
    intro _
    have hs' : o.Stores (h.malloc msg.copied).1 l := hs.mono fun x p bytes _ hb => by
      rw [Heap.malloc_mem_of_ne (hf.lt hb).ne,hb]
    have hp := hs'.fills hn
    have hpush := hp.push (by rwa [List.length_map]) (some msg.out)
    rw [List.length_map,← hs.minIdx hn] at hpush
    have hslot : (fun x => slotMsg (h.malloc msg.copied).1
        ((o.sent (some h.next) msg.bytes.length).qv x)) =
        Function.update (fun x => slotMsg (h.malloc msg.copied).1 (o.qv x)) o.minIdx
          (some msg.out) := by
      funext x
      simp only [ItcObj.sent,ItcObj.enter,Function.update_apply]
      split
      · simp [slotMsg,Heap.malloc,VMsg.out]
      · rfl
    rw [List.map_append,hslot]
    exact hpush
  minIdx := by
    intro _
    rw [List.length_append,List.length_singleton]
    simp only [ItcObj.sent,ItcObj.enter,hs.minIdx hn]
    exact succ_place _ _ _

/-- The slot behind the messages may change. -/
theorem ItcObj.Stores.setSlot (hs : o.Stores h l) (hroom : l.length < o.sizeofQ) (v : Qv) :
    ItcObj.Stores { o with qv := Function.update o.qv o.minIdx v } h l where
  queued := ⟨hs.queued.holds,hs.queued.length⟩
  token := hs.token
  slotless := hs.slotless
  fills := by
    intro hn
    have hup := (hs.fills hn).update (j:=o.minIdx) (b:=slotMsg h v) fun i hi heq => by
      rw [List.length_map] at hi
      rw [hs.minIdx hn] at heq
      exact hi.ne (place_inj (by omega) hroom heq)
    have hslot : (fun x => slotMsg h (Function.update o.qv o.minIdx v x)) =
        Function.update (fun x => slotMsg h (o.qv x)) o.minIdx (slotMsg h v) := by
      funext x
      simp only [Function.update_apply]
      split <;> rfl
    rw [hslot]
    exact hup
  minIdx := hs.minIdx

/-- The oldest message is in a buffer of its own, which may go with it. -/
theorem ItcObj.Stores.leave {m : VMsg} {rest : List VMsg} (hs : o.Stores h (m :: rest))
    (hx : ∀ x y p, (o.qv x).mb = some p → (o.qv y).mb = some p → (h.mem p).isSome → x = y) :
    ∃ p, (o.qv o.moutIdx).mb = some p ∧ h.mem p = some m.copied ∧
      (o.qv o.moutIdx).s = m.bytes.length ∧ o.moutIdx < o.sizeofQ ∧
      ItcObj.Stores { o with token := o.token-1, moutIdx := succ o.sizeofQ o.moutIdx }
        { h with mem := Function.update h.mem p none } rest := by
  have hn : 0 < o.sizeofQ := by
    by_contra h0
    cases hs.slotless (by omega)
  have hf := hs.fills hn
  have htok := hs.token
  rw [List.length_cons] at htok
  obtain ⟨hm,hrest⟩ := Fills.pop (by simpa only [List.map_cons] using hf)
  obtain ⟨p,hp,hb,hlen⟩ := slotMsg_eq_some hm
  refine ⟨p,hp,hb,hlen,hf.out_lt,⟨⟨hs.queued.holds,?_⟩,?_,fun h0 => absurd h0 hn.ne',fun _ => ?_,
    fun _ => ?_⟩⟩
  · simp only [List.length_nil]
    omega
  · simp only [htok]
    push_cast
    omega
  · refine ⟨hrest.out_lt,hrest.room,fun i hi => ?_⟩
    have hslot := hrest.slot i hi
    rw [List.length_map] at hi
    rw [List.getElem_map] at hslot ⊢
    -- the later messages are in other slots, so in other buffers
    obtain ⟨p',hp',hb',hs'⟩ := slotMsg_eq_some hslot
    have hroom := hf.room
    rw [List.length_map,List.length_cons] at hroom
    have hne : p' ≠ p := by
      rintro rfl
      have hxy := hx _ _ p' hp' hp (by rw [hb]; rfl)
      rw [place_succ] at hxy
      exact absurd (place_inj (by omega) hn (hxy.trans (place_zero hf.out_lt).symm)) (by omega)
    simp [slotMsg,hp',Function.update_of_ne hne,hb',hs']
  · rw [place_succ]
    exact hs.minIdx hn

namespace ItcStore

theorem Holding.slot_array (hi : st.Holding stored) (i : Fin numQ) : st.slot i = .ok (st.array i) := by
  unfold slot
  rw [if_neg (by rw [hi.here i]; exact Bool.false_ne_true)]

/-- Queue `qid` gets another object: its pointers are pointers it had, or one to a new buffer. -/
theorem Holding.replace (hi : st.Holding stored) (st' : ItcStore cfg numQ) (x0 : ℕ)
    (ho : st.array qid = some o) (ha : st'.array = Function.update st.array qid (some o'))
    (hfr : st'.freed = st.freed) (hfresh : st'.heap.Fresh) (hb : o'.bType = .vQueue)
    (hs : o'.Stores st'.heap l)
    (hptr : ∀ x p, (o'.qv x).mb = some p → (o.qv x).mb = some p ∨ x = x0 ∧ p = st.heap.next)
    (hle : st.heap.next ≤ st'.heap.next)
    (hlt : ∀ x p, (o'.qv x).mb = some p → p < st'.heap.next)
    (hold : ∀ p, (st'.heap.mem p).isSome → p ≠ st.heap.next → (st.heap.mem p).isSome)
    (hkeep : ∀ p bytes, st.heap.mem p = some bytes →
      st'.heap.mem p = some bytes ∨ ∃ x, (o.qv x).mb = some p) :
    st'.Holding (Function.update stored qid l) ∧ st.Isolates qid st' := by
  have hiso : st.Isolates qid st' := by
    refine ⟨fun i hne => by rw [ha,Function.update_of_ne hne],fun i oi x p bytes hne hoi hx hp => ?_⟩
    obtain hk | ⟨y,hy⟩ := hkeep p bytes hp
    · exact hk
    · exact absurd (hi.unshared i qid oi o x y p hoi ho hx hy (by rw [hp]; rfl)).1 hne
  refine ⟨⟨hfresh,fun i => by rw [hfr]; exact hi.here i,fun i oi hoi hbi => ?_,fun i hn => ?_,
    fun i oi x p hoi hx => ?_,?_⟩,hiso⟩
  · rw [ha,Function.update_apply] at hoi
    by_cases hiq : i = qid
    · subst hiq
      rw [if_pos rfl] at hoi
      cases hoi
      rw [Function.update_self]
      exact hs
    · rw [if_neg hiq] at hoi
      rw [Function.update_of_ne hiq]
      exact (hi.stores i oi hoi hbi).mono fun x p bytes => hiso.buffer i oi x p bytes hiq hoi
  · by_cases hiq : i = qid
    · subst hiq
      exact absurd hb (hn o' (by rw [ha,Function.update_self]))
    · rw [Function.update_of_ne hiq]
      exact hi.empty i fun oi hoi => hn oi (by rw [ha,Function.update_of_ne hiq]; exact hoi)
  · by_cases hiq : i = qid
    · rw [ha,hiq,Function.update_self] at hoi
      cases hoi
      exact hlt x p hx
    · rw [ha,Function.update_of_ne hiq] at hoi
      exact (hi.known i oi x p hoi hx).trans_le hle
  · -- each slot after the step is one before it, or the one with the new buffer
    have hwas : ∀ i oi x p, st'.array i = some oi → (oi.qv x).mb = some p →
        (∃ oi', st.array i = some oi' ∧ (oi'.qv x).mb = some p) ∨
        (i = qid ∧ x = x0 ∧ p = st.heap.next) := by
      intro i oi x p hoi hx
      by_cases hiq : i = qid
      · rw [ha,hiq,Function.update_self] at hoi
        cases hoi
        subst hiq
        exact (hptr x p hx).imp (fun h => ⟨o,ho,h⟩) fun h => ⟨rfl,h⟩
      · rw [ha,Function.update_of_ne hiq] at hoi
        exact Or.inl ⟨oi,hoi,hx⟩
    intro i j oi oj x y p hoi hoj hx hy hp
    obtain ⟨oi',hoi',hx'⟩ | ⟨rfl,rfl,rfl⟩ := hwas i oi x p hoi hx
    · have hne := (hi.known i oi' x p hoi' hx').ne
      obtain ⟨oj',hoj',hy'⟩ | ⟨rfl,rfl,rfl⟩ := hwas j oj y p hoj hy
      · exact hi.unshared i j oi' oj' x y p hoi' hoj' hx' hy' (hold p hp hne)
      · exact absurd rfl hne
    · obtain ⟨oj',hoj',hy'⟩ | ⟨rfl,rfl,-⟩ := hwas j oj y _ hoj hy
      · exact absurd rfl (hi.known j oj' y _ hoj' hy').ne
      · exact ⟨rfl,rfl⟩

/-- Where `malloc` refuses, the slot that would have taken the message loses a pointer at most. -/
theorem Holding.refusedMemory (k : Kernel cfg) (msg : VMsg) (hi : st.Holding stored)
    (hacc : st.Accepts qid o) (hidx : st.idx = qid) (hn : 0 < o.sizeofQ) :
    ∃ st', st.qVsend false k qid msg false = .ok (k,st',some .noMem) ∧ st.Isolates qid st' ∧
      st'.Holding stored ∧ st'.idx = st.idx := by
  obtain ⟨-,ho⟩ := slot_eq hacc.1
  have hs := hi.stores qid o ho hacc.2.1
  obtain ⟨hroom,-⟩ := hs.room hn hacc.2.2
  have hm := hs.minIdx_lt hn
  have hold : ∀ x p, ((Function.update o.qv o.minIdx ⟨none,(o.qv o.minIdx).s⟩) x).mb = some p →
      (o.qv x).mb = some p := by
    intro x p hx
    rw [Function.update_apply] at hx
    split at hx
    · cases hx
    · exact hx
  have hrep := hi.replace (l:=stored qid) (st.setObj qid (some { o with
      qv := Function.update o.qv o.minIdx ⟨none,(o.qv o.minIdx).s⟩ })) o.minIdx
    ho rfl rfl hi.fresh hacc.2.1 (hs.setSlot hroom _) (fun x p hx => Or.inl (hold x p hx))
    le_rfl (fun x p hx => hi.known qid o x p ho (hold x p hx)) (fun p hp _ => hp)
    (fun p bytes hp => Or.inl hp)
  rw [Function.update_eq_self] at hrep
  exact ⟨_,qVsend_noMem hacc hidx hm,hrep.2,hrep.1,rfl⟩

/-- With memory, the message is the last one of its queue. -/
theorem Holding.entersMessage (k : Kernel cfg) (msg : VMsg) (hi : st.Holding stored)
    (hacc : st.Accepts qid o) (hidx : st.idx = qid) (hn : 0 < o.sizeofQ) :
    ∃ st', st.qVsend false k qid msg true = .ok (k,st',some .ok) ∧ st.Isolates qid st' ∧
      st'.Holding (Function.update stored qid (stored qid ++ [msg])) ∧ st'.idx = st.idx := by
  obtain ⟨hf,ho⟩ := slot_eq hacc.1
  have hs := hi.stores qid o ho hacc.2.1
  obtain ⟨hroom,htok⟩ := hs.room hn hacc.2.2
  have hm := hs.minIdx_lt hn
  let st' : ItcStore cfg numQ := { st with
    array := Function.update st.array qid (some (o.sent (some st.heap.next) msg.bytes.length))
    heap := (st.heap.malloc msg.copied).1 }
  have hs' := hs.enter msg hi.fresh hn hroom
  have hput : (st.enter qid o msg).putItc qid
      { (o.enter (some st.heap.next) msg.bytes.length).toItc with token := toInt32 (o.token+1) } =
      st' := by
    simp [putItc,enter,setObj,htok,ItcObj.sent,st']
  have hend : st'.sendEnd k qid = .ok .ok := by
    have hd : st'.deref qid = .ok (o.sent (some st.heap.next) msg.bytes.length) :=
      deref_of hf (Function.update_self _ _ _)
    simp only [sendEnd,hd,bind,Except.bind]
    exact qSendEnd_ok hs'.queued (by rintro _ ⟨⟩)
  have hsend : st.qVsend false k qid msg true = .ok (k,st',some .ok) := by
    rw [qVsend_eq hacc hidx hm]
    have hneg : ¬(o.enter (some st.heap.next) msg.bytes.length).token < 0 := by
      have := hs.token
      simp only [ItcObj.enter]
      omega
    simp only [unlockStage,if_neg hneg,bind,Except.bind]
    rw [show (o.enter (some st.heap.next) msg.bytes.length).token = o.token from rfl,hput]
    simp only [Bool.false_eq_true,if_false,hend,pure,Except.pure]
  have hptr : ∀ x p, ((o.sent (some st.heap.next) msg.bytes.length).qv x).mb = some p →
      (o.qv x).mb = some p ∨ x = o.minIdx ∧ p = st.heap.next := by
    intro x p hx
    simp only [ItcObj.sent,ItcObj.enter,Function.update_apply] at hx
    split at hx
    · next hxm =>
      cases hx
      exact Or.inr ⟨hxm,rfl⟩
    · exact Or.inl hx
  have hlt : ∀ x p, ((o.sent (some st.heap.next) msg.bytes.length).qv x).mb = some p →
      p < st'.heap.next := by
    intro x p hx
    obtain hx | ⟨_,rfl⟩ := hptr x p hx
    · exact Nat.lt_succ_of_lt (hi.known qid o x p ho hx)
    · exact Nat.lt_succ_self _
  have hrep := hi.replace (l:=stored qid ++ [msg]) st' o.minIdx ho rfl rfl
    (hi.fresh.malloc _) hacc.2.1 hs' hptr (Nat.le_succ _) hlt
    (fun p hp hne => by rwa [Heap.malloc_mem_of_ne hne] at hp)
    (fun p bytes hp => Or.inl (by rw [Heap.malloc_mem_of_ne (hi.fresh.lt hp).ne,hp]))
  exact ⟨st',hsend,hrep.2,hrep.1,rfl⟩

/-- `q_vsend` on the queue `__itc_idx` names enters its message or says why not. -/
theorem Holding.qVsend {printk : Bool} (k : Kernel cfg) (msg : VMsg) (granted : Bool)
    (hi : st.Holding stored) (hc : ∀ o, st.Accepts qid o → st.idx = qid ∧ 0 < o.sizeofQ ∧
      (printk = true → granted = true → st.prints o msg = true)) :
    ∃ st' e stored', st.qVsend printk k qid msg granted = .ok (k,st',some e) ∧ st.Isolates qid st' ∧
      st'.Holding stored' ∧ st'.idx = st.idx ∧
      ∀ i, stored' i = if i = qid ∧ e = .ok then stored i ++ [msg] else stored i := by
  by_cases hacc : ∃ o, st.Accepts qid o
  · obtain ⟨o,hacc⟩ := hacc
    obtain ⟨hidx,hn,hp⟩ := hc o hacc
    have hs := hi.stores qid o (slot_eq hacc.1).2 hacc.2.1
    rw [qVsend_prints hacc hidx (hs.minIdx_lt hn) hi.fresh hi.here hp]
    cases granted with
    | false =>
      obtain ⟨st',hsend,hiso,hholds,hidx'⟩ := hi.refusedMemory k msg hacc hidx hn
      exact ⟨st',.noMem,stored,hsend,hiso,hholds,hidx',fun i => by rw [if_neg (by rintro ⟨_,⟨⟩⟩)]⟩
    | true =>
      obtain ⟨st',hsend,hiso,hholds,hidx'⟩ := hi.entersMessage k msg hacc hidx hn
      refine ⟨st',.ok,_,hsend,hiso,hholds,hidx',fun i => ?_⟩
      rw [Function.update_apply]
      split
      · next hiq => rw [if_pos ⟨hiq,rfl⟩,hiq]
      · next hiq => rw [if_neg fun h => hiq h.1]
  · obtain ⟨e,he,heq⟩ := qVsend_refused (k:=k) (hi.slot_array qid)
      (fun o ho => hacc ⟨o,ho⟩)
    exact ⟨st,e,stored,heq printk,.refl st qid,hi,rfl,fun i => by rw [if_neg fun h => he h.2]⟩

/-- With a token taken, the end of `q_vreceive` copies the oldest message out and frees its buffer. -/
theorem Holding.takesOldest (k : Kernel cfg) (hi : st.Holding stored)
    (hslot : st.slot qid = .ok (some o)) (ho : st.array qid = some o) (hb : o.bType = .vQueue)
    {m : VMsg} {rest : List VMsg} (hst : stored qid = m :: rest) :
    ∃ st', (st.setObj qid (some { o with token := o.token-1 })).qVreceiveEnd k qid .ok =
        .ok (st',.ok,some m.out) ∧
      st'.Holding (Function.update stored qid rest) ∧ st.Isolates qid st' ∧ st'.idx = st.idx := by
  have hs := hi.stores qid o ho hb
  obtain ⟨hf,_⟩ := slot_eq hslot
  rw [hst] at hs
  obtain ⟨p,hp,hmem,hlen,hmi,hs'⟩ := hs.leave fun x y p hx hy hp =>
    (hi.unshared qid qid o o x y p ho ho hx hy hp).2
  let o1 : ItcObj cfg := { o with token := o.token-1 }
  have hc : itcProveConcistency k o1.toItc = .ok true :=
    Itc.Queued.proveConcistency (l:=[]) ⟨hs.queued.holds,hs'.queued.length⟩ (by rintro _ ⟨⟩)
  have hend := qVreceiveEnd_eq (k:=k) (st.setObj qid (some o1)) hf
    (Function.update_self _ _ _) hc hmi hp hmem (by rw [hlen]; simp [VMsg.copied])
  let o2 : ItcObj cfg := { o with token := o.token-1, moutIdx := succ o.sizeofQ o.moutIdx }
  have ha : ((st.setObj qid (some o1)).leave qid o1 p).array =
      Function.update st.array qid (some o2) := Function.update_idem ..
  have hgone : ∀ p', ((st.setObj qid (some o1)).leave qid o1 p).heap.mem p' =
      if p' = p then none else st.heap.mem p' := fun p' => Function.update_apply ..
  have hold : ∀ p', (((st.setObj qid (some o1)).leave qid o1 p).heap.mem p').isSome →
      (st.heap.mem p').isSome := by
    intro p' hp'
    rw [hgone] at hp'
    split at hp'
    · cases hp'
    · exact hp'
  have hkeep : ∀ p' bytes, st.heap.mem p' = some bytes →
      ((st.setObj qid (some o1)).leave qid o1 p).heap.mem p' = some bytes ∨
        ∃ x, (o.qv x).mb = some p' := by
    intro p' bytes hb'
    by_cases hpp : p' = p
    · exact Or.inr ⟨o.moutIdx,hpp ▸ hp⟩
    · exact Or.inl (by rw [hgone,if_neg hpp,hb'])
  have hrep := hi.replace _ 0 ho ha rfl (hi.fresh.erase p) hb hs'
    (fun x p hx => Or.inl hx) le_rfl (fun x p hx => hi.known qid o x p ho hx)
    (fun p' hp' _ => hold p' hp') hkeep
  refine ⟨_,?_,hrep.1,hrep.2,rfl⟩
  rw [hend,hlen]
  rfl

/-- `q_vreceive` takes the oldest message out, gives up, or goes to sleep on its queue. -/
theorem Holding.qVreceive (k : Kernel cfg) (qid : Fin numQ) (hi : st.Holding stored)
    (flags : IpcFlags) (timeout clk : Clock) (bufLen : ℕ) :
    ∃ k' st' r, st.qVreceive k qid flags timeout clk bufLen = .ok (k',st',r) ∧
      st.Isolates qid st' ∧ st'.idx = st.idx ∧ ∀ e out, r = .ret e out →
        ∃ stored', st'.Holding stored' ∧ ∀ i, (stored i).map VMsg.out =
          (if i = qid then out.toList else []) ++ (stored' i).map VMsg.out := by
  have hslot := hi.slot_array qid
  have hsame : ∀ i, (stored i).map VMsg.out = (if i = qid then (none : Option (List Byte × ℕ)).toList
      else []) ++ (stored i).map VMsg.out := fun i => by split <;> rfl
  -- the calls that end early, with the objects as they were
  have hgiveUp : ∀ e, st.qVreceive k qid flags timeout clk bufLen = .ok (k,st,.ret e none) →
      ∃ k' st' r, st.qVreceive k qid flags timeout clk bufLen = .ok (k',st',r) ∧
      st.Isolates qid st' ∧ st'.idx = st.idx ∧ ∀ e out, r = .ret e out →
        ∃ stored', st'.Holding stored' ∧ ∀ i, (stored i).map VMsg.out =
          (if i = qid then out.toList else []) ++ (stored' i).map VMsg.out := fun e he =>
    ⟨k,st,_,he,.refl st qid,rfl,fun e out hr => by cases hr; exact ⟨stored,hi,hsame⟩⟩
  cases ho : st.array qid with
  | none => exact hgiveUp .objDel (by simp only [ItcStore.qVreceive,hslot,ho]; rfl)
  | some o =>
    rw [ho] at hslot
    by_cases hb : o.bType ≠ .vQueue
    · exact hgiveUp .objType (by
        simp only [ItcStore.qVreceive,hslot,bind,Except.bind,if_pos hb]; rfl)
    by_cases hns : o.token ≤ 0 ∧ flags &&& nowait ≠ 0
    · exact hgiveUp .noSem (by
        simp only [ItcStore.qVreceive,hslot,bind,Except.bind,if_neg hb,if_pos hns]; rfl)
    by_cases hbuf : o.maxSizeofM < bufLen
    · exact hgiveUp .bufSiz (by
        simp only [ItcStore.qVreceive,hslot,bind,Except.bind,if_neg hb,if_neg hns,if_pos hbuf]; rfl)
    have hs := hi.stores qid o ho (not_not.mp hb)
    obtain ⟨hf,_⟩ := slot_eq hslot
    have hput : ∀ q, st.putItc qid q = st.setObj qid (some { o with toItc := q }) := fun q => by
      simp [putItc,ho]
    have hcheck := qVreceive_eq k timeout clk hslot (not_not.mp hb) hns hbuf
    obtain ⟨ht,hls⟩ | ⟨ht,_,q',m,hls,_⟩ | ⟨ht,_,hls⟩ := hs.queued.lockStage k timeout clk
    · obtain ⟨m,rest,hst⟩ := List.exists_cons_of_length_pos (show 0 < (stored qid).length by
        have := hs.token
        omega)
      obtain ⟨st',hend,hholds,hiso,hidx⟩ := hi.takesOldest k hslot ho (not_not.mp hb) hst
      have hret : st.qVreceive k qid flags timeout clk bufLen = .ok (k,st',.ret .ok (some m.out)) := by
        rw [hcheck,hls]
        simp only [hput]
        rw [hend]
        rfl
      refine ⟨k,_,_,hret,hiso,hidx,?_⟩
      rintro e out hr
      cases hr
      refine ⟨_,hholds,fun i => ?_⟩
      rw [Function.update_apply]
      split
      · next hiq =>
        rw [hiq,hst]
        rfl
      · rfl
    · refine ⟨_,st.putItc qid q',.waits m,by rw [hcheck,hls],?_,rfl,fun e out hr => by cases hr⟩
      rw [hput]
      exact ⟨fun i hne => Function.update_of_ne hne _ _,fun _ _ _ _ _ _ _ _ hp => hp⟩
    · refine hgiveUp .blockLimit ?_
      have hback : st.putItc qid o.toItc = st := by
        rw [hput,setObj,Function.update_eq_self_iff.mpr ho.symm]
      rw [hcheck,hls]
      simp only [hback]
      rw [qVreceiveEnd_err hf ho (hs.queued.proveConcistency (by rintro _ ⟨⟩)) (by decide)]
      rfl

/-- A new object without messages in an empty slot. -/
theorem Holding.add {st' : ItcStore cfg numQ} {i : Fin numQ} (hi : st.Holding stored)
    (hnone : st.array i = none) (ha : st'.array = Function.update st.array i (some o))
    (hh : st'.heap = st.heap) (hf : st'.freed = st.freed) (hno : ∀ x, (o.qv x).mb = none)
    (hs : o.bType = .vQueue → o.Stores st.heap []) : st'.Holding stored := by
  have hempty : stored i = [] := hi.empty i fun o ho => by rw [hnone] at ho; cases ho
  have hwas : ∀ j oj, st'.array j = some oj → st.array j = some oj ∨ j = i ∧ oj = o := by
    intro j oj hoj
    rw [ha,Function.update_apply] at hoj
    split at hoj
    · next hj =>
      cases hoj
      exact Or.inr ⟨hj,rfl⟩
    · exact Or.inl hoj
  have hptr : ∀ j oj x p, st'.array j = some oj → (oj.qv x).mb = some p → st.array j = some oj := by
    intro j oj x p hoj hx
    obtain hold | ⟨_,rfl⟩ := hwas j oj hoj
    · exact hold
    · rw [hno x] at hx
      cases hx
  refine ⟨hh ▸ hi.fresh,hf ▸ hi.here,fun j oj hoj hb => ?_,fun j hn => ?_,fun j oj x p hoj hx => ?_,
    fun j j' oj oj' x y p hoj hoj' hx hy hp => ?_⟩
  · rw [hh]
    obtain hold | ⟨rfl,rfl⟩ := hwas j oj hoj
    · exact hi.stores j oj hold hb
    · rw [hempty]
      exact hs hb
  · by_cases hj : j = i
    · rw [hj,hempty]
    · exact hi.empty j fun oj hoj => hn oj (by rw [ha,Function.update_of_ne hj]; exact hoj)
  · rw [hh]
    exact hi.known j oj x p (hptr j oj x p hoj hx) hx
  · rw [hh] at hp
    exact hi.unshared j j' oj oj' x y p (hptr j oj x p hoj hx) (hptr j' oj' y p hoj' hy) hx hy hp

/-- A creation takes an empty slot, and a queue begins empty. -/
theorem Holding.create (hi : st.Holding stored) (r : ItcReq) (granted : Bool) :
    (st.create r.obj granted).1.Holding stored := by
  obtain ⟨i,hnone,he⟩ | ⟨i,e,_,he⟩ := st.create_spec r.obj granted
  · rw [he]
    refine hi.add hnone rfl rfl rfl (fun x => by cases r <;> rfl) fun hb => ?_
    cases r with
    | sem | sQueue => cases hb
    | vQueue count mmlen flags =>
      exact ⟨⟨Holds.nil _ cfg.maxBlockedOnQ_pos,rfl⟩,rfl,fun _ => rfl,
        fun hn => ⟨hn,Nat.zero_le _,by rintro _ ⟨⟩⟩,fun hn => (place_zero hn).symm⟩
  · rw [he]
    exact ⟨hi.fresh,hi.here,hi.stores,hi.empty,hi.known,hi.unshared⟩

end ItcStore

end

/-! ### Runs -/

/-- The creations of ITC objects and the calls on variable-length queues. -/
def WorldLabel.IsVCall : WorldLabel cfg numQ → Prop
  | .createItc _ _ | .take .vQueue _ _ _ _ | .give _ (.bytes _ _) | .advance _ => True
  | _ => False

def BuildLabel.IsVCall : BuildLabel cfg numQ → Prop
  | .call l => l.IsVCall
  | .halfWay _ => True

/-- The queue a call is about. -/
def WorldLabel.queue : WorldLabel cfg numQ → Option (Fin numQ)
  | .take _ qid _ _ _ | .give qid _ => some qid
  | _ => none

def BuildLabel.queue : BuildLabel cfg numQ → Option (Fin numQ)
  | .call l => l.queue
  | .halfWay _ => none

/-- A message that goes into queue `qid`. -/
def Event.sent (qid : Fin numQ) : Event cfg numQ → Option (List Byte × ℕ)
  | .accepted q _ m => if q = qid then some m.out else none
  | _ => none

/-- A message that comes out of queue `qid`. -/
def Event.received (qid : Fin numQ) : Event cfg numQ → Option (List Byte × ℕ)
  | .delivered q _ bytes len => if q = qid then some (bytes,len) else none
  | _ => none

namespace World

/-- The messages `q_vsend` has accepted for queue `qid`, oldest first. -/
def accepted (w : World cfg numQ) (qid : Fin numQ) : List (List Byte × ℕ) :=
  w.log.filterMap (Event.sent qid)

/-- The messages `q_vreceive` has returned from queue `qid`, oldest first. -/
def delivered (w : World cfg numQ) (qid : Fin numQ) : List (List Byte × ℕ) :=
  w.log.filterMap (Event.received qid)

/-- A call on a queue leaves the others alone, and what comes out of each queue is what went into
it, in order. -/
structure KeepsApart (w : World cfg numQ) (l : BuildLabel cfg numQ) (w' : World cfg numQ) :
    Prop where
  isolates : ∀ qid ∈ l.queue, w.store.Isolates qid w'.store
  inOrder : ∀ qid, w'.delivered qid <+: w'.accepted qid

end World

/-- `q_vsend` accepts a message only while `__itc_idx` names its own queue, that queue has a slot,
and the string it prints is there and ends. -/
def OwnSlot (printk : Bool) (w : World cfg numQ) : WorldLabel cfg numQ → Prop
  | .give qid (.bytes m granted) => ∀ o, w.store.Accepts qid o → w.store.idx = qid ∧
      0 < o.sizeofQ ∧ (printk = true → granted = true → w.store.prints o m = true)
  | _ => True

instance (printk : Bool) (w : World cfg numQ) (l : WorldLabel cfg numQ) :
    Decidable (OwnSlot printk w l) :=
  match l with
  | .give qid (.bytes m granted) =>
    decidableForallAccepts fun o => w.store.idx = qid ∧ 0 < o.sizeofQ ∧
      (printk = true → granted = true → w.store.prints o m = true)
  | .give _ .token | .give _ (.words _) | .createItc .. | .deleteItc .. | .destructItc | .take ..
  | .lock _ | .unlock _ | .wait .. | .signal _ | .broadcast _ | .create _ | .exit _ | .delete _
  | .join _ | .msleep _ | .changePrio .. | .resume | .yield _ | .advance _ => isTrue trivial

/-- What is not delivered is stored, as long as the thread has not gone to sleep. -/
structure VQueueInv (w : World cfg numQ) : Prop where
  inOrder : ∀ qid, w.delivered qid <+: w.accepted qid
  holding : w.runs = true → ∃ stored, w.store.Holding stored ∧
    ∀ qid, w.accepted qid = w.delivered qid ++ (stored qid).map VMsg.out

section

variable {printk : Bool} {w : World cfg numQ} {l : BuildLabel cfg numQ}

theorem VQueueInv.of_holding {stored : Fin numQ → List VMsg} (hs : w.store.Holding stored)
    (hl : ∀ qid, w.accepted qid = w.delivered qid ++ (stored qid).map VMsg.out) : VQueueInv w :=
  ⟨fun qid => ⟨_,(hl qid).symm⟩,fun _ => ⟨stored,hs,hl⟩⟩

theorem worldInit_vQueueInv (k : Kernel cfg) (i : Fin numQ) : VQueueInv (worldInit k i) :=
  .of_holding
    ⟨Heap.fresh_empty,fun _ => rfl,nofun,fun _ _ => rfl,nofun,nofun⟩ fun _ => rfl

theorem World.accepted_emit (w : World cfg numQ) (e : Event cfg numQ) (qid : Fin numQ) :
    (w.emit e).accepted qid = w.accepted qid ++ (e.sent qid).toList := by
  simp only [World.accepted,World.emit,List.filterMap_append]
  cases he : e.sent qid <;> simp [he]

theorem World.delivered_emit (w : World cfg numQ) (e : Event cfg numQ) (qid : Fin numQ) :
    (w.emit e).delivered qid = w.delivered qid ++ (e.received qid).toList := by
  simp only [World.delivered,World.emit,List.filterMap_append]
  cases he : e.received qid <;> simp [he]

theorem vQueueStep_give {qid : Fin numQ} {m : VMsg} {granted : Bool} (hi : VQueueInv w)
    (he : w.runs = true) (hc : OwnSlot printk w (.give qid (.bytes m granted))) :
    Spec (w.giveBytes printk qid m granted)
      (fun w' => VQueueInv w' ∧ w.store.Isolates qid w'.store) (fun _ => False) := by
  obtain ⟨stored,hs,hlog⟩ := hi.holding he
  obtain ⟨st',e,stored',heq,hiso,hs',hidx,hst⟩ :=
    hs.qVsend w.kernel m granted hc
  simp only [World.giveBytes,heq,spec_bind,spec_ok,spec_pure,Option.isNone_some,
    Bool.false_eq_true,if_false]
  by_cases hok : e = .ok
  · subst hok
    rw [if_pos (Or.inr rfl)]
    refine ⟨.of_holding hs' fun q => ?_,hiso⟩
    rw [World.accepted_emit,World.delivered_emit,hst]
    refine (congrArg (· ++ _) (hlog q)).trans ?_
    simp only [Event.sent,Event.received,Option.toList_none,List.append_nil,and_true,eq_comm (a:=q)]
    split
    · rw [List.map_append,List.append_assoc]
      rfl
    · exact List.append_nil _
  · rw [if_neg (by simpa using hok)]
    refine ⟨.of_holding hs' fun q => ?_,hiso⟩
    rw [hst,if_neg fun h => hok h.2]
    exact hlog q

theorem vQueueStep_take {qid : Fin numQ} {flags : IpcFlags} {timeout : Clock} {bufLen : ℕ}
    (hi : VQueueInv w) (he : w.runs = true) :
    Spec (worldNext w (.take .vQueue qid flags timeout bufLen))
      (fun w' => VQueueInv w' ∧ w.store.Isolates qid w'.store) (fun _ => False) := by
  obtain ⟨stored,hs,hlog⟩ := hi.holding he
  obtain ⟨k',st',r,heq,hiso,hidx,hr⟩ :=
    hs.qVreceive w.kernel qid flags timeout w.clock bufLen
  simp only [worldNext,World.take,heq,spec_bind,spec_ok]
  cases r with
  | waits m => exact ⟨⟨hi.inOrder,by rintro ⟨⟩⟩,hiso⟩
  | ret e out =>
    obtain ⟨stored',hs',hst⟩ := hr e out rfl
    cases out with
    | none =>
      refine ⟨.of_holding hs' fun q => ?_,hiso⟩
      have hq := hst q
      simp only [Option.toList_none,ite_self,List.nil_append] at hq
      simp only [World.deliver,World.endTake,World.accepted_emit,World.delivered_emit,Event.sent,
        Event.received,Option.toList_none,List.append_nil]
      rw [← hq]
      exact hlog q
    | some out =>
      refine ⟨.of_holding hs' fun q => ?_,hiso⟩
      simp only [World.deliver,World.endTake,World.accepted_emit,World.delivered_emit,Event.sent,
        Event.received,Option.toList_none,List.append_nil]
      refine (hlog q).trans ?_
      rw [hst q,List.append_assoc]
      refine congrArg (_ ++ ·) ?_
      simp only [eq_comm (a:=q)]
      split <;> rfl

theorem vQueueStep_spec (hi : VQueueInv w) (hv : l.IsVCall) (he : buildEnabled w l = true)
    (hc : Whole (OwnSlot printk) w l) :
    Spec (buildNext printk w l) (fun w' => VQueueInv w' ∧ w.KeepsApart l w') (fun _ => False) := by
  have hkeep : ∀ qid, l.queue = some qid →
      Spec (buildNext printk w l) (fun w' => VQueueInv w' ∧ w.store.Isolates qid w'.store)
        (fun _ => False) →
      Spec (buildNext printk w l) (fun w' => VQueueInv w' ∧ w.KeepsApart l w')
        (fun _ => False) := by
    intro qid hq hstep
    refine hstep.imp fun w' h => ⟨h.1,fun q hm => ?_,h.1.inOrder⟩
    rw [hq] at hm
    cases hm
    exact h.2
  cases l with
  | halfWay _ => exact hc.elim
  | call l =>
    cases l with
    | createItc r granted =>
      obtain ⟨stored,hs,hlog⟩ := hi.holding he
      have hi' : VQueueInv (w.createItc r granted) := by
        obtain ⟨st,gen,heq⟩ := w.createItc_frame r granted
        have hst : st = (w.store.create r.obj granted).1 :=
          (congrArg World.store heq).symm.trans (w.createItc_store r granted)
        rw [heq]
        exact .of_holding (hst ▸ hs.create r granted) hlog
      exact ⟨hi',by rintro _ ⟨⟩,hi'.inOrder⟩
    | take op qid flags timeout bufLen =>
      cases op with
      | vQueue => exact hkeep qid rfl (vQueueStep_take hi he)
      | sem | sQueue => exact hv.elim
    | give qid p =>
      cases p with
      | bytes m granted => exact hkeep qid rfl (vQueueStep_give hi he hc)
      | token | words => exact hv.elim
    | advance us =>
      have hi' : VQueueInv { w with now := w.now+us } := ⟨hi.inOrder,hi.holding⟩
      exact ⟨hi',by rintro _ ⟨⟩,hi'.inOrder⟩
    | _ => exact hv.elim

end

/-- Where every message goes into a slot of its own queue, no creation stops half way and `printk`
finds its string, no call on a variable-length queue faults, it leaves the other objects and their
buffers alone, and each queue returns the messages it has accepted, in order. -/
theorem vQueueRun_keepsApart {printk : Bool} {k : Kernel cfg} {i : Fin numQ}
    {ls : List (BuildLabel cfg numQ)} {l : BuildLabel cfg numQ} {w : World cfg numQ}
    (hv : ∀ l' ∈ l :: ls, l'.IsVCall)
    (hc : (buildMachine cfg numQ printk).Along (Whole (OwnSlot printk)) (worldInit k i) ls)
    (hr : (buildMachine cfg numQ printk).run (worldInit k i) ls = some w)
    (he : buildEnabled w l = true) (ho : Whole (OwnSlot printk) w l) :
    ∃ w', buildNext printk w l = .ok w' ∧ w.KeepsApart l w' := by
  have hi : VQueueInv w := by
    refine (buildMachine cfg numQ printk).run_invariant (I:=VQueueInv) ?_ (worldInit_vQueueInv k i)
      (hc.and_forall _ fun l' hl => hv l' (List.mem_cons_of_mem _ hl)) hr
    rintro w l w' hi ⟨ho,hv⟩ hstep
    exact ((vQueueStep_spec hi hv hstep.1 ho).of_ok hstep.2).1
  obtain ⟨w',hn,-,hk⟩ := spec_total_iff.mp (vQueueStep_spec hi (hv l List.mem_cons_self) he ho)
  exact ⟨w',hn,hk⟩

instance (l : WorldLabel cfg numQ) : Decidable l.IsVCall :=
  match l with
  | .createItc .. | .take .vQueue .. | .give _ (.bytes ..) | .advance _ => isTrue trivial
  | .take .sem .. | .take .sQueue .. | .give _ .token | .give _ (.words _) | .deleteItc ..
  | .destructItc | .lock _ | .unlock _ | .wait .. | .signal _ | .broadcast _ | .create _ | .exit _
  | .delete _ | .join _ | .msleep _ | .changePrio .. | .resume | .yield _ => isFalse id

instance (l : BuildLabel cfg numQ) : Decidable l.IsVCall :=
  match l with
  | .call l => inferInstanceAs (Decidable l.IsVCall)
  | .halfWay _ => isTrue trivial

def letter (n : ℕ) : VMsg := ⟨[n],0⟩

/-- Three queues, the first without variable-length messages; each is filled before the next is
created. -/
def keepApartSteps : List (BuildLabel gnuArm 4) :=
  [.call (.createItc (.sQueue 2 fifo) true),.call (.createItc (.vQueue 2 8 fifo) true),
    .call (.give 1 (.bytes (letter 1) true)),.call (.give 1 (.bytes (letter 2) true)),
    .call (.createItc (.vQueue 1 8 fifo) true),.call (.give 2 (.bytes (letter 3) true)),
    .call (.take .vQueue 1 nowait 0 8)]

theorem vQueueRun_keepsApart_inTurn : ∃ (k : Kernel gnuArm) (w w' : World gnuArm 4),
    (buildMachine gnuArm 4 true).run (worldInit k 0) keepApartSteps = some w ∧
    w.delivered 1 = [(letter 1).out] ∧ w.accepted 2 = [(letter 3).out] ∧
    buildNext true w (.call (.take .vQueue 1 nowait 0 8)) = .ok w' ∧
    w.KeepsApart (.call (.take .vQueue 1 nowait 0 8)) w' := by
  obtain ⟨k,w,hk,hc,hr,he,hd,ha⟩ := (buildMachine gnuArm 4 true).exists_along (x:=tkCreateKernel 0)
    (Whole (OwnSlot true)) (fun w => buildEnabled w (.call (.take .vQueue 1 nowait 0 8)) = true ∧
      w.delivered 1 = [(letter 1).out] ∧ w.accepted 2 = [(letter 3).out])
    (worldInit · 0) keepApartSteps (by decide +kernel)
  obtain ⟨w',hn,hw⟩ := vQueueRun_keepsApart (l:=.call (.take .vQueue 1 nowait 0 8))
    (by decide) hc hr he trivial
  exact ⟨k,w,w',hr,hd,ha,hn,hw⟩

/-- Two queues are created before the second one gets a message. -/
def mixUpSteps : List (BuildLabel gnuArm 4) :=
  [.call (.createItc (.vQueue 1 8 fifo) true),.call (.createItc (.vQueue 1 8 fifo) true),
    .call (.give 1 (.bytes (letter 1) true))]

/-- Whether `printk` prints or is voided, a `q_vsend` to the first queue for which there is no
memory takes the message of the second one away. -/
theorem vQueueRun_not_keepsApart :
    ¬∃ printk, ∀ (k : Kernel gnuArm) (ls : List (BuildLabel gnuArm 4)) (l : BuildLabel gnuArm 4)
      (w w' : World gnuArm 4), tkCreateKernel 0 = .ok k → (∀ l' ∈ l :: ls, l'.IsVCall) →
      (buildMachine gnuArm 4 printk).run (worldInit k 0) ls = some w →
      (buildMachine gnuArm 4 printk).Step w l w' → w.KeepsApart l w' := by
  rintro ⟨printk,h⟩
  let l : BuildLabel gnuArm 4 := .call (.give 0 (.bytes (letter 2) false))
  obtain ⟨k,w,hk,hr,he,hn⟩ := (buildMachine gnuArm 4 printk).exists_start (x:=tkCreateKernel 0)
    (fun w => buildEnabled w l = true ∧
      (buildNext printk w l).toOption.any (fun w' =>
        decide ((w.store.array 1).map (fun o => o.qv 0) = some ⟨some 0,1⟩ ∧
          (w'.store.array 1).map (fun o => o.qv 0) = some ⟨none,1⟩)) = true)
    (worldInit · 0) mixUpSteps (by clear h; revert printk; decide +kernel)
  obtain ⟨w',hstep,hslots⟩ := exists_ok hn
  obtain ⟨hq,hq'⟩ := of_decide_eq_true hslots
  have hkept := h k mixUpSteps l w w' hk (by decide) hr ⟨he,hstep⟩
  have hsame := (hkept.isolates 0 rfl).object 1 (by decide)
  rw [hsame,hq] at hq'
  exact absurd hq' (by decide)

end Tinker

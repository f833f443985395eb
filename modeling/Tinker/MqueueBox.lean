import Tinker.ItcRing
import Tinker.Mqueue

/-! The message slots of a queue as a list of the stored messages and a list of the free slots
behind them. Sending, sorting and receiving are operations on these lists. -/
namespace Tinker

open Outcome Ring

variable {cfg : Config}

/-- The slots from `mIdxOut` on hold the stored messages and then, from `mIdxIn` on, what is left
in the free slots, of which there is one at least. -/
structure QueueD.Box (Q : QueueD cfg) (stored free : List MessT) : Prop where
  fills : Fills Q.mqAttr.mqMaxmsg Q.mBox.messArray Q.mBox.mIdxOut (stored ++ free)
  full : stored.length+free.length = Q.mqAttr.mqMaxmsg
  room : free ≠ []
  mIdxIn : Q.mBox.mIdxIn = place Q.mqAttr.mqMaxmsg Q.mBox.mIdxOut stored.length

/-- The library sorts. -/
def Sorts (qsort : Qsort) : Prop :=
  ∀ l, (qsort compMess l).Perm l ∧ (qsort compMess l).Pairwise fun a b => compMess a b ≤ 0

section

variable {n i : ℕ} {slots : ℕ → MessT} {l ms free : List MessT}

theorem takeFrom_eq (h : Fills n slots i (l ++ free)) : takeFrom (succ n) slots l.length i = l := by
  induction l generalizing i with
  | nil => rfl
  | cons m l ih =>
    obtain ⟨hm,hf⟩ := Fills.pop (l:=l ++ free) h
    rw [List.length_cons,takeFrom,hm,ih hf]

theorem takeFrom_length (next : ℕ → ℕ) (slots : ℕ → MessT) (n i : ℕ) :
    (takeFrom next slots n i).length = n := by
  induction n generalizing i with
  | zero => rfl
  | succ n ih => rw [takeFrom,List.length_cons,ih]

/-- Up to the end of the table the ring is a straight slice. -/
theorem takeFrom_straight {len : ℕ} (h : i+len ≤ n) :
    takeFrom (·+1) slots len i = takeFrom (succ n) slots len i := by
  induction len generalizing i with
  | zero => rfl
  | succ len ih =>
    rw [takeFrom,takeFrom]
    cases len with
    | zero => rfl
    | succ len => rw [succ,Nat.mod_eq_of_lt (by omega),ih (by omega)]

theorem putFrom_straight (h : i+ms.length ≤ n) :
    putFrom (·+1) ms i slots = putFrom (succ n) ms i slots := by
  induction ms generalizing i slots with
  | nil => rfl
  | cons m ms ih =>
    rw [putFrom,putFrom]
    cases ms with
    | nil => rfl
    | cons m' ms =>
      rw [List.length_cons,List.length_cons] at h
      rw [succ,Nat.mod_eq_of_lt (by omega),ih (by rw [List.length_cons]; omega)]

theorem putFrom_of_ne {x : ℕ} (hx : ∀ j < ms.length, x ≠ place n i j) (hi : i < n) :
    putFrom (succ n) ms i slots x = slots x := by
  induction ms generalizing i slots with
  | nil => rfl
  | cons m ms ih =>
    have hs : succ n i < n := Nat.mod_lt _ (Nat.zero_lt_of_lt hi)
    rw [putFrom,ih (fun j hj => by rw [place_succ]; exact hx (j+1) (Nat.succ_lt_succ hj)) hs]
    refine Function.update_of_ne ?_ _ _
    have := hx 0 (Nat.zero_lt_succ _)
    rwa [place_zero hi] at this

theorem putFrom_place {j : ℕ} (hi : i < n) (hn : ms.length ≤ n) (hj : j < ms.length) :
    putFrom (succ n) ms i slots (place n i j) = ms[j] := by
  induction ms generalizing i j slots with
  | nil => cases hj
  | cons m ms ih =>
    rw [List.length_cons] at hn hj
    have hs : succ n i < n := Nat.mod_lt _ (Nat.zero_lt_of_lt hi)
    cases j with
    | zero =>
      rw [place_zero hi,putFrom,putFrom_of_ne (fun j hj => ?_) hs]
      · exact Function.update_self _ _ _
      · rw [place_succ,← place_zero hi]
        intro he
        rw [place_zero hi] at he
        have := place_inj (by omega) (by omega) ((place_zero hi).trans he)
        omega
    | succ j =>
      rw [putFrom,← place_succ]
      exact ih hs (by omega) (by omega)

/-- The first slots are written anew. -/
theorem putFrom_fills (h : Fills n slots i (l ++ free)) (hl : ms.length = l.length) :
    Fills n (putFrom (succ n) ms i slots) i (ms ++ free) where
  out_lt := h.out_lt
  room := by
    have := h.room
    rw [List.length_append] at this ⊢
    omega
  slot := by
    intro j hj
    have hroom := h.room
    rw [List.length_append] at hj hroom
    by_cases hjm : j < ms.length
    · rw [List.getElem_append_left hjm]
      exact putFrom_place h.out_lt (by omega) hjm
    · rw [List.getElem_append_right (by omega),putFrom_of_ne (fun j' hj' he => ?_) h.out_lt,
        h.slot j (by rw [List.length_append]; omega),List.getElem_append_right (by omega)]
      · simp only [hl]
      · have := place_inj (by omega) (by omega) he
        omega

end

section

variable {Q : QueueD cfg} {stored free : List MessT} {m : MessT} {heap : Heap Byte}

theorem QueueD.Box.numbMess_eq (h : Q.Box stored free) : numbMess Q = stored.length := by
  have hout := h.fills.out_lt
  have hlt : stored.length < Q.mqAttr.mqMaxmsg := by
    have := List.length_pos_iff.mpr h.room
    have := h.full
    omega
  rw [numbMess,h.mIdxIn,place]
  by_cases hw : Q.mBox.mIdxOut+stored.length < Q.mqAttr.mqMaxmsg
  · rw [Nat.mod_eq_of_lt hw,if_pos (by omega)]
    omega
  · rw [Nat.mod_eq_sub_mod (by omega),Nat.mod_eq_of_lt (by omega),if_neg (by omega)]
    omega

theorem QueueD.Box.messages_eq (h : Q.Box stored free) : Q.messages = stored := by
  rw [QueueD.messages,h.numbMess_eq]
  exact takeFrom_eq h.fills

theorem QueueD.messages_length (Q : QueueD cfg) : Q.messages.length = numbMess Q :=
  takeFrom_length _ _ _ _

/-- The queue with its messages sorted, each way round the end of the table. -/
def QueueD.sorted (qsort : Qsort) (Q : QueueD cfg) : QueueD cfg :=
  { Q with mBox := { Q.mBox with
      messArray := putFrom (succ Q.mqAttr.mqMaxmsg) (qsort compMess Q.messages) Q.mBox.mIdxOut
        Q.mBox.messArray } }

/-- Both ways of `sortByPrio` are one. -/
theorem sortByPrio_spec (qsort : Qsort) (granted : Bool)
    (hin : Q.mBox.mIdxIn < Q.mqAttr.mqMaxmsg)
    (hlen : (qsort compMess Q.messages).length = Q.messages.length) :
    Spec (sortByPrio qsort Q granted) (fun Q' => Q' = Q.sorted qsort)
      (fun e => e = .nullPointer ∧ granted = false) := by
  unfold sortByPrio
  simp only [spec_ite,spec_ok,spec_bind,spec_check,spec_pure]
  refine ⟨fun hle => ?_,fun _ => ⟨fun _ => rfl,fun hg => ⟨trivial,by simpa using hg⟩⟩⟩
  -- the messages end before the table does
  have hend : Q.mBox.mIdxOut+numbMess Q ≤ Q.mqAttr.mqMaxmsg := by
    rw [numbMess,if_pos hle]
    omega
  rw [Q.messages_length] at hlen
  have hend' : Q.mBox.mIdxOut+(qsort compMess Q.messages).length ≤ Q.mqAttr.mqMaxmsg := by
    rw [hlen]
    exact hend
  rw [takeFrom_straight hend,← QueueD.messages,putFrom_straight hend']
  rfl

/-- `sortByPrio` sorts the stored messages, wherever they are in the ring. -/
theorem QueueD.Box.sortByPrio (h : Q.Box stored free) (qsort : Qsort) (granted : Bool)
    (hp : (qsort compMess stored).Perm stored) :
    Spec (sortByPrio qsort Q granted) (fun Q' => Q'.Box (qsort compMess stored) free ∧
      Q'.taken = Q.taken ∧ Q'.mqAttr = Q.mqAttr ∧ Q'.sem = Q.sem)
      (fun e => e = .nullPointer ∧ granted = false) := by
  have hin : Q.mBox.mIdxIn < Q.mqAttr.mqMaxmsg := by
    rw [h.mIdxIn]
    exact place_lt (Nat.zero_lt_of_lt h.fills.out_lt) _ _
  have hsorted := sortByPrio_spec qsort granted hin (by
    rw [h.messages_eq]
    exact hp.length_eq)
  refine hsorted.imp ?_
  rintro Q' rfl
  refine ⟨⟨?_,?_,h.room,?_⟩,rfl,rfl,rfl⟩
  · rw [QueueD.sorted,h.messages_eq]
    exact putFrom_fills h.fills hp.length_eq
  · rw [hp.length_eq]
    exact h.full
  · rw [hp.length_eq]
    exact h.mIdxIn

/-- What a receiver would get of a slot, and its priority. -/
def MessT.content (heap : Heap Byte) (m : MessT) : Option (List Byte × ℕ) :=
  m.buffer.bind fun b => (heap.mem b).map fun bytes =>
    (bytes.take (sizeOfInt m.msgSz),m.order.prio)

/-- The attributes of a queue that `mq_open` gets its table for: a slot takes 20 bytes. -/
structure MqAttr.Fits (a : MqAttr) : Prop where
  pos : 0 < a.mqMaxmsg
  maxmsg : a.mqMaxmsg*20 < sizeMod
  msgsize : a.mqMsgsize < sizeMod

/-- `msgSz` is an `int` between two `size_t`. -/
theorem sizeOfInt_toInt32 {n : ℕ} (h : n < sizeMod) : sizeOfInt (toInt32 n) = n := by
  have hb : Int.bmod n (2^32) % ((2^32 : ℕ) : ℤ) = (n : ℤ) % ((2^32 : ℕ) : ℤ) := Int.bmod_emod
  rw [sizeMod] at h
  rw [sizeOfInt,toInt32,sizeMod,hb]
  omega

/-- A copy to a buffer in use. -/
theorem Heap.write_ok {E : Type*} {null bad : E} {b : ℕ} {old src : List Byte}
    (hb : heap.mem b = some old) (hs : src.length ≤ old.length) :
    heap.write null bad (some b) src =
      .ok { heap with mem := Function.update heap.mem b (some (src ++ old.drop src.length)) } := by
  simp [Heap.write,Heap.get,hb,check,hs,bind,Except.bind,pure,Except.pure]

theorem Heap.read_ok {E : Type*} {null bad : E} {b n : ℕ} {old : List Byte}
    (hb : heap.mem b = some old) (hn : n ≤ old.length) :
    heap.read null bad (some b) n = .ok (old.take n) := by
  simp [Heap.read,Heap.get,hb,check,hn,bind,Except.bind,pure,Except.pure]

/-- The slot that `mq_send` fills. -/
def SendArgs.mess (a : SendArgs) (buffer : Option ℕ) (inOrder : ℕ) : MessT :=
  ⟨buffer,toInt32 a.msg.length,⟨a.now,a.msgprio,inOrder⟩⟩

theorem QueueD.Box.store {a : SendArgs} {b : ℕ} {old : List Byte} (h : Q.Box stored (m :: free))
    (hfree : free ≠ []) (hm : m.buffer = some b) (hb : heap.mem b = some old)
    (hs : a.msg.length ≤ old.length) :
    ∃ Q', Q.store heap a = .ok (Q',{ heap with
        mem := Function.update heap.mem b (some (a.msg ++ old.drop a.msg.length)) }) ∧
      Q'.Box (stored ++ [a.mess (some b) Q.mBox.lastInOrder]) free ∧
      Q'.taken = Q.taken ∧ Q'.mqAttr = Q.mqAttr ∧ Q'.sem = Q.sem := by
  have hfull := h.full
  rw [List.length_cons] at hfull
  have hin : Q.mBox.mIdxIn < Q.mqAttr.mqMaxmsg := by
    rw [h.mIdxIn]
    exact place_lt (Nat.zero_lt_of_lt h.fills.out_lt) _ _
  have hslot : Q.mBox.messArray Q.mBox.mIdxIn = m := by
    rw [h.mIdxIn,h.fills.slot stored.length (by rw [List.length_append,List.length_cons]; omega)]
    simp
  refine ⟨{ Q with mBox := { Q.mBox with
      messArray := Function.update Q.mBox.messArray Q.mBox.mIdxIn
        (a.mess (some b) Q.mBox.lastInOrder)
      lastInOrder := (Q.mBox.lastInOrder+1) % sizeMod
      mIdxIn := (Q.mBox.mIdxIn+1) % Q.mqAttr.mqMaxmsg } },?_,⟨?_,?_,hfree,?_⟩,rfl,rfl,rfl⟩
  · simp only [QueueD.store,check,if_pos hin,hslot,hm,Heap.write_ok hb hs,bind,Except.bind]
    rfl
  · have hset := h.fills.set (b:=a.mess (some b) Q.mBox.lastInOrder)
    rw [← h.mIdxIn] at hset
    rw [List.append_assoc]
    exact hset
  · rw [List.length_append,List.length_singleton]
    simp only
    omega
  · rw [List.length_append,List.length_singleton,← succ_place,← h.mIdxIn]
    rfl

theorem QueueD.Box.fetch {b : ℕ} {old : List Byte} (h : Q.Box (m :: stored) free) (msgprio : Bool)
    (hm : m.buffer = some b) (hb : heap.mem b = some old) (hs : sizeOfInt m.msgSz ≤ old.length) :
    ∃ Q' prio, Q.fetch heap msgprio =
        .ok (Q',.received (old.take (sizeOfInt m.msgSz)) prio,
          ⟨old.take (sizeOfInt m.msgSz),m.order.prio,(m :: stored).map fun m => m.order.prio⟩) ∧
      Q'.Box stored (free ++ [m]) ∧ Q'.taken = Q.taken ∧ Q'.mqAttr = Q.mqAttr ∧ Q'.sem = Q.sem := by
  have hfull := h.full
  rw [List.length_cons] at hfull
  have hslot : Q.mBox.messArray Q.mBox.mIdxOut = m := h.fills.pop.1
  have hin : Q.mBox.mIdxIn < Q.mqAttr.mqMaxmsg := by
    rw [h.mIdxIn]
    exact place_lt (Nat.zero_lt_of_lt h.fills.out_lt) _ _
  refine ⟨{ Q with mBox := { Q.mBox with
      mIdxOut := (Q.mBox.mIdxOut+1) % Q.mqAttr.mqMaxmsg } },
    if msgprio then some (Q.mBox.messArray Q.mBox.mIdxIn).order.prio else none,
    ?_,⟨?_,?_,by simp,?_⟩,rfl,rfl,rfl⟩
  · simp only [QueueD.fetch,check,if_pos h.fills.out_lt,if_pos hin,hslot,hm,Heap.read_ok hb hs,bind,
      Except.bind,h.messages_eq]
    rfl
  · have hrot := Fills.rotate (l:=stored ++ free) h.fills (by
      rw [List.length_cons,List.length_append]
      omega)
    rw [List.append_assoc] at hrot
    exact hrot
  · rw [List.length_append,List.length_singleton]
    simp only
    omega
  · have hp := h.mIdxIn
    rw [List.length_cons] at hp
    simp only [hp]
    exact (place_succ ..).symm

theorem compMess_le {e1 e2 : MessT} : compMess e1 e2 ≤ 0 ↔ e2.order.prio < e1.order.prio ∨
    e1.order.prio = e2.order.prio ∧ (e1.order.time < e2.order.time ∨
      e1.order.time = e2.order.time ∧ e1.order.inOrder ≤ e2.order.inOrder) := by
  unfold compMess
  split_ifs <;> omega

theorem compMess_lt {e1 e2 : MessT} : compMess e1 e2 < 0 ↔ e2.order.prio < e1.order.prio ∨
    e1.order.prio = e2.order.prio ∧ (e1.order.time < e2.order.time ∨
      e1.order.time = e2.order.time ∧ e1.order.inOrder < e2.order.inOrder) := by
  unfold compMess
  split_ifs <;> omega

theorem compMess_prio {e1 e2 : MessT} (h : compMess e1 e2 ≤ 0) :
    e2.order.prio ≤ e1.order.prio := by
  rw [compMess_le] at h
  omega

/-- No two messages compare equal: sorting leaves no choice. -/
theorem pairwise_compMess_lt {l l' : List MessT} (hp : l'.Perm l)
    (hl : l.Pairwise fun a b => compMess a b < 0 ∨ compMess b a < 0)
    (hs : l'.Pairwise fun a b => compMess a b ≤ 0) : l'.Pairwise fun a b => compMess a b < 0 := by
  have hl' := (hp.pairwise_iff fun {a b} h => Or.symm h).mpr hl
  refine (hl'.and hs).imp fun {a b} ⟨hor,hle⟩ => hor.resolve_right fun hba => ?_
  rw [compMess_le] at hle
  rw [compMess_lt] at hba
  omega

theorem eq_of_compMess_lt {l l' : List MessT} (hp : l'.Perm l)
    (hl : l.Pairwise fun a b => compMess a b < 0) (hl' : l'.Pairwise fun a b => compMess a b < 0) :
    l' = l := by
  refine hp.eq_of_pairwise (fun a b _ _ hab hba => ?_) hl' hl
  rw [compMess_lt] at hab hba
  omega

theorem MessT.content_congr {heap' : Heap Byte} (h : ∀ b, m.buffer = some b →
    heap'.mem b = heap.mem b) : m.content heap' = m.content heap := by
  rw [content,content]
  cases hm : m.buffer with
  | none => rfl
  | some b => rw [Option.bind_some,Option.bind_some,h b hm]

/-- The messages of each priority leave in the order they came in. -/
structure InTurn (heap : Heap Byte) (accepted : List (List Byte × ℕ)) (returned : List Receipt)
    (stored : List MessT) : Prop where
  strict : stored.Pairwise fun a b => compMess a b < 0
  turn : ∀ p, (accepted.filter fun x => x.2 = p).map some =
    (returned.filter fun r => r.prio = p).map (fun r => some (r.bytes,r.prio)) ++
      (stored.filter fun m => m.order.prio = p).map fun m => m.content heap

namespace InTurn

variable {heap' : Heap Byte} {accepted : List (List Byte × ℕ)} {returned : List Receipt}

theorem congr (h : InTurn heap accepted returned stored)
    (hc : ∀ m ∈ stored, m.content heap' = m.content heap) :
    InTurn heap' accepted returned stored where
  strict := h.strict
  turn p := by
    rw [h.turn p]
    congr 1
    exact List.map_congr_left fun m hm => (hc m (List.mem_filter.mp hm).1).symm

/-- A message that is newer than those of its priority is sorted behind them. -/
theorem send (h : InTurn heap accepted returned stored) {bytes : List Byte} {prio : ℕ}
    {sorted : List MessT} (hperm : sorted.Perm (stored ++ [m]))
    (hs : sorted.Pairwise fun a b => compMess a b ≤ 0)
    (hm : m.content heap = some (bytes,prio)) (hprio : m.order.prio = prio)
    (hnew : ∀ m' ∈ stored, m'.order.prio = prio → compMess m' m < 0) :
    InTurn heap (accepted ++ [(bytes,prio)]) returned sorted := by
  have hlt : sorted.Pairwise fun a b => compMess a b < 0 := by
    refine pairwise_compMess_lt hperm ?_ hs
    rw [List.pairwise_append]
    refine ⟨h.strict.imp Or.inl,List.pairwise_singleton _ _,fun a ha b hb => ?_⟩
    obtain rfl := List.mem_singleton.mp hb
    by_cases hp : a.order.prio = prio
    · exact Or.inl (hnew a ha hp)
    · rw [compMess_lt,compMess_lt]
      omega
  refine ⟨hlt,fun p => ?_⟩
  have hfilter : (sorted.filter fun m => m.order.prio = p) =
      (stored ++ [m]).filter fun m => m.order.prio = p := by
    refine eq_of_compMess_lt (hperm.filter _) ?_ (hlt.filter _)
    rw [List.filter_append,List.pairwise_append]
    refine ⟨h.strict.filter _,(List.pairwise_singleton _ m).filter _,fun a ha b hb => ?_⟩
    obtain ⟨ha,hap⟩ := List.mem_filter.mp ha
    obtain ⟨hb,hbp⟩ := List.mem_filter.mp hb
    obtain rfl := List.mem_singleton.mp hb
    refine hnew a ha ?_
    rw [of_decide_eq_true hap,← hprio,of_decide_eq_true hbp]
  rw [hfilter,List.filter_append,List.filter_append,List.map_append,List.map_append,h.turn p,
    List.append_assoc]
  congr 2
  by_cases hp : prio = p
  · simp [hprio,hp,hm]
  · simp [hprio,hp]

theorem receive (h : InTurn heap accepted returned (m :: stored))
    {bytes : List Byte} {ranks : List ℕ} (hm : m.content heap = some (bytes,m.order.prio)) :
    InTurn heap accepted (returned ++ [⟨bytes,m.order.prio,ranks⟩]) stored where
  strict := (List.pairwise_cons.mp h.strict).2
  turn p := by
    rw [h.turn p,List.filter_append,List.map_append,List.append_assoc,List.filter_cons]
    congr 1
    by_cases hp : m.order.prio = p
    · simp [hp,hm]
    · simp [hp]

end InTurn

/-- What a queue holds: the slots, sorted and each with a buffer of its own, and the messages that
have been accepted and not returned; in turn, if `T`. -/
structure QueueD.Keeps (T : Prop) (Q : QueueD cfg) (heap : Heap Byte) (own : List ℕ)
    (accepted : List (List Byte × ℕ)) (returned : List Receipt) (stored free : List MessT) :
    Prop where
  box : Q.Box stored free
  fits : Q.mqAttr.Fits
  sorted : stored.Pairwise fun a b => compMess a b ≤ 0
  buffers : ((stored ++ free).map fun m => m.buffer).Perm (own.map some)
  nodup : own.Nodup
  alloc : ∀ b ∈ own, ∃ bytes, heap.mem b = some bytes ∧ bytes.length = Q.mqAttr.mqMsgsize
  sized : ∀ m ∈ stored, sizeOfInt m.msgSz ≤ Q.mqAttr.mqMsgsize
  kept : (accepted.map some).Perm
    (returned.map (fun r => some (r.bytes,r.prio)) ++ stored.map fun m => m.content heap)
  best : ∀ r ∈ returned, r.ranks ≠ [] ∧ ∀ p ∈ r.ranks, p ≤ r.prio
  turn : T → InTurn heap accepted returned stored

namespace QueueD.Keeps

variable {T : Prop} {own : List ℕ} {accepted : List (List Byte × ℕ)} {returned : List Receipt}
  {heap' : Heap Byte}

theorem buffer (h : Q.Keeps T heap own accepted returned stored free) (hm : m ∈ stored ++ free) :
    ∃ b ∈ own, m.buffer = some b := by
  have hmem := h.buffers.mem_iff.mp (List.mem_map_of_mem (f:=fun m => m.buffer) hm)
  obtain ⟨b,hb,he⟩ := List.mem_map.mp hmem
  exact ⟨b,hb,he.symm⟩

/-- What happens to other buffers does not matter. -/
theorem frame (h : Q.Keeps T heap own accepted returned stored free)
    (hh : ∀ b ∈ own, heap'.mem b = heap.mem b) :
    Q.Keeps T heap' own accepted returned stored free := by
  have hc : ∀ m ∈ stored, m.content heap' = m.content heap := by
    intro m hm
    obtain ⟨b,hb,hmb⟩ := h.buffer (List.mem_append_left _ hm)
    refine MessT.content_congr fun c hc => ?_
    obtain rfl := Option.some.inj (hmb.symm.trans hc)
    exact hh b hb
  refine ⟨h.box,h.fits,h.sorted,h.buffers,h.nodup,fun b hb => ?_,h.sized,?_,h.best,
    fun hT => (h.turn hT).congr hc⟩
  · rw [hh b hb]
    exact h.alloc b hb
  · rw [List.map_congr_left hc]
    exact h.kept

/-- A message comes in. -/
theorem send {qsort : Qsort} {a : SendArgs} (hq : Sorts qsort)
    (h : Q.Keeps T heap own accepted returned stored free) (hs : a.msg.length ≤ Q.mqAttr.mqMsgsize)
    (hroom : stored.length+1 < Q.mqAttr.mqMaxmsg)
    (hT : T → ∀ m ∈ stored, m.order.prio = a.msgprio →
      compMess m (a.mess none Q.mBox.lastInOrder) < 0) :
    ∃ Q1 heap', Q.store heap a = .ok (Q1,heap') ∧ (∀ b, b ∉ own → heap'.mem b = heap.mem b) ∧
      Spec (sortByPrio qsort Q1 a.granted) (fun Q' => (∃ stored' free',
          Q'.Keeps T heap' own (accepted ++ [(a.msg,a.msgprio)]) returned stored' free' ∧
          stored'.length = stored.length+1) ∧
        Q'.taken = Q.taken ∧ Q'.mqAttr = Q.mqAttr ∧ Q'.sem = Q.sem)
        (fun e => e = .nullPointer ∧ a.granted = false) := by
  have hfull := h.box.full
  obtain _ | ⟨m,free⟩ := free
  · exact absurd rfl h.box.room
  rw [List.length_cons] at hfull
  have hfree : free ≠ [] := List.ne_nil_of_length_pos (by omega)
  obtain ⟨b,hb,hmb⟩ := h.buffer (m:=m) (List.mem_append_right _ List.mem_cons_self)
  obtain ⟨old,hold,hlen⟩ := h.alloc b hb
  obtain ⟨Q1,hst,hbox,ht1,ha1,hs1⟩ := h.box.store (a:=a) hfree hmb hold (by omega)
  set heap' : Heap Byte :=
    { heap with mem := Function.update heap.mem b (some (a.msg ++ old.drop a.msg.length)) }
    with hheap'
  refine ⟨Q1,heap',hst,fun c hc => ?_,?_⟩
  · exact Function.update_of_ne (by rintro rfl; exact hc hb) _ _
  obtain ⟨hperm,hsort⟩ := hq (stored ++ [a.mess (some b) Q.mBox.lastInOrder])
  refine (hbox.sortByPrio qsort a.granted hperm).imp ?_
  rintro Q' ⟨hbox',ht,ha,hs'⟩
  have hattr : Q'.mqAttr = Q.mqAttr := ha.trans ha1
  have hbuf : ((stored ++ m :: free).map fun m => m.buffer).Nodup :=
    h.buffers.nodup_iff.mpr (h.nodup.map (Option.some_injective _))
  -- the new message is not in the buffer of a stored one
  have hcontent : ∀ m' ∈ stored, m'.content heap' = m'.content heap := by
    intro m' hm'
    refine MessT.content_congr fun c hc => Function.update_of_ne ?_ _ _
    rintro rfl
    rw [List.map_append,List.nodup_append] at hbuf
    refine hbuf.2.2 (some c) ?_ (some c) ?_ rfl
    · rw [← hc]
      exact List.mem_map_of_mem (f:=fun m : MessT => m.buffer) hm'
    · rw [← hmb]
      exact List.mem_map_of_mem (f:=fun m : MessT => m.buffer) List.mem_cons_self
  have hsz : sizeOfInt (toInt32 a.msg.length) = a.msg.length :=
    sizeOfInt_toInt32 (by have := h.fits.msgsize; omega)
  have hnew : (a.mess (some b) Q.mBox.lastInOrder).content heap' = some (a.msg,a.msgprio) := by
    simp [MessT.content,SendArgs.mess,hheap',hsz]
  refine ⟨⟨_,_,⟨hbox',by rw [hattr]; exact h.fits,hsort,?_,h.nodup,fun c hc => ?_,
    fun m' hm' => ?_,?_,h.best,fun ht => ?_⟩,?_⟩,ht.trans ht1,hattr,hs'.trans hs1⟩
  · refine List.Perm.trans ?_ h.buffers
    rw [List.map_append,List.map_append,List.map_cons,hmb]
    refine ((hperm.map _).append_right _).trans ?_
    simp [SendArgs.mess]
  · obtain ⟨bytes,hbytes,hl⟩ := h.alloc c hc
    rw [hattr,hheap']
    by_cases hcb : c = b
    · subst hcb
      refine ⟨_,Function.update_self _ _ _,?_⟩
      rw [List.length_append,List.length_drop]
      omega
    · exact ⟨bytes,(Function.update_of_ne hcb _ _).trans hbytes,hl⟩
  · rw [hattr]
    obtain hm' | hm' := List.mem_append.mp (hperm.mem_iff.mp hm')
    · exact h.sized m' hm'
    · obtain rfl := List.mem_singleton.mp hm'
      rw [SendArgs.mess,hsz]
      exact hs
  · refine List.Perm.trans ?_ ((hperm.map _).symm.append_left _)
    rw [List.map_append,List.map_append,List.map_congr_left hcontent,← List.append_assoc]
    simp only [List.map_cons,List.map_nil,hnew]
    exact h.kept.append_right _
  · exact ((h.turn ht).congr hcontent).send hperm hsort hnew rfl fun m hm hp => hT ht m hm hp
  · rw [hperm.length_eq,List.length_append,List.length_singleton]

/-- The first message goes out. -/
theorem receive (h : Q.Keeps T heap own accepted returned (m :: stored) free) (msgprio : Bool) :
    ∃ Q' ret receipt, Q.fetch heap msgprio = .ok (Q',ret,receipt) ∧
      Q'.Keeps T heap own accepted (returned ++ [receipt]) stored (free ++ [m]) ∧
      Q'.taken = Q.taken ∧ Q'.mqAttr = Q.mqAttr ∧ Q'.sem = Q.sem := by
  obtain ⟨b,hb,hmb⟩ := h.buffer (m:=m) (by simp)
  obtain ⟨old,hold,hlen⟩ := h.alloc b hb
  have hsz := h.sized m List.mem_cons_self
  obtain ⟨Q',prio,hf,hbox,ht,ha,hs⟩ := h.box.fetch msgprio hmb hold (by omega)
  obtain ⟨hfirst,hsorted⟩ := List.pairwise_cons.mp h.sorted
  have hm : m.content heap = some (old.take (sizeOfInt m.msgSz),m.order.prio) := by
    simp [MessT.content,hmb,hold]
  refine ⟨Q',_,_,hf,⟨hbox,by rw [ha]; exact h.fits,hsorted,?_,h.nodup,?_,fun m' hm' => ?_,?_,
    fun r hr => ?_,fun hT => (h.turn hT).receive hm⟩,ht,ha,hs⟩
  · refine List.Perm.trans (List.Perm.map _ ?_) h.buffers
    rw [← List.append_assoc]
    exact List.perm_append_singleton m (stored ++ free)
  · rw [ha]
    exact h.alloc
  · rw [ha]
    exact h.sized m' (List.mem_cons_of_mem _ hm')
  · refine h.kept.trans ?_
    simp [hm]
  · obtain hr | hr := List.mem_append.mp hr
    · exact h.best r hr
    · obtain rfl := List.mem_singleton.mp hr
      refine ⟨by simp,fun p hp => ?_⟩
      obtain ⟨m',hm',rfl⟩ := List.mem_map.mp hp
      obtain rfl | hm' := List.mem_cons.mp hm'
      · exact Nat.le_refl _
      · exact compMess_prio (hfirst m' hm')

end QueueD.Keeps

end

end Tinker

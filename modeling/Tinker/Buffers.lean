import Tinker.VQueue

/-! Whose the buffers of the variable-length queues are. Every message that `q_vsend` accepts gets
a buffer, and the buffers are numbered in that order; each is in one slot of the queue it was sent
to, until that queue is deleted. -/
namespace Tinker

open Kernel Outcome

variable {cfg : Config} {numQ : ℕ}

namespace ItcStore

/-- There is a variable-length queue in slot `i` of the table. -/
def IsQueue (st : ItcStore cfg numQ) (i : Fin numQ) : Prop :=
  ∃ o, st.slot i = .ok (some o) ∧ o.bType = .vQueue

/-- Slot `x` of the queue `i` holds the pointer `p`. -/
def Points (st : ItcStore cfg numQ) (i : Fin numQ) (x p : ℕ) : Prop :=
  ∃ o, st.slot i = .ok (some o) ∧ o.bType = .vQueue ∧ x < o.sizeofQ ∧ (o.qv x).mb = some p

/-- The buffers after the sends `sends`, of which each names the queue, its number in the slot and
the message. -/
structure Owns (st : ItcStore cfg numQ) (gen : Fin numQ → ℕ)
    (sends : List (Fin numQ × ℕ × VMsg)) : Prop where
  fresh : st.heap.Fresh
  next : st.heap.next = sends.length
  past : ∀ i g m, (i,g,m) ∈ sends → g ≤ gen i
  owner : ∀ i x p, st.Points i x p → ∃ m, sends[p]? = some (i,gen i,m)
  live : ∀ p i m, sends[p]? = some (i,gen i,m) → st.IsQueue i →
    st.heap.mem p = some m.copied ∧ ∃! x, st.Points i x p
  dead : ∀ p i g m, sends[p]? = some (i,g,m) → ¬(st.IsQueue i ∧ g = gen i) →
    st.heap.mem p = none

/-- The two tables hold the same queues with the same pointers. -/
structure SameBufs (st st' : ItcStore cfg numQ) : Prop where
  heap : st'.heap = st.heap
  freed : st'.freed = st.freed
  body : ∀ i, (st'.array i).map (fun o => (o.bType,o.sizeofQ,o.qv)) =
    (st.array i).map fun o => (o.bType,o.sizeofQ,o.qv)

end ItcStore

section

variable {a b c st st' : ItcStore cfg numQ} {i : Fin numQ} {o : ItcObj cfg} {gen : Fin numQ → ℕ}
  {sends : List (Fin numQ × ℕ × VMsg)}

namespace ItcStore

theorem SameBufs.refl (st : ItcStore cfg numQ) : st.SameBufs st := ⟨rfl,rfl,fun _ => rfl⟩

theorem SameBufs.trans (h : a.SameBufs b) (h' : b.SameBufs c) : a.SameBufs c :=
  ⟨h'.heap.trans h.heap,h'.freed.trans h.freed,fun i => (h'.body i).trans (h.body i)⟩

/-- The part of an object that the stages work on is written back. -/
theorem SameBufs.putItc {q : Itc cfg} (h : ∀ o ∈ st.array i, q.bType = o.bType ∧
    q.sizeofQ = o.sizeofQ) : st.SameBufs (st.putItc i q) := by
  refine ⟨rfl,rfl,fun j => ?_⟩
  simp only [ItcStore.putItc,setObj,Function.update_apply]
  split
  · next hj =>
    subst hj
    cases ho : st.array j with
    | none => rfl
    | some o =>
      obtain ⟨hb,hs⟩ := h o ho
      simp [hb,hs]
  · rfl

theorem SameBufs.slot (h : st.SameBufs st') (hs : st'.slot i = .ok (some o)) :
    ∃ o', st.slot i = .ok (some o') ∧ o.bType = o'.bType ∧ o.sizeofQ = o'.sizeofQ ∧
      o.qv = o'.qv := by
  obtain ⟨hf,ho⟩ := slot_eq hs
  have hb := h.body i
  rw [ho,Option.map_some] at hb
  obtain ⟨o',ho',heq⟩ := Option.map_eq_some_iff.mp hb.symm
  simp only [Prod.mk.injEq] at heq
  exact ⟨o',slot_of (h.freed ▸ hf) ho',heq.1.symm,heq.2.1.symm,heq.2.2.symm⟩

theorem SameBufs.symm (h : st.SameBufs st') : st'.SameBufs st :=
  ⟨h.heap.symm,h.freed.symm,fun i => (h.body i).symm⟩

theorem SameBufs.isQueue (h : st.SameBufs st') : st'.IsQueue i ↔ st.IsQueue i := by
  constructor
  · rintro ⟨o,ho,hb⟩
    obtain ⟨o',ho',hb',-⟩ := h.slot ho
    exact ⟨o',ho',hb'.symm.trans hb⟩
  · rintro ⟨o,ho,hb⟩
    obtain ⟨o',ho',hb',-⟩ := h.symm.slot ho
    exact ⟨o',ho',hb'.symm.trans hb⟩

theorem SameBufs.points (h : st.SameBufs st') {x p : ℕ} : st'.Points i x p ↔ st.Points i x p := by
  constructor
  · rintro ⟨o,ho,hb,hx,hp⟩
    obtain ⟨o',ho',hb',hs',hq'⟩ := h.slot ho
    exact ⟨o',ho',hb'.symm.trans hb,hs' ▸ hx,hq' ▸ hp⟩
  · rintro ⟨o,ho,hb,hx,hp⟩
    obtain ⟨o',ho',hb',hs',hq'⟩ := h.symm.slot ho
    exact ⟨o',ho',hb'.symm.trans hb,hs' ▸ hx,hq' ▸ hp⟩

theorem Owns.same (h : st.Owns gen sends) (hs : st.SameBufs st') : st'.Owns gen sends := by
  refine ⟨by rw [hs.heap]; exact h.fresh,by rw [hs.heap]; exact h.next,h.past,
    fun i x p hp => h.owner i x p (hs.points.mp hp),fun p i m hm hq => ?_,fun p i g m hm hq => ?_⟩
  · rw [hs.heap]
    simp only [hs.points]
    exact h.live p i m hm (hs.isQueue.mp hq)
  · rw [hs.heap]
    rw [hs.isQueue] at hq
    exact h.dead p i g m hm hq

theorem clear_owns (i : Fin numQ) : (clear i : ItcStore cfg numQ).Owns gen [] where
  fresh := Heap.fresh_empty
  next := rfl
  past := fun i g m hm => by cases hm
  owner := fun i x p ⟨o,ho,_⟩ => by cases ho
  live := fun p i m hm => by cases hm
  dead := fun p i g m hm => by cases hm

/-- A buffer of a present queue is in use. -/
theorem Owns.mem (h : st.Owns gen sends) {x p : ℕ} (hp : st.Points i x p) :
    ∃ m, st.heap.mem p = some m ∧ ∀ y, st.Points i y p → y = x := by
  obtain ⟨m,hm⟩ := h.owner i x p hp
  have hq : st.IsQueue i := let ⟨o,ho,hb,_⟩ := hp; ⟨o,ho,hb⟩
  obtain ⟨hmem,y,-,huniq⟩ := h.live p i m hm hq
  exact ⟨_,hmem,fun z hz => (huniq z hz).trans (huniq x hp).symm⟩

/-- No buffer is in slots of two queues. -/
theorem Owns.queue_eq (h : st.Owns gen sends) {j : Fin numQ} {x y p : ℕ} (hp : st.Points i x p)
    (hq : st.Points j y p) : i = j := by
  obtain ⟨m,hm⟩ := h.owner i x p hp
  obtain ⟨m',hm'⟩ := h.owner j y p hq
  rw [hm] at hm'
  exact congrArg Prod.fst (Option.some.inj hm')

/-- A new object, in an empty slot, has no message. -/
theorem Owns.create (h : st.Owns gen sends) (hnone : st.array i = none)
    (ha : st'.array = Function.update st.array i (some o)) (hh : st'.heap = st.heap)
    (hf : st'.freed = st.freed) (hno : ∀ x, (o.qv x).mb = none) :
    st'.Owns (Function.update gen i (gen i+1)) sends := by
  have hslot : ∀ j, j ≠ i → st'.slot j = st.slot j := fun j hj => by
    simp only [slot,hf,ha,Function.update_of_ne hj]
  have hwas : ¬st.IsQueue i := fun ⟨o,ho,_⟩ => by
    rw [(slot_eq ho).2] at hnone
    cases hnone
  have hpt : ∀ j x p, st'.Points j x p → j ≠ i ∧ st.Points j x p := by
    rintro j x p ⟨oj,hoj,hb,hx,hp⟩
    by_cases hj : j = i
    · have hsome := (slot_eq hoj).2
      rw [ha,hj,Function.update_self] at hsome
      cases hsome
      rw [hno x] at hp
      cases hp
    · exact ⟨hj,oj,hslot j hj ▸ hoj,hb,hx,hp⟩
  refine ⟨hh ▸ h.fresh,hh ▸ h.next,fun j g m hm => ?_,fun j x p hp => ?_,fun p j m hm hq => ?_,
    fun p j g m hm hq => ?_⟩
  · have := h.past j g m hm
    rw [Function.update_apply]
    split
    · next hj =>
      subst hj
      omega
    · exact this
  · obtain ⟨hj,hp⟩ := hpt j x p hp
    rw [Function.update_of_ne hj]
    exact h.owner j x p hp
  · by_cases hj : j = i
    · subst hj
      rw [Function.update_self] at hm
      have := h.past j _ m (List.mem_of_getElem? hm)
      omega
    · rw [Function.update_of_ne hj] at hm
      have hq : st.IsQueue j := by
        simp only [IsQueue,hslot j hj] at hq
        exact hq
      rw [hh]
      simp only [Points,hslot j hj]
      exact h.live p j m hm hq
  · rw [hh]
    refine h.dead p j g m hm fun hl => hq ?_
    have hj : j ≠ i := by
      rintro rfl
      exact hwas hl.1
    simp only [IsQueue,hslot j hj,Function.update_of_ne hj]
    exact hl

/-- What stands in a longer list and not in the old one is the new last element. -/
theorem last_of_getElem? {α : Type} {l : List α} {a x : α} {p : ℕ}
    (h : (l ++ [a])[p]? = some x) (hp : ¬p < l.length) : p = l.length ∧ a = x := by
  obtain ⟨hlen,hget⟩ := List.getElem?_eq_some_iff.mp h
  rw [List.length_append,List.length_singleton] at hlen
  obtain rfl : p = l.length := by omega
  rw [List.getElem_concat_length rfl] at hget
  exact ⟨rfl,hget⟩

/-- A message goes into a slot without a buffer. -/
theorem Owns.enter {msg : VMsg} (h : st.Owns gen sends) (ha : st.Accepts i o)
    (hm : o.minIdx < o.sizeofQ) (hfree : (o.qv o.minIdx).mb = none) :
    (st.enter i o msg).Owns gen (sends ++ [(i,gen i,msg)]) := by
  obtain ⟨hs,hb,-⟩ := ha
  obtain ⟨hf,ho⟩ := slot_eq hs
  have hself : (st.enter i o msg).slot i = .ok (some (o.enter (some st.heap.next) msg.bytes.length)) :=
    slot_of hf (Function.update_self _ _ _)
  have hslot : ∀ j, j ≠ i → (st.enter i o msg).slot j = st.slot j := fun j hj => by
    simp only [slot,ItcStore.enter,Function.update_of_ne hj]
  have hqueue : ∀ j, (st.enter i o msg).IsQueue j ↔ st.IsQueue j := by
    intro j
    by_cases hj : j = i
    · subst hj
      exact ⟨fun _ => ⟨o,hs,hb⟩,fun _ => ⟨_,hself,hb⟩⟩
    · simp only [IsQueue,hslot j hj]
  have hpt : ∀ j x p, (st.enter i o msg).Points j x p ↔
      st.Points j x p ∨ j = i ∧ x = o.minIdx ∧ p = st.heap.next := by
    intro j x p
    by_cases hj : j = i
    · subst hj
      simp only [Points,hself,hs,Except.ok.injEq,Option.some.injEq,exists_eq_left',ItcObj.enter,
        hb,true_and,Function.update_apply]
      by_cases hx : x = o.minIdx
      · subst hx
        simp [hm,hfree,eq_comm]
      · simp [hx]
    · simp only [Points,hslot j hj,hj,false_and,or_false]
  have hold : ∀ j x p, st.Points j x p → p < sends.length := by
    intro j x p hp
    obtain ⟨m,hm⟩ := h.owner j x p hp
    exact (List.getElem?_eq_some_iff.mp hm).1
  have hmem : ∀ p, p < sends.length → (st.enter i o msg).heap.mem p = st.heap.mem p := fun p hp =>
    Heap.malloc_mem_of_ne (by rw [h.next]; exact hp.ne)
  refine ⟨h.fresh.malloc _,?_,fun j g m hj => ?_,fun j x p hp => ?_,fun p j m hp hq => ?_,
    fun p j g m hp hq => ?_⟩
  · rw [List.length_append,List.length_singleton,← h.next]
    rfl
  · rw [List.mem_append,List.mem_singleton] at hj
    obtain hj | hj := hj
    · exact h.past j g m hj
    · cases hj
      exact le_rfl
  · obtain hp | ⟨rfl,-,rfl⟩ := (hpt j x p).mp hp
    · obtain ⟨m,hm⟩ := h.owner j x p hp
      exact ⟨m,by rw [List.getElem?_append_left (hold j x p hp),hm]⟩
    · exact ⟨msg,by rw [h.next,List.getElem?_concat_length]⟩
  · simp only [hpt]
    by_cases hlt : p < sends.length
    · rw [List.getElem?_append_left hlt] at hp
      obtain ⟨hmp,x,hx,huniq⟩ := h.live p j m hp ((hqueue j).mp hq)
      refine ⟨(hmem p hlt).trans hmp,x,Or.inl hx,?_⟩
      rintro y (hy | ⟨-,-,rfl⟩)
      · exact huniq y hy
      · exact absurd h.next hlt.ne
    · obtain ⟨rfl,hm⟩ := last_of_getElem? hp hlt
      cases hm
      rw [← h.next]
      refine ⟨Function.update_self _ _ _,o.minIdx,Or.inr ⟨rfl,rfl,rfl⟩,?_⟩
      rintro y (hy | ⟨-,hy,-⟩)
      · exact absurd (hold _ _ _ hy) (by rw [h.next]; exact lt_irrefl _)
      · exact hy
  · rw [hqueue] at hq
    by_cases hlt : p < sends.length
    · rw [List.getElem?_append_left hlt] at hp
      exact (hmem p hlt).trans (h.dead p j g m hp hq)
    · obtain ⟨rfl,hm⟩ := last_of_getElem? hp hlt
      cases hm
      exact absurd ⟨⟨o,hs,hb⟩,rfl⟩ hq

/-- A queue goes, and its buffers with it. -/
theorem Owns.remove (h : st.Owns gen sends) (hself : ¬st'.IsQueue i)
    (hslot : ∀ j, j ≠ i → st'.slot j = st.slot j) (hn : st'.heap.next = st.heap.next)
    (hgone : ∀ x p, st.Points i x p → st'.heap.mem p = none)
    (hkept : ∀ p, (∀ x, ¬st.Points i x p) → st'.heap.mem p = st.heap.mem p) :
    st'.Owns gen sends := by
  have hle : ∀ p, st.heap.mem p = none → st'.heap.mem p = none := by
    intro p hp
    by_cases hx : ∃ x, st.Points i x p
    · obtain ⟨x,hx⟩ := hx
      exact hgone x p hx
    · rw [hkept p fun x hp => hx ⟨x,hp⟩,hp]
  have hpt : ∀ j x p, st'.Points j x p → j ≠ i ∧ st.Points j x p := by
    rintro j x p ⟨oj,hoj,hb,hx,hp⟩
    by_cases hj : j = i
    · subst hj
      exact absurd ⟨oj,hoj,hb⟩ hself
    · exact ⟨hj,oj,hslot j hj ▸ hoj,hb,hx,hp⟩
  refine ⟨fun p hp => hle p (h.fresh p (hn ▸ hp)),hn.trans h.next,h.past,fun j x p hp =>
    h.owner j x p (hpt j x p hp).2,fun p j m hm hq => ?_,fun p j g m hm hq => ?_⟩
  · have hj : j ≠ i := by
      rintro rfl
      exact hself hq
    have hq : st.IsQueue j := by
      simp only [IsQueue,hslot j hj] at hq
      exact hq
    obtain ⟨hmem,x,hx,huniq⟩ := h.live p j m hm hq
    simp only [Points,hslot j hj]
    refine ⟨?_,x,hx,huniq⟩
    rw [hkept p fun y hy => hj (h.queue_eq hx hy),hmem]
  · by_cases hl : st.IsQueue j ∧ g = gen j
    · by_cases hj : j = i
      · subst hj
        obtain ⟨hq',rfl⟩ := hl
        obtain ⟨-,x,hx,-⟩ := h.live p j m hm hq'
        exact hgone x p hx
      · refine absurd ⟨?_,hl.2⟩ hq
        simp only [IsQueue,hslot j hj]
        exact hl.1
    · exact hle p (h.dead p j g m hm hl)

/-- The loop over the slots frees each buffer once. -/
theorem freeSlots_spec {h : Heap Byte} {n : ℕ} (hn : n ≤ o.sizeofQ)
    (hl : ∀ x p, x < o.sizeofQ → (o.qv x).mb = some p → (h.mem p).isSome)
    (hx : ∀ x y p, x < o.sizeofQ → y < o.sizeofQ → (o.qv x).mb = some p → (o.qv y).mb = some p →
      x = y) :
    ∃ h', (List.range n).foldlM (fun h i => h.free Fault.badPointer (o.qv i).mb) h = .ok h' ∧
      h'.next = h.next ∧ (∀ x p, x < n → (o.qv x).mb = some p → h'.mem p = none) ∧
      ∀ p, (∀ x, x < n → (o.qv x).mb ≠ some p) → h'.mem p = h.mem p := by
  induction n with
  | zero => exact ⟨h,rfl,rfl,by rintro _ _ ⟨⟩,fun _ _ => rfl⟩
  | succ n ih =>
    obtain ⟨h1,hr,hnext,hgone,hkept⟩ := ih (by omega)
    rw [List.range_succ,List.foldlM_append,hr]
    cases hp : (o.qv n).mb with
    | none =>
      refine ⟨h1,by simp [Heap.free,hp,bind,Except.bind,pure,Except.pure],hnext,
        fun x p hxn hxp => ?_,fun p hnone => hkept p fun x hxn => hnone x (by omega)⟩
      obtain hlt | rfl := Nat.lt_succ_iff_lt_or_eq.mp hxn
      · exact hgone x p hlt hxp
      · rw [hp] at hxp
        cases hxp
    | some q =>
      have hq : (h1.mem q).isSome := by
        rw [hkept q fun x hxn hxq => absurd (hx x n q (by omega) (by omega) hxq hp) (by omega)]
        exact hl n q (by omega) hp
      refine ⟨{ h1 with mem := Function.update h1.mem q none },
        by simp [Heap.free,hp,hq,bind,Except.bind,pure,Except.pure],hnext,
        fun x p hxn hxp => ?_,fun p hnone => ?_⟩
      · simp only [Function.update_apply]
        split
        · rfl
        · next hne =>
          obtain hlt | rfl := Nat.lt_succ_iff_lt_or_eq.mp hxn
          · exact hgone x p hlt hxp
          · rw [hp] at hxp
            exact absurd (Option.some.inj hxp).symm hne
      · have hne : p ≠ q := by
          rintro rfl
          exact hnone n (Nat.lt_succ_self n) hp
        simp only [Function.update_of_ne hne]
        exact hkept p fun x hxn => hnone x (by omega)

/-- All buffers of a queue can be freed. -/
theorem Owns.freeSlots (h : st.Owns gen sends) (hs : st.slot i = .ok (some o))
    (hb : o.bType = .vQueue) : ∃ h', ItcStore.freeSlots st.heap o = .ok h' ∧
      h'.next = st.heap.next ∧ (∀ x p, st.Points i x p → h'.mem p = none) ∧
      ∀ p, (∀ x, ¬st.Points i x p) → h'.mem p = st.heap.mem p := by
  have hpt : ∀ x p, x < o.sizeofQ → (o.qv x).mb = some p → st.Points i x p :=
    fun x p hx hp => ⟨o,hs,hb,hx,hp⟩
  obtain ⟨h',hr,hn,hgone,hkept⟩ := freeSlots_spec (h:=st.heap) (o:=o) le_rfl
    (fun x p hx hp => by
      obtain ⟨m,hm,-⟩ := h.mem (hpt x p hx hp)
      rw [hm]
      rfl)
    (fun x y p hx hy hxp hyp => by
      obtain ⟨m,hm,huniq⟩ := h.mem (hpt y p hy hyp)
      exact huniq x (hpt x p hx hxp))
  refine ⟨h',hr,hn,?_,fun p hp => hkept p fun x hx hxp => hp x (hpt x p hx hxp)⟩
  rintro x p ⟨o',hs',hb',hx,hp⟩
  rw [hs] at hs'
  cases hs'
  exact hgone x p hx hp

theorem Owns.qVdelete (h : st.Owns gen sends) (hs : st.slot i = .ok (some o))
    (hb : o.bType = .vQueue) : ∃ st', st.qVdelete i = .ok st' ∧ st'.Owns gen sends := by
  obtain ⟨h',hr,hn,hgone,hkept⟩ := h.freeSlots hs hb
  obtain ⟨hf,ho⟩ := slot_eq hs
  have hd : ({ st with heap := h' } : ItcStore cfg numQ).deref i = .ok o := deref_of hf ho
  refine ⟨({ st with heap := h' } : ItcStore cfg numQ).setObj i none,?_,
    h.remove ?_ (fun j hj => ?_) hn hgone hkept⟩
  · simp only [ItcStore.qVdelete,smDelete,deref_of_slot hs,hr,check,if_pos hb,bind,Except.bind,hd,
      pure,Except.pure]
  · rintro ⟨o',ho',-⟩
    have := (slot_eq ho').2
    simp only [setObj,Function.update_self] at this
    cases this
  · simp only [slot,setObj,Function.update_of_ne hj]

theorem Owns.destructOne (h : st.Owns gen sends) (hf : st.freed i = false) :
    ∃ st', st.destructOne i = .ok st' ∧ st'.Owns gen sends ∧
      ∀ j, j ≠ i → st'.freed j = st.freed j := by
  cases ho : st.array i with
  | none =>
    refine ⟨st,?_,h,fun _ _ => rfl⟩
    simp only [ItcStore.destructOne,slot,hf,ho,bind,Except.bind]
    rfl
  | some o =>
    have hs := slot_of hf ho
    have hgoes : ∀ {heap : Heap Byte}, heap.next = st.heap.next →
        (∀ x p, st.Points i x p → heap.mem p = none) →
        (∀ p, (∀ x, ¬st.Points i x p) → heap.mem p = st.heap.mem p) →
        ItcStore.Owns { st with heap := heap, freed := Function.update st.freed i true } gen sends := by
      intro heap hn hgone hkept
      refine h.remove ?_ (fun j hj => ?_) hn hgone hkept
      · rintro ⟨o',ho',-⟩
        have := (slot_eq ho').1
        simp only [Function.update_self] at this
        cases this
      · simp only [slot,Function.update_of_ne hj]
    by_cases hb : o.bType = .vQueue
    · obtain ⟨h',hr,hn,hgone,hkept⟩ := h.freeSlots hs hb
      refine ⟨_,?_,hgoes hn hgone hkept,fun j hj => Function.update_of_ne hj _ _⟩
      simp only [ItcStore.destructOne,hs,if_pos hb,hr,bind,Except.bind]
      rfl
    · refine ⟨_,?_,hgoes rfl (fun x p hp => ?_) fun _ _ => rfl,
        fun j hj => Function.update_of_ne hj _ _⟩
      · simp only [ItcStore.destructOne,hs,if_neg hb,bind,Except.bind]
        rfl
      · obtain ⟨o',ho',hb',-⟩ := hp
        rw [hs] at ho'
        cases ho'
        exact absurd hb' hb

/-- `tk_itc_destruct` frees every buffer that is left. -/
theorem Owns.tkItcDestruct (h : st.Owns gen sends) (hf : ∀ i, st.freed i = false) :
    ∃ st', st.tkItcDestruct = .ok st' ∧ st'.Owns gen sends := by
  suffices hrun : ∀ (l : List (Fin numQ)) (st : ItcStore cfg numQ), l.Nodup →
      (∀ i ∈ l, st.freed i = false) → st.Owns gen sends →
      ∃ st', l.foldlM ItcStore.destructOne st = .ok st' ∧ st'.Owns gen sends from
    hrun _ st (List.nodup_finRange numQ) (fun i _ => hf i) h
  intro l
  induction l with
  | nil => exact fun st _ _ h => ⟨st,rfl,h⟩
  | cons i l ih =>
    intro st hnd hf h
    obtain ⟨st1,hr,h1,hrest⟩ := h.destructOne (hf i List.mem_cons_self)
    obtain ⟨st',hr',h'⟩ := ih st1 hnd.of_cons (fun j hj => by
      rw [hrest j (by rintro rfl; exact (List.nodup_cons.mp hnd).1 hj)]
      exact hf j (List.mem_cons_of_mem _ hj)) h1
    exact ⟨st',by rw [List.foldlM_cons,hr]; exact hr',h'⟩

end ItcStore

end

end Tinker

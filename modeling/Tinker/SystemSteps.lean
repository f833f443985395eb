import Mathlib.Logic.Relation
import Tinker.System
import Tinker.WaitLists

/-! What one step of the whole kernel can do to the control blocks, from any state: each call is
an operation on the running thread's own control block, or readies threads. -/
namespace Tinker

open Kernel Outcome

variable {cfg : Config} {numQ : ℕ}

/-- The clean-up of a timed wait has told threads that they have timed out. -/
structure DropsTimedOut (k k' : Kernel cfg) : Prop where
  pool : ∀ t, k'.pool t = k.pool t ∨ (k.pool t).wakeupEvent = .timer ∧
    k'.pool t = { k.pool t with wakeupEvent := .itc2 }
  rest : k' = { k with pool := k'.pool }

theorem DropsTimedOut.refl (k : Kernel cfg) : DropsTimedOut k k := ⟨fun _ => Or.inl rfl,rfl⟩

theorem DropsTimedOut.tell {k k' : Kernel cfg} (h : DropsTimedOut k k') {t : Thid cfg}
    (ht : (k'.pool t).wakeupEvent = .timer) :
    DropsTimedOut k (k'.modTcb t fun b => { b with wakeupEvent := .itc2 }) where
  pool := by
    intro u
    rw [Kernel.modTcb_pool]
    split
    · next hu =>
      subst hu
      right
      obtain he | ⟨_,he⟩ := h.pool u
      · rw [he] at ht ⊢; exact ⟨ht,rfl⟩
      · rw [he] at ht; cases ht
    · exact h.pool u
  rest := by
    rw [Kernel.modTcb,h.rest]

/-- The object `q` at a later time: its cells hold threads from there, or the thread `me`. -/
structure Itc.CellsFrom (me : Thid cfg) (q q' : Itc cfg) : Prop where
  cells : ∀ i x, q'.blockedProcs i = some x → x = me ∨ ∃ j, q.blockedProcs j = some x
  bType : q'.bType = q.bType
  sizeofQ : q'.sizeofQ = q.sizeofQ

theorem Itc.CellsFrom.of_eq {me : Thid cfg} {q q' : Itc cfg} (h : q'.blockedProcs = q.blockedProcs)
    (hb : q'.bType = q.bType) (hs : q'.sizeofQ = q.sizeofQ) : q.CellsFrom me q' :=
  ⟨fun i _ hx => Or.inr ⟨i,by rw [← h]; exact hx⟩,hb,hs⟩

theorem Itc.CellsFrom.refl (me : Thid cfg) (q : Itc cfg) : q.CellsFrom me q := .of_eq rfl rfl rfl

theorem Itc.CellsFrom.trans {me : Thid cfg} {a b c : Itc cfg} (h : a.CellsFrom me b)
    (h' : b.CellsFrom me c) : a.CellsFrom me c where
  cells := fun i x hx => (h'.cells i x hx).elim Or.inl fun ⟨j,hj⟩ => h.cells j x hj
  bType := h'.bType.trans h.bType
  sizeofQ := h'.sizeofQ.trans h.sizeofQ

theorem shift_from {n stop fuel idx : ℕ} {cells : ℕ → Option (Thid cfg)} {i : ℕ} {x : Thid cfg}
    (h : Ring.shift n stop fuel idx cells i = some x) : ∃ j, cells j = some x := by
  induction fuel generalizing idx cells i with
  | zero => exact ⟨i,h⟩
  | succ fuel ih =>
    rw [Ring.shift] at h
    split at h
    · exact ⟨i,h⟩
    · obtain ⟨j,hj⟩ := ih h
      rw [Function.update_apply] at hj
      split at hj
      · exact ⟨_,hj⟩
      · exact ⟨j,hj⟩

theorem itcRemoveBlocked_cells (me : Thid cfg) (q : Itc cfg) (idx : ℕ) :
    q.CellsFrom me (itcRemoveBlocked q idx) := by
  have hclear : ∀ i x, Function.update q.blockedProcs idx none i = some x →
      x = me ∨ ∃ j, q.blockedProcs j = some x := by
    intro i x hx
    rw [Function.update_apply] at hx
    split at hx
    · cases hx
    · exact Or.inr ⟨i,hx⟩
  unfold itcRemoveBlocked
  dsimp only
  split
  · exact ⟨hclear,rfl,rfl⟩
  · split
    · exact ⟨hclear,rfl,rfl⟩
    · exact ⟨fun i x hx => Or.inr (shift_from hx),rfl,rfl⟩

theorem dropTimedOut_drops {k0 : Kernel cfg} {fuel markIdx : ℕ} {k : Kernel cfg} {q : Itc cfg}
    (h : DropsTimedOut k0 k) : Spec (dropTimedOut fuel markIdx k q)
      (fun r => DropsTimedOut k0 r.1 ∧ ∀ me, q.CellsFrom me r.2) (fun _ => True) := by
  induction fuel generalizing k q markIdx with
  | zero => trivial
  | succ fuel ih =>
    rw [dropTimedOut,spec_bind]
    cases q.proc markIdx with
    | error e => trivial
    | ok t =>
      simp only [spec_ok,spec_ite,spec_pure]
      have hself := fun me => Itc.CellsFrom.refl me q
      have hrem := fun me => itcRemoveBlocked_cells me q markIdx
      by_cases hc : (k.pool t).state = .ready ∧ (k.pool t).wakeupEvent = .timer
      · simp only [if_pos hc]
        refine ⟨fun _ => ⟨h.tell hc.2,hrem⟩,fun _ => ⟨fun _ => ?_,fun _ => ⟨h.tell hc.2,hrem⟩⟩⟩
        exact (ih (h.tell hc.2)).imp fun r hr => ⟨hr.1,fun me => (hrem me).trans (hr.2 me)⟩
      · simp only [if_neg hc]
        exact ⟨fun _ => ⟨h,hself⟩,fun _ => ⟨fun _ => ih h,fun _ => ⟨h,hself⟩⟩⟩

/-- A timed wait that ends with `ERR_TIMEOUT` was readied by the timer. -/
theorem lockStageWoken_drops {k : Kernel cfg} {q : Itc cfg} {i : ℕ} :
    Spec (lockStageWoken k q i) (fun r => DropsTimedOut k r.1 ∧
      (∀ me, q.CellsFrom me r.2.1) ∧ (r.2.2 = .timeout →
      (k.pool k.activeThread).wakeupEvent = .timer ∨ (k.pool k.activeThread).wakeupEvent = .itc2))
      (fun _ => True) := by
  have hself := DropsTimedOut.refl k
  have hcells := fun me => Itc.CellsFrom.refl me q
  unfold lockStageWoken
  split
  · next hev =>
    simp only [spec_ite,spec_ok,spec_bind,spec_pure]
    have hrem := fun me => itcRemoveBlocked_cells me q (Ring.pred cfg.maxBlockedOnQ i)
    refine ⟨fun _ => ⟨hself,hcells,fun _ => Or.inl hev⟩,fun _ => ⟨fun _ =>
      ⟨hself,hrem,fun _ => Or.inl hev⟩,fun _ => ?_⟩⟩
    exact (dropTimedOut_drops hself).imp fun r hr =>
      ⟨hr.1,fun me => (hrem me).trans (hr.2 me),fun _ => Or.inl hev⟩
  · next hev => exact ⟨hself,hcells,fun _ => Or.inr hev⟩
  · exact ⟨hself,hcells,by rintro ⟨⟩⟩

/-- The tables have the same slots in use, and the cells of their objects hold no thread but `me`
that was in none before. -/
structure ItcStore.SameSlots (me : Thid cfg) (st st' : ItcStore cfg numQ) : Prop where
  used : ∀ i, (st'.array i).isSome = (st.array i).isSome
  freed : ∀ i, st'.freed i = st.freed i
  cells : ∀ i, ∀ o' ∈ st'.array i, ∃ o ∈ st.array i, o.toItc.CellsFrom me o'.toItc

section

variable {me : Thid cfg} {a b c st : ItcStore cfg numQ} {i : Fin numQ}

theorem ItcStore.SameSlots.refl (me : Thid cfg) (st : ItcStore cfg numQ) : st.SameSlots me st :=
  ⟨fun _ => rfl,fun _ => rfl,fun _ o ho => ⟨o,ho,.refl me _⟩⟩

theorem ItcStore.SameSlots.trans (h : a.SameSlots me b) (h' : b.SameSlots me c) :
    a.SameSlots me c where
  used := fun i => (h'.used i).trans (h.used i)
  freed := fun i => (h'.freed i).trans (h.freed i)
  cells := by
    intro i o2 h2
    obtain ⟨o1,h1,hc1⟩ := h'.cells i o2 h2
    obtain ⟨o0,h0,hc0⟩ := h.cells i o1 h1
    exact ⟨o0,h0,hc0.trans hc1⟩

/-- An object is written to. -/
theorem ItcStore.SameSlots.setObj {o o' : ItcObj cfg} (ho : st.array i = some o)
    (hc : o.toItc.CellsFrom me o'.toItc) (heap : Heap Byte) :
    st.SameSlots me { st.setObj i (some o') with heap := heap } where
  used := by
    intro j
    simp only [ItcStore.setObj,Function.update_apply]
    split
    · next he => rw [he,ho]; rfl
    · rfl
  freed := fun _ => rfl
  cells := by
    intro j o2 h2
    simp only [ItcStore.setObj,Function.update_apply] at h2
    split at h2
    · next he => cases h2; exact ⟨o,by rw [he]; exact ho,hc⟩
    · exact ⟨o2,h2,.refl me _⟩

theorem ItcStore.SameSlots.putItc {q : Itc cfg}
    (hc : ∀ o ∈ st.array i, o.toItc.CellsFrom me q) : st.SameSlots me (st.putItc i q) := by
  unfold ItcStore.putItc
  cases ho : st.array i with
  | none =>
    have hsame : Function.update st.array i none = st.array :=
      Function.update_eq_self_iff.mpr ho.symm
    simp only [ItcStore.setObj,Option.map_none,hsame]
    exact .refl me st
  | some o =>
    refine .setObj ho ?_ st.heap
    exact hc o ho

end

theorem ItcStore.slot_ok {st : ItcStore cfg numQ} {qid : Fin numQ} {o : Option (ItcObj cfg)}
    (h : st.slot qid = .ok o) : st.array qid = o := by
  unfold ItcStore.slot at h
  split at h
  · cases h
  · exact Except.ok.inj h

theorem ItcStore.deref_of_slot {st : ItcStore cfg numQ} {qid : Fin numQ} {o : ItcObj cfg}
    (h : st.slot qid = .ok (some o)) : st.deref qid = .ok o := by
  rw [ItcStore.deref,h]
  rfl

theorem ItcStore.deref_ok {st : ItcStore cfg numQ} {qid : Fin numQ} {o : ItcObj cfg}
    (h : st.deref qid = .ok o) : st.array qid = some o := by
  unfold ItcStore.deref at h
  cases hs : st.slot qid with
  | error e => rw [hs] at h; cases h
  | ok slot =>
    rw [hs] at h
    cases slot with
    | none => cases h
    | some o' =>
      cases h
      exact ItcStore.slot_ok hs

/-- `lock_stage` returns at once, or its thread goes to sleep; it does not time out yet. -/
theorem lockStage_kernel (k : Kernel cfg) (q : Itc cfg) (timeout clk : Clock) :
    (∃ q' e, lockStage k q timeout clk = (k,q',.ret e) ∧ e ≠ .timeout ∧
      q.CellsFrom k.activeThread q') ∨
    ∃ q' m, lockStage k q timeout clk =
      (k.modTcb k.activeThread (goToSleep timeout clk),q',.waits m) ∧ (m = none ↔ timeout = 0) ∧
      q.CellsFrom k.activeThread q' := by
  unfold lockStage
  by_cases ht : 0 < q.token
  · exact Or.inl ⟨_,.ok,if_pos ht,by decide,.of_eq rfl rfl rfl⟩
  · simp only [if_neg ht]
    by_cases hr : q.token.natAbs < cfg.maxBlockedOnQ-1
    · refine Or.inr ⟨_,_,if_pos hr,?_,?_⟩
      · split <;> simp_all
      · refine ⟨fun i x hx => ?_,rfl,rfl⟩
        simp only [Function.update_apply] at hx
        split at hx
        · exact Or.inl (Option.some.inj hx).symm
        · exact Or.inr ⟨i,hx⟩
    · exact Or.inl ⟨_,.blockLimit,if_neg hr,by decide,.refl _ _⟩

/-- The object a call hands back is the one it was given, with cells from there or for `me`. -/
def SlotFrom (me : Thid cfg) (slot slot' : Option (Itc cfg)) : Prop :=
  ∀ q' ∈ slot', ∃ q ∈ slot, q.CellsFrom me q'

theorem SlotFrom.some {me : Thid cfg} {q q' : Itc cfg} (h : q.CellsFrom me q') :
    SlotFrom me (some q) (some q') := by
  rintro _ ⟨⟩
  exact ⟨q,rfl,h⟩

theorem SlotFrom.refl (me : Thid cfg) (slot : Option (Itc cfg)) : SlotFrom me slot slot :=
  fun q hq => ⟨q,hq,.refl me q⟩

/-- `sm_p` returns at once, or its thread goes to sleep. -/
theorem smP_kernel (k : Kernel cfg) (slot : Option (Itc cfg)) (flags : IpcFlags)
    (timeout clk : Clock) : ∃ q, SlotFrom k.activeThread slot q ∧
    ((∃ e, smP k slot flags timeout clk = (k,q,.ret e) ∧ e ≠ .timeout) ∨
    ∃ m, smP k slot flags timeout clk =
      (k.modTcb k.activeThread (goToSleep timeout clk),q,.waits m) ∧ (m = none ↔ timeout = 0) ∧
      slot.isSome = true) := by
  cases slot with
  | none => exact ⟨none,.refl _ _,Or.inl ⟨.objDel,rfl,by decide⟩⟩
  | some q =>
    have hself := SlotFrom.refl k.activeThread (some q)
    unfold smP
    by_cases hb : q.bType ≠ .sem
    · exact ⟨some q,hself,Or.inl ⟨.objType,if_pos hb,by decide⟩⟩
    · simp only [if_neg hb]
      by_cases hn : q.token ≤ 0 ∧ flags &&& nowait ≠ 0
      · exact ⟨some q,hself,Or.inl ⟨.noSem,if_pos hn,by decide⟩⟩
      · simp only [if_neg hn]
        obtain ⟨q',e,hl,he,hc⟩ | ⟨q',m,hl,hm,hc⟩ := lockStage_kernel k q timeout clk
        · rw [hl]; exact ⟨some q',.some hc,Or.inl ⟨e,rfl,he⟩⟩
        · rw [hl]; exact ⟨some q',.some hc,Or.inr ⟨m,rfl,hm,rfl⟩⟩

theorem qReceiveEnd_result {k : Kernel cfg} {q : Itc cfg} {rc : ItcErr} :
    Spec (qReceiveEnd k q rc) (fun r => r.2.1 = rc ∧ ∀ me, q.CellsFrom me r.1)
      (fun _ => True) := by
  unfold qReceiveEnd
  cases itcProveConcistency k q with
  | error e => trivial
  | ok b =>
    simp only [spec_bind,spec_ok,spec_check,spec_ite,spec_pure]
    exact ⟨fun _ => ⟨fun _ => ⟨trivial,fun me => .refl me q⟩,fun h => ⟨(not_not.mp h).symm,
      fun me => .of_eq rfl rfl rfl⟩⟩,fun _ => trivial⟩

theorem qReceive_kernel (k : Kernel cfg) (slot : Option (Itc cfg)) (flags : IpcFlags)
    (timeout clk : Clock) : Spec (qReceive k slot flags timeout clk) (fun r =>
      ∃ q, SlotFrom k.activeThread slot q ∧ ((∃ e msg, r = (k,q,.ret e msg) ∧ e ≠ .timeout) ∨
      ∃ m, r = (k.modTcb k.activeThread (goToSleep timeout clk),q,.waits m) ∧
        (m = none ↔ timeout = 0) ∧ slot.isSome = true)) (fun _ => True) := by
  cases slot with
  | none => exact ⟨none,.refl _ _,Or.inl ⟨.objDel,none,rfl,by decide⟩⟩
  | some q =>
    have hself := SlotFrom.refl k.activeThread (some q)
    simp only [qReceive,spec_ite,spec_ok]
    refine ⟨fun _ => ⟨some q,hself,Or.inl ⟨.objType,none,rfl,by decide⟩⟩,fun _ => ⟨fun _ =>
      ⟨some q,hself,Or.inl ⟨.noSem,none,rfl,by decide⟩⟩,fun _ => ?_⟩⟩
    obtain ⟨q',e,hl,he,hc⟩ | ⟨q',m,hl,hm,hc⟩ := lockStage_kernel k q timeout clk
    · simp only [hl,spec_bind,spec_pure]
      refine qReceiveEnd_result.imp ?_
      rintro ⟨q2,e2,msg⟩ ⟨rfl,hq2⟩
      exact ⟨some q2,.some (hc.trans (hq2 _)),Or.inl ⟨e2,msg,rfl,he⟩⟩
    · simp only [hl]
      exact ⟨some q',.some hc,Or.inr ⟨m,rfl,hm,rfl⟩⟩

theorem qVreceiveEnd_result {st : ItcStore cfg numQ} {k : Kernel cfg} {qid : Fin numQ}
    {rc : ItcErr} : Spec (st.qVreceiveEnd k qid rc)
      (fun r => r.2.1 = rc ∧ ∀ me, st.SameSlots me r.1) (fun _ => True) := by
  unfold ItcStore.qVreceiveEnd
  cases ho : st.deref qid with
  | error e => trivial
  | ok o =>
    simp only [spec_bind,spec_ok]
    cases itcProveConcistency k o.toItc with
    | error e => trivial
    | ok b =>
      simp only [spec_ok,spec_check,spec_ite,spec_pure,spec_bind]
      refine ⟨fun _ => ⟨fun _ => ⟨trivial,fun me => .refl me st⟩,fun h => ⟨fun _ => ?_,
        fun _ => trivial⟩⟩,fun _ => trivial⟩
      cases st.heap.read Fault.nullPointer .badPointer (o.qv o.moutIdx).mb ((o.qv o.moutIdx).s+1) with
      | error e => trivial
      | ok bytes =>
        cases st.heap.free Fault.badPointer (o.qv o.moutIdx).mb with
        | error e => trivial
        | ok heap =>
          refine ⟨(not_not.mp h).symm,fun me => .setObj (ItcStore.deref_ok ho) ?_ heap⟩
          exact .of_eq rfl rfl rfl

theorem qVreceive_kernel (st : ItcStore cfg numQ) (k : Kernel cfg) (qid : Fin numQ)
    (flags : IpcFlags) (timeout clk : Clock) (bufLen : ℕ) :
    Spec (st.qVreceive k qid flags timeout clk bufLen) (fun r => ∃ st',
      st.SameSlots k.activeThread st' ∧ ((∃ e msg, r = (k,st',.ret e msg) ∧ e ≠ .timeout) ∨
      ∃ m, r = (k.modTcb k.activeThread (goToSleep timeout clk),st',.waits m) ∧
        (m = none ↔ timeout = 0) ∧ ∃ o, st.deref qid = .ok o)) (fun _ => True) := by
  have hself := ItcStore.SameSlots.refl k.activeThread st
  unfold ItcStore.qVreceive
  cases hslot : st.slot qid with
  | error e => trivial
  | ok slot =>
    cases slot with
    | none => exact ⟨st,hself,Or.inl ⟨.objDel,none,rfl,by decide⟩⟩
    | some o =>
      simp only [spec_bind,spec_ok,spec_ite,spec_pure]
      refine ⟨fun _ => ⟨st,hself,Or.inl ⟨.objType,none,rfl,by decide⟩⟩,fun _ => ⟨fun _ =>
        ⟨st,hself,Or.inl ⟨.noSem,none,rfl,by decide⟩⟩,fun _ => ⟨fun _ =>
        ⟨st,hself,Or.inl ⟨.bufSiz,none,rfl,by decide⟩⟩,fun _ => ?_⟩⟩⟩
      have hput : ∀ {q : Itc cfg}, o.toItc.CellsFrom k.activeThread q →
          st.SameSlots k.activeThread (st.putItc qid q) := fun hc => .putItc fun o' ho' => by
        rw [ItcStore.slot_ok hslot] at ho'
        cases ho'
        exact hc
      obtain ⟨q',e,hl,he,hc⟩ | ⟨q',m,hl,hm,hc⟩ := lockStage_kernel k o.toItc timeout clk
      · simp only [hl,spec_bind,spec_pure]
        refine qVreceiveEnd_result.imp ?_
        rintro ⟨st2,e2,msg⟩ ⟨rfl,hst⟩
        exact ⟨st2,(hput hc).trans (hst _),Or.inl ⟨e2,msg,rfl,he⟩⟩
      · simp only [hl]
        exact ⟨_,hput hc,Or.inr ⟨m,rfl,hm,o,ItcStore.deref_of_slot hslot⟩⟩

/-- The thread that `unlock_stage` readies. -/
def handedTo (k : Kernel cfg) (q : Itc cfg) : Option (Thid cfg) :=
  if q.token < 0 then
    if q.flags &&& prior ≠ 0 then (bestBlocked k q).toOption.bind fun best => best.map Prod.snd
    else (popBlocked k q.token.natAbs q).toOption.map Prod.fst
  else none

/-- The two objects have the same threads to serve. -/
structure Itc.SameRing (q q' : Itc cfg) : Prop where
  token : q'.token = q.token
  bType : q'.bType = q.bType
  sizeofQ : q'.sizeofQ = q.sizeofQ
  flags : q'.flags = q.flags
  blockedProcs : q'.blockedProcs = q.blockedProcs
  inIdx : q'.inIdx = q.inIdx
  outIdx : q'.outIdx = q.outIdx

theorem Itc.SameRing.refl (q : Itc cfg) : q.SameRing q := ⟨rfl,rfl,rfl,rfl,rfl,rfl,rfl⟩

theorem Itc.SameRing.trans {a b c : Itc cfg} (h : a.SameRing b) (h' : b.SameRing c) :
    a.SameRing c :=
  ⟨h'.token.trans h.token,h'.bType.trans h.bType,h'.sizeofQ.trans h.sizeofQ,
    h'.flags.trans h.flags,h'.blockedProcs.trans h.blockedProcs,h'.inIdx.trans h.inIdx,
    h'.outIdx.trans h.outIdx⟩

theorem Itc.SameRing.cellsFrom {q q' : Itc cfg} (h : q.SameRing q') (me : Thid cfg) :
    q.CellsFrom me q' := .of_eq h.blockedProcs h.bType h.sizeofQ

theorem Itc.SameRing.popBlocked {q q' : Itc cfg} (h : q.SameRing q') (k : Kernel cfg) (fuel : ℕ) :
    (popBlocked k fuel q').toOption.map Prod.fst = (popBlocked k fuel q).toOption.map Prod.fst := by
  induction fuel generalizing q q' with
  | zero => rfl
  | succ fuel ih =>
    have hp : q'.proc q'.outIdx = q.proc q.outIdx := by
      simp only [Itc.proc,h.blockedProcs,h.outIdx]
    simp only [Tinker.popBlocked,hp]
    cases q.proc q.outIdx with
    | error e => rfl
    | ok t =>
      simp only [bind,Except.bind,h.token,h.outIdx]
      split
      · exact ih ⟨rfl,h.bType,h.sizeofQ,h.flags,h.blockedProcs,h.inIdx,rfl⟩
      · rfl

theorem Itc.SameRing.handedTo {q q' : Itc cfg} (h : q.SameRing q') (k : Kernel cfg) :
    handedTo k q' = handedTo k q := by
  have hb : bestBlocked k q' = bestBlocked k q := by
    simp only [bestBlocked,Itc.idxs,Itc.proc,h.inIdx,h.outIdx,h.blockedProcs]
  simp only [Tinker.handedTo,h.token,h.flags,hb,h.popBlocked]

theorem popBlocked_cells (k : Kernel cfg) (fuel : ℕ) (q : Itc cfg) :
    Spec (popBlocked k fuel q) (fun r => ∀ me, q.CellsFrom me r.2) (fun _ => True) := by
  induction fuel generalizing q with
  | zero => trivial
  | succ fuel ih =>
    simp only [popBlocked,spec_bind]
    cases q.proc q.outIdx with
    | error e => trivial
    | ok him =>
      simp only [spec_ok,spec_ite,spec_pure]
      have hstep : ∀ me, q.CellsFrom me { q with
          outIdx := Ring.succ cfg.maxBlockedOnQ q.outIdx, token := q.token+1 } :=
        fun me => .of_eq rfl rfl rfl
      exact ⟨fun _ => (ih _).imp fun r hr me => (hstep me).trans (hr me),fun _ => hstep⟩

/-- `unlock_stage` leaves the kernel alone where it does not yield, and else readies one thread. -/
theorem unlockStage_kernel {k : Kernel cfg} {q : Itc cfg} :
    Spec (unlockStage k q) (fun r => (∀ me, q.CellsFrom me r.2.1) ∧ (r.1 = k ∧ r.2.2 = false ∨
      ∃ t, handedTo k q = some t ∧ r.1 = readyByItc k t ∧ r.2.2 = true)) (fun _ => True) := by
  unfold unlockStage handedTo
  simp only [spec_ite,spec_bind,spec_ok]
  refine ⟨fun hn => ⟨fun hp => ?_,fun hp => ?_⟩,fun _ =>
    ⟨fun me => .of_eq rfl rfl rfl,Or.inl ⟨trivial,trivial⟩⟩⟩
  · cases bestBlocked k q with
    | error e => trivial
    | ok best =>
      cases best with
      | none => exact ⟨fun me => .refl me q,Or.inl ⟨rfl,rfl⟩⟩
      | some p =>
        exact ⟨fun me => itcRemoveBlocked_cells me q p.1,
          Or.inr ⟨p.2,by rw [if_pos hn,if_pos hp]; rfl,rfl,rfl⟩⟩
  · have hpop := popBlocked_cells k q.token.natAbs q
    cases hq : popBlocked k q.token.natAbs q with
    | error e => trivial
    | ok p =>
      rw [hq] at hpop
      exact ⟨hpop,Or.inr ⟨p.1,by rw [if_pos hn,if_neg hp]; rfl,rfl,rfl⟩⟩

/-! ### Mutexes and condition variables -/

/-- What `_mutex_lock_primitive` and `_mutex_unlock_primitive` do to a control block. -/
inductive SyncMove (k : Kernel cfg) : Kernel cfg → Prop
  | blocks (r : MutexRef) : SyncMove k (k.modTcb k.activeThread (blockOn r))
  | unblocks (t : Thid cfg) : SyncMove k (k.modTcb t unblock)

abbrev SyncMoves : Kernel cfg → Kernel cfg → Prop := Relation.ReflTransGen SyncMove

theorem SyncMoves.active {k k' : Kernel cfg} (h : SyncMoves k k') :
    k'.activeThread = k.activeThread := by
  induction h with
  | refl => rfl
  | tail _ hs ih => cases hs <;> exact ih

/-- No thread but `me` gets into a list, and none but `me` comes to own a mutex whose list does not
hold it. -/
structure Sync.Goes (me : Thid cfg) (s s' : Sync cfg) : Prop where
  moves : SyncMoves s.kernel s'.kernel
  cells : ∀ r i x, (s'.mux r).thread i = some x → x = me ∨ ∃ j, (s.mux r).thread j = some x
  owner : ∀ r x, (s'.mux r).owner = .thread x → x = me ∨ (s.mux r).owner = .thread x ∨
    ∃ j, (s.mux r).thread j = some x

section

variable {s s' s'' : Sync cfg} {r : MutexRef} {me : Thid cfg}

theorem Sync.Goes.refl (me : Thid cfg) (s : Sync cfg) : s.Goes me s :=
  ⟨.refl,fun _ i _ hx => Or.inr ⟨i,hx⟩,fun _ _ hx => Or.inr (Or.inl hx)⟩

theorem Sync.Goes.trans (h : s.Goes me s') (h' : s'.Goes me s'') : s.Goes me s'' where
  moves := Relation.ReflTransGen.trans h.moves h'.moves
  cells := by
    intro r i x hx
    obtain hx | ⟨j,hx⟩ := h'.cells r i x hx
    · exact Or.inl hx
    · exact h.cells r j x hx
  owner := by
    intro r x hx
    obtain hx | hx | ⟨j,hx⟩ := h'.owner r x hx
    · exact Or.inl hx
    · exact h.owner r x hx
    · exact (h.cells r j x hx).imp_right Or.inr

/-- One mutex is written to. -/
theorem Sync.Goes.setMux {k : Kernel cfg} {m : Mutex cfg} (hk : SyncMoves s.kernel k)
    (hm : ∀ i x, m.thread i = some x → x = me ∨ ∃ j, (s.mux r).thread j = some x)
    (ho : ∀ x, m.owner = .thread x → x = me ∨ (s.mux r).owner = .thread x ∨
      ∃ j, (s.mux r).thread j = some x) : s.Goes me (Sync.setMux { s with kernel := k } r m) where
  moves := hk
  cells := by
    intro r' i x hx
    simp only [Sync.setMux,Function.update_apply] at hx
    split at hx
    · next he => rw [he]; exact hm i x hx
    · exact Or.inr ⟨i,hx⟩
  owner := by
    intro r' x hx
    simp only [Sync.setMux,Function.update_apply] at hx
    split at hx
    · next he => rw [he]; exact ho x hx
    · exact Or.inr (Or.inl hx)

theorem mutexLockPrimitive_goes : Spec (mutexLockPrimitive s r)
    (fun p => s.Goes s.kernel.activeThread p.1) (fun _ => True) := by
  simp only [mutexLockPrimitive,spec_ite,spec_ok,spec_bind,spec_check,spec_pure]
  refine ⟨fun _ => ?_,fun _ => ⟨fun _ => ?_,fun _ => trivial⟩⟩
  · exact .setMux .refl (fun i x hx => Or.inr ⟨i,hx⟩) fun x hx => Or.inl (Owner.thread.inj hx).symm
  · refine .setMux (.single (.blocks r)) (fun i x hx => ?_) fun x hx => Or.inr (Or.inl hx)
    simp only [Function.update_apply] at hx
    split at hx
    · exact Or.inl (Option.some.inj hx).symm
    · exact Or.inr ⟨i,hx⟩

theorem unblocks_moves (ts : List (Thid cfg)) (k : Kernel cfg) :
    SyncMoves k (ts.foldl (fun k t => k.modTcb t unblock) k) := by
  induction ts generalizing k with
  | nil => exact .refl
  | cons t ts ih => exact .head (.unblocks t) (ih _)

theorem mutexUnlockPrimitive_goes (me : Thid cfg) {bcast : Bool} : Spec (mutexUnlockPrimitive s r bcast)
    (fun p => s.Goes me p.1) (fun _ => True) := by
  have hcells : ∀ i x, (s.mux r).thread i = some x →
      x = me ∨ ∃ j, (s.mux r).thread j = some x := fun i x hx => Or.inr ⟨i,hx⟩
  simp only [mutexUnlockPrimitive,spec_ite,spec_ok,spec_bind,spec_check,spec_pure]
  refine ⟨fun _ => ⟨fun _ => .refl _ s,fun _ => trivial⟩,fun _ => ⟨fun _ =>
    .setMux .refl hcells (by rintro _ ⟨⟩),fun _ => ⟨fun _ => ?_,fun _ => ?_⟩⟩⟩
  · cases (List.range (s.mux r).numb).mapM (s.mux r).read with
    | error e => trivial
    | ok ts => exact .setMux (unblocks_moves ts s.kernel) hcells fun x hx => Or.inr (Or.inl hx)
  · cases (List.range (s.mux r).numb).mapM (s.mux r).read with
    | error e => trivial
    | ok ts =>
      rw [spec_ok]
      split
      · trivial
      · next j _ =>
        cases hr : (s.mux r).read j with
        | error e => trivial
        | ok t =>
          simp only [spec_bind,spec_ok]
          refine Counted.closeGap_from.imp fun thread hth => ?_
          refine .setMux (.single (.unblocks t)) (fun i x hx => Or.inr (hth i x hx)) fun x hx => ?_
          cases hx
          exact Or.inr (Or.inr ⟨j,Mutex.read_ok hr⟩)

theorem pthreadCondSignalEnd_goes (me : Thid cfg) {c : ℕ} :
    Spec (pthreadCondSignalEnd s c) (fun p => s.Goes me p.1) (fun _ => True) := by
  unfold pthreadCondSignalEnd
  split
  · trivial
  · exact mutexUnlockPrimitive_goes me

theorem keepCvOwned_goes (me : Thid cfg) {c : ℕ} :
    Spec (keepCvOwned s c) (fun s' => s.Goes me s') (fun _ => True) := by
  simp only [keepCvOwned,spec_ite,spec_bind,spec_check,spec_pure,spec_ok]
  exact ⟨fun _ => ⟨fun _ => .setMux .refl (fun i x hx => Or.inr ⟨i,hx⟩) (by rintro _ ⟨⟩),fun _ => trivial⟩,
    fun _ => .refl _ s⟩

theorem pthreadCondSignal_goes (me : Thid cfg) {c : ℕ} :
    Spec (pthreadCondSignal s c) (fun p => s.Goes me p.1) (fun _ => True) := by
  unfold pthreadCondSignal
  split
  · exact .refl _ s
  · simp only [spec_bind]
    refine (mutexUnlockPrimitive_goes me).imp ?_
    rintro ⟨s1,y⟩ h1
    refine (keepCvOwned_goes me).imp fun s2 h2 => ?_
    simp only [spec_ite,spec_bind,spec_pure]
    exact ⟨fun _ => h1.trans h2,fun _ =>
      (pthreadCondSignalEnd_goes me).imp fun p hp => (h1.trans h2).trans hp⟩

theorem pthreadCondBroadcast_goes (me : Thid cfg) {c : ℕ} :
    Spec (pthreadCondBroadcast s c) (fun p => s.Goes me p.1) (fun _ => True) := by
  unfold pthreadCondBroadcast
  split
  · exact .refl _ s
  · next r _ =>
    simp only [spec_bind]
    refine (mutexUnlockPrimitive_goes me).imp ?_
    rintro ⟨s1,y1⟩ h1
    have hk : s1.Goes me (if (s1.mux (.cvMux c)).numb = 0 then
        s1.setMux (.cvMux c) { s1.mux (.cvMux c) with owner := .one } else s1) := by
      split
      · exact .setMux .refl (fun i x hx => Or.inr ⟨i,hx⟩) (by rintro _ ⟨⟩)
      · exact .refl _ s1
    exact (mutexUnlockPrimitive_goes me).imp fun p hp => (Sync.Goes.trans h1 hk).trans hp

theorem pthreadCondWait_goes {c : ℕ} : Spec (pthreadCondWait s c r)
    (fun s' => s.Goes s.kernel.activeThread s') (fun _ => True) := by
  let me := s.kernel.activeThread
  simp only [pthreadCondWait,spec_bind,spec_check,spec_pure]
  have hcoop : s.Goes me { s with coopMux := Function.update s.coopMux c (some r) } :=
    ⟨.refl,fun _ i _ hx => Or.inr ⟨i,hx⟩,fun _ _ hx => Or.inr (Or.inl hx)⟩
  refine (mutexUnlockPrimitive_goes me).imp fun p hp => ?_
  refine mutexLockPrimitive_goes.imp fun p' hp' => ?_
  have hme : p.1.kernel.activeThread = me := hp.moves.active
  rw [hme] at hp'
  exact ⟨fun _ => (hcoop.trans hp).trans hp',fun _ => trivial⟩

theorem pthreadCondWaitEnd_goes {c : ℕ} : Spec (pthreadCondWaitEnd s c)
    (fun p => s.Goes s.kernel.activeThread p.1) (fun _ => True) := by
  unfold pthreadCondWaitEnd
  split
  · trivial
  · exact mutexLockPrimitive_goes

end

/-! ### The calls of the running thread -/

/-- The running thread has done something to the kernel and its objects, of which `evs` tells, and
comes to `x`, to yield there or to go on. -/
def World.after (w : World cfg numQ) (s : Sync cfg) (st : ItcStore cfg numQ)
    (evs : List (Event cfg numQ)) (x : Place cfg numQ) (y : Bool) : World cfg numQ :=
  { w with
    toSync := s, store := st, log := w.log ++ evs
    place := Function.update w.place w.me x, yielding := y }

section

variable {w : World cfg numQ}

theorem World.runs_iff : w.runs = true ↔ w.yielding = false ∧ w.place w.me = .user := by
  simp [World.runs]

theorem World.after_self (h : w.runs = true) (s : Sync cfg) (st : ItcStore cfg numQ)
    (evs : List (Event cfg numQ)) :
    w.after s st evs .user false = { w with toSync := s, store := st, log := w.log ++ evs } := by
  obtain ⟨hy,hp⟩ := World.runs_iff.mp h
  have hp : Function.update w.place w.me .user = w.place := Function.update_eq_self_iff.mpr hp.symm
  simp only [World.after,hp,← hy]

theorem World.after_place_me (s : Sync cfg) (st : ItcStore cfg numQ) (evs : List (Event cfg numQ))
    (x : Place cfg numQ) (y : Bool) : (w.after s st evs x y).place w.me = x :=
  Function.update_self _ _ _

/-- The events that tell of messages copied out of object `gen` in slot `qid`. -/
def Deliveries (qid : Fin numQ) (gen : ℕ) (evs : List (Event cfg numQ)) : Prop :=
  ∀ ev ∈ evs, ∃ bytes len, ev = .delivered qid gen bytes len

theorem Deliveries.nil (qid : Fin numQ) (gen : ℕ) :
    Deliveries qid gen ([] : List (Event cfg numQ)) := fun _ h => by cases h

theorem World.deliver_eq (c : TakeCall numQ) (msg : Option (List Byte × ℕ)) :
    ∃ evs, Deliveries c.qid c.gen evs ∧ w.deliver c msg = { w with log := w.log ++ evs } := by
  cases msg with
  | none => exact ⟨[],Deliveries.nil _ _,by simp [World.deliver]⟩
  | some p =>
    refine ⟨[.delivered c.qid c.gen p.1 p.2],?_,rfl⟩
    intro ev hev
    exact ⟨_,_,List.mem_singleton.mp hev⟩

theorem World.putItc_eq (w : World cfg numQ) (k : Kernel cfg) (qid : Fin numQ)
    (q : Option (Itc cfg)) : ∃ st, (∀ {me}, SlotFrom me ((w.store.array qid).map ItcObj.toItc) q →
      w.store.SameSlots me st) ∧ (w.setKernel k).putItc qid q = (w.setKernel k).setStore st := by
  cases q with
  | none => exact ⟨w.store,fun _ => .refl _ _,rfl⟩
  | some q =>
    refine ⟨_,fun hq => .putItc fun o ho => ?_,rfl⟩
    obtain ⟨q0,h0,hc⟩ := hq q rfl
    rw [ho] at h0
    cases h0
    exact hc

theorem World.goTo_eq (w : World cfg numQ) (k : Kernel cfg) (st : ItcStore cfg numQ)
    (hk : k.activeThread = w.me) (x : Place cfg numQ) (y : Bool) :
    ((w.setKernel k).setStore st).goTo x y = w.after { w.toSync with kernel := k } st [] x y := by
  simp [World.after,World.goTo,World.setStore,World.setKernel,World.me,hk]

/-- `sm_p`, `q_receive` and `q_vreceive` return at once, or their thread goes to sleep on an object
that is there. -/
theorem World.take_spec {op : ItcSet} {qid : Fin numQ} {flags : IpcFlags} {timeout : Clock}
    {bufLen : ℕ} : Spec (w.take op qid flags timeout bufLen) (fun w' => ∃ st,
      w.store.SameSlots w.me st ∧ ((∃ e evs, e ≠ .timeout ∧ Deliveries qid (w.gen qid) evs ∧
        w' = w.after w.toSync st
          (.took w.me ⟨op,qid,w.gen qid,timeout,w.now⟩ e w.now :: evs) .user false) ∨
      ∃ m, (m = none ↔ timeout = 0) ∧ (∃ o, w.store.deref qid = .ok o) ∧
        w' = w.after { w.toSync with kernel := w.kernel.modTcb w.me (goToSleep timeout w.clock) }
          st [] (.inTake ⟨op,qid,w.gen qid,timeout,w.now⟩ m) true)) (fun _ => True) := by
  have hobj : ∀ {o : Option (ItcObj cfg)}, w.store.slot qid = .ok o →
      (o.map ItcObj.toItc).isSome = true → ∃ o, w.store.deref qid = .ok o := by
    intro o ho hs
    cases o with
    | none => cases hs
    | some o => exact ⟨o,ItcStore.deref_of_slot ho⟩
  let asleep := w.kernel.modTcb w.me (goToSleep timeout w.clock)
  cases op with
  | sem =>
    simp only [World.take,spec_bind]
    cases ho : w.store.slot qid with
    | error e => trivial
    | ok o =>
      rw [spec_ok]
      obtain ⟨q,hfrom,hq⟩ := smP_kernel w.kernel (o.map ItcObj.toItc) flags timeout w.clock
      rw [← ItcStore.slot_ok ho] at hfrom
      obtain ⟨e,hr,he⟩ | ⟨m,hr,hm,hs⟩ := hq
      · obtain ⟨st,hst0,hst⟩ := w.putItc_eq w.kernel qid q
        have hsame := hst0 hfrom
        simp only [hr,spec_pure,hst]
        exact ⟨st,hsame,Or.inl ⟨e,[],he,Deliveries.nil _ _,rfl⟩⟩
      · obtain ⟨st,hst0,hst⟩ := w.putItc_eq asleep qid q
        have hsame := hst0 hfrom
        simp only [hr,spec_pure]
        exact ⟨st,hsame,Or.inr ⟨m,hm,hobj ho hs,(congrArg (World.goTo · _ _) hst).trans
          (w.goTo_eq asleep st rfl _ _)⟩⟩
  | sQueue =>
    simp only [World.take,spec_bind]
    cases ho : w.store.slot qid with
    | error e => trivial
    | ok o =>
      rw [spec_ok]
      refine (qReceive_kernel w.kernel (o.map ItcObj.toItc) flags timeout w.clock).imp ?_
      rintro _ ⟨q,hfrom,⟨e,msg,rfl,he⟩ | ⟨m,rfl,hm,hs⟩⟩
      · rw [← ItcStore.slot_ok ho] at hfrom
        obtain ⟨st,hst0,hst⟩ := w.putItc_eq w.kernel qid q
        have hsame := hst0 hfrom
        simp only [spec_pure,hst]
        exact ⟨st,hsame,Or.inl ⟨e,[],he,Deliveries.nil _ _,rfl⟩⟩
      · rw [← ItcStore.slot_ok ho] at hfrom
        obtain ⟨st,hst0,hst⟩ := w.putItc_eq asleep qid q
        have hsame := hst0 hfrom
        simp only [spec_pure]
        exact ⟨st,hsame,Or.inr ⟨m,hm,hobj ho hs,(congrArg (World.goTo · _ _) hst).trans
          (w.goTo_eq asleep st rfl _ _)⟩⟩
  | vQueue =>
    simp only [World.take,spec_bind]
    refine (qVreceive_kernel w.store w.kernel qid flags timeout w.clock bufLen).imp ?_
    rintro _ ⟨st,hsame,⟨e,msg,rfl,he⟩ | ⟨m,rfl,hm,ho⟩⟩
    · simp only [spec_pure]
      obtain ⟨evs,hd,hev⟩ := (((w.setKernel w.kernel).setStore st).endTake
        ⟨.vQueue,qid,w.gen qid,timeout,w.now⟩ e).deliver_eq ⟨.vQueue,qid,w.gen qid,timeout,w.now⟩ msg
      rw [hev]
      refine ⟨st,hsame,Or.inl ⟨e,evs,he,hd,?_⟩⟩
      simp only [World.after,World.endTake,World.emit,World.goTo,List.append_assoc]
      rfl
    · exact ⟨st,hsame,Or.inr ⟨m,hm,ho,w.goTo_eq asleep st rfl _ _⟩⟩

theorem World.lockEnd_spec {qid : Fin numQ} {markIdx : Option ℕ} :
    Spec (w.lockEnd qid markIdx) (fun r => ∃ k st, DropsTimedOut w.kernel k ∧
      (∀ x, w.store.SameSlots x st) ∧ r.1 = (w.setKernel k).setStore st ∧
      (r.2 = .timeout → markIdx ≠ none ∧ ((w.kernel.pool w.me).wakeupEvent = .timer ∨
        (w.kernel.pool w.me).wakeupEvent = .itc2))) (fun _ => True) := by
  cases markIdx with
  | none => exact ⟨w.kernel,w.store,DropsTimedOut.refl _,fun _ => .refl _ _,rfl,by rintro ⟨⟩⟩
  | some i =>
    simp only [World.lockEnd,spec_bind]
    cases ho : w.store.deref qid with
    | error e => trivial
    | ok o =>
      rw [spec_ok]
      refine lockStageWoken_drops.imp ?_
      rintro ⟨k,q,e⟩ ⟨hd,hc,he⟩
      have hfrom : ∀ x, SlotFrom x ((w.store.array qid).map ItcObj.toItc) (some q) := by
        rw [ItcStore.deref_ok ho]
        exact fun x => .some (hc x)
      obtain ⟨st,hst0,hst⟩ := w.putItc_eq k qid (some q)
      exact ⟨k,st,hd,fun x => hst0 (hfrom x),hst,fun h => ⟨by rintro ⟨⟩,he h⟩⟩

/-- A take that has been woken returns; with `ERR_TIMEOUT` only if the timer has readied it. -/
theorem World.takeWoken_spec {c : TakeCall numQ} {markIdx : Option ℕ} :
    Spec (w.takeWoken c markIdx) (fun w' => ∃ k st e evs, DropsTimedOut w.kernel k ∧
      (∀ x, w.store.SameSlots x st) ∧ Deliveries c.qid c.gen evs ∧
      w' = w.after { w.toSync with kernel := k } st (.took w.me c e w.now :: evs) .user false ∧
      (e = .timeout → markIdx ≠ none ∧ ((w.kernel.pool w.me).wakeupEvent = .timer ∨
        (w.kernel.pool w.me).wakeupEvent = .itc2))) (fun _ => True) := by
  simp only [World.takeWoken,spec_bind]
  refine World.lockEnd_spec.imp ?_
  rintro ⟨w1,rc⟩ ⟨k,st,hd,hsame,rfl,he⟩
  have hme : k.activeThread = w.me := by rw [hd.rest]; rfl
  have hend : ∀ st', (((w.setKernel k).setStore st').endTake c rc) =
      w.after { w.toSync with kernel := k } st' [.took w.me c rc w.now] .user false := by
    intro st'
    simp [World.endTake,World.emit,World.goTo,World.after,World.setStore,World.setKernel,World.me,hme]
  cases hop : c.op with
  | sem => exact ⟨k,st,rc,[],hd,hsame,Deliveries.nil _ _,hend st,he⟩
  | sQueue =>
    simp only [spec_bind]
    cases ho : ((w.setKernel k).setStore st).store.deref c.qid with
    | error e => trivial
    | ok o =>
      have ho : st.array c.qid = some o := ItcStore.deref_ok ho
      rw [spec_ok]
      refine qReceiveEnd_result.imp ?_
      rintro ⟨q,e,msg⟩ ⟨rfl,hq⟩
      have hput : ∀ x, st.SameSlots x (st.putItc c.qid q) := fun x => .putItc fun o' ho' => by
        rw [ho] at ho'
        cases ho'
        exact hq x
      exact ⟨k,_,e,[],hd,fun x => (hsame x).trans (hput x),Deliveries.nil _ _,hend _,he⟩
  | vQueue =>
    simp only [spec_bind,spec_pure]
    refine qVreceiveEnd_result.imp ?_
    rintro ⟨st',e,msg⟩ ⟨rfl,hst⟩
    obtain ⟨evs,hev,hw⟩ := (((w.setKernel k).setStore st').endTake c e).deliver_eq c msg
    refine ⟨k,st',e,evs,hd,fun x => (hsame x).trans (hst x),hev,?_,he⟩
    refine hw.trans ?_
    rw [hend]
    simp [World.after]

/-- The thread that the next `sm_v`, `q_send` or `q_vsend` on the object would ready. -/
def World.target (w : World cfg numQ) (qid : Fin numQ) : Option (Thid cfg) :=
  (w.store.array qid).bind fun o => handedTo w.kernel o.toItc

/-- The kernel after the `unlock_stage` of a call on the object: unchanged where the call does not
yield, else with the target readied. -/
def World.Served (w : World cfg numQ) (qid : Fin numQ) (k : Kernel cfg) (yields : Prop) : Prop :=
  k = w.kernel ∧ ¬yields ∨ ∃ t, w.target qid = some t ∧ k = readyByItc w.kernel t ∧ yields

theorem World.served {w : World cfg numQ} {qid : Fin numQ} {o : ItcObj cfg} {q : Itc cfg}
    (ho : w.store.array qid = some o) (hq : o.toItc.SameRing q) :
    Spec (unlockStage w.kernel q) (fun r => w.Served qid r.1 (r.2.2 = true) ∧
      ∀ me, q.CellsFrom me r.2.1) (fun _ => True) := by
  refine unlockStage_kernel.imp ?_
  rintro ⟨k,q',y⟩ ⟨hc,hr⟩
  refine ⟨?_,hc⟩
  obtain ⟨hk,hy⟩ | ⟨t,ht,hk,hy⟩ := hr
  · exact Or.inl ⟨hk,by rw [hy]; decide⟩
  · exact Or.inr ⟨t,by rw [World.target,ho,Option.bind_some,← hq.handedTo]; exact ht,hk,hy⟩

theorem qSendEnd_result {k : Kernel cfg} {q : Itc cfg} :
    Spec (qSendEnd k q) (fun e => e = .ok) (fun _ => True) := by
  unfold qSendEnd
  cases itcProveConcistency k q with
  | error e => trivial
  | ok b =>
    simp only [spec_bind,spec_ok,spec_check,spec_pure]
    exact ⟨fun _ => trivial,fun _ => trivial⟩

/-- The objects of the two tables have the same threads to serve. -/
def ItcStore.SameRings (st st' : ItcStore cfg numQ) : Prop :=
  ∀ qid o', st'.array qid = some o' → ∃ o, st.array qid = some o ∧ o.toItc.SameRing o'.toItc

theorem ItcStore.SameRings.setObj {st : ItcStore cfg numQ} {i : Fin numQ} {o o' : ItcObj cfg}
    (ho : st.array i = some o) (h : o.toItc.SameRing o'.toItc) :
    st.SameRings (st.setObj i (some o')) := by
  intro qid o2 h2
  simp only [ItcStore.setObj,Function.update_apply] at h2
  split at h2
  · next he => cases h2; subst he; exact ⟨o,ho,h⟩
  · exact ⟨o2,h2,Itc.SameRing.refl _⟩

theorem ItcStore.mallocMb_rings {st : ItcStore cfg numQ} {i n : ℕ} {granted : Bool} :
    Spec (st.mallocMb i n granted) (fun st' => st.SameRings st' ∧ ∀ me, st.SameSlots me st')
      (fun _ => True) := by
  unfold ItcStore.mallocMb
  cases ho : st.deref st.idx with
  | error e => trivial
  | ok o =>
    simp only [spec_bind,spec_ok,spec_check,spec_pure]
    refine ⟨fun _ => ⟨fun _ => ⟨ItcStore.SameRings.setObj (ItcStore.deref_ok ho)
      ⟨rfl,rfl,rfl,rfl,rfl,rfl,rfl⟩,fun me => ?_⟩,fun _ => trivial⟩,fun _ => trivial⟩
    refine .setObj (ItcStore.deref_ok ho) ?_ _
    exact .of_eq rfl rfl rfl

theorem ItcStore.fillSlot_rings {st : ItcStore cfg numQ} {qid : Fin numQ} {msg : VMsg} :
    Spec (st.fillSlot qid msg) (fun st' => st.SameRings st' ∧ ∀ me, st.SameSlots me st')
      (fun _ => True) := by
  unfold ItcStore.fillSlot
  cases ho : st.deref qid with
  | error e => trivial
  | ok o =>
    simp only [spec_bind,spec_ok,spec_check]
    refine ⟨fun _ => ?_,fun _ => trivial⟩
    cases st.heap.write Fault.nullPointer .badPointer (o.qv o.minIdx).mb msg.copied with
    | error e => trivial
    | ok heap =>
      refine ⟨ItcStore.SameRings.setObj (ItcStore.deref_ok ho) ⟨rfl,rfl,rfl,rfl,rfl,rfl,rfl⟩,fun me => ?_⟩
      refine .setObj (ItcStore.deref_ok ho) ?_ heap
      exact .of_eq rfl rfl rfl

theorem World.smV_served {qid : Fin numQ} {o : Option (ItcObj cfg)} (ho : w.store.array qid = o) :
    Spec (smV w.kernel (o.map ItcObj.toItc)) (fun r => w.Served qid r.1 (r.2.2.1 = true) ∧
      ∀ me, SlotFrom me (o.map ItcObj.toItc) r.2.1) (fun _ => True) := by
  have hself := fun me => SlotFrom.refl me (o.map ItcObj.toItc)
  cases o with
  | none => exact ⟨Or.inl ⟨rfl,by rintro ⟨⟩⟩,hself⟩
  | some o =>
    simp only [Option.map_some,smV,spec_ite,spec_ok,spec_bind,spec_pure]
    exact ⟨fun _ => ⟨Or.inl ⟨rfl,by rintro ⟨⟩⟩,hself⟩,fun _ =>
      (World.served ho (Itc.SameRing.refl _)).imp fun r hr => ⟨hr.1,fun me => .some (hr.2 me)⟩⟩

theorem World.qSend_served {qid : Fin numQ} {o : Option (ItcObj cfg)} {m : Msg}
    (ho : w.store.array qid = o) : Spec (qSend w.kernel (o.map ItcObj.toItc) m)
      (fun r => w.Served qid r.1 (r.2.2.isNone = true) ∧
        ∀ me, SlotFrom me (o.map ItcObj.toItc) r.2.1) (fun _ => True) := by
  have hself := fun me => SlotFrom.refl me (o.map ItcObj.toItc)
  cases o with
  | none => exact ⟨Or.inl ⟨rfl,by rintro ⟨⟩⟩,hself⟩
  | some o =>
    simp only [Option.map_some,qSend,spec_ite,spec_ok,spec_bind,spec_pure]
    refine ⟨fun _ => ⟨Or.inl ⟨rfl,by rintro ⟨⟩⟩,hself⟩,fun _ => ⟨fun _ =>
      ⟨Or.inl ⟨rfl,by rintro ⟨⟩⟩,hself⟩,fun _ => ?_⟩⟩
    have hring : o.toItc.SameRing { o.toItc with
        q := Function.update o.q o.minIdx m, minIdx := (o.minIdx+1) % o.sizeofQ } :=
      ⟨rfl,rfl,rfl,rfl,rfl,rfl,rfl⟩
    refine (World.served ho hring).imp ?_
    rintro ⟨k,q,y⟩ ⟨hs,hc⟩
    refine ⟨fun hy => ⟨?_,fun me => .some ((hring.cellsFrom me).trans (hc me))⟩,fun hy => ?_⟩
    · obtain ⟨_,hn⟩ | ⟨t,ht,hk,_⟩ := hs
      · exact absurd hy hn
      · exact Or.inr ⟨t,ht,hk,rfl⟩
    · refine qSendEnd_result.imp fun e _ => ⟨?_,fun me => .some ((hring.cellsFrom me).trans (hc me))⟩
      obtain ⟨hk,_⟩ | ⟨_,_,_,h⟩ := hs
      · exact Or.inl ⟨hk,by rintro ⟨⟩⟩
      · exact absurd h hy

theorem World.qVsend_served {qid : Fin numQ} {m : VMsg} {granted : Bool} :
    Spec (w.store.qVsend false w.kernel qid m granted)
      (fun r => w.Served qid r.1 (r.2.2.isNone = true) ∧ ∀ me, w.store.SameSlots me r.2.1)
      (fun _ => True) := by
  have hself := fun me => ItcStore.SameSlots.refl me w.store
  unfold ItcStore.qVsend
  cases ho : w.store.slot qid with
  | error e => trivial
  | ok o =>
    cases o with
    | none => exact ⟨Or.inl ⟨rfl,by rintro ⟨⟩⟩,hself⟩
    | some o =>
      simp only [spec_bind,spec_ok,spec_ite,spec_pure]
      refine ⟨fun _ => ⟨Or.inl ⟨rfl,by rintro ⟨⟩⟩,hself⟩,fun _ => ⟨fun _ =>
        ⟨Or.inl ⟨rfl,by rintro ⟨⟩⟩,hself⟩,fun _ => ?_⟩⟩
      refine ItcStore.mallocMb_rings.imp ?_
      rintro st1 ⟨h1,hs1⟩
      refine ⟨fun _ => ⟨Or.inl ⟨rfl,by rintro ⟨⟩⟩,hs1⟩,fun _ => ?_⟩
      refine ItcStore.fillSlot_rings.imp ?_
      rintro st2 ⟨h2,hs2⟩
      cases ho2 : st2.deref qid with
      | error e => trivial
      | ok o2 =>
        rw [spec_ok]
        obtain ⟨o1,ho1,hr1⟩ := h2 qid o2 (ItcStore.deref_ok ho2)
        obtain ⟨o0,ho0,hr0⟩ := h1 qid o1 ho1
        refine (World.served ho0 (hr0.trans hr1)).imp ?_
        rintro ⟨k,q,y⟩ ⟨hs,hc⟩
        have hput : ∀ me, st2.SameSlots me (st2.putItc qid q) := fun me => .putItc fun o' ho' => by
          rw [ItcStore.deref_ok ho2] at ho'
          cases ho'
          exact hc me
        have hsame := fun me => ((hs1 me).trans (hs2 me)).trans (hput me)
        refine ⟨fun hy => ⟨?_,hsame⟩,fun hy => ?_⟩
        · obtain ⟨_,hn⟩ | ⟨t,ht,hk,_⟩ := hs
          · exact absurd hy hn
          · exact Or.inr ⟨t,ht,hk,rfl⟩
        · cases (st2.putItc qid q).sendEnd k qid with
          | error e => trivial
          | ok e =>
            refine ⟨?_,hsame⟩
            obtain ⟨hk,_⟩ | ⟨_,_,_,h⟩ := hs
            · exact Or.inl ⟨hk,by rintro ⟨⟩⟩
            · exact absurd h hy

/-- `sm_v`, `q_send` and `q_vsend` ready the thread the object serves next, and then yield. -/
theorem World.give_spec {qid : Fin numQ} {p : Payload} (hr : w.runs = true) :
    Spec (w.give qid p) (fun w' => ∃ k st evs x y, w.Served qid k (y = true) ∧
      (∀ me, w.store.SameSlots me st) ∧
      (∀ ev ∈ evs, ∃ m, ev = .accepted qid (w.gen qid) m) ∧
      (y = false ∧ x = .user ∨ y = true ∧ (x = .returning ∨ x = .inSend qid (w.gen qid))) ∧
      w' = w.after { w.toSync with kernel := k } st evs x y) (fun _ => True) := by
  have hme : ∀ {k y}, w.Served qid k y → k.activeThread = w.me := by
    rintro k y (⟨rfl,_⟩ | ⟨t,_,rfl,_⟩) <;> rfl
  have hstay : ∀ (k : Kernel cfg) (st : ItcStore cfg numQ) evs,
      { (w.setKernel k).setStore st with log := w.log ++ evs } =
        w.after { w.toSync with kernel := k } st evs .user false := fun k st evs =>
    (World.after_self hr _ _ _).symm
  cases p with
  | token =>
    simp only [World.give,spec_bind,spec_pure]
    cases ho : w.store.slot qid with
    | error e => trivial
    | ok o =>
      rw [spec_ok]
      refine (World.smV_served (ItcStore.slot_ok ho)).imp ?_
      rintro ⟨k,q,y,e⟩ ⟨hs,hfrom⟩
      simp only [← ItcStore.slot_ok ho] at hfrom
      obtain ⟨st,hst0,hst⟩ := w.putItc_eq k qid q
      have hsame := fun me => hst0 (hfrom me)
      simp only [hst]
      cases y with
      | true => exact ⟨k,st,[],.returning,true,hs,hsame,by simp,by simp,w.goTo_eq k st (hme hs) _ _⟩
      | false =>
        refine ⟨k,st,[],.user,false,hs,hsame,by simp,by simp,?_⟩
        rw [← hstay]
        simp [World.setKernel,World.setStore]
  | words m =>
    simp only [World.give,spec_bind,spec_pure]
    cases ho : w.store.slot qid with
    | error e => trivial
    | ok o =>
      rw [spec_ok]
      refine (World.qSend_served (ItcStore.slot_ok ho)).imp ?_
      rintro ⟨k,q,e⟩ ⟨hs,hfrom⟩
      simp only [← ItcStore.slot_ok ho] at hfrom
      obtain ⟨st,hst0,hst⟩ := w.putItc_eq k qid q
      have hsame := fun me => hst0 (hfrom me)
      simp only [hst]
      cases e with
      | none =>
        exact ⟨k,st,[],.inSend qid (w.gen qid),true,hs,hsame,by simp,by simp,w.goTo_eq k st (hme hs) _ _⟩
      | some e =>
        refine ⟨k,st,[],.user,false,hs,hsame,by simp,by simp,?_⟩
        rw [← hstay]
        simp [World.setKernel,World.setStore]
  | bytes m granted =>
    simp only [World.give,World.giveBytes,spec_bind,spec_pure]
    refine World.qVsend_served.imp ?_
    rintro ⟨k,st,e⟩ ⟨hs,hsame⟩
    have hsame : ∀ me, w.store.SameSlots me st := hsame
    cases e with
    | none =>
      refine ⟨k,st,[.accepted qid (w.gen qid) m],.inSend qid (w.gen qid),true,hs,hsame,
        by simp,by simp,?_⟩
      have hk : k.activeThread = w.kernel.activeThread := hme hs
      simp [World.after,World.goTo,World.emit,World.setStore,World.setKernel,World.me,hk]
    | some e =>
      by_cases he : e = .ok
      · refine ⟨k,st,[.accepted qid (w.gen qid) m],.user,false,hs,hsame,by simp,by simp,?_⟩
        rw [← hstay]
        simp [he,World.setKernel,World.setStore,World.emit]
      · refine ⟨k,st,[],.user,false,hs,hsame,by simp,by simp,?_⟩
        rw [← hstay]
        simp [he,World.setKernel,World.setStore]

end

end Tinker

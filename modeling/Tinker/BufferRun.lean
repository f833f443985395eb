import Tinker.Buffers
import Tinker.Builds
import Tinker.DeleteRun

/-! The buffers of the variable-length queues in the whole kernel. A slot keeps its pointer when
`q_vreceive` frees the buffer, so they stay in good order only where no message is received. -/
namespace Tinker

open Kernel Outcome

variable {cfg : Config} {numQ : ℕ}

/-- The queue a message is accepted for, the number of that queue in its slot, and the message. -/
def Event.send : Event cfg numQ → Option (Fin numQ × ℕ × VMsg)
  | .accepted qid gen m => some (qid,gen,m)
  | _ => none

namespace World

/-- The messages `q_vsend` has accepted; the one in place `p` got the buffer `p`. -/
def sends (w : World cfg numQ) : List (Fin numQ × ℕ × VMsg) := w.log.filterMap Event.send

/-- Every pointer in a slot leads to a buffer in use that was allocated for its queue. Every buffer
is in one slot as long as its queue is there, and is freed with it; nothing is freed twice. -/
structure BuffersOwned (w : World cfg numQ) : Prop where
  slots : ∀ i x p, w.store.Points i x p →
    (w.store.heap.mem p).isSome ∧ ∃ m, w.sends[p]? = some (i,w.gen i,m)
  inUse : ∀ p i m, w.sends[p]? = some (i,w.gen i,m) → w.store.IsQueue i →
    w.store.heap.mem p = some m.copied ∧ ∃! x, w.store.Points i x p
  freed : ∀ p i g m, w.sends[p]? = some (i,g,m) → ¬(w.store.IsQueue i ∧ g = w.gen i) →
    w.store.heap.mem p = none
  deletes : ∀ i, w.store.IsQueue i → ∃ st, w.store.qVdelete i = .ok st
  destructs : (∀ i, w.store.freed i = false) → ∃ st, w.store.tkItcDestruct = .ok st

end World

/-- A queue is deleted by `q_vdelete`, or with all objects. -/
def WorldLabel.deletesRight : WorldLabel cfg numQ → Prop
  | .deleteItc op _ => op = .vQueue
  | _ => True

def BuildLabel.deletesRight : BuildLabel cfg numQ → Prop
  | .call l => l.deletesRight
  | .halfWay _ => True

/-- No `q_vreceive` gets a message, and an accepted message goes into a slot of its own queue that
has no buffer yet. -/
def NoneReceived (w : World cfg numQ) : WorldLabel cfg numQ → Prop
  | .give qid (.bytes _ _) => ∀ o, w.store.Accepts qid o →
      w.store.idx = qid ∧ o.minIdx < o.sizeofQ ∧ (o.qv o.minIdx).mb = none
  | .take .vQueue qid _ _ bufLen => ∀ o, w.store.slot qid = .ok (some o) → o.bType = .vQueue →
      0 < o.token → o.maxSizeofM < bufLen
  | .resume => ∀ c markIdx, w.place w.me = .inTake c markIdx → c.op = .vQueue →
      markIdx ≠ none ∧ ((w.kernel.pool w.me).wakeupEvent = .timer ∨
        (w.kernel.pool w.me).wakeupEvent = .itc2)
  | _ => True

section

variable {w w' : World cfg numQ} {l : WorldLabel cfg numQ} {st : ItcStore cfg numQ}
  {k : Kernel cfg} {qid : Fin numQ}

/-! ### The calls that leave the buffers alone -/

theorem ItcStore.SameBufs.of_from (me : Thid cfg) {q : Itc cfg}
    (h : ∀ o ∈ st.array qid, o.toItc.CellsFrom me q) : st.SameBufs (st.putItc qid q) :=
  .putItc fun o ho => ⟨(h o ho).bType,(h o ho).sizeofQ⟩

theorem World.putItc_bufs {me : Thid cfg} {q : Option (Itc cfg)}
    (hq : SlotFrom me ((w.store.array qid).map ItcObj.toItc) q) :
    w.store.SameBufs ((w.setKernel k).putItc qid q).store := by
  cases q with
  | none => exact .refl _
  | some q =>
    refine .of_from me fun o ho => ?_
    obtain ⟨q0,h0,hc⟩ := hq q rfl
    rw [ho] at h0
    cases h0
    exact hc

theorem World.deliver_store (w : World cfg numQ) (c : TakeCall numQ)
    (msg : Option (List Byte × ℕ)) : (w.deliver c msg).store = w.store := by
  cases msg <;> rfl

theorem qVreceiveEnd_keeps {rc : ItcErr} (hrc : rc ≠ .ok) :
    Spec (st.qVreceiveEnd k qid rc) (fun r => r.1 = st) (fun _ => True) := by
  unfold ItcStore.qVreceiveEnd
  cases st.deref qid with
  | error e => trivial
  | ok o =>
    simp only [spec_bind,spec_ok]
    cases itcProveConcistency k o.toItc with
    | error e => trivial
    | ok b =>
      simp only [spec_ok,spec_check,if_pos hrc,spec_pure]
      exact ⟨fun _ => trivial,fun _ => trivial⟩

/-- `q_vreceive` without a message to take. -/
theorem qVreceive_bufs {flags : IpcFlags} {timeout clk : Clock} {bufLen : ℕ}
    (hc : ∀ o, st.slot qid = .ok (some o) → o.bType = .vQueue → 0 < o.token →
      o.maxSizeofM < bufLen) :
    Spec (st.qVreceive k qid flags timeout clk bufLen) (fun r => st.SameBufs r.2.1)
      (fun _ => True) := by
  unfold ItcStore.qVreceive
  cases hs : st.slot qid with
  | error e => trivial
  | ok slot =>
    cases slot with
    | none => exact .refl _
    | some o =>
      simp only [spec_bind,spec_ok,spec_ite,spec_pure]
      refine ⟨fun _ => .refl _,fun hb => ⟨fun _ => .refl _,fun _ => ⟨fun _ => .refl _,fun hbuf => ?_⟩⟩⟩
      have htok : ¬0 < o.token := fun h => hbuf (hc o hs (not_not.mp hb) h)
      have hput : ∀ {q : Itc cfg}, o.toItc.CellsFrom k.activeThread q →
          st.SameBufs (st.putItc qid q) := fun hc => .of_from _ fun o' ho' => by
        rw [ItcStore.slot_ok hs] at ho'
        cases ho'
        exact hc
      obtain ⟨q',e,hl,he,hcells⟩ | ⟨q',m,hl,-,hcells⟩ := lockStage_kernel k o.toItc timeout clk
      · have hne : e ≠ .ok := by
          simp only [lockStage,if_neg htok] at hl
          have hres := congrArg (fun r => r.2.2) hl
          split at hres
          · cases hres
          · cases hres
            decide
        simp only [hl,spec_bind,spec_pure]
        refine (qVreceiveEnd_keeps hne).imp ?_
        rintro ⟨st',e',msg⟩ rfl
        exact hput hcells
      · simp only [hl]
        exact hput hcells

theorem World.take_bufs {op : ItcSet} {flags : IpcFlags} {timeout : Clock} {bufLen : ℕ}
    (hc : NoneReceived w (.take op qid flags timeout bufLen)) :
    Spec (w.take op qid flags timeout bufLen) (fun w' => w.store.SameBufs w'.store)
      (fun _ => True) := by
  cases op with
  | sem =>
    simp only [World.take,spec_bind]
    cases ho : w.store.slot qid with
    | error e => trivial
    | ok o =>
      rw [spec_ok]
      obtain ⟨q,hfrom,hq⟩ := smP_kernel w.kernel (o.map ItcObj.toItc) flags timeout w.clock
      rw [← ItcStore.slot_ok ho] at hfrom
      obtain ⟨e,hr,-⟩ | ⟨m,hr,-⟩ := hq
      · simp only [hr,spec_pure]
        exact World.putItc_bufs hfrom
      · simp only [hr,spec_pure]
        exact World.putItc_bufs hfrom
  | sQueue =>
    simp only [World.take,spec_bind]
    cases ho : w.store.slot qid with
    | error e => trivial
    | ok o =>
      rw [spec_ok]
      refine (qReceive_kernel w.kernel (o.map ItcObj.toItc) flags timeout w.clock).imp ?_
      rintro _ ⟨q,hfrom,⟨e,msg,rfl,-⟩ | ⟨m,rfl,-⟩⟩
      · rw [← ItcStore.slot_ok ho] at hfrom
        exact World.putItc_bufs hfrom
      · rw [← ItcStore.slot_ok ho] at hfrom
        exact World.putItc_bufs hfrom
  | vQueue =>
    simp only [World.take,spec_bind]
    refine (qVreceive_bufs hc).imp ?_
    rintro ⟨k,st,_ | _⟩ hs
    · simp only [spec_pure,World.deliver_store]
      exact hs
    · exact hs

/-- A thread that the timer has readied gives up. -/
theorem lockStageWoken_timeout {q : Itc cfg} {i : ℕ}
    (h : (k.pool k.activeThread).wakeupEvent = .timer ∨
      (k.pool k.activeThread).wakeupEvent = .itc2) :
    Spec (lockStageWoken k q i) (fun r => r.2.2 = .timeout) (fun _ => True) := by
  unfold lockStageWoken
  split
  · simp only [spec_ite,spec_ok,spec_bind,spec_pure]
    refine ⟨fun _ => trivial,fun _ => ⟨fun _ => trivial,fun _ => ?_⟩⟩
    cases dropTimedOut _ _ k (itcRemoveBlocked q (Ring.pred cfg.maxBlockedOnQ i)) with
    | error e => trivial
    | ok r => trivial
  · rfl
  · next h1 h2 => exact (h.elim h1 h2).elim

theorem World.lockEnd_bufs {markIdx : Option ℕ} :
    Spec (w.lockEnd qid markIdx) (fun r => w.store.SameBufs r.1.store ∧
      (markIdx ≠ none ∧ ((w.kernel.pool w.me).wakeupEvent = .timer ∨
        (w.kernel.pool w.me).wakeupEvent = .itc2) → r.2 = .timeout)) (fun _ => True) := by
  cases markIdx with
  | none => exact ⟨.refl _,fun h => absurd rfl h.1⟩
  | some i =>
    simp only [World.lockEnd,spec_bind]
    cases ho : w.store.deref qid with
    | error e => trivial
    | ok o =>
      rw [spec_ok]
      have hcells := lockStageWoken_drops (k:=w.kernel) (q:=o.toItc) (i:=i)
      have htime := fun h => lockStageWoken_timeout (k:=w.kernel) (q:=o.toItc) (i:=i) h
      cases hr : lockStageWoken w.kernel o.toItc i with
      | error e => trivial
      | ok r =>
        rw [hr] at hcells htime
        exact ⟨.of_from w.me fun o' ho' => by
          rw [ItcStore.deref_ok ho] at ho'
          cases ho'
          exact hcells.2.1 _,fun h => htime h.2⟩

theorem World.takeWoken_bufs {c : TakeCall numQ} {markIdx : Option ℕ}
    (hc : c.op = .vQueue → markIdx ≠ none ∧ ((w.kernel.pool w.me).wakeupEvent = .timer ∨
      (w.kernel.pool w.me).wakeupEvent = .itc2)) :
    Spec (w.takeWoken c markIdx) (fun w' => w.store.SameBufs w'.store) (fun _ => True) := by
  simp only [World.takeWoken,spec_bind]
  refine World.lockEnd_bufs.imp ?_
  rintro ⟨w1,rc⟩ ⟨hs,hrc⟩
  cases hop : c.op with
  | sem => exact hs
  | sQueue =>
    simp only [spec_bind]
    cases ho : w1.store.deref c.qid with
    | error e => trivial
    | ok o =>
      rw [spec_ok]
      refine qReceiveEnd_result.imp ?_
      rintro ⟨q,e,msg⟩ ⟨-,hq⟩
      exact hs.trans (.of_from w.me fun o' ho' => by
        rw [ItcStore.deref_ok ho] at ho'
        cases ho'
        exact hq _)
  | vQueue =>
    simp only [spec_bind,spec_pure]
    have hne : rc ≠ .ok := by
      have hrc : rc = .timeout := hrc (hc hop)
      rw [hrc]
      decide
    refine (qVreceiveEnd_keeps hne).imp ?_
    rintro ⟨st,e,msg⟩ rfl
    rw [World.deliver_store]
    exact hs

/-- `q_vsend` that is refused, or has no memory. -/
theorem qVsend_bufs {m : VMsg} {granted : Bool}
    (hc : ∀ o, st.Accepts qid o → st.idx = qid ∧ o.minIdx < o.sizeofQ ∧
      (o.qv o.minIdx).mb = none) :
    Spec (st.qVsend false k qid m granted) (fun r =>
      (st.SameBufs r.2.1 ∧ r.2.2 ≠ none ∧ r.2.2 ≠ some .ok) ∨
      ∃ o, st.Accepts qid o ∧ (st.enter qid o m).SameBufs r.2.1 ∧ (r.2.2 = none ∨ r.2.2 = some .ok))
      (fun _ => True) := by
  cases hs : st.slot qid with
  | error e => simp [ItcStore.qVsend,hs]
  | ok slot =>
    by_cases hacc : ∃ o, st.Accepts qid o
    · obtain ⟨o,ha⟩ := hacc
      obtain ⟨hidx,hm,hfree⟩ := hc o ha
      cases granted with
      | false =>
        rw [qVsend_noMem ha hidx hm]
        refine Or.inl ⟨?_,by simp,by simp⟩
        have ho := ItcStore.slot_ok ha.1
        have hsame : (⟨none,(o.qv o.minIdx).s⟩ : Qv) = o.qv o.minIdx := by rw [← hfree]
        rw [hsame,Function.update_eq_self]
        have hself : st.setObj qid (some o) = st := by
          rw [ItcStore.setObj,Function.update_eq_self_iff.mpr ho.symm]
        show st.SameBufs (st.setObj qid (some o))
        rw [hself]
        exact .refl st
      | true =>
        rw [qVsend_eq ha hidx hm,spec_bind]
        refine unlockStage_kernel.imp ?_
        rintro ⟨k',q,yields⟩ ⟨hcells,-⟩
        have hput : (st.enter qid o m).SameBufs ((st.enter qid o m).putItc qid q) :=
          .of_from k.activeThread fun o' ho' => by
            simp only [ItcStore.enter,Function.update_self,Option.mem_some_iff] at ho'
            subst ho'
            exact hcells _
        simp only [spec_ite,spec_bind,spec_pure]
        refine ⟨fun _ => Or.inr ⟨o,ha,hput,Or.inl trivial⟩,fun _ => ?_⟩
        cases ho : ((st.enter qid o m).putItc qid q).deref qid with
        | error e => simp [ItcStore.sendEnd,ho]
        | ok o' =>
          simp only [ItcStore.sendEnd,ho,spec_bind,spec_ok]
          exact qSendEnd_result.imp fun e he => Or.inr ⟨o,ha,hput,Or.inr (congrArg some he)⟩
    · obtain ⟨e,he,heq⟩ := qVsend_refused (k:=k) hs
        (fun o ho => hacc ⟨o,ho⟩)
      rw [heq false]
      exact Or.inl ⟨.refl st,by simp,by simpa using he⟩

/-! ### The steps -/

/-- The calls that work on the table of objects. -/
def World.onTable (w : World cfg numQ) : WorldLabel cfg numQ → Bool
  | .createItc _ _ | .deleteItc _ _ | .destructItc | .take _ _ _ _ _ | .give _ _ => true
  | .resume => (w.place w.me).takes.isSome
  | _ => false

theorem World.sends_after (s : Sync cfg) (evs : List (Event cfg numQ)) (x : Place cfg numQ)
    (y : Bool) : (w.after s st evs x y).sends = w.sends ++ evs.filterMap Event.send :=
  List.filterMap_append ..

theorem Deliveries.sends {gen : ℕ} {evs : List (Event cfg numQ)} (h : Deliveries qid gen evs) :
    evs.filterMap Event.send = [] := by
  refine List.filterMap_eq_nil_iff.mpr fun ev hev => ?_
  obtain ⟨bytes,len,rfl⟩ := h ev hev
  rfl

/-- Only a call that sends accepts a message. -/
theorem World.Does.sends (h : w.Does l w') (hl : ∀ qid p, l ≠ .give qid p) : w'.sends = w.sends := by
  cases h with
  | @createItc r granted hr =>
    obtain ⟨st,gen,he⟩ := w.createItc_frame r granted
    rw [he]
    rfl
  | gives => exact absurd rfl (hl _ _)
  | joins => exact (List.filterMap_append ..).trans (List.append_nil _)
  | takes hr hst he hd | takeEnds hy hp hdrops hst hd he =>
    rw [World.sends_after]
    simp only [List.filterMap_cons,Event.send,Deliveries.sends hd,List.append_nil]
  | deleteItc | destructItc | deletes | joinFails | changesPrio | yields | advances | creates => rfl
  | _ =>
    rw [World.sends_after]
    exact List.append_nil _

theorem World.Does.gen_eq (h : w.Does l w') (hl : ∀ r g, l ≠ .createItc r g) : w'.gen = w.gen := by
  cases h with
  | createItc => exact absurd rfl (hl _ _)
  | _ => rfl

theorem World.Does.store_eq (h : w.Does l w') (hl : w.onTable l = false) : w'.store = w.store := by
  cases h with
  | createItc | deleteItc | destructItc | takes | blocks | gives => cases hl
  | takeEnds hy hp =>
    simp only [World.onTable,hp] at hl
    cases hl
  | _ => rfl

/-- The buffers are owned by the slots. -/
def World.Owns (w : World cfg numQ) : Prop := w.store.Owns w.gen w.sends

theorem World.Owns.does (hi : w.Owns) (hs : w.store.SameBufs w'.store) (h : w.Does l w')
    (hg : ∀ qid p, l ≠ .give qid p) (hc : ∀ r g, l ≠ .createItc r g) : w'.Owns := by
  unfold World.Owns
  rw [h.gen_eq hc,h.sends hg]
  exact ItcStore.Owns.same hi hs

theorem World.Owns.createItc (hi : w.Owns) (r : ItcReq) (granted : Bool) :
    (w.createItc r granted).Owns := by
  unfold World.createItc
  obtain ⟨i,hnone,he⟩ | ⟨i,e,hne,he⟩ := w.store.create_spec r.obj granted
  · rw [he]
    exact ItcStore.Owns.create hi hnone rfl rfl rfl fun x => by cases r <;> rfl
  · rw [he]
    have hsame : w.store.SameBufs { w.store with idx := i } := ⟨rfl,rfl,fun _ => rfl⟩
    cases e with
    | ok => exact absurd rfl hne
    | _ => exact ItcStore.Owns.same hi hsame

theorem World.Owns.deleteItc (hi : w.Owns) :
    Spec (w.deleteItc .vQueue qid) World.Owns (fun _ => True) := by
  simp only [World.deleteItc,spec_bind,spec_pure]
  cases hs : w.store.slot qid with
  | error e => simp [ItcStore.qVdelete,ItcStore.deref,hs]
  | ok slot =>
    cases slot with
    | none => simp [ItcStore.qVdelete,ItcStore.deref,hs]
    | some o =>
      by_cases hb : o.bType = .vQueue
      · obtain ⟨st,hr,hst⟩ := ItcStore.Owns.qVdelete hi hs hb
        rw [hr]
        exact hst
      · simp [ItcStore.qVdelete,ItcStore.deref_of_slot hs,hb]

theorem World.Owns.destructItc (hi : w.Owns) :
    Spec (worldNext w .destructItc) World.Owns (fun _ => True) := by
  simp only [worldNext,spec_bind,spec_pure]
  refine (spec_foldlM (I:=fun st => st.Owns w.gen w.sends) hi fun st i _ hst => ?_).imp
    fun st hst => hst
  by_cases hf : st.freed i = false
  · obtain ⟨st',hr,hst',-⟩ := hst.destructOne hf
    rw [hr]
    exact hst'
  · simp [ItcStore.destructOne,ItcStore.slot,hf]

theorem World.Owns.give {p : Payload} (hi : w.Owns) (hc : NoneReceived w (.give qid p)) :
    Spec (w.give qid p) World.Owns (fun _ => True) := by
  cases p with
  | token =>
    simp only [World.give,spec_bind,spec_pure]
    cases ho : w.store.slot qid with
    | error e => trivial
    | ok o =>
      rw [spec_ok]
      refine (World.smV_served (ItcStore.slot_ok ho)).imp ?_
      rintro ⟨k,q,y,e⟩ ⟨-,hfrom⟩
      simp only [← ItcStore.slot_ok ho] at hfrom
      have hst := ItcStore.Owns.same hi (World.putItc_bufs (k:=k) (hfrom w.me))
      cases q <;> split <;> exact hst
  | words m =>
    simp only [World.give,spec_bind,spec_pure]
    cases ho : w.store.slot qid with
    | error e => trivial
    | ok o =>
      rw [spec_ok]
      refine (World.qSend_served (ItcStore.slot_ok ho)).imp ?_
      rintro ⟨k,q,e⟩ ⟨-,hfrom⟩
      simp only [← ItcStore.slot_ok ho] at hfrom
      have hst := ItcStore.Owns.same hi (World.putItc_bufs (k:=k) (hfrom w.me))
      cases q <;> split <;> exact hst
  | bytes m granted =>
    simp only [World.give,World.giveBytes,spec_bind,spec_pure]
    refine (qVsend_bufs hc).imp ?_
    rintro ⟨k,st,e⟩ (⟨hs,hnone,hok⟩ | ⟨o,ha,hs,he⟩)
    · have hst : st.Owns w.gen w.sends := ItcStore.Owns.same hi hs
      have hif : ¬(e = none ∨ e = some .ok) := not_or.mpr ⟨hnone,hok⟩
      simp only [if_neg hif]
      split <;> exact hst
    · obtain ⟨hidx,hm,hfree⟩ := hc o ha
      have hst : st.Owns w.gen (w.sends ++ [(qid,w.gen qid,m)]) :=
        ItcStore.Owns.same (ItcStore.Owns.enter hi ha hm hfree) hs
      have hsends : (((w.setKernel k).setStore st).emit (.accepted qid (w.gen qid) m)).sends =
          w.sends ++ [(qid,w.gen qid,m)] := List.filterMap_append ..
      have hw : World.Owns (((w.setKernel k).setStore st).emit (.accepted qid (w.gen qid) m)) := by
        unfold World.Owns
        rw [hsends]
        exact hst
      have he : e = none ∨ e = some .ok := he
      simp only [if_pos he]
      split <;> exact hw

theorem World.Owns.step (hi : w.Owns) (hd : l.deletesRight) (hc : NoneReceived w l)
    (hm : (worldMachine cfg numQ).Step w l w') : w'.Owns := by
  have hdoes := worldStep_does hm
  by_cases hon : w.onTable l = false
  · refine hi.does (by rw [hdoes.store_eq hon]; exact .refl _) hdoes ?_ ?_
    · rintro qid p rfl
      cases hon
    · rintro r g rfl
      cases hon
  cases l with
  | createItc r granted =>
    obtain rfl : w.createItc r granted = w' := Except.ok.inj hm.2
    exact hi.createItc r granted
  | deleteItc op qid =>
    obtain rfl : op = .vQueue := hd
    exact hi.deleteItc.of_ok hm.2
  | destructItc => exact hi.destructItc.of_ok hm.2
  | take op qid flags timeout bufLen =>
    exact hi.does ((World.take_bufs hc).of_ok hm.2) hdoes (by rintro _ _ ⟨⟩) (by rintro _ _ ⟨⟩)
  | give qid p => exact (hi.give hc).of_ok hm.2
  | resume =>
    cases hp : w.place w.me with
    | inTake c markIdx =>
      have hstep : w.takeWoken c markIdx = .ok w' := by
        have hn : w.resume = .ok w' := hm.2
        simpa only [World.resume,hp] using hn
      exact hi.does ((World.takeWoken_bufs (hc c markIdx hp)).of_ok hstep) hdoes (by rintro _ _ ⟨⟩)
        (by rintro _ _ ⟨⟩)
    | _ => simp [World.onTable,hp,Place.takes] at hon
  | _ => exact absurd rfl hon

theorem World.Owns.buffersOwned (hi : w.Owns) : w.BuffersOwned where
  slots := fun i x p hp => by
    obtain ⟨m,hm,-⟩ := ItcStore.Owns.mem hi hp
    exact ⟨by rw [hm]; rfl,ItcStore.Owns.owner hi i x p hp⟩
  inUse := ItcStore.Owns.live hi
  freed := ItcStore.Owns.dead hi
  deletes := fun i ⟨o,ho,hb⟩ => by
    obtain ⟨st,hr,-⟩ := ItcStore.Owns.qVdelete hi ho hb
    exact ⟨st,hr⟩
  destructs := fun hf => by
    obtain ⟨st,hr,-⟩ := ItcStore.Owns.tkItcDestruct hi hf
    exact ⟨st,hr⟩

end

/-- Where no message is received, every message goes into a free slot of its own queue and no
creation stops half way, each buffer is in one slot of its queue, and is freed once, with the
queue. -/
theorem bufferRun_owned {printk : Bool} {k : Kernel cfg} {i : Fin numQ}
    {ls : List (BuildLabel cfg numQ)} {w : World cfg numQ} (hd : ∀ l ∈ ls, l.deletesRight)
    (hc : (buildMachine cfg numQ printk).Along (Whole NoneReceived) (worldInit k i) ls)
    (hr : (buildMachine cfg numQ printk).run (worldInit k i) ls = some w) : w.BuffersOwned := by
  refine World.Owns.buffersOwned ?_
  refine (buildMachine cfg numQ printk).run_invariant (I:=World.Owns) ?_
    (show (worldInit k i).Owns from ItcStore.clear_owns i) (hc.and_forall _ hd) hr
  rintro w l w' hi ⟨hc,hd⟩ hstep
  cases l with
  | call l => exact hi.step hd hc (buildStep_call hstep)
  | halfWay _ => exact hc.elim

theorem forall_inTake (c : TakeCall numQ) (markIdx : Option ℕ)
    (P : TakeCall numQ → Option ℕ → Prop) :
    P c markIdx ↔ ∀ c' m, (.inTake c markIdx : Place cfg numQ) = .inTake c' m → P c' m := by
  constructor
  · rintro h _ _ ⟨⟩
    exact h
  · exact fun h => h c markIdx rfl

/-- A thread is in one call at most. -/
instance decidableForallInTake (x : Place cfg numQ) (P : TakeCall numQ → Option ℕ → Prop)
    [∀ c m, Decidable (P c m)] : Decidable (∀ c m, x = .inTake c m → P c m) :=
  match x with
  | .inTake c markIdx => decidable_of_iff _ (forall_inTake c markIdx P)
  | .user | .returning | .ended | .inSend .. | .inJoin .. | .inCreate .. | .inWait _ | .inSignal _ =>
    isTrue (by rintro _ _ ⟨⟩)

instance (w : World cfg numQ) (l : WorldLabel cfg numQ) : Decidable (NoneReceived w l) :=
  match l with
  | .give qid (.bytes _ _) =>
    decidableForallAccepts fun o =>
      w.store.idx = qid ∧ o.minIdx < o.sizeofQ ∧ (o.qv o.minIdx).mb = none
  | .take .vQueue _ _ _ bufLen =>
    decidableForallSlot fun o => o.bType = .vQueue → 0 < o.token → o.maxSizeofM < bufLen
  | .resume => decidableForallInTake (w.place w.me) fun c markIdx => c.op = .vQueue →
      markIdx ≠ none ∧ ((w.kernel.pool w.me).wakeupEvent = .timer ∨
        (w.kernel.pool w.me).wakeupEvent = .itc2)
  | .give _ .token | .give _ (.words _) | .take .sem .. | .take .sQueue .. | .createItc ..
  | .deleteItc .. | .destructItc | .lock _ | .unlock _ | .wait .. | .signal _ | .broadcast _
  | .create _ | .exit _ | .delete _ | .join _ | .msleep _ | .changePrio .. | .yield _
  | .advance _ => isTrue trivial

instance (l : WorldLabel cfg numQ) : Decidable l.deletesRight :=
  match l with
  | .deleteItc op _ => instDecidableEqItcSet op .vQueue
  | .createItc .. | .destructItc | .take .. | .give .. | .lock _ | .unlock _ | .wait .. | .signal _
  | .broadcast _ | .create _ | .exit _ | .delete _ | .join _ | .msleep _ | .changePrio .. | .resume
  | .yield _ | .advance _ => isTrue trivial

instance (l : BuildLabel cfg numQ) : Decidable l.deletesRight :=
  match l with
  | .call l => inferInstanceAs (Decidable l.deletesRight)
  | .halfWay _ => isTrue trivial

/-- Two queues, of which the first is deleted with its two messages. -/
def deleteFullSteps : List (BuildLabel gnuArm 4) :=
  [.call (.createItc (.vQueue 2 8 fifo) true),.call (.give 0 (.bytes ⟨[1],0⟩ true)),
    .call (.give 0 (.bytes ⟨[2],0⟩ true)),.call (.createItc (.vQueue 1 8 fifo) true),
    .call (.give 1 (.bytes ⟨[3],0⟩ true)),.call (.deleteItc .vQueue 0)]

theorem bufferRun_owned_delete : ∃ (k : Kernel gnuArm) (w : World gnuArm 4),
    (buildMachine gnuArm 4 true).run (worldInit k 0) deleteFullSteps = some w ∧
    w.store.heap.mem 0 = none ∧ w.store.heap.mem 1 = none ∧ w.store.heap.mem 2 = some [3,0] ∧
    w.BuffersOwned := by
  obtain ⟨k,w,hk,hc,hr,h0,h1,h2⟩ := (buildMachine gnuArm 4 true).exists_along (x:=tkCreateKernel 0)
    (Whole NoneReceived) (fun w => w.store.heap.mem 0 = none ∧ w.store.heap.mem 1 = none ∧
      w.store.heap.mem 2 = some [3,0]) (worldInit · 0) deleteFullSteps (by decide +kernel)
  exact ⟨k,w,hr,h0,h1,h2,bufferRun_owned (by decide) hc hr⟩

/-- One message is sent and received. -/
def receiveSteps : List (BuildLabel gnuArm 4) :=
  [.call (.createItc (.vQueue 1 8 fifo) true),.call (.give 0 (.bytes ⟨[1],0⟩ true)),
    .call (.take .vQueue 0 nowait 0 8)]

/-- Whether `printk` prints or is voided, the slot still names the buffer that `q_vreceive` has
freed, and `q_vdelete` frees it again. -/
theorem bufferRun_not_owned :
    ¬∃ printk, ∀ (k : Kernel gnuArm) (ls : List (BuildLabel gnuArm 4)) (w : World gnuArm 4),
      tkCreateKernel 0 = .ok k → (∀ l ∈ ls, l.deletesRight) →
      (buildMachine gnuArm 4 printk).run (worldInit k 0) ls = some w → w.BuffersOwned := by
  rintro ⟨printk,h⟩
  obtain ⟨k,w,hk,hr,hf,hq,hbad⟩ := (buildMachine gnuArm 4 printk).exists_start (x:=tkCreateKernel 0)
    (fun w => w.store.freed 0 = false ∧ (w.store.array 0).map (fun o => o.bType) = some .vQueue ∧
      (w.store.qVdelete 0).toOption.isNone = true) (worldInit · 0) receiveSteps
    (by clear h; revert printk; decide +kernel)
  obtain ⟨o,ho,hb⟩ := Option.map_eq_some_iff.mp hq
  obtain ⟨st,hst⟩ := (h k _ w hk (by decide) hr).deletes 0 ⟨o,ItcStore.slot_of hf ho,hb⟩
  rw [hst] at hbad
  cases hbad

end Tinker

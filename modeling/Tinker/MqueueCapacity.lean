import Tinker.MqueueStep

/-! How many messages a queue takes. One slot of its table stays free, because two indices cannot
tell a full ring from an empty one, and all that is written of the table is within it. -/
namespace Tinker

open Kernel Outcome Ring

variable {cfg : Config}

/-- Another ring in the same table: nothing behind its end has changed. -/
structure QueueD.SameTable (Q Q' : QueueD cfg) : Prop where
  mqAttr : Q'.mqAttr = Q.mqAttr
  beyond : ∀ i, Q.mqAttr.mqMaxmsg ≤ i → Q'.mBox.messArray i = Q.mBox.messArray i

section

variable {Q Q' Q'' : QueueD cfg} {qsort : Qsort} {heap heap' : Heap Byte}

theorem QueueD.SameTable.trans (h : Q.SameTable Q') (h' : Q'.SameTable Q'') : Q.SameTable Q'' where
  mqAttr := h'.mqAttr.trans h.mqAttr
  beyond i hi := (h'.beyond i (h.mqAttr ▸ hi)).trans (h.beyond i hi)

theorem QueueD.SameRing.sameTable (h : Q.SameRing Q') : Q.SameTable Q' where
  mqAttr := h.mqAttr
  beyond i _ := by rw [h.mBox]

/-- `mq_send` writes to the slot at `mIdxIn`. -/
theorem QueueD.store_sameTable {a : SendArgs} (hpos : 0 < Q.mqAttr.mqMaxmsg)
    (h : Q.store heap a = .ok (Q',heap')) :
    Q.SameTable Q' ∧ Q'.mBox.mIdxIn < Q.mqAttr.mqMaxmsg ∧ Q'.mBox.mIdxOut = Q.mBox.mIdxOut := by
  have hspec : Spec (Q.store heap a) (fun x => Q.SameTable x.1 ∧
      x.1.mBox.mIdxIn < Q.mqAttr.mqMaxmsg ∧ x.1.mBox.mIdxOut = Q.mBox.mIdxOut) (fun _ => True) := by
    simp only [QueueD.store,spec_bind,spec_check,spec_pure,implies_true,and_true]
    intro hin
    apply spec_of_forall
    intro heap
    refine ⟨⟨rfl,?_⟩,Nat.mod_lt _ hpos⟩
    intro i hi
    exact Function.update_of_ne (by omega) _ _
  exact hspec.of_ok h

/-- What is written to the ring from `i` on stays in the table. -/
theorem putFrom_beyond {n i x : ℕ} (hi : i < n) (hx : n ≤ x) (ms : List MessT)
    (slots : ℕ → MessT) : putFrom (succ n) ms i slots x = slots x := by
  apply putFrom_of_ne _ hi
  rintro j - rfl
  exact absurd (place_lt (Nat.zero_lt_of_lt hi) i j) (Nat.not_lt.mpr hx)

/-- `sortByPrio` writes back what it has read. -/
theorem sortByPrio_sameTable (hq : Sorts qsort) (granted : Bool)
    (hin : Q.mBox.mIdxIn < Q.mqAttr.mqMaxmsg) (hout : Q.mBox.mIdxOut < Q.mqAttr.mqMaxmsg) :
    Spec (sortByPrio qsort Q granted) (fun Q' => Q.SameTable Q') (fun _ => True) := by
  have hsorted := sortByPrio_spec qsort granted hin (hq _).1.length_eq
  refine hsorted.mono ?_ fun _ _ => trivial
  rintro Q' rfl
  exact ⟨rfl,fun i hi => putFrom_beyond hout hi _ _⟩

/-- `mq_receive` writes to no slot. -/
theorem QueueD.fetch_sameTable {msgprio : Bool} {ret : MqRet} {r : Receipt}
    (h : Q.fetch heap msgprio = .ok (Q',ret,r)) : Q.SameTable Q' := by
  have hspec : Spec (Q.fetch heap msgprio) (fun x => Q.SameTable x.1) (fun _ => True) := by
    simp only [QueueD.fetch,spec_bind,spec_check,spec_pure,implies_true,and_true]
    intro _
    apply spec_of_forall
    exact fun _ _ => ⟨rfl,fun _ _ => rfl⟩
  exact hspec.of_ok h

end

namespace MqState

variable {T : Prop} {qsort : Qsort} {own : QueueId → List ℕ} {s s' : MqState cfg} {q u : QueueId}

/-- A step writes to no slot behind the end of a table. -/
theorem Rings.sameTable (hq : Sorts qsort) (hpos : 0 < (s.queuePool u).mqAttr.mqMaxmsg)
    (hout : (s.queuePool u).mBox.mIdxOut < (s.queuePool u).mqAttr.mqMaxmsg)
    (h : s.Rings qsort s' u) : (s.queuePool u).SameTable (s'.queuePool u) := by
  cases h with
  | keeps h => exact h.ring.sameTable
  | stores a h =>
    obtain ⟨Q,Q1,Q2,heap,hring,hstore,hsort,hring'⟩ := h.ring
    rw [← hring.mqAttr] at hpos
    rw [← hring.mqAttr,← hring.mBox] at hout
    obtain ⟨hstored,hin1,hout1⟩ := QueueD.store_sameTable hpos hstore
    rw [← hstored.mqAttr] at hin1
    rw [← hstored.mqAttr,← hout1] at hout
    have hsorted := (sortByPrio_sameTable hq a.granted hin1 hout).of_ok hsort
    exact ((hring.sameTable.trans hstored).trans hsorted).trans hring'.sameTable
  | fetches a r hl h =>
    obtain ⟨Q,Q',ret,hring,hfetch,hring',-⟩ := h.ring
    exact (hring.sameTable.trans (QueueD.fetch_sameTable hfetch)).trans hring'.sameTable

/-- What queue `q` has room for: `NUMB_MESS` counts the messages that have been accepted and not
returned, `mq_send` refuses one more just when a single slot is left, and the number of slots is not
zero, which all indices are reduced by. -/
structure Capacity (s : MqState cfg) (q : QueueId) : Prop where
  counts : (s.accepted q).length = (s.returned q).length+numbMess (s.queuePool q)
  again : ∀ a f, s.openQueue a.mq (oWronly ||| oRdwr) = .ok f → f.qId = q →
    a.msg.length ≤ (s.queuePool q).mqAttr.mqMsgsize →
    (s.sendCheck a = .error .again ↔
      numbMess (s.queuePool q)+1 = (s.queuePool q).mqAttr.mqMaxmsg)
  modulus : (s.queuePool q).mqAttr.mqMaxmsg ≠ 0

end MqState

open MqState

section

variable {T : Prop} {own : QueueId → List ℕ} {s : MqState cfg} {q : QueueId}

theorem MqInv.capacity (h : MqInv T own s) (hl : s.Live (.queue q)) : s.Capacity q := by
  obtain ⟨free,hk⟩ := h.keeps q hl
  have hpos := hk.fits.pos
  constructor
  · have hlen : (s.queuePool q).messages.length = numbMess (s.queuePool q) := takeFrom_length ..
    have hkept := hk.kept.length_eq
    rw [List.length_append,List.length_map,List.length_map,List.length_map,hlen] at hkept
    exact hkept
  · rintro a f hf rfl hfit
    have hmax := hk.fits.maxmsg
    have hfull := hk.box.full
    have hfree := List.length_pos_iff.mpr hk.box.room
    rw [← hk.box.numbMess_eq] at hfull
    have hroom : ((s.queuePool f.qId).mqAttr.mqMaxmsg+(sizeMod-1)) % sizeMod =
        (s.queuePool f.qId).mqAttr.mqMaxmsg-1 := by
      rw [sizeMod] at *
      omega
    simp only [sendCheck,hf,if_neg (not_not_intro hfit),hroom]
    split
    · exact iff_of_true rfl (by omega)
    · exact iff_of_false (by rintro ⟨⟩) (by omega)
  · exact Nat.pos_iff_ne_zero.mp hpos

end

section

variable {qsort : Qsort} {k : Kernel cfg} {queuePool : QueueId → QueueD cfg}
  {filePool : Fin numberOfFiles → FileD cfg} {heap : Heap Byte} {own : QueueId → List ℕ}
  {s : MqState cfg}

/-- In every run, on queues with any number of slots but zero. -/
theorem mqRun_capacity (hq : Sorts qsort) (hk : Quiet k) (ho : QueuesOpened queuePool heap own)
    {ls : List (MqLabel cfg)}
    (hr : (mqMachine cfg qsort).run (mqInit k queuePool filePool heap) ls = some s) :
    ∀ q, s.Live (.queue q) → s.Capacity q ∧ ∀ l, mqEnabled s l = true →
      Spec (mqNext qsort s l) (fun s' => (s.queuePool q).SameTable (s'.queuePool q)) (s.Stops l) := by
  have h : MqInv False own s := (mqMachine cfg qsort).run_invariant_of_step
    (fun s l s' hi hs => (mqStep_spec hq hi hs.1 False.elim).of_ok hs.2) (mqInit_inv hk ho) hr
  intro q hl
  refine ⟨h.capacity hl,?_⟩
  intro l he
  obtain ⟨free,hkeeps⟩ := h.keeps q hl
  have hstops := mqStep_spec hq h he False.elim
  cases hn : mqNext qsort s l with
  | error e => exact hstops.of_error hn
  | ok s' =>
    have hrings := (mqNext_rings qsort s l (h.opened s.me)).of_ok hn
    exact (hrings q).sameTable hq hkeeps.fits.pos hkeeps.box.fills.out_lt

end

theorem mqRun_capacity_send : ∃ s, (mqMachine gnuArm insertSort).run
    (mqInit fiveThreads oneQueue threeFiles threeBuffers) (sendSteps 5 6) = some s ∧
    ∀ q, s.Live (.queue q) → s.Capacity q ∧ ∀ l, mqEnabled s l = true →
      Spec (mqNext insertSort s l) (fun s' => (s.queuePool q).SameTable (s'.queuePool q))
        (s.Stops l) := by
  obtain ⟨s,hr,-⟩ := sendSteps_run 5 6 (fun _ => true) (by decide +kernel)
  exact ⟨s,hr,mqRun_capacity insertSort_sorts fiveThreads_quiet oneQueue_opened hr⟩

/-- Two messages fill a table of three slots. -/
theorem mqRun_not_maxmsg : ¬∀ (ls : List (MqLabel gnuArm)) (s : MqState gnuArm),
    (mqMachine gnuArm insertSort).run (mqInit fiveThreads oneQueue threeFiles threeBuffers) ls =
      some s → ∀ a f, s.openQueue a.mq (oWronly ||| oRdwr) = .ok f →
      a.msg.length ≤ (s.queuePool f.qId).mqAttr.mqMsgsize →
      (s.sendCheck a = .error .again ↔
        numbMess (s.queuePool f.qId) = (s.queuePool f.qId).mqAttr.mqMaxmsg) := by
  intro h
  obtain ⟨s,hr,hs⟩ := (Option.any_eq_true _ _).mp (show ((mqMachine gnuArm insertSort).run
    (mqInit fiveThreads oneQueue threeFiles threeBuffers) ((sendSteps 1 6).take 2)).any (fun s =>
      (s.openQueue 0 (oWronly ||| oRdwr)).toOption.any fun f =>
        decide (s.sendCheck ⟨0,[0x63],1,7,true⟩ = .error .again ∧
          1 ≤ (s.queuePool f.qId).mqAttr.mqMsgsize ∧
          numbMess (s.queuePool f.qId) ≠ (s.queuePool f.qId).mqAttr.mqMaxmsg)) = true by
      decide +kernel)
  obtain ⟨f,hf,hfull⟩ := exists_ok hs
  obtain ⟨hagain,hfit,hne⟩ := of_decide_eq_true hfull
  exact hne ((h _ s hr ⟨0,[0x63],1,7,true⟩ f hf hfit).mp hagain)

end Tinker

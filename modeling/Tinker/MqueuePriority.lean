import Tinker.MqueueStep

/-! The priority that `mq_receive` reports. The message comes from the slot at `mIdxOut`, the
priority from the one at `mIdxIn`, which is the slot the next message will be stored in. -/
namespace Tinker

open Kernel Outcome

variable {cfg : Config}

namespace QueueD

/-- The priority in the slot that `mq_receive` reads it from. -/
def prioIn (Q : QueueD cfg) : ℕ := (Q.mBox.messArray Q.mBox.mIdxIn).order.prio

/-- The priority in the slot of the message that leaves. -/
def prioOut (Q : QueueD cfg) : ℕ := (Q.mBox.messArray Q.mBox.mIdxOut).order.prio

theorem fetch_prio {Q Q' : QueueD cfg} {heap : Heap Byte} {msgprio : Bool} {ret : MqRet}
    {r : Receipt} (h : Q.fetch heap msgprio = .ok (Q',ret,r)) :
    r.prio = Q.prioOut ∧ ret = .received r.bytes (if msgprio then some Q.prioIn else none) ∧
      Q'.taken = Q.taken := by
  have hspec : Spec (Q.fetch heap msgprio) (fun x => x.2.2.prio = Q.prioOut ∧
      x.2.1 = .received x.2.2.bytes (if msgprio then some Q.prioIn else none) ∧
      x.1.taken = Q.taken) (fun _ => True) := by
    simp only [fetch,spec_bind,spec_check,spec_pure,implies_true,and_true]
    intro _
    apply spec_of_forall
    exact fun _ _ => ⟨rfl,rfl⟩
  exact hspec.of_ok h

end QueueD

namespace MqState

variable {T : Prop} {qsort : Qsort} {own : QueueId → List ℕ} {s s' : MqState cfg} {q : QueueId}
  {r : Receipt} {x : ℕ} {l : MqLabel cfg}

/-- A step in which `mq_receive` returns the message `r` of queue `q` and sets `*msgprio` to `x`. -/
structure Returns (s s' : MqState cfg) (q : QueueId) (r : Receipt) (x : ℕ) : Prop where
  returned : s'.returned q = s.returned q ++ [r]
  ret : s'.ret s'.me = some (.received r.bytes (some x))

/-- What such a step reports is the priority the message was sent with. -/
def ReportsSent (qsort : Qsort) (s : MqState cfg) (l : MqLabel cfg) : Prop :=
  ∀ s' q r x, (mqMachine cfg qsort).Step s l s' → s.Returns s' q r x →
    (r.bytes,x) ∈ s'.accepted q ∧ x = r.prio

/-- In such a step the two slots hold the same priority. -/
def SlotsAgree (qsort : Qsort) (s : MqState cfg) (l : MqLabel cfg) : Prop :=
  ∀ s' q r x, (mqMachine cfg qsort).Step s l s' → s.Returns s' q r x →
    (s.queuePool q).prioIn = (s.queuePool q).prioOut

/-- Where the two priorities come from. -/
theorem Returns.prio (h : s.Returns s' q r x) (hrings : s.Rings qsort s' q) :
    r.prio = (s.queuePool q).prioOut ∧ x = (s.queuePool q).prioIn ∧ s'.Live (.queue q) := by
  have hret := h.returned
  cases hrings with
  | keeps hk =>
    rw [hk.returned] at hret
    simp at hret
  | stores a hs =>
    rw [hs.returned] at hret
    simp at hret
  | fetches a r' hl hf =>
    obtain ⟨Q,Q',ret,hring,hfetch,hring',hr⟩ := hf.ring
    obtain rfl : r' = r := by
      rw [hf.returned] at hret
      simpa using hret
    obtain ⟨hprio,rfl,htaken⟩ := QueueD.fetch_prio hfetch
    have hbox := hring.mBox
    rw [h.ret] at hr
    have hlive : (s'.queuePool q).taken = true := by
      rw [hring'.taken,htaken,hring.taken]
      exact hl
    simp only [Option.some.injEq,MqRet.received.injEq,true_and] at hr
    split at hr
    · refine ⟨?_,?_,hlive⟩
      · rw [hprio,QueueD.prioOut,QueueD.prioOut,hbox]
      · rw [Option.some.inj hr,QueueD.prioIn,QueueD.prioIn,hbox]
    · cases hr

/-- A message that is returned was accepted with its priority. -/
theorem Returns.accepted (h : s.Returns s' q r x) (hi : MqInv T own s')
    (hl : s'.Live (.queue q)) : (r.bytes,r.prio) ∈ s'.accepted q := by
  obtain ⟨free,hk⟩ := hi.keeps q hl
  have hmem : r ∈ s'.returned q := by
    rw [h.returned]
    exact List.mem_append_right _ (List.mem_singleton_self r)
  have hsome : some (r.bytes,r.prio) ∈ (s'.accepted q).map some := by
    apply hk.kept.mem_iff.mpr
    exact List.mem_append_left _ (List.mem_map_of_mem hmem)
  obtain ⟨y,hy,he⟩ := List.mem_map.mp hsome
  exact Option.some.inj he ▸ hy

/-- One step, in a state that keeps the accounts. -/
theorem reportsSent_iff (hq : Sorts qsort) (h : MqInv False own s) (l : MqLabel cfg) :
    s.ReportsSent qsort l ↔ s.SlotsAgree qsort l := by
  have hstep : ∀ s' q r x, (mqMachine cfg qsort).Step s l s' → s.Returns s' q r x →
      (r.bytes,r.prio) ∈ s'.accepted q ∧ r.prio = (s.queuePool q).prioOut ∧
        x = (s.queuePool q).prioIn := by
    intro s' q r x hs hr
    have hrings := (mqNext_rings qsort s l (h.opened s.me)).of_ok hs.2
    obtain ⟨hprio,hx,hl⟩ := hr.prio (hrings q)
    have hi : MqInv False own s' := (mqStep_spec hq h hs.1 False.elim).of_ok hs.2
    exact ⟨hr.accepted hi hl,hprio,hx⟩
  constructor
  · intro hsent s' q r x hs hr
    obtain ⟨-,hprio,hx⟩ := hstep s' q r x hs hr
    rw [← hprio,← hx]
    exact (hsent s' q r x hs hr).2
  · intro hagree s' q r x hs hr
    obtain ⟨hacc,hprio,hx⟩ := hstep s' q r x hs hr
    have heq : x = r.prio := by rw [hx,hprio,hagree s' q r x hs hr]
    rw [heq]
    exact ⟨hacc,rfl⟩

end MqState

open MqState

section

variable {qsort : Qsort} {k : Kernel cfg} {queuePool : QueueId → QueueD cfg}
  {filePool : Fin numberOfFiles → FileD cfg} {heap : Heap Byte} {own : QueueId → List ℕ}

/-- In a run, every priority that is reported is the one the message was sent with if and only if
the two slots hold the same one whenever a message is returned. -/
theorem mqRun_reportsSent_iff (hq : Sorts qsort) (hk : Quiet k)
    (ho : QueuesOpened queuePool heap own) (ls : List (MqLabel cfg)) :
    (mqMachine cfg qsort).Along (ReportsSent qsort) (mqInit k queuePool filePool heap) ls ↔
      (mqMachine cfg qsort).Along (SlotsAgree qsort) (mqInit k queuePool filePool heap) ls := by
  have hstep : ∀ s l s', MqInv False own s → (mqMachine cfg qsort).Step s l s' →
      MqInv False own s' :=
    fun s l s' hi hs => (mqStep_spec hq hi hs.1 False.elim).of_ok hs.2
  constructor
  · exact (mqMachine cfg qsort).along_of_invariant (fun s l s' hi _ => hstep s l s' hi)
      (fun s l hi => (reportsSent_iff hq hi l).mp) (mqInit_inv hk ho)
  · exact (mqMachine cfg qsort).along_of_invariant (fun s l s' hi _ => hstep s l s' hi)
      (fun s l hi => (reportsSent_iff hq hi l).mpr) (mqInit_inv hk ho)

end

theorem mqRun_reportsSent_iff_send :
    (mqMachine gnuArm insertSort).Along (ReportsSent insertSort)
      (mqInit fiveThreads oneQueue threeFiles threeBuffers) (sendSteps 5 6) ↔
    (mqMachine gnuArm insertSort).Along (SlotsAgree insertSort)
      (mqInit fiveThreads oneQueue threeFiles threeBuffers) (sendSteps 5 6) :=
  mqRun_reportsSent_iff insertSort_sorts fiveThreads_quiet oneQueue_opened (sendSteps 5 6)

/-- "b" is sent with priority 5, and leaves with what is in a slot that nothing was stored in. -/
theorem mqRun_not_reportsSent : ¬∀ ls : List (MqLabel gnuArm),
    (mqMachine gnuArm insertSort).Along (ReportsSent insertSort)
      (mqInit fiveThreads oneQueue threeFiles threeBuffers) ls := by
  intro h
  obtain ⟨s,hr,hs⟩ := (Option.any_eq_true _ _).mp (show ((mqMachine gnuArm insertSort).run
    (mqInit fiveThreads oneQueue threeFiles threeBuffers) ((sendSteps 5 6).take 2)).any (fun s =>
      mqEnabled s (.mqReceive ⟨0,2,true⟩ 0) &&
      (mqNext insertSort s (.mqReceive ⟨0,2,true⟩ 0)).toOption.any fun s' : MqState gnuArm =>
        decide (s'.returned ⟨0,by decide⟩ = s.returned ⟨0,by decide⟩ ++ [⟨[0x62],5,[5,1]⟩] ∧
          s'.ret s'.me = some (.received [0x62] (some 0)))) = true by decide +kernel)
  rw [Bool.and_eq_true] at hs
  obtain ⟨s',hn,hret⟩ := exists_ok hs.2
  obtain ⟨hret,hrep⟩ := of_decide_eq_true hret
  have hsent := (h (sendSteps 5 6)).at_end _ hr _ _ _ _ ⟨hs.1,hn⟩ ⟨hret,hrep⟩
  exact absurd hsent.2 (by decide)

end Tinker

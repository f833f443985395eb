import Tinker.MqueueRun

/-! What every run of `mq_send` and `mq_receive` on queues from `mq_open` guarantees, and what a
wrapping clock and a semaphore that lags behind the ring take from it. -/
namespace Tinker

open Kernel Outcome MqState

variable {cfg : Config}

/-- A queue as `mq_open` leaves it: an empty ring whose slots have a buffer each, and a new
semaphore. -/
structure Opened (Q : QueueD cfg) (heap : Heap Byte) (own : List ℕ) : Prop where
  fits : Q.mqAttr.Fits
  mIdxIn : Q.mBox.mIdxIn = 0
  mIdxOut : Q.mBox.mIdxOut = 0
  sem : Q.sem = smCreate 0 0
  buffers : (List.range Q.mqAttr.mqMaxmsg).map (fun i => (Q.mBox.messArray i).buffer) =
    own.map some
  nodup : own.Nodup
  alloc : ∀ b ∈ own, ∃ bytes, heap.mem b = some bytes ∧ bytes.length = Q.mqAttr.mqMsgsize

/-- Every queue of the pool is so, and no buffer is in two of them. -/
structure QueuesOpened (queuePool : QueueId → QueueD cfg) (heap : Heap Byte)
    (own : QueueId → List ℕ) : Prop where
  opened : ∀ q, (queuePool q).taken = true → Opened (queuePool q) heap (own q)
  apart : ∀ q q', (queuePool q).taken = true → (queuePool q').taken = true → q ≠ q' →
    (own q).Disjoint (own q')

section

variable {T : Prop} {qsort : Qsort} {k : Kernel cfg} {queuePool : QueueId → QueueD cfg}
  {filePool : Fin numberOfFiles → FileD cfg} {heap : Heap Byte} {own : QueueId → List ℕ}
  {s : MqState cfg}

theorem Opened.keeps {Q : QueueD cfg} {own : List ℕ} (h : Opened Q heap own) :
    Q.Keeps T heap own [] [] [] ((List.range Q.mqAttr.mqMaxmsg).map Q.mBox.messArray) := by
  have hpos : 0 < Q.mqAttr.mqMaxmsg := h.fits.pos
  refine ⟨⟨⟨by rw [h.mIdxOut]; exact hpos,by simp,fun j hj => ?_⟩,by simp,?_,?_⟩,h.fits,
    List.Pairwise.nil,?_,h.nodup,h.alloc,by rintro _ ⟨⟩,List.Perm.refl _,by rintro _ ⟨⟩,
    fun _ => ⟨List.Pairwise.nil,fun _ => rfl⟩⟩
  · simp only [List.nil_append,List.length_map,List.length_range] at hj
    simp [Ring.place,h.mIdxOut,Nat.mod_eq_of_lt hj]
  · exact List.ne_nil_of_length_pos (by simpa using hpos)
  · simp [Ring.place,h.mIdxIn,h.mIdxOut]
  · rw [List.nil_append,List.map_map]
    exact List.Perm.of_eq h.buffers

/-- What a new semaphore counts. -/
def MqSem.count : MqSem → ℕ
  | .pool => 1
  | .queue _ => 0

theorem mqInit_sems (ho : QueuesOpened queuePool heap own) (r : MqSem) :
    (mqInit k queuePool filePool heap).sems r = smCreate r.count 0 := by
  cases r with
  | pool => rfl
  | queue q =>
    rw [sems]
    split
    · next ht => exact (ho.opened q ht).sem
    · rfl

theorem mqInit_inv (hk : Quiet k) (ho : QueuesOpened queuePool heap own) :
    MqInv T own (mqInit k queuePool filePool heap) := by
  have hsems : ∀ r, (mqInit k queuePool filePool heap).sems r = smCreate r.count 0 :=
    mqInit_sems ho
  have htoken : ∀ r : MqSem, toInt32 r.count = r.count := by
    intro r
    cases r <;> exact toInt32_of_range (by simp [MqSem.count]) (by simp [MqSem.count])
  have hwoken : ∀ r, woken k (mqInit k queuePool filePool heap).waits r = ∅ := by
    intro r
    ext t
    rw [mem_woken]
    exact iff_of_false (fun h => nomatch h.1) (Finset.notMem_empty t)
  have hkeeps : ∀ q, (queuePool q).taken = true →
      (queuePool q).Keeps T heap (own q) [] [] [] _ := fun q ht => (ho.opened q ht).keeps
  refine ⟨⟨hk.alive,⟨fun _ => [],MqSem.count,⟨fun r => ?_,fun r => ?_,fun r => ?_,
    fun _ => List.nodup_nil,by rintro _ _ ⟨⟩,fun t ht => ?_⟩,fun r => ?_,fun r hl => ?_⟩,fun q hl => ?_,
    fun q q' hl hl' => ho.apart q q' hl hl'⟩,by rintro _ _ ⟨⟩,fun _ => hk.ready⟩
  · rw [hsems]
    exact ⟨Ring.Holds.nil _ cfg.maxBlockedOnQ_pos,by simp [smCreate,htoken]⟩
  · rw [hsems]
    exact BitVec.zero_and
  · rw [hsems]
    rfl
  · cases (hk.unblocked t).symm.trans ht
  · rw [hsems]
    have hcard : (woken k (mqInit k queuePool filePool heap).waits r).card = 0 := by
      rw [hwoken,Finset.card_empty]
    simp only [smCreate,htoken,Int.toNat_natCast]
    exact congrArg (r.count + ·) hcard
  · cases r with
    | pool =>
      have hp : (mqInit k queuePool filePool heap).posting = ∅ := by
        ext t
        rw [mem_posting]
        exact iff_of_false (by rintro ⟨⟩) (Finset.notMem_empty t)
      rw [resting,hp]
      rfl
    | queue q => exact (congrArg List.length (hkeeps q hl).box.messages_eq).symm
  · have hkq := hkeeps q hl
    rw [← (hkeeps q hl).box.messages_eq] at hkq
    exact ⟨_,hkq⟩

/-- Of each priority, the messages that have been returned are the first that were accepted. -/
def InOrder (s : MqState cfg) : Prop :=
  ∀ q, s.Live (.queue q) → ∀ p,
    ((s.returned q).filter fun r => r.prio = p).map (fun r => (r.bytes,r.prio)) <+:
      (s.accepted q).filter fun x => x.2 = p

theorem InTurn.firsts {accepted : List (List Byte × ℕ)} {returned : List Receipt}
    {stored : List MessT} (h : InTurn heap accepted returned stored) (p : ℕ) :
    (returned.filter fun r => r.prio = p).map (fun r => (r.bytes,r.prio)) <+:
      accepted.filter fun x => x.2 = p := by
  obtain ⟨l1,l2,hl,h1,-⟩ := List.map_eq_append_iff.mp (h.turn p)
  refine ⟨l2,?_⟩
  rw [hl]
  congr 1
  refine List.map_injective_iff.mpr (Option.some_injective _) ?_
  rw [h1,List.map_map]
  rfl

/-- A run whose messages are newer, when they are accepted, than those of their priority that are
stored, returns the messages of each priority in the order they came in. -/
theorem mqRun_inOrder (hq : Sorts qsort) (hk : Quiet k) (ho : QueuesOpened queuePool heap own)
    {ls : List (MqLabel cfg)}
    (hc : (mqMachine cfg qsort).Along SendsNewest (mqInit k queuePool filePool heap) ls)
    (hr : (mqMachine cfg qsort).run (mqInit k queuePool filePool heap) ls = some s) :
    InOrder s := by
  have h : MqInv True own s := (mqMachine cfg qsort).run_invariant
    (fun s l s' hi hc hs => (mqStep_spec hq hi hs.1 fun _ => hc).of_ok hs.2) (mqInit_inv hk ho) hc hr
  intro q hl p
  obtain ⟨free,hk⟩ := h.keeps q hl
  exact (hk.turn trivial).firsts p

end

/-! ### Receivers that do not want to wait -/

namespace MqState

variable {s s' : MqState cfg} {r : MqSem} {clk : Clock} {y : Bool}

/-- The call goes through a descriptor that was opened with `O_NONBLOCK`. -/
def Nonblocking (s : MqState cfg) (a : RecvArgs) : Prop :=
  ∃ f, s.descriptor a.mq = some f ∧ f.oflags &&& oNonblock ≠ 0

/-- The call that comes to `sem_wait(&Q->sem)` in a step. -/
def comesTo (s : MqState cfg) : MqLabel cfg → Option (RecvArgs × QueueId)
  | .mqReceive a _ => if 0 < s.poolAccessSem.token then (s.recvCheck a).toOption.map fun q => (a,q)
    else none
  | .resume _ => match s.loc s.me with
    | .recvWait a => if 0 ≤ s.poolAccessSem.token then (s.recvCheck a).toOption.map fun q => (a,q)
      else none
    | .recvPost a q => some (a,q)
    | _ => none
  | _ => none

/-- Not all stored messages are promised to receivers that have been woken for them. -/
def FindsMessage (s : MqState cfg) (l : MqLabel cfg) : Prop :=
  ∀ a q, s.comesTo l = some (a,q) → s.Nonblocking a →
    (woken s.kernel s.waits (.queue q)).card < (s.queuePool q).messages.length

/-- Nobody waits for a message who does not want to. -/
def Unblocked (s : MqState cfg) : Prop := ∀ t a q, s.loc t = .recvSem a q → ¬s.Nonblocking a

/-- With tokens left, `sm_p` does not put its caller to sleep. -/
theorem smP_of_token {k : Kernel cfg} {q : Itc cfg} (h : 0 < q.token) :
    ∃ q' e, smP k (some q) 0 0 clk = (k,some q',.ret e) := by
  rw [smP]
  split
  · exact ⟨_,_,rfl⟩
  · rw [if_neg (by omega),lockStage,if_pos h]
    exact ⟨_,_,rfl⟩

theorem semWait_eq (h : s.semWait r clk = .ok (s',y)) :
    (∃ k o, s' = s.setSem r k o) ∧ (y = true → (s.sem r).token ≤ 0) := by
  unfold semWait at h
  split at h
  · next k o m hs =>
    cases h
    refine ⟨⟨_,_,rfl⟩,fun _ => ?_⟩
    by_contra hn
    obtain ⟨q',e,he⟩ := smP_of_token (k:=s.kernel) (not_le.mp hn)
    cases hs.symm.trans he
  · next k o e hs =>
    by_cases he : e = .ok
    · rw [check,if_pos he] at h
      cases h
      exact ⟨⟨_,_,rfl⟩,by rintro ⟨⟩⟩
    · rw [check,if_neg he] at h
      cases h

/-- A FIFO semaphore that somebody waits for makes its caller yield. -/
theorem smV_yields {k : Kernel cfg} {q : Itc cfg} (hf : q.flags &&& prior = 0) :
    Spec (smV k (some q)) (fun x => x.2.2.2 = .ok → x.2.2.1 = false → 0 ≤ q.token)
      (fun _ => True) := by
  rw [smV]
  split
  · rintro ⟨⟩
  · rw [unlockStage]
    split
    · rw [if_neg (not_not.mpr hf)]
      simp only [spec_bind]
      exact spec_of_forall fun _ => (by rintro _ ⟨⟩)
    · next ht => exact fun _ _ => not_lt.mp ht

theorem semPost_spec (s : MqState cfg) (r : MqSem) : Spec (s.semPost r)
    (fun x => (∃ k o, x.1 = s.setSem r k o) ∧
      ((s.sem r).flags &&& prior = 0 → x.2 = false → 0 ≤ (s.sem r).token)) (fun _ => True) := by
  unfold semPost
  cases hv : smV s.kernel (some (s.sem r)) with
  | error e => trivial
  | ok x =>
    simp only [spec_bind,spec_ok,spec_check,spec_pure]
    exact ⟨fun he => ⟨⟨_,_,rfl⟩,fun hf => (smV_yields hf).of_ok hv he⟩,fun _ => trivial⟩

theorem setSem_unblocked (hu : s.Unblocked) (k : Kernel cfg) (o : Itc cfg) :
    (s.setSem r k o).Unblocked := by
  cases r <;> exact hu

theorem goTo_unblocked (hu : s.Unblocked) {x : MqLoc}
    (hx : ∀ a q, x = .recvSem a q → ¬s.Nonblocking a) : (s.goTo x).Unblocked := by
  intro t a q ht
  have hloc : (s.goTo x).loc = Function.update s.loc s.me x := rfl
  rw [hloc,Function.update_apply] at ht
  split at ht
  · exact hx a q ht
  · exact hu t a q ht

theorem endCall_unblocked (hu : s.Unblocked) (ret : MqRet) : (s.endCall ret).Unblocked :=
  goTo_unblocked (x:=.user) hu (by rintro _ _ ⟨⟩)

theorem release_unblocked (hu : s.Unblocked) (ret : MqRet) :
    Spec (s.release ret) Unblocked (fun _ => True) := by
  rw [release,spec_bind]
  refine (semPost_spec s .pool).imp ?_
  rintro ⟨m,y⟩ ⟨⟨k,o,rfl⟩,-⟩
  cases y with
  | true => exact goTo_unblocked (setSem_unblocked hu k o) (by rintro _ _ ⟨⟩)
  | false => exact endCall_unblocked (setSem_unblocked hu k o) ret

theorem recvCopy_unblocked (hu : s.Unblocked) (a : RecvArgs) (q : QueueId) :
    Spec (s.recvCopy a q) Unblocked (fun _ => True) := by
  simp only [recvCopy,spec_bind,spec_pure]
  exact spec_of_forall fun x => endCall_unblocked (s:={ s.setQueue q x.1 with
    returned := Function.update s.returned q (s.returned q ++ [x.2.2]) }) hu x.2.1

/-- With a token there, `mq_receive` does not wait. -/
theorem recvToken_unblocked (hu : s.Unblocked) {a : RecvArgs} {q : QueueId}
    (ht : s.Nonblocking a → 0 < (s.queuePool q).sem.token) :
    Spec (s.recvToken a q clk) Unblocked (fun _ => True) := by
  unfold recvToken
  cases hw : s.semWait (.queue q) clk with
  | error e => trivial
  | ok x =>
    obtain ⟨m,y⟩ := x
    obtain ⟨⟨k,o,rfl⟩,hy⟩ := semWait_eq hw
    have hu' := setSem_unblocked (r:=.queue q) hu k o
    cases y with
    | true =>
      refine goTo_unblocked hu' ?_
      rintro a' q' he hn
      cases he
      exact absurd (ht hn) (not_lt.mpr (hy rfl))
    | false => exact recvCopy_unblocked hu' a q

theorem recvLocked_unblocked (hu : s.Unblocked) (hf : s.poolAccessSem.flags &&& prior = 0)
    {a : RecvArgs} (ht : ∀ q, s.recvCheck a = .ok q → 0 ≤ s.poolAccessSem.token →
      s.Nonblocking a → 0 < (s.queuePool q).sem.token) :
    Spec (s.recvLocked a clk) Unblocked (fun _ => True) := by
  unfold recvLocked
  cases hc : s.recvCheck a with
  | error e => exact release_unblocked hu _
  | ok q =>
    simp only [spec_bind]
    refine (semPost_spec s .pool).imp ?_
    rintro ⟨m,y⟩ ⟨⟨k,o,rfl⟩,hy⟩
    have hu' := setSem_unblocked (r:=.pool) hu k o
    cases y with
    | true => exact goTo_unblocked hu' (by rintro _ _ ⟨⟩)
    | false => exact recvToken_unblocked hu' (ht q hc (hy hf rfl))

theorem sendLocked_unblocked {qsort : Qsort} (hu : s.Unblocked) (a : SendArgs) :
    Spec (s.sendLocked qsort a) Unblocked (fun _ => True) := by
  unfold sendLocked
  cases hc : s.sendCheck a with
  | error e => exact release_unblocked hu _
  | ok q =>
    simp only [spec_bind]
    refine spec_of_forall fun x => spec_of_forall fun Q => (semPost_spec _ _).imp ?_
    rintro ⟨m,y⟩ ⟨⟨k,o,rfl⟩,-⟩
    have hu' := setSem_unblocked (r:=.queue q) (s:={ s.setQueue q Q with
      heap := x.2
      accepted := Function.update s.accepted q (s.accepted q ++ [(a.msg,a.msgprio)]) }) hu k o
    cases y with
    | true => exact goTo_unblocked hu' (by rintro _ _ ⟨⟩)
    | false => exact release_unblocked hu' _

end MqState

section

variable {T : Prop} {own : QueueId → List ℕ} {s : MqState cfg}

theorem MqInv.fifo (h : MqInv T own s) : s.poolAccessSem.flags &&& prior = 0 := by
  obtain ⟨ring,n,hs,-,-⟩ := h.sems
  exact hs.fifo .pool

/-- A message that is not promised has a token. -/
theorem MqInv.token_pos (h : MqInv T own s) {q : QueueId} (hl : s.Live (.queue q))
    (hm : (woken s.kernel s.waits (.queue q)).card < (s.queuePool q).messages.length) :
    0 < (s.queuePool q).sem.token := by
  obtain ⟨ring,n,-,hv,hn⟩ := h.sems
  have hv := hv (.queue q)
  rw [sems_eq hl] at hv
  have hn := hn _ hl
  rw [total,resting] at hn
  have hq : (s.sem (.queue q)).token = (s.queuePool q).sem.token := rfl
  omega

theorem recvCheck_congr {s' : MqState cfg} (hq : s'.queuePool = s.queuePool)
    (hf : s'.filePool = s.filePool) (hm : s'.me = s.me) (a : RecvArgs) :
    s'.recvCheck a = s.recvCheck a := by
  simp only [recvCheck,openQueue,descriptor,hq,hf,hm]

/-- A step in which a receiver that does not want to wait finds a message puts nobody to sleep who
does not want to. -/
theorem mqStep_unblocked {qsort : Qsort} {l : MqLabel cfg} (h : MqInv T own s)
    (he : mqEnabled s l = true) (hu : s.Unblocked) (hc : s.FindsMessage l) :
    Spec (mqNext qsort s l) Unblocked
      (fun _ => True) := by
  cases l with
  | mqSend a clk =>
    rw [mqNext,spec_bind]
    cases hw : s.semWait .pool clk with
    | error e => trivial
    | ok x =>
      obtain ⟨m,y⟩ := x
      obtain ⟨⟨k,o,rfl⟩,hy⟩ := semWait_eq hw
      have hu' := setSem_unblocked (r:=.pool) hu k o
      cases y with
      | true => exact goTo_unblocked hu' (by rintro _ _ ⟨⟩)
      | false => exact sendLocked_unblocked hu' a
  | mqReceive a clk =>
    have hr : s.runs = true := he
    simp only [runs,Bool.and_eq_true,Bool.not_eq_true',decide_eq_true_eq] at hr
    have hm := h.mid hr.1 (by rw [hr.2]; rfl)
    rw [mqNext,spec_bind]
    obtain ⟨s',hs,htok,hm',hf⟩ | ⟨s',hs,-⟩ | ⟨hs,-⟩ := hm.wait (r:=.pool) trivial clk
    · obtain ⟨⟨k,o,rfl⟩,-⟩ := semWait_eq hs
      obtain ⟨hqp,hfp⟩ := semWait_pool hs
      have hcheck := recvCheck_congr hqp hfp hf.me a
      obtain ⟨ring,n,hsem,-,-⟩ := hm'.sems
      rw [hs]
      refine recvLocked_unblocked (setSem_unblocked hu k o) (hsem.fifo .pool) fun q hq _ hn => ?_
      rw [hcheck] at hq
      have hcomes : s.comesTo (.mqReceive a clk) = some (a,q) := by
        have htok : 0 < s.poolAccessSem.token := htok
        rw [comesTo,if_pos htok,hq]
        rfl
      exact h.token_pos (recvCheck_ok hq) (hc a q hcomes hn)
    · obtain ⟨⟨k,o,rfl⟩,-⟩ := semWait_eq hs
      rw [hs]
      exact goTo_unblocked (setSem_unblocked hu k o) (by rintro _ _ ⟨⟩)
    · rw [hs]
      trivial
  | resume clk =>
    rw [mqNext]
    cases hloc : s.loc s.me with
    | user => exact hu
    | leaving r => exact endCall_unblocked hu r
    | sendWait a => exact sendLocked_unblocked hu a
    | sendPost => exact release_unblocked hu _
    | recvWait a =>
      refine recvLocked_unblocked hu h.fifo fun q hq ht hn => ?_
      have hcomes : s.comesTo (.resume clk) = some (a,q) := by
        rw [comesTo,hloc]
        simp only [if_pos ht,hq]
        rfl
      exact h.token_pos (recvCheck_ok hq) (hc a q hcomes hn)
    | recvPost a q =>
      refine recvToken_unblocked hu fun hn => ?_
      have hcomes : s.comesTo (.resume clk) = some (a,q) := by rw [comesTo,hloc]
      exact h.token_pos (h.opened s.me q (by rw [hloc]; rfl)) (hc a q hcomes hn)
    | recvSem a q => exact recvCopy_unblocked hu a q
  | yield clk t =>
    rw [mqNext,spec_bind]
    exact spec_of_forall fun k => hu

/-- A receiver that does not want to wait is told so just when nothing is stored. -/
theorem MqInv.again_iff (h : MqInv T own s) {a : RecvArgs} {f : FileD cfg}
    (hf : s.openQueue a.mq (oRdonly ||| oRdwr) = .ok f) (hn : f.oflags &&& oNonblock ≠ 0)
    (hb : (s.queuePool f.qId).mqAttr.mqMsgsize ≤ a.buflen) :
    s.recvCheck a = .error .again ↔ (s.queuePool f.qId).messages = [] := by
  obtain ⟨free,hk⟩ := h.keeps _ (openQueue_live hf)
  simp only [recvCheck,hf,not_true_eq_false,hb,if_false,hk.box.numbMess_eq,
    List.length_eq_zero_iff]
  by_cases hm : (s.queuePool f.qId).messages = []
  · simp only [hm,true_and,iff_true]
    rw [if_pos hn]
  · simp [hm]

/-- A run in which a receiver that does not want to wait finds a message, when it comes to the
semaphore, that is not promised, leaves none of them blocked there. -/
theorem mqRun_unblocked {qsort : Qsort} {k : Kernel cfg} {queuePool : QueueId → QueueD cfg}
    {filePool : Fin numberOfFiles → FileD cfg} {heap : Heap Byte} (hq : Sorts qsort)
    (hk : Quiet k) (ho : QueuesOpened queuePool heap own) {ls : List (MqLabel cfg)}
    (hc : (mqMachine cfg qsort).Along FindsMessage (mqInit k queuePool filePool heap) ls)
    (hr : (mqMachine cfg qsort).run (mqInit k queuePool filePool heap) ls = some s) :
    s.Unblocked ∧ ∀ a f, s.openQueue a.mq (oRdonly ||| oRdwr) = .ok f →
      f.oflags &&& oNonblock ≠ 0 → (s.queuePool f.qId).mqAttr.mqMsgsize ≤ a.buflen →
      (s.recvCheck a = .error .again ↔ (s.queuePool f.qId).messages = []) := by
  have h : MqInv False own s ∧ s.Unblocked := (mqMachine cfg qsort).run_invariant
    (I:=fun s => MqInv False own s ∧ s.Unblocked)
    (fun s l s' hi hc hs => ⟨(mqStep_spec hq hi.1 hs.1 False.elim).of_ok hs.2,
      (mqStep_unblocked hi.1 hs.1 hi.2 hc).of_ok hs.2⟩) ⟨mqInit_inv hk ho,by rintro _ _ _ ⟨⟩⟩ hc hr
  exact ⟨h.2,fun a f hf hn hb => h.1.again_iff hf hn hb⟩

end

/-! ### Runs on one queue -/

/-- A library that sorts by insertion. -/
def insertSort : Qsort := fun r l => l.insertionSort fun a b => r a b ≤ 0

theorem insertSort_sorts : Sorts insertSort := by
  intro l
  have htotal : Std.Total fun a b : MessT => compMess a b ≤ 0 := ⟨fun a b => by
    rw [compMess_le,compMess_le]
    omega⟩
  have htrans : IsTrans MessT fun a b => compMess a b ≤ 0 := ⟨fun a b c hab hbc => by
    rw [compMess_le] at hab hbc ⊢
    omega⟩
  exact ⟨List.perm_insertionSort _ l,List.pairwise_insertionSort _ l⟩

/-- Queue 0 has three slots for messages of two bytes. -/
def oneQueue : QueueId → QueueD gnuArm := fun q =>
  ⟨decide (q.val = 0),⟨2,3⟩,⟨0,0,fun i => ⟨some i,0,⟨0,0,0⟩⟩,0⟩,smCreate 0 0⟩

/-- Threads 0, 1 and 2 have opened it, the last one with `O_NONBLOCK`. -/
def threeFiles : Fin numberOfFiles → FileD gnuArm := fun d =>
  ⟨decide (d.val < 3),if d.val = 0 then 0 else if d.val = 1 then 1 else 2,
    if d.val = 2 then oRdwr ||| oNonblock else oRdwr,0⟩

def threeBuffers : Heap Byte := ⟨fun b => if b < 3 then some [0,0] else none,3⟩

theorem oneQueue_opened : QueuesOpened oneQueue threeBuffers fun _ => [0,1,2] where
  opened q _ := by
    have hfits : MqAttr.Fits ⟨2,3⟩ := ⟨by decide,by decide,by decide⟩
    refine ⟨hfits,rfl,rfl,rfl,rfl,by decide,fun b hb => ?_⟩
    have hb : b < 3 := by
      simp at hb
      omega
    exact ⟨[0,0],if_pos hb,rfl⟩
  apart q q' hq hq' hne := by
    have h0 : q.val = 0 := of_decide_eq_true hq
    have h0' : q'.val = 0 := of_decide_eq_true hq'
    exact absurd (Fin.ext (h0.trans h0'.symm)) hne

/-- Thread 0 sends "a" at clock 5 and "b" at clock `now`, and receives. -/
def sendSteps (prio : ℕ) (now : ℤ) : List (MqLabel gnuArm) :=
  [.mqSend ⟨0,[0x61],1,5,true⟩ 0,.mqSend ⟨0,[0x62],prio,now,true⟩ 0,.mqReceive ⟨0,2,true⟩ 0]

theorem sendSteps_run (prio : ℕ) (now : ℤ) (p : MqState gnuArm → Bool)
    (h : ((mqMachine gnuArm insertSort).run (mqInit fiveThreads oneQueue threeFiles threeBuffers)
      (sendSteps prio now)).any p = true) :
    ∃ s, (mqMachine gnuArm insertSort).run (mqInit fiveThreads oneQueue threeFiles threeBuffers)
      (sendSteps prio now) = some s ∧ p s = true := by
  simpa only [Option.any_eq_true] using h

instance (s : MqState cfg) (a : SendArgs) (q : QueueId) : Decidable (s.Newest a q) :=
  inferInstanceAs (Decidable (∀ m ∈ (s.queuePool q).messages, _))

instance (s : MqState cfg) (a : RecvArgs) : Decidable (s.Nonblocking a) :=
  decidable_of_iff ((s.descriptor a.mq).any fun f => f.oflags &&& oNonblock ≠ 0) (by
    simp [Nonblocking,Option.any_eq_true])

instance : ∀ (s : MqState cfg) (l : MqLabel cfg), Decidable (s.SendsNewest l) := fun s l =>
  match h : s.sends l with
  | none => isTrue fun a ha => by cases h.symm.trans ha
  | some a =>
    match hc : s.sendCheck a with
    | .error e => isTrue fun a' ha q hq => by
      obtain rfl := Option.some.inj (h.symm.trans ha)
      cases hc.symm.trans hq
    | .ok q => decidable_of_iff (s.Newest a q)
        ⟨fun hn a' ha q' hq' => by
          obtain rfl := Option.some.inj (h.symm.trans ha)
          obtain rfl := Except.ok.inj (hc.symm.trans hq')
          exact hn,fun hn => hn a h q hc⟩

instance : ∀ (s : MqState cfg) (l : MqLabel cfg), Decidable (s.FindsMessage l) := fun s l =>
  match h : s.comesTo l with
  | none => isTrue fun a q ha => by cases h.symm.trans ha
  | some (a,q) => decidable_of_iff (s.Nonblocking a →
        (woken s.kernel s.waits (.queue q)).card < (s.queuePool q).messages.length)
      ⟨fun hn a' q' ha => by
        obtain ⟨rfl,rfl⟩ := Prod.mk.inj (Option.some.inj (h.symm.trans ha))
        exact hn,fun hn => hn a q h⟩

/-- Two messages of one priority, the second one later. -/
theorem mqRun_inOrder_later : ∃ s, (mqMachine gnuArm insertSort).run
    (mqInit fiveThreads oneQueue threeFiles threeBuffers) (sendSteps 1 6) = some s ∧ InOrder s := by
  obtain ⟨s,hr,-⟩ := sendSteps_run 1 6 (fun _ => true) (by decide +kernel)
  exact ⟨s,hr,mqRun_inOrder insertSort_sorts fiveThreads_quiet oneQueue_opened (by decide +kernel)
    hr⟩

/-- The clock has wrapped between the two. -/
theorem mqRun_not_inOrder : ¬∀ (ls : List (MqLabel gnuArm)) (s : MqState gnuArm),
    (mqMachine gnuArm insertSort).run (mqInit fiveThreads oneQueue threeFiles threeBuffers) ls =
      some s → InOrder s := by
  intro h
  obtain ⟨s,hr,hs⟩ := sendSteps_run 1 (-5) (fun s => decide
    ((s.queuePool ⟨0,by decide⟩).taken = true ∧
      ¬((s.returned ⟨0,by decide⟩).filter fun r => r.prio = 1).map (fun r => (r.bytes,r.prio)) <+:
        (s.accepted ⟨0,by decide⟩).filter fun x => x.2 = 1)) (by decide +kernel)
  obtain ⟨hl,hn⟩ := of_decide_eq_true hs
  exact hn (h _ s hr _ hl 1)

/-- Thread 1 waits for a message, thread 0 sends one, and before thread 1 runs again thread 2 asks
for it, which does not want to wait. -/
def promisedSteps : List (MqLabel gnuArm) :=
  [.yield 0 1,.mqReceive ⟨1,2,true⟩ 0,.yield 0 0,.mqSend ⟨0,[0x61],1,5,true⟩ 0,.yield 0 2,
    .mqReceive ⟨2,2,true⟩ 0,.yield 0 0,.resume 0,.yield 0 2,.resume 0]

/-- A message is stored when thread 2 asks for one, and none when it asks again. -/
def storedSteps : List (MqLabel gnuArm) :=
  [.mqSend ⟨0,[0x61],1,5,true⟩ 0,.yield 0 2,.mqReceive ⟨2,2,true⟩ 0,.mqReceive ⟨2,2,true⟩ 0]

theorem mqRun_unblocked_stored : ∃ s, (mqMachine gnuArm insertSort).run
    (mqInit fiveThreads oneQueue threeFiles threeBuffers) storedSteps = some s ∧ s.Unblocked ∧
    ∀ a f, s.openQueue a.mq (oRdonly ||| oRdwr) = .ok f → f.oflags &&& oNonblock ≠ 0 →
      (s.queuePool f.qId).mqAttr.mqMsgsize ≤ a.buflen →
      (s.recvCheck a = .error .again ↔ (s.queuePool f.qId).messages = []) := by
  obtain ⟨s,hr⟩ := Option.isSome_iff_exists.mp (show ((mqMachine gnuArm insertSort).run
    (mqInit fiveThreads oneQueue threeFiles threeBuffers) storedSteps).isSome = true by
      decide +kernel)
  exact ⟨s,hr,mqRun_unblocked insertSort_sorts fiveThreads_quiet oneQueue_opened
    (by decide +kernel) hr⟩

theorem mqRun_not_unblocked : ¬∀ (ls : List (MqLabel gnuArm)) (s : MqState gnuArm),
    (mqMachine gnuArm insertSort).run (mqInit fiveThreads oneQueue threeFiles threeBuffers) ls =
      some s → s.Unblocked := by
  intro h
  obtain ⟨s,hr,hs⟩ := (mqMachine gnuArm insertSort).exists_run
    (fun s => s.loc 2 = .recvSem ⟨2,2,true⟩ ⟨0,by decide⟩ ∧ s.Nonblocking ⟨2,2,true⟩)
    (mqInit fiveThreads oneQueue threeFiles threeBuffers) promisedSteps (by decide +kernel)
  exact h _ s hr 2 _ _ hs.1 hs.2

end Tinker

import Tinker.Preempt

/-! The calls of `tk_itcny.c` that take a token from an interrupt, and `sem_wait`, which makes one
of them. Each is its counterpart in `tk_itc.c` with the yield taken out. -/
namespace Tinker

open Kernel Outcome Ring

variable {cfg : Config} {numQ : ℕ}

/-- `abs` of an `int`; that of the least one is the least one. -/
def absInt (z : ℤ) : ℤ := toInt32 z.natAbs

/-- `_lock_stage_ny`. The flag tells whether the interrupted thread has been put into the ring; what
`lock_stage` does when it is dispatched again follows at once. -/
def lockStageNy (k : Kernel cfg) (q : Itc cfg) (timeout clk : Clock) :
    Except Fault (Kernel cfg × Itc cfg × ItcErr × Bool) :=
  let me := k.activeThread
  if 0 < q.token then .ok (k,{ q with token := q.token-1 },.ok,false)
  else if absInt q.token < (cfg.maxBlockedOnQ : ℤ)-1 then
    let q := { q with
      token := toInt32 (q.token-1)
      blockedProcs := Function.update q.blockedProcs q.inIdx (some me)
      inIdx := succ cfg.maxBlockedOnQ q.inIdx }
    let k := k.modTcb me (goToSleep timeout clk)
    if timeout = 0 then .ok (k,q,.ok,true)
    else do
      let (k,q,e) ← lockStageWoken k q q.inIdx
      return (k,q,e,true)
  else .ok (k,q,.blockLimit,false)

/-- `_unlock_stage_ny`, with the thread it gives to `tk_preemplist`. -/
def unlockStageNy (k : Kernel cfg) (q : Itc cfg) :
    Except Fault (Kernel cfg × Itc cfg × Option (Thid cfg)) :=
  if q.token < 0 then
    if q.flags &&& prior ≠ 0 then do
      match ← bestBlocked k q with
      | none => return (k,q,none)
      | some (i,t) => return (readyByItc k t,itcRemoveBlocked q i,none)
    else do
      let (him,q) ← popBlocked k q.token.natAbs q
      return (readyByItc k him,q,some him)
  else .ok (k,{ q with token := toInt32 (q.token+1) },none)

/-- `sm_p_ny`, on the contents of the slot its `qid` names. -/
def smPny (k : Kernel cfg) (slot : Option (Itc cfg)) (flags : IpcFlags) (timeout clk : Clock) :
    Except Fault (Kernel cfg × Option (Itc cfg) × ItcErr × Bool) :=
  match slot with
  | none => .ok (k,none,.objDel,false)
  | some q =>
    if q.bType ≠ .sem then .ok (k,some q,.objType,false)
    else if q.token ≤ 0 ∧ flags &&& nowait ≠ 0 then .ok (k,some q,.noSem,false)
    else do
      let (k,q,e,enqueued) ← lockStageNy k q timeout clk
      return (k,some q,e,enqueued)

/-- `q_receive_ny`. -/
def qReceiveNy (k : Kernel cfg) (slot : Option (Itc cfg)) (flags : IpcFlags) (timeout clk : Clock) :
    Except Fault (Kernel cfg × Option (Itc cfg) × ItcErr × Option Msg × Bool) :=
  match slot with
  | none => .ok (k,none,.objDel,none,false)
  | some q =>
    if q.bType ≠ .sQueue then .ok (k,some q,.objType,none,false)
    else if q.token ≤ 0 ∧ flags &&& nowait ≠ 0 then .ok (k,some q,.noSem,none,false)
    else do
      let (k,q,rc,enqueued) ← lockStageNy k q timeout clk
      let (q,e,msg) ← qReceiveEnd k q rc
      return (k,some q,e,msg,enqueued)

/-- `q_send_ny`. -/
def qSendNy (k : Kernel cfg) (slot : Option (Itc cfg)) (msg : Msg) :
    Except Fault (Kernel cfg × Option (Itc cfg) × ItcErr × Option (Thid cfg)) :=
  match slot with
  | none => .ok (k,none,.objDel,none)
  | some q =>
    if q.bType ≠ .sQueue then .ok (k,some q,.objType,none)
    else if 0 < q.token ∧ ¬q.token < toInt32 q.sizeofQ then .ok (k,some q,.full,none)
    else do
      let (k,q,him) ← unlockStageNy k { q with
        q := Function.update q.q q.minIdx msg
        minIdx := (q.minIdx+1) % q.sizeofQ }
      let e ← qSendEnd k q
      return (k,some q,e,him)

/-- `sm_v_ny`. -/
def smVny (k : Kernel cfg) (slot : Option (Itc cfg)) :
    Except Fault (Kernel cfg × Option (Itc cfg) × ItcErr × Option (Thid cfg)) :=
  match slot with
  | none => .ok (k,none,.objDel,none)
  | some q =>
    if q.bType ≠ .sem then .ok (k,some q,.objType,none)
    else do
      let (k,q,him) ← unlockStageNy k q
      return (k,some q,.ok,him)

namespace ItcStore

/-- `q_vreceive_ny`. -/
def qVreceiveNy (st : ItcStore cfg numQ) (k : Kernel cfg) (qid : Fin numQ) (flags : IpcFlags)
    (timeout clk : Clock) (bufLen : ℕ) :
    Except Fault (Kernel cfg × ItcStore cfg numQ × ItcErr × Option (List Byte × ℕ) × Bool) := do
  match ← st.slot qid with
  | none => return (k,st,.objDel,none,false)
  | some o =>
    if o.bType ≠ .vQueue then return (k,st,.objType,none,false)
    else if o.token ≤ 0 ∧ flags &&& nowait ≠ 0 then return (k,st,.noSem,none,false)
    else if o.maxSizeofM < bufLen then return (k,st,.bufSiz,none,false)
    else
      let (k,q,rc,enqueued) ← lockStageNy k o.toItc timeout clk
      let (st,e,msg) ← (st.putItc qid q).qVreceiveEnd k qid rc
      return (k,st,e,msg,enqueued)

/-- `q_vsend_ny`. -/
def qVsendNy (st : ItcStore cfg numQ) (k : Kernel cfg) (qid : Fin numQ) (msg : VMsg)
    (granted : Bool) :
    Except Fault (Kernel cfg × ItcStore cfg numQ × ItcErr × Option (Thid cfg)) := do
  match ← st.slot qid with
  | none => return (k,st,.objDel,none)
  | some o =>
    if o.bType ≠ .vQueue then return (k,st,.objType,none)
    else if 0 < o.token ∧ ¬o.token < toInt32 o.sizeofQ then return (k,st,.full,none)
    else
      let st ← st.mallocMb o.minIdx msg.copied.length granted
      if granted = false then return (k,st,.noMem,none)
      else
        let st ← st.fillSlot qid msg
        let o ← st.deref qid
        let (k,q,him) ← unlockStageNy k o.toItc
        let st := st.putItc qid q
        let e ← st.sendEnd k qid
        return (k,st,e,him)

end ItcStore

/-- `WAIT` of `ipc_flags_t`. -/
def wait : IpcFlags := 0x00

def tkForever : Clock := 0

/-- How `sem_wait` ends, with 0 or `EINVAL`, or where it goes to sleep. -/
inductive SemWaitResult
  | ret (zero : Bool) (errno : ItcErr) | waits (markIdx : Option ℕ)

/-- `sem_wait` with the counter it looks at, up to the yield of `sm_p` where it makes that call. -/
def semWait (intFlagCntr : ℤ) (k : Kernel cfg) (slot : Option (Itc cfg)) (clk : Clock) :
    Except Fault (Kernel cfg × Option (Itc cfg) × SemWaitResult × Bool) :=
  if intFlagCntr ≠ 0 then do
    let (k,slot,rc,enqueued) ← smPny k slot wait tkForever clk
    return (k,slot,.ret (decide (rc = .ok)) rc,enqueued)
  else
    match smP k slot wait tkForever clk with
    | (k,slot,.ret rc) => .ok (k,slot,.ret (decide (rc = .ok)) rc,false)
    | (k,slot,.waits m) => .ok (k,slot,.waits m,true)

section

variable {k k' : Kernel cfg} {q q' : Itc cfg}

/-! ### The counterparts -/

theorem absInt_of_int {z : ℤ} (hlo : -2^31 < z) (hhi : z ≤ 0) : absInt z = z.natAbs :=
  toInt32_of_int (by omega) (by omega)

/-- The two differ at the least token alone. -/
theorem lockStageNy_eq (k : Kernel cfg) (q : Itc cfg) (timeout clk : Clock) (hq : -2^31 < q.token) :
    lockStageNy k q timeout clk = match lockStage k q timeout clk with
      | (k,q,.ret e) => .ok (k,q,e,false)
      | (k,q,.waits none) => .ok (k,q,.ok,true)
      | (k,q,.waits (some markIdx)) =>
        (lockStageWoken k q markIdx).map fun r => (r.1,r.2.1,r.2.2,true) := by
  have hpos := cfg.maxBlockedOnQ_pos
  unfold lockStageNy lockStage
  split
  · rfl
  · next ht =>
    have htest : absInt q.token < (cfg.maxBlockedOnQ : ℤ)-1 ↔
        q.token.natAbs < cfg.maxBlockedOnQ-1 := by
      rw [absInt_of_int hq (not_lt.mp ht)]
      omega
    have hdec : toInt32 (q.token-1) = q.token-1 := toInt32_of_int (by omega) (by omega)
    simp only [htest,hdec]
    split
    · split
      · next h0 => simp only [h0]
      · simp only; rfl
    · rfl

theorem unlockStageNy_eq (k : Kernel cfg) (q : Itc cfg) :
    (unlockStageNy k q).map (fun r => (r.1,r.2.1)) =
      (unlockStage k q).map fun r => (r.1,r.2.1) := by
  unfold unlockStageNy unlockStage
  split
  · split
    · cases bestBlocked k q with
      | error e => rfl
      | ok best => cases best <;> rfl
    · cases popBlocked k q.token.natAbs q <;> rfl
  · rfl

/-- In the system the thread is listed. -/
theorem Preempted.unlockStageNy_eq (addr : Thid cfg → ℤ) (s : Preempted cfg numQ) (qid : Fin numQ)
    (q : Itc cfg) : s.unlockStageNy addr qid q = (Tinker.unlockStageNy s.kernel q).map fun r =>
      let s' := s.setWorld ((s.setKernel r.1).putItc qid (some r.2.1))
      match r.2.2 with
      | none => s'
      | some t => s'.tkPreemplist (addr t) := by
  unfold Preempted.unlockStageNy Tinker.unlockStageNy
  split
  · split
    · cases bestBlocked s.kernel q with
      | error e => rfl
      | ok best => cases best <;> rfl
    · cases popBlocked s.kernel q.token.natAbs q <;> rfl
  · rfl

/-! ### One call -/

/-- The call would be put among the waiters. -/
def Itc.WouldWait (q : Itc cfg) : Prop :=
  q.token ≤ 0 ∧ absInt q.token < (cfg.maxBlockedOnQ : ℤ)-1

/-- A call succeeds only with a token it has consumed; else it has left the interrupted thread out of
the ring and its state as it was. -/
structure NoPhantom (k k' : Kernel cfg) (token token' : Option ℤ) (ok : Prop) (enqueued : Bool) :
    Prop where
  consumed : ok → ∃ n, token = some n ∧ 0 < n ∧ token' = some (n-1)
  refused : ¬ok → enqueued = false ∧
    (k'.pool k.activeThread).state = (k.pool k.activeThread).state

/-- A call that is refused before it comes to the token. -/
theorem NoPhantom.of_refused {token : Option ℤ} {ok : Prop} (h : ¬ok) :
    NoPhantom k k token token ok false :=
  ⟨fun ho => absurd ho h,fun _ => ⟨rfl,rfl⟩⟩

theorem lockStageNy_noPhantom_iff {timeout clk : Clock} : Spec (lockStageNy k q timeout clk)
    (fun r => NoPhantom k r.1 (some q.token) (some r.2.1.token) (r.2.2.1 = .ok) r.2.2.2 ↔
      ¬q.WouldWait) (fun _ => True) := by
  simp only [lockStageNy,spec_ite,spec_ok,spec_bind,spec_pure]
  refine ⟨fun ht => ?_,fun ht => ⟨fun hr => ?_,fun hr => ?_⟩⟩
  · refine iff_of_true ⟨fun _ => ⟨q.token,rfl,ht,rfl⟩,fun hn => absurd trivial hn⟩ fun hw => ?_
    exact absurd hw.1 (by omega)
  · -- it is put into the ring, so neither success nor failure is right
    have hw : q.WouldWait := ⟨by omega,hr⟩
    refine ⟨fun _ => iff_of_false (fun h => ?_) (not_not_intro hw),fun _ =>
      spec_of_forall fun r => iff_of_false (fun h => ?_) (not_not_intro hw)⟩
    · obtain ⟨n,hn,hpos,-⟩ := h.consumed trivial
      exact ht (Option.some.inj hn ▸ hpos)
    · by_cases hok : r.2.2 = .ok
      · obtain ⟨n,hn,hpos,-⟩ := h.consumed hok
        exact ht (Option.some.inj hn ▸ hpos)
      · exact absurd (h.refused hok).1 (by decide)
  · exact iff_of_true (NoPhantom.of_refused (by decide)) fun hw => hr hw.2

/-- The call would wait: it passes the checks before the token is looked at, and there is none. -/
def Waits (slot : Option (Itc cfg)) (b : ItcSet) (flags : IpcFlags) : Prop :=
  ∃ q, slot = some q ∧ q.bType = b ∧ flags &&& nowait = 0 ∧ q.WouldWait

/-- What a slot says of its token. -/
def tokenOf (slot : Option (Itc cfg)) : Option ℤ := slot.map Itc.token

theorem not_waits_none {b : ItcSet} {flags : IpcFlags} : ¬Waits (none : Option (Itc cfg)) b flags :=
  fun ⟨_,h,_⟩ => (by cases h)

theorem waits_some {b : ItcSet} {flags : IpcFlags} :
    Waits (some q) b flags ↔ q.bType = b ∧ flags &&& nowait = 0 ∧ q.WouldWait := by
  simp [Waits]

theorem smPny_noPhantom_iff {slot : Option (Itc cfg)} {flags : IpcFlags} {timeout clk : Clock} :
    Spec (smPny k slot flags timeout clk) (fun r =>
      NoPhantom k r.1 (tokenOf slot) (tokenOf r.2.1) (r.2.2.1 = .ok) r.2.2.2 ↔
        ¬Waits slot .sem flags) (fun _ => True) := by
  cases slot with
  | none => exact iff_of_true (NoPhantom.of_refused (by simp)) not_waits_none
  | some q =>
    simp only [smPny,spec_ite,spec_ok,spec_bind,spec_pure,waits_some]
    refine ⟨fun hb => ?_,fun hb => ⟨fun hns => ?_,fun hns => ?_⟩⟩
    · exact iff_of_true (NoPhantom.of_refused (by decide)) fun h => hb h.1
    · exact iff_of_true (NoPhantom.of_refused (by decide)) fun h => hns.2 h.2.1
    · refine lockStageNy_noPhantom_iff.imp fun r hr => hr.trans (not_congr ⟨fun hw => ?_,fun h => h.2.2⟩)
      exact ⟨not_not.mp hb,not_not.mp fun hf => hns ⟨hw.1,hf⟩,hw⟩

/-- The end of a receive changes neither the token nor the result. -/
theorem qReceiveEnd_keeps {rc : ItcErr} : Spec (qReceiveEnd k q rc) (fun r =>
    r.1.token = q.token ∧ r.2.1 = rc) (fun _ => True) := by
  simp only [qReceiveEnd,spec_bind,spec_check,spec_ite,spec_pure]
  refine spec_of_forall fun c => ⟨fun _ => ⟨fun _ => ⟨trivial,trivial⟩,fun h => ⟨trivial,?_⟩⟩,fun _ => trivial⟩
  exact (not_not.mp h).symm

theorem qReceiveNy_noPhantom_iff {slot : Option (Itc cfg)} {flags : IpcFlags} {timeout clk : Clock} :
    Spec (qReceiveNy k slot flags timeout clk) (fun r =>
      NoPhantom k r.1 (tokenOf slot) (tokenOf r.2.1) (r.2.2.1 = .ok) r.2.2.2.2 ↔
        ¬Waits slot .sQueue flags) (fun _ => True) := by
  cases slot with
  | none => exact iff_of_true (NoPhantom.of_refused (by simp)) not_waits_none
  | some q =>
    simp only [qReceiveNy,spec_ite,spec_ok,spec_bind,spec_pure,waits_some]
    refine ⟨fun hb => ?_,fun hb => ⟨fun hns => ?_,fun hns => ?_⟩⟩
    · exact iff_of_true (NoPhantom.of_refused (by decide)) fun h => hb h.1
    · exact iff_of_true (NoPhantom.of_refused (by decide)) fun h => hns.2 h.2.1
    · refine lockStageNy_noPhantom_iff.imp fun r hr => qReceiveEnd_keeps.imp fun r' hr' => ?_
      simp only [tokenOf,Option.map_some,hr'.1,hr'.2]
      refine hr.trans (not_congr ⟨fun hw => ?_,fun h => h.2.2⟩)
      exact ⟨not_not.mp hb,not_not.mp fun hf => hns ⟨hw.1,hf⟩,hw⟩

/-- The token of the object in a slot. -/
def ItcStore.tokenAt (st : ItcStore cfg numQ) (qid : Fin numQ) : Option ℤ :=
  (st.array qid).map fun o => o.token

theorem ItcStore.qVreceiveEnd_keeps {st : ItcStore cfg numQ} {qid : Fin numQ} {rc : ItcErr} :
    Spec (st.qVreceiveEnd k qid rc) (fun r =>
      r.1.tokenAt qid = st.tokenAt qid ∧ r.2.1 = rc) (fun _ => True) := by
  unfold ItcStore.qVreceiveEnd
  rw [spec_bind]
  cases ho : st.deref qid with
  | error e => trivial
  | ok o =>
    have hobj := ItcStore.deref_ok ho
    simp only [spec_bind,spec_ok,spec_check,spec_ite,spec_pure]
    refine spec_of_forall fun c =>
    ⟨fun _ => ⟨fun _ => ⟨trivial,trivial⟩,fun h => ⟨fun _ => ?_,fun _ => trivial⟩⟩,
      fun _ => trivial⟩
    refine spec_of_forall fun bytes => spec_of_forall fun heap => ⟨?_,(not_not.mp h).symm⟩
    simp [ItcStore.tokenAt,ItcStore.setObj,hobj]

/-- `q_vreceive_ny` would wait. -/
def ItcStore.VWaits (st : ItcStore cfg numQ) (qid : Fin numQ) (flags : IpcFlags) (bufLen : ℕ) : Prop :=
  ∃ o, st.array qid = some o ∧ o.bType = .vQueue ∧ flags &&& nowait = 0 ∧ ¬o.maxSizeofM < bufLen ∧
    o.toItc.WouldWait

theorem ItcStore.qVreceiveNy_noPhantom_iff {st : ItcStore cfg numQ} {qid : Fin numQ}
    {flags : IpcFlags} {timeout clk : Clock} {bufLen : ℕ} :
    Spec (st.qVreceiveNy k qid flags timeout clk bufLen) (fun r =>
      NoPhantom k r.1 (st.tokenAt qid) (r.2.1.tokenAt qid) (r.2.2.1 = .ok) r.2.2.2.2 ↔
        ¬st.VWaits qid flags bufLen) (fun _ => True) := by
  unfold ItcStore.qVreceiveNy
  rw [spec_bind]
  cases hs : st.slot qid with
  | error e => trivial
  | ok slot =>
    have ho := ItcStore.slot_ok hs
    cases slot with
    | none =>
      refine iff_of_true (NoPhantom.of_refused (by simp)) fun ⟨o,ho',_⟩ => ?_
      rw [ho] at ho'
      cases ho'
    | some o =>
      have hw : st.VWaits qid flags bufLen ↔ o.bType = .vQueue ∧ flags &&& nowait = 0 ∧
          ¬o.maxSizeofM < bufLen ∧ o.toItc.WouldWait := by
        simp [ItcStore.VWaits,ho]
      have htok : st.tokenAt qid = some o.token := by simp [ItcStore.tokenAt,ho]
      simp only [spec_ok,spec_ite,spec_bind,spec_pure,hw]
      refine ⟨fun hb => ?_,fun hb => ⟨fun hns => ?_,fun hns => ⟨fun hl => ?_,fun hl => ?_⟩⟩⟩
      · exact iff_of_true (NoPhantom.of_refused (by decide)) fun h => hb h.1
      · exact iff_of_true (NoPhantom.of_refused (by decide)) fun h => hns.2 h.2.1
      · exact iff_of_true (NoPhantom.of_refused (by decide)) fun h => h.2.2.1 hl
      · refine lockStageNy_noPhantom_iff.imp fun r hr => ItcStore.qVreceiveEnd_keeps.imp fun r' hr' => ?_
        have hput : (st.putItc qid r.2.1).tokenAt qid = some r.2.1.token := by
          simp [ItcStore.tokenAt,ItcStore.putItc,ItcStore.setObj,ho]
        rw [hr'.1,hr'.2,hput,htok]
        refine hr.trans (not_congr ⟨fun hw => ?_,fun h => h.2.2.2⟩)
        exact ⟨not_not.mp hb,not_not.mp fun hf => hns ⟨hw.1,hf⟩,hl,hw⟩

/-- What `sem_wait` comes to where it is called from an interrupt. -/
theorem semWait_noPhantom_iff {slot : Option (Itc cfg)} {intFlagCntr : ℤ} {clk : Clock}
    (hi : intFlagCntr ≠ 0) : Spec (semWait intFlagCntr k slot clk) (fun r =>
      NoPhantom k r.1 (tokenOf slot) (tokenOf r.2.1) (∃ rc, r.2.2.1 = .ret true rc) r.2.2.2 ↔
        ¬Waits slot .sem wait) (fun _ => True) := by
  simp only [semWait,if_pos hi,spec_bind,spec_pure]
  refine smPny_noPhantom_iff.imp fun r hr => ?_
  have hzero : (∃ rc, SemWaitResult.ret (decide (r.2.2.1 = .ok)) r.2.2.1 = .ret true rc) ↔
      r.2.2.1 = .ok := by
    simp
  rw [hzero]
  exact hr

end

end Tinker

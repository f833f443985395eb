import Tinker.Keeping
import Tinker.NonYielding
import Tinker.QueueRun

/-! The interrupts around the calls of the ITC component. `TK_CLI` clears a flag and `TK_STI` sets it;
the calls are written out with both, as `tk_itc.c` and `tk_itcny.c` have them. -/
namespace Tinker

open Kernel Outcome Ring

variable {cfg : Config} {numQ : ℕ}

/-- The kernel and the table of objects, with the flag that enables interrupts. -/
structure Masked (cfg : Config) (numQ : ℕ) where
  kernel : Kernel cfg
  store : ItcStore cfg numQ
  enabled : Bool

abbrev ItcCall (cfg : Config) (numQ : ℕ) := EStateM Fault (Masked cfg numQ)

/-- What the sweep of a yield and the other threads do to the system until the thread that yields is
dispatched again. -/
abbrev Others (cfg : Config) (numQ : ℕ) :=
  Kernel cfg × ItcStore cfg numQ → Kernel cfg × ItcStore cfg numQ

def tkCli : ItcCall cfg numQ PUnit := modify fun s => { s with enabled := false }

def tkSti : ItcCall cfg numQ PUnit := modify fun s => { s with enabled := true }

/-- `STI_return`. -/
def stiReturn (e : ItcErr) : ItcCall cfg numQ ItcErr := do
  tkSti
  return e

/-- `tk_yield`. -/
def tkYieldCall (others : Others cfg numQ) : ItcCall cfg numQ PUnit := do
  tkCli
  tkSti
  -- the sweep runs with interrupts enabled, the switch without
  tkCli
  modify fun s =>
    { s with kernel := (others (s.kernel,s.store)).1, store := (others (s.kernel,s.store)).2 }
  tkSti

/-- `tk_yield_CLI`. -/
def tkYieldCli (others : Others cfg numQ) : ItcCall cfg numQ PUnit := do
  tkYieldCall others
  tkCli

/-- `__itc_array[qid]->`. -/
def objAt (qid : Fin numQ) : ItcCall cfg numQ (ItcObj cfg) := look fun s => s.store.deref qid

def slotAt (qid : Fin numQ) : ItcCall cfg numQ (Option (ItcObj cfg)) :=
  look fun s => s.store.slot qid

def putAt (qid : Fin numQ) (q : Itc cfg) : ItcCall cfg numQ PUnit :=
  modify fun s => { s with store := s.store.putItc qid q }

def onTcb (t : Thid cfg) (f : Tcb cfg → Tcb cfg) : ItcCall cfg numQ PUnit :=
  modify fun s => { s with kernel := s.kernel.modTcb t f }

/-- Statements with neither `TK_CLI` nor `TK_STI` in them. -/
def unmasked {A : Type} (f : Kernel cfg → ItcStore cfg numQ →
    Except Fault (Kernel cfg × ItcStore cfg numQ × A)) : ItcCall cfg numQ A := do
  let r ← look fun s => f s.kernel s.store
  modify fun s => { s with kernel := r.1, store := r.2.1 }
  return r.2.2

/-- `lock_stage`. -/
def lockStageCall (others : Others cfg numQ) (qid : Fin numQ) (timeout clk : Clock) :
    ItcCall cfg numQ ItcErr := do
  tkCli
  let s ← get
  let me := s.kernel.activeThread
  let o ← objAt qid
  if 0 < o.token then
    putAt qid { o.toItc with token := o.token-1 }
    stiReturn .ok
  else if o.token.natAbs < cfg.maxBlockedOnQ-1 then
    putAt qid { o.toItc with
      token := o.token-1
      blockedProcs := Function.update o.blockedProcs o.inIdx (some me)
      inIdx := succ cfg.maxBlockedOnQ o.inIdx }
    onTcb me (goToSleep timeout clk)
    if timeout = 0 then
      tkYieldCli others
      stiReturn .ok
    else
      let markIdx := succ cfg.maxBlockedOnQ o.inIdx
      tkYieldCli others
      let s ← get
      match (s.kernel.pool me).wakeupEvent with
      | .timer =>
        let o ← objAt qid
        if 0 ≤ o.token then stiReturn .timeout
        else
          putAt qid (itcRemoveBlocked o.toItc (pred cfg.maxBlockedOnQ markIdx))
          let o ← objAt qid
          if 0 ≤ o.token then stiReturn .timeout
          else
            unmasked fun k st => do
              let (k,q) ← dropTimedOut (cfg.maxBlockedOnQ*(o.token.natAbs+1)) o.outIdx k o.toItc
              return (k,st.putItc qid q,PUnit.unit)
            stiReturn .timeout
      | .itc2 => stiReturn .timeout
      | _ => stiReturn .ok
  else stiReturn .blockLimit

/-- `unlock_stage`. -/
def unlockStageCall (others : Others cfg numQ) (qid : Fin numQ) : ItcCall cfg numQ ItcErr := do
  tkCli
  let o ← objAt qid
  if o.token < 0 then
    if o.flags &&& prior ≠ 0 then
      match ← look fun s => bestBlocked s.kernel o.toItc with
      | none => stiReturn .ok
      | some (i,t) =>
        onTcb t fun b => { b with
          state := b.state &&& ~~~ProcState.queueSleepTerm, wakeupEvent := .itc }
        putAt qid (itcRemoveBlocked o.toItc i)
        tkYieldCli others
        stiReturn .ok
    else
      let (him,q) ← look fun s => popBlocked s.kernel o.token.natAbs o.toItc
      putAt qid q
      onTcb him fun b => { b with
        state := b.state &&& ~~~ProcState.queueSleepTerm, wakeupEvent := .itc }
      tkYieldCli others
      stiReturn .ok
  else
    putAt qid { o.toItc with token := toInt32 (o.token+1) }
    stiReturn .ok

/-- `sm_p`. -/
def smPCall (others : Others cfg numQ) (qid : Fin numQ) (flags : IpcFlags) (timeout clk : Clock) :
    ItcCall cfg numQ ItcErr := do
  match ← slotAt qid with
  | none => return .objDel
  | some o =>
    if o.bType ≠ .sem then return .objType
    else if o.token ≤ 0 ∧ flags &&& nowait ≠ 0 then return .noSem
    else lockStageCall others qid timeout clk

/-- `sm_v`. -/
def smVCall (others : Others cfg numQ) (qid : Fin numQ) : ItcCall cfg numQ ItcErr := do
  match ← slotAt qid with
  | none => return .objDel
  | some o =>
    if o.bType ≠ .sem then return .objType
    else unlockStageCall others qid

/-- `q_receive`. -/
def qReceiveCall (others : Others cfg numQ) (qid : Fin numQ) (flags : IpcFlags)
    (timeout clk : Clock) : ItcCall cfg numQ (ItcErr × Option Msg) := do
  match ← slotAt qid with
  | none => return (.objDel,none)
  | some o =>
    if o.bType ≠ .sQueue then return (.objType,none)
    else if o.token ≤ 0 ∧ flags &&& nowait ≠ 0 then return (.noSem,none)
    else
      let rc ← lockStageCall others qid timeout clk
      unmasked fun k st => do
        let o ← st.deref qid
        let (q,e,msg) ← qReceiveEnd k o.toItc rc
        return (k,st.putItc qid q,e,msg)

/-- `q_send`. -/
def qSendCall (others : Others cfg numQ) (qid : Fin numQ) (msg : Msg) : ItcCall cfg numQ ItcErr := do
  match ← slotAt qid with
  | none => return .objDel
  | some o =>
    if o.bType ≠ .sQueue then return .objType
    else if isFull o.toItc then return .full
    else
      putAt qid { o.toItc with
        q := Function.update o.q o.minIdx msg
        minIdx := (o.minIdx+1) % o.sizeofQ }
      let rc ← unlockStageCall others qid
      let _ ← look fun s => s.store.sendEnd s.kernel qid
      if rc ≠ .ok then return rc
      else return .ok

/-- `q_vreceive`. -/
def qVreceiveCall (others : Others cfg numQ) (qid : Fin numQ) (flags : IpcFlags)
    (timeout clk : Clock) (bufLen : ℕ) : ItcCall cfg numQ (ItcErr × Option (List Byte × ℕ)) := do
  match ← slotAt qid with
  | none => return (.objDel,none)
  | some o =>
    if o.bType ≠ .vQueue then return (.objType,none)
    else if o.token ≤ 0 ∧ flags &&& nowait ≠ 0 then return (.noSem,none)
    else if o.maxSizeofM < bufLen then return (.bufSiz,none)
    else
      let rc ← lockStageCall others qid timeout clk
      unmasked fun k st => do
        let (st,e,msg) ← st.qVreceiveEnd k qid rc
        return (k,st,e,msg)

/-- `q_vsend`. -/
def qVsendCall (others : Others cfg numQ) (qid : Fin numQ) (msg : VMsg) (granted : Bool) :
    ItcCall cfg numQ ItcErr := do
  match ← slotAt qid with
  | none => return .objDel
  | some o =>
    if o.bType ≠ .vQueue then return .objType
    else if isFull o.toItc then return .full
    else
      unmasked fun k st => do
        let st ← st.mallocMb o.minIdx msg.copied.length granted
        return (k,st,PUnit.unit)
      if granted = false then return .noMem
      else
        unmasked fun k st => do
          let st ← st.fillSlot qid msg
          return (k,st,PUnit.unit)
        let rc ← unlockStageCall others qid
        let _ ← look fun s => s.store.sendEnd s.kernel qid
        if rc ≠ .ok then return rc
        else return .ok

/-- A call of the model that works on the contents of its slot. -/
def onSlot {A : Type} (qid : Fin numQ)
    (f : Kernel cfg → Option (Itc cfg) → Except Fault (Kernel cfg × Option (Itc cfg) × A)) :
    ItcCall cfg numQ A :=
  unmasked fun k st => do
    let slot ← st.slot qid
    let (k,slot,a) ← f k (slot.map fun o => o.toItc)
    return (k,slot.elim st (st.putItc qid),a)

/-- `q_send_ny`. In its error exits `TK_STI` stands behind the `return`. -/
def qSendNyCall (qid : Fin numQ) (msg : Msg) : ItcCall cfg numQ ItcErr := do
  tkCli
  match ← slotAt qid with
  | none => return .objDel
  | some o =>
    if o.bType ≠ .sQueue then return .objType
    else if isFull o.toItc then return .full
    else
      putAt qid { o.toItc with
        q := Function.update o.q o.minIdx msg
        minIdx := (o.minIdx+1) % o.sizeofQ }
      unmasked fun k st => do
        let o ← st.deref qid
        let (k,q,_) ← unlockStageNy k o.toItc
        return (k,st.putItc qid q,PUnit.unit)
      let _ ← look fun s => s.store.sendEnd s.kernel qid
      tkSti
      return .ok

/-- The operations of the component. -/
inductive ItcOp (numQ : ℕ)
  | smP (qid : Fin numQ) (flags : IpcFlags) (timeout : Clock)
  | smV (qid : Fin numQ)
  | qSend (qid : Fin numQ) (msg : Msg)
  | qReceive (qid : Fin numQ) (flags : IpcFlags) (timeout : Clock)
  | qVsend (qid : Fin numQ) (msg : VMsg) (granted : Bool)
  | qVreceive (qid : Fin numQ) (flags : IpcFlags) (timeout : Clock) (bufLen : ℕ)
  | smPny (qid : Fin numQ) (flags : IpcFlags) (timeout : Clock)
  | smVny (qid : Fin numQ)
  | qSendNy (qid : Fin numQ) (msg : Msg)
  | qReceiveNy (qid : Fin numQ) (flags : IpcFlags) (timeout : Clock)
  | qVsendNy (qid : Fin numQ) (msg : VMsg) (granted : Bool)
  | qVreceiveNy (qid : Fin numQ) (flags : IpcFlags) (timeout : Clock) (bufLen : ℕ)

/-- An operation with its return code. -/
def ItcOp.call (others : Others cfg numQ) (clk : Clock) : ItcOp numQ → ItcCall cfg numQ ItcErr
  | .smP qid flags timeout => smPCall others qid flags timeout clk
  | .smV qid => smVCall others qid
  | .qSend qid msg => qSendCall others qid msg
  | .qReceive qid flags timeout => do
    let r ← qReceiveCall others qid flags timeout clk
    return r.1
  | .qVsend qid msg granted => qVsendCall others qid msg granted
  | .qVreceive qid flags timeout bufLen => do
    let r ← qVreceiveCall others qid flags timeout clk bufLen
    return r.1
  | .smPny qid flags timeout => do
    let r ← onSlot qid fun k slot => Tinker.smPny k slot flags timeout clk
    return r.1
  | .smVny qid => do
    let r ← onSlot qid Tinker.smVny
    return r.1
  | .qSendNy qid msg => qSendNyCall qid msg
  | .qReceiveNy qid flags timeout => do
    let r ← onSlot qid fun k slot => Tinker.qReceiveNy k slot flags timeout clk
    return r.1
  | .qVsendNy qid msg granted => do
    let r ← unmasked fun k st => st.qVsendNy k qid msg granted
    return r.1
  | .qVreceiveNy qid flags timeout bufLen => do
    let r ← unmasked fun k st => st.qVreceiveNy k qid flags timeout clk bufLen
    return r.1

section

variable {A : Type} {s : Masked cfg numQ} {others : Others cfg numQ} {qid : Fin numQ}
  {timeout clk : Clock}

@[simp] theorem after_tkCli {Q : PUnit → Masked cfg numQ → Prop} {R : Fault → Masked cfg numQ → Prop} :
    After tkCli s Q R ↔ Q ⟨⟩ { s with enabled := false } := Iff.rfl

@[simp] theorem after_tkSti {Q : PUnit → Masked cfg numQ → Prop} {R : Fault → Masked cfg numQ → Prop} :
    After tkSti s Q R ↔ Q ⟨⟩ { s with enabled := true } := Iff.rfl

@[simp] theorem after_slotAt {Q : Option (ItcObj cfg) → Masked cfg numQ → Prop}
    {R : Fault → Masked cfg numQ → Prop} :
    After (slotAt qid) s Q R ↔ Spec (s.store.slot qid) (fun o => Q o s) (fun e => R e s) :=
  after_look

@[simp] theorem after_unmasked {f : Kernel cfg → ItcStore cfg numQ →
      Except Fault (Kernel cfg × ItcStore cfg numQ × A)}
    {Q : A → Masked cfg numQ → Prop} {R : Fault → Masked cfg numQ → Prop} :
    After (unmasked f) s Q R ↔ Spec (f s.kernel s.store)
      (fun r => Q r.2.2 { s with kernel := r.1, store := r.2.1 }) (fun e => R e s) := by
  simp only [unmasked,after_bind,after_look,after_modify,after_pure]

@[simp] theorem after_objAt {Q : ItcObj cfg → Masked cfg numQ → Prop}
    {R : Fault → Masked cfg numQ → Prop} :
    After (objAt qid) s Q R ↔ Spec (s.store.deref qid) (fun o => Q o s) (fun e => R e s) :=
  after_look

@[simp] theorem after_putAt {q : Itc cfg} {Q : PUnit → Masked cfg numQ → Prop}
    {R : Fault → Masked cfg numQ → Prop} :
    After (putAt qid q) s Q R ↔ Q ⟨⟩ { s with store := s.store.putItc qid q } := Iff.rfl

@[simp] theorem after_onTcb {t : Thid cfg} {f : Tcb cfg → Tcb cfg}
    {Q : PUnit → Masked cfg numQ → Prop} {R : Fault → Masked cfg numQ → Prop} :
    After (onTcb t f) s Q R ↔ Q ⟨⟩ { s with kernel := s.kernel.modTcb t f } := Iff.rfl

@[simp] theorem after_stiReturn {e : ItcErr} {Q : ItcErr → Masked cfg numQ → Prop}
    {R : Fault → Masked cfg numQ → Prop} :
    After (stiReturn e) s Q R ↔ Q e { s with enabled := true } := Iff.rfl

@[simp] theorem after_tkYieldCli {Q : PUnit → Masked cfg numQ → Prop}
    {R : Fault → Masked cfg numQ → Prop} :
    After (tkYieldCli others) s Q R ↔ Q ⟨⟩ ⟨(others (s.kernel,s.store)).1,
      (others (s.kernel,s.store)).2,false⟩ := Iff.rfl

/-! ### The stages are those of the model -/

theorem ItcStore.putItc_self {st : ItcStore cfg numQ} {o : ItcObj cfg}
    (ho : st.deref qid = .ok o) : st.putItc qid o.toItc = st := by
  rw [ItcStore.putItc,ItcStore.setObj,ItcStore.deref_ok ho]
  simp only [Option.map_some]
  rw [show some o = st.array qid from (ItcStore.deref_ok ho).symm,Function.update_eq_self]

theorem ItcStore.putItc_putItc {st : ItcStore cfg numQ} {q q' : Itc cfg} :
    (st.putItc qid q).putItc qid q' = st.putItc qid q' := by
  simp [ItcStore.putItc,ItcStore.setObj,Function.comp_def]

theorem ItcStore.deref_putItc {st : ItcStore cfg numQ} {o : ItcObj cfg} {q : Itc cfg}
    (ho : st.deref qid = .ok o) : (st.putItc qid q).deref qid = .ok { o with toItc := q } := by
  have ha := ItcStore.deref_ok ho
  refine ItcStore.deref_of_slot ?_
  cases hf : st.freed qid with
  | true =>
    rw [ItcStore.deref,ItcStore.slot,if_pos hf] at ho
    cases ho
  | false => simp [ItcStore.slot,ItcStore.putItc,ItcStore.setObj,hf,ha]

/-- Behind the yield of `unlock_stage` nothing is done any more. -/
theorem unlockStageCall_stages {o : ItcObj cfg} (ho : s.store.deref qid = .ok o) :
    After (unlockStageCall others qid) s (fun e s' => e = .ok ∧ ∃ k q yields,
      unlockStage s.kernel o.toItc = .ok (k,q,yields) ∧
      (s'.kernel,s'.store) =
        if yields then others (k,s.store.putItc qid q) else (k,s.store.putItc qid q))
      (fun e _ => unlockStage s.kernel o.toItc = .error e) := by
  simp only [unlockStageCall,after_bind,after_tkCli,after_objAt,ho,spec_ok,after_ite]
  refine ⟨fun ht => ⟨fun hp => ?_,fun hp => ?_⟩,fun ht => ?_⟩
  · simp only [after_look,unlockStage,if_pos ht,if_pos hp]
    cases bestBlocked s.kernel o.toItc with
    | error e => rfl
    | ok best =>
      cases best with
      | none => exact ⟨rfl,_,_,false,rfl,by rw [ItcStore.putItc_self ho]; rfl⟩
      | some p => exact ⟨rfl,_,_,true,rfl,rfl⟩
  · simp only [after_look,unlockStage,if_pos ht,if_neg hp]
    cases popBlocked s.kernel o.token.natAbs o.toItc with
    | error e => rfl
    | ok r => exact ⟨rfl,_,_,true,rfl,rfl⟩
  · simp only [after_putAt,after_stiReturn,unlockStage,if_neg ht]
    exact ⟨trivial,_,_,false,rfl,rfl⟩

/-- `lock_stage` up to its yield and what it does behind it, with its own thread running again. -/
theorem lockStageCall_stages {o : ItcObj cfg} (ho : s.store.deref qid = .ok o)
    (hothers : ∀ p, (others p).1.activeThread = p.1.activeThread) :
    After (lockStageCall others qid timeout clk) s (fun e s' =>
      match lockStage s.kernel o.toItc timeout clk with
      | (k,q,.ret e') => e = e' ∧ s'.kernel = k ∧ s'.store = s.store.putItc qid q
      | (k,q,.waits none) => e = .ok ∧ (s'.kernel,s'.store) = others (k,s.store.putItc qid q)
      | (k,q,.waits (some markIdx)) => ∀ o',
        (others (k,s.store.putItc qid q)).2.deref qid = .ok o' → ∃ q',
          lockStageWoken (others (k,s.store.putItc qid q)).1 o'.toItc markIdx =
            .ok (s'.kernel,q',e) ∧
          s'.store = (others (k,s.store.putItc qid q)).2.putItc qid q') (fun _ _ => True) := by
  simp only [lockStageCall,after_bind,after_tkCli,after_get,after_objAt,ho,spec_ok,after_ite,lockStage]
  refine ⟨fun ht => ?_,fun ht => ⟨fun hr => ⟨fun h0 => ?_,fun h0 => ?_⟩,fun hr => ?_⟩⟩
  · simp only [after_putAt,after_stiReturn,if_pos ht]
    exact ⟨trivial,trivial,trivial⟩
  · simp only [after_tkYieldCli,after_stiReturn,if_neg ht,if_pos hr,if_pos h0]
    exact ⟨trivial,trivial⟩
  · simp only [after_tkYieldCli,if_neg ht,if_pos hr,if_neg h0]
    have hact := hothers (s.kernel.modTcb s.kernel.activeThread (goToSleep timeout clk),
      s.store.putItc qid { o.toItc with
        token := o.token-1
        blockedProcs := Function.update o.blockedProcs o.inIdx (some s.kernel.activeThread)
        inIdx := succ cfg.maxBlockedOnQ o.inIdx })
    generalize others _ = p at hact ⊢
    have hact : p.1.activeThread = s.kernel.activeThread := hact
    simp only [lockStageWoken,hact]
    cases (p.1.pool s.kernel.activeThread).wakeupEvent with
    | timer =>
      simp only [after_bind,after_objAt]
      cases ho1 : p.2.deref qid with
      | error e => trivial
      | ok o1 =>
        simp only [spec_ok,after_ite,after_stiReturn,Except.ok.injEq,forall_eq']
        refine ⟨fun h0 => ⟨o1.toItc,if_pos h0,(ItcStore.putItc_self ho1).symm⟩,fun hneg => ?_⟩
        simp only [if_neg hneg,after_bind,after_putAt,after_objAt,ItcStore.deref_putItc ho1,spec_ok,
          after_ite,after_stiReturn]
        refine ⟨fun h0 => ⟨_,if_pos h0,rfl⟩,fun hneg1 => ?_⟩
        simp only [after_unmasked,spec_bind,spec_pure,if_neg hneg1,ItcStore.putItc_putItc]
        cases dropTimedOut _ _ _ _ with
        | error e => trivial
        | ok r => exact ⟨r.2,rfl,rfl⟩
    | _ =>
      simp only [after_stiReturn]
      exact fun o' ho' => ⟨o'.toItc,rfl,(ItcStore.putItc_self ho').symm⟩
  · simp only [after_stiReturn,if_neg ht,if_neg hr]
    exact ⟨trivial,trivial,(ItcStore.putItc_self ho).symm⟩

/-- A call that returns leaves the interrupts enabled. -/
def Enables (c : ItcCall cfg numQ A) (s : Masked cfg numQ) : Prop :=
  After c s (fun _ s' => s'.enabled = true) (fun _ _ => True)

theorem Enables.of_bind {B : Type} {c : ItcCall cfg numQ A} {f : A → ItcCall cfg numQ B}
    (h : ∀ a s', Enables (f a) s') : Enables (c >>= f) s :=
  after_bind.mpr (after_of_forall h)

/-- Statements behind an enabling one that do not touch the mask. -/
theorem Enables.bind {B : Type} {c : ItcCall cfg numQ A} {f : A → ItcCall cfg numQ B}
    (h : Enables c s) (hf : ∀ a s', s'.enabled = true → Enables (f a) s') : Enables (c >>= f) s :=
  after_bind.mpr (h.mono hf fun _ _ _ => trivial)

theorem Enables.pure (hs : s.enabled = true) (a : A) : Enables (Pure.pure a : ItcCall cfg numQ A) s :=
  hs

theorem Enables.unmasked (hs : s.enabled = true) (f : Kernel cfg → ItcStore cfg numQ →
    Except Fault (Kernel cfg × ItcStore cfg numQ × A)) : Enables (unmasked f) s :=
  after_unmasked.mpr (spec_of_forall fun _ => hs)

theorem Enables.look (hs : s.enabled = true) (f : Masked cfg numQ → Except Fault A) :
    Enables (look f) s :=
  after_look.mpr (spec_of_forall fun _ => hs)

theorem stiReturn_enables (e : ItcErr) : Enables (stiReturn e) s := rfl

/-- Every way out of `lock_stage` is a `STI_return`. -/
theorem lockStageCall_enables : Enables (lockStageCall others qid timeout clk) s := by
  refine .of_bind fun _ _ => .of_bind fun _ _ => .of_bind fun o _ => ?_
  split
  · exact .of_bind fun _ _ => stiReturn_enables _
  · split
    · refine .of_bind fun _ _ => .of_bind fun _ _ => ?_
      split
      · exact .of_bind fun _ _ => stiReturn_enables _
      · refine .of_bind fun _ _ => .of_bind fun _ _ => ?_
        split
        · refine .of_bind fun o _ => ?_
          split
          · exact stiReturn_enables _
          · refine .of_bind fun _ _ => .of_bind fun o _ => ?_
            split
            · exact stiReturn_enables _
            · exact .of_bind fun _ _ => stiReturn_enables _
        · exact stiReturn_enables _
        · exact stiReturn_enables _
    · exact stiReturn_enables _

theorem unlockStageCall_enables : Enables (unlockStageCall others qid) s := by
  refine .of_bind fun _ _ => .of_bind fun o _ => ?_
  split
  · split
    · refine .of_bind fun best _ => ?_
      split
      · exact stiReturn_enables _
      · exact .of_bind fun _ _ => .of_bind fun _ _ => .of_bind fun _ _ => stiReturn_enables _
    · exact .of_bind fun _ _ => .of_bind fun _ _ => .of_bind fun _ _ =>
        .of_bind fun _ _ => stiReturn_enables _
  · exact .of_bind fun _ _ => stiReturn_enables _

/-- A call that looks at its slot first. -/
theorem Enables.slot {f : Option (ItcObj cfg) → ItcCall cfg numQ A}
    (h : ∀ o, Enables (f o) s) : Enables (slotAt qid >>= f) s := by
  refine after_bind.mpr ?_
  rw [after_slotAt]
  exact spec_of_forall h

theorem smPCall_enables (hs : s.enabled = true) {flags : IpcFlags} :
    Enables (smPCall others qid flags timeout clk) s := by
  refine .slot fun slot => ?_
  cases slot with
  | none => exact .pure hs _
  | some o =>
    simp only
    split
    · exact .pure hs _
    · split
      · exact .pure hs _
      · exact lockStageCall_enables

theorem smVCall_enables (hs : s.enabled = true) : Enables (smVCall others qid) s := by
  refine .slot fun slot => ?_
  cases slot with
  | none => exact .pure hs _
  | some o =>
    simp only
    split
    · exact .pure hs _
    · exact unlockStageCall_enables

theorem qReceiveCall_enables (hs : s.enabled = true) {flags : IpcFlags} :
    Enables (qReceiveCall others qid flags timeout clk) s := by
  refine .slot fun slot => ?_
  cases slot with
  | none => exact .pure hs _
  | some o =>
    simp only
    split
    · exact .pure hs _
    · split
      · exact .pure hs _
      · exact lockStageCall_enables.bind fun _ _ hs' => .unmasked hs' _

theorem qVreceiveCall_enables (hs : s.enabled = true) {flags : IpcFlags} {bufLen : ℕ} :
    Enables (qVreceiveCall others qid flags timeout clk bufLen) s := by
  refine .slot fun slot => ?_
  cases slot with
  | none => exact .pure hs _
  | some o =>
    simp only
    split
    · exact .pure hs _
    · split
      · exact .pure hs _
      · split
        · exact .pure hs _
        · exact lockStageCall_enables.bind fun _ _ hs' => .unmasked hs' _

/-- What follows `unlock_stage` in the two sends. -/
theorem sendEnd_enables (hs : s.enabled = true) {rc : ItcErr} : Enables (do
    let _ ← look fun s : Masked cfg numQ => s.store.sendEnd s.kernel qid
    if rc ≠ .ok then return rc
    else return .ok) s := by
  refine (Enables.look hs _).bind fun _ _ hs' => ?_
  split
  · exact .pure hs' _
  · exact .pure hs' _

theorem qSendCall_enables (hs : s.enabled = true) {msg : Msg} :
    Enables (qSendCall others qid msg) s := by
  refine .slot fun slot => ?_
  cases slot with
  | none => exact .pure hs _
  | some o =>
    simp only
    split
    · exact .pure hs _
    · split
      · exact .pure hs _
      · refine .of_bind fun _ _ => ?_
        exact unlockStageCall_enables.bind fun _ _ hs' => sendEnd_enables hs'

theorem qVsendCall_enables (hs : s.enabled = true) {msg : VMsg} {granted : Bool} :
    Enables (qVsendCall others qid msg granted) s := by
  refine .slot fun slot => ?_
  cases slot with
  | none => exact .pure hs _
  | some o =>
    simp only
    split
    · exact .pure hs _
    · split
      · exact .pure hs _
      · refine (Enables.unmasked hs _).bind fun _ _ hs' => ?_
        split
        · exact .pure hs' _
        · refine .of_bind fun _ _ => ?_
          exact unlockStageCall_enables.bind fun _ _ hs' => sendEnd_enables hs'

/-- The checks of a send let it go on. -/
def SendAccepted (st : ItcStore cfg numQ) (qid : Fin numQ) : Prop :=
  ∀ slot, st.slot qid = .ok slot → ∃ o, slot = some o ∧ o.bType = .sQueue ∧ ¬isFull o.toItc

/-- The error exits of `q_send_ny` keep the interrupts off. -/
theorem qSendNyCall_enables_iff {msg : Msg} :
    Enables (qSendNyCall qid msg) s ↔ SendAccepted s.store qid := by
  unfold Enables qSendNyCall
  rw [after_bind,after_tkCli,after_bind,after_slotAt]
  unfold SendAccepted
  cases hslot : s.store.slot qid with
  | error e => exact iff_of_true trivial (by simp)
  | ok slot =>
    cases slot with
    | none =>
      refine iff_of_false (fun h => (by cases h)) fun h => ?_
      obtain ⟨o,ho,-⟩ := h none rfl
      cases ho
    | some o =>
      simp only [spec_ok,after_ite,after_pure,Except.ok.injEq,forall_eq',Option.some.injEq,
        exists_eq_left']
      by_cases hb : o.bType = .sQueue
      · by_cases hf : isFull o.toItc
        · simp [hb,hf]
        · refine iff_of_true ⟨fun h => absurd hb h,fun _ => ⟨fun h => absurd h hf,fun _ => ?_⟩⟩
            ⟨hb,hf⟩
          exact Enables.of_bind fun _ _ => .of_bind fun _ _ => .of_bind fun _ _ => rfl
      · simp [hb]

/-- What the condition says of each operation. -/
def ItcOp.Accepted (st : ItcStore cfg numQ) : ItcOp numQ → Prop
  | .qSendNy qid _ => SendAccepted st qid
  | _ => True

/-- An operation entered with interrupts enabled returns with interrupts enabled, unless it is a
`q_send_ny` that is refused. -/
theorem itcOp_enables_iff (others : Others cfg numQ) (clk : Clock) (op : ItcOp numQ)
    {s : Masked cfg numQ} (hs : s.enabled = true) :
    Enables (op.call others clk) s ↔ op.Accepted s.store := by
  cases op with
  | qSendNy qid msg => exact qSendNyCall_enables_iff
  | smP qid flags timeout => exact iff_of_true (smPCall_enables hs) trivial
  | smV qid => exact iff_of_true (smVCall_enables hs) trivial
  | qSend qid msg => exact iff_of_true (qSendCall_enables hs) trivial
  | qReceive qid flags timeout =>
    exact iff_of_true ((qReceiveCall_enables hs).bind fun _ _ hs' => .pure hs' _) trivial
  | qVsend qid msg granted => exact iff_of_true (qVsendCall_enables hs) trivial
  | qVreceive qid flags timeout bufLen =>
    exact iff_of_true ((qVreceiveCall_enables hs).bind fun _ _ hs' => .pure hs' _) trivial
  | smPny qid flags timeout =>
    exact iff_of_true ((Enables.unmasked hs _).bind fun _ _ hs' => .pure hs' _) trivial
  | smVny qid =>
    exact iff_of_true ((Enables.unmasked hs _).bind fun _ _ hs' => .pure hs' _) trivial
  | qReceiveNy qid flags timeout =>
    exact iff_of_true ((Enables.unmasked hs _).bind fun _ _ hs' => .pure hs' _) trivial
  | qVsendNy qid msg granted =>
    exact iff_of_true ((Enables.unmasked hs _).bind fun _ _ hs' => .pure hs' _) trivial
  | qVreceiveNy qid flags timeout bufLen =>
    exact iff_of_true ((Enables.unmasked hs _).bind fun _ _ hs' => .pure hs' _) trivial

end

/-- A table with an empty queue for one message in slot 0. -/
def oneSQueue : Masked gnuArm 4 :=
  ⟨fiveThreads,(ItcStore.clear 0).setObj 0 (some (qObj 1 fifo)),true⟩

theorem itcOp_enables_qSendNy : Enables (ItcOp.call id 0 (.qSendNy 0 (word 1))) oneSQueue := by
  refine (itcOp_enables_iff id 0 (.qSendNy 0 (word 1)) rfl).mpr fun slot hslot => ?_
  cases hslot
  exact ⟨qObj 1 fifo,rfl,rfl,by decide⟩

/-- There is no object in slot 1. -/
theorem itcOp_not_enables : ¬∀ (others : Others gnuArm 4) (clk : Clock) (op : ItcOp 4)
    (s : Masked gnuArm 4), s.enabled = true → Enables (op.call others clk) s := by
  intro h
  have hfull := h id 0 (.qSendNy 1 (word 1)) oneSQueue rfl
  cases hfull

end Tinker

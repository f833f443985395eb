import Mathlib.Data.Finset.Card
import Tinker.NonYielding
import Tinker.QueueRun

/-! Threads and interrupts on one fixed-size queue. An interrupt comes wherever a thread that has its
interrupts enabled may be: `q_receive` and `q_send` are cut also between the copying of a message
and the step of its index. -/
namespace Tinker

open Outcome Ring

variable {cfg : Config}

/-- Where a thread is: in its own code, behind a yield, or between two parts of a call. `granted` is
behind `lock_stage` where it returned `ERR_OK`, `posts` before `unlock_stage`. -/
inductive NyLoc
  | user | inReceive (markIdx : Option ℕ) | granted | copied (msg : Msg)
  | sends (msg : Msg) | written (msg : Msg) | posts | inSend
  deriving DecidableEq

/-- `accepted` and `returned` are the messages the sends have entered and the receives have returned
with `ERR_OK`, oldest first. -/
structure NyState (cfg : Config) where
  kernel : Kernel cfg
  itc : Itc cfg
  loc : Thid cfg → NyLoc
  yielding : Bool
  accepted : List Msg
  returned : List Msg

inductive NyLabel (cfg : Config)
  | qReceive (flags : IpcFlags) (timeout clk : Clock) | qSend (msg : Msg) | resume
  | yield (clk : Clock) (t : Thid cfg)
  | qReceiveNy (flags : IpcFlags) (timeout clk : Clock) | qSendNy (msg : Msg)

def NyState.runs (s : NyState cfg) : Bool :=
  !s.yielding && decide (s.loc s.kernel.activeThread = .user)

def nyEnabled (s : NyState cfg) : NyLabel cfg → Bool
  | .qReceive _ _ _ => s.runs
  | .qSend _ => s.runs
  | .resume => !s.yielding && decide (s.loc s.kernel.activeThread ≠ .user)
  | .yield clk t => (s.yielding || s.runs) && readyAfterSweep s.kernel clk t
  | .qReceiveNy _ _ _ => true
  | .qSendNy _ => true

/-- The running thread goes on. -/
def NyState.go (s : NyState cfg) (x : NyLoc) : NyState cfg :=
  { s with loc := Function.update s.loc s.kernel.activeThread x }

/-- `lock_stage` returns to `q_receive`. -/
def NyState.locked (s : NyState cfg) (rc : ItcErr) : Except Fault (NyState cfg) := do
  if rc = .ok then return s.go .granted
  else
    let consistent ← itcProveConcistency s.kernel s.itc
    check (consistent = true) .assertConsistent
    return s.go .user

/-- `unlock_stage` returns to `q_send`. -/
def NyState.sent (s : NyState cfg) : Except Fault (NyState cfg) := do
  let consistent ← itcProveConcistency s.kernel s.itc
  check (consistent = true) .assertConsistent
  return s.go .user

/-- The parts of `q_receive` and `q_send` behind the first one. -/
def nyResume (s : NyState cfg) : Except Fault (NyState cfg) :=
  match s.loc s.kernel.activeThread with
  | .user => .ok s
  | .inReceive none => s.locked .ok
  | .inReceive (some markIdx) => do
    let (k,q,e) ← lockStageWoken s.kernel s.itc markIdx
    NyState.locked { s with kernel := k, itc := q } e
  | .granted => do
    let consistent ← itcProveConcistency s.kernel s.itc
    check (consistent = true) .assertConsistent
    return s.go (.copied (s.itc.q s.itc.moutIdx))
  | .copied msg => .ok { s.go .user with
      itc := { s.itc with moutIdx := (s.itc.moutIdx+1) % s.itc.sizeofQ }
      returned := s.returned ++ [msg] }
  | .sends msg => .ok { s.go (.written msg) with
      itc := { s.itc with q := Function.update s.itc.q s.itc.minIdx msg } }
  | .written msg => .ok { s.go .posts with
      itc := { s.itc with minIdx := (s.itc.minIdx+1) % s.itc.sizeofQ }
      accepted := s.accepted ++ [msg] }
  | .posts => do
    let (k,q,yields) ← unlockStage s.kernel s.itc
    if yields then return { s.go .inSend with kernel := k, itc := q, yielding := true }
    else NyState.sent { s with kernel := k, itc := q }
  | .inSend => s.sent

def nyNext (s : NyState cfg) : NyLabel cfg → Except Fault (NyState cfg)
  | .qReceive flags timeout clk =>
    if s.itc.token ≤ 0 ∧ flags &&& nowait ≠ 0 then .ok s
    else
      match lockStage s.kernel s.itc timeout clk with
      | (k,q,.ret e) => NyState.locked { s with kernel := k, itc := q } e
      | (k,q,.waits m) => .ok { s.go (.inReceive m) with kernel := k, itc := q, yielding := true }
  | .qSend msg => if isFull s.itc then .ok s else .ok (s.go (.sends msg))
  | .resume => nyResume s
  | .yield clk t => do
    let k ← tkWakeupTimedoutThreads s.kernel clk
    return { s with kernel := k.dispatch t, yielding := false }
  | .qReceiveNy flags timeout clk => do
    let (k,slot,_,msg,_) ← qReceiveNy s.kernel (some s.itc) flags timeout clk
    return { s with kernel := k, itc := slot.getD s.itc, returned := s.returned ++ msg.toList }
  | .qSendNy msg => do
    let (k,slot,_,_) ← qSendNy s.kernel (some s.itc) msg
    return { s with
      kernel := k
      itc := slot.getD s.itc
      accepted := if isFull s.itc then s.accepted else s.accepted ++ [msg] }

def nyMachine (cfg : Config) : Machine (NyState cfg) (NyLabel cfg) Fault where
  enabled := nyEnabled
  next := nyNext

/-- A queue fresh from `q_create`. -/
def nyInit (k : Kernel cfg) (count : ℕ) (flags : IpcFlags) : NyState cfg where
  kernel := k
  itc := qCreate count flags
  loc := fun _ => .user
  yielding := false
  accepted := []
  returned := []

/-- A slot is free. -/
def NyState.Free (s : NyState cfg) : Prop :=
  s.accepted.length < s.returned.length+s.itc.sizeofQ

def NyLoc.isSends : NyLoc → Bool
  | .sends _ => true
  | _ => false

def NyLoc.isCopied : NyLoc → Bool
  | .copied _ => true
  | _ => false

def NyLoc.isWritten : NyLoc → Bool
  | .written _ => true
  | _ => false

/-- A message is written only while a slot is free. An interrupt sends only where the running thread
is not between the copying of its message and the step of `min_idx`, takes a message only where it
is not so in `q_receive`, and makes no call that would wait. -/
def Orderly (s : NyState cfg) : NyLabel cfg → Prop
  | .resume => (s.loc s.kernel.activeThread).isSends = true → s.Free
  | .qReceiveNy flags _ _ => ¬Waits (some s.itc) .sQueue flags ∧
      (0 < s.itc.token → (s.loc s.kernel.activeThread).isCopied = false)
  | .qSendNy _ => ¬isFull s.itc → s.Free ∧ (s.loc s.kernel.activeThread).isWritten = false
  | _ => True

instance decidableWouldWait (q : Itc cfg) : Decidable q.WouldWait := instDecidableAnd

instance decidableWaits : (slot : Option (Itc cfg)) → (b : ItcSet) → (flags : IpcFlags) →
    Decidable (Waits slot b flags)
  | none, _, _ => isFalse not_waits_none
  | some _, _, _ => decidable_of_iff _ waits_some.symm

instance decidableNyFree (s : NyState cfg) : Decidable s.Free := Nat.decLt _ _

instance decidableOrderly (s : NyState cfg) : (x : NyLabel cfg) → Decidable (Orderly s x)
  | .resume => inferInstanceAs (Decidable (_ → _))
  | .qReceiveNy _ _ _ => instDecidableAnd
  | .qSendNy _ => inferInstanceAs (Decidable (¬_ → _ ∧ _))
  | .qReceive _ _ _ => isTrue trivial
  | .qSend _ => isTrue trivial
  | .yield _ _ => isTrue trivial

/-! ### The stages -/

/-- What the stages do to an object: its messages stay, and a token that is not positive stays so. -/
structure Itc.Staged (q q' : Itc cfg) : Prop where
  body : q.SameBody q'
  token : q.token ≤ 0 → q'.token ≤ 0

section

variable {k k' : Kernel cfg} {q q' q'' : Itc cfg}

theorem Itc.Staged.refl (q : Itc cfg) : q.Staged q := ⟨.refl q,id⟩

theorem Itc.Staged.trans (h : q.Staged q') (h' : q'.Staged q'') : q.Staged q'' :=
  ⟨h.body.trans h'.body,fun ht => h'.token (h.token ht)⟩

theorem itcRemoveBlocked_staged (ht : q.token < 0) (idx : ℕ) :
    q.Staged (itcRemoveBlocked q idx) := by
  simp only [itcRemoveBlocked]
  split
  · exact ⟨⟨rfl,rfl,rfl,rfl,rfl,rfl⟩,fun _ => ht⟩
  · split
    · exact ⟨⟨rfl,rfl,rfl,rfl,rfl,rfl⟩,fun _ => ht⟩
    · exact ⟨⟨rfl,rfl,rfl,rfl,rfl,rfl⟩,fun _ => ht⟩

theorem popBlocked_staged {fuel : ℕ} (ht : q.token < 0) :
    Spec (popBlocked k fuel q) (fun r => q.Staged r.2) (fun _ => True) := by
  induction fuel generalizing q with
  | zero => trivial
  | succ fuel ih =>
    have hpop : q.Staged { q with
        outIdx := succ cfg.maxBlockedOnQ q.outIdx, token := q.token+1 } :=
      ⟨⟨rfl,rfl,rfl,rfl,rfl,rfl⟩,fun _ => ht⟩
    simp only [popBlocked,spec_bind,spec_ite,spec_pure]
    exact spec_of_forall fun him =>
      ⟨fun hgo => (ih hgo.2).imp fun r hr => hpop.trans hr,fun _ => hpop⟩

theorem dropTimedOut_staged {fuel markIdx : ℕ} (ht : q.token < 0) :
    Spec (dropTimedOut fuel markIdx k q) (fun r => q.Staged r.2) (fun _ => True) := by
  induction fuel generalizing k q markIdx with
  | zero => trivial
  | succ fuel ih =>
    simp only [dropTimedOut,spec_bind]
    refine spec_of_forall fun t => ?_
    have hrem := itcRemoveBlocked_staged ht markIdx
    by_cases hc : (k.pool t).state = .ready ∧ (k.pool t).wakeupEvent = .timer
    · simp only [if_pos hc,spec_ite,spec_pure]
      exact ⟨fun _ => hrem,fun _ => ⟨fun hgo => (ih hgo.1).imp fun r hr => hrem.trans hr,fun _ => hrem⟩⟩
    · simp only [if_neg hc,spec_ite,spec_pure]
      exact ⟨fun _ => .refl q,fun _ => ⟨fun hgo => ih hgo.1,fun _ => .refl q⟩⟩

/-- `lock_stage` behind the yield of a timed wait. -/
theorem lockStageWoken_staged {markIdx : ℕ} : Spec (lockStageWoken k q markIdx) (fun r =>
    DropsTimedOut k r.1 ∧ q.SameBody r.2.1 ∧ r.2.1.token.toNat = q.token.toNat ∧
    (r.2.2 = .ok → (k.pool k.activeThread).wakeupEvent ≠ .timer ∧
      (k.pool k.activeThread).wakeupEvent ≠ .itc2)) (fun _ => True) := by
  refine Spec.and (lockStageWoken_drops.imp fun r hr => hr.1) ?_
  have hnat : ∀ q', q.token < 0 → q.Staged q' → q'.token.toNat = q.token.toNat := by
    intro q' ht hs
    have := hs.token ht.le
    omega
  unfold lockStageWoken
  split
  · simp only [spec_ite,spec_ok,spec_bind,spec_pure]
    refine ⟨fun _ => ⟨.refl q,trivial,fun h => (by cases h)⟩,fun hneg => ?_⟩
    have hrem := itcRemoveBlocked_staged (q:=q) (by omega) (pred cfg.maxBlockedOnQ markIdx)
    refine ⟨fun _ => ⟨hrem.body,hnat _ (by omega) hrem,fun h => (by cases h)⟩,fun hneg1 => ?_⟩
    refine (dropTimedOut_staged (by omega)).imp fun r hr => ?_
    exact ⟨(hrem.trans hr).body,hnat _ (by omega) (hrem.trans hr),fun h => by cases h⟩
  · exact ⟨.refl q,rfl,fun h => by cases h⟩
  · next h1 h2 => exact ⟨.refl q,rfl,fun _ => ⟨h1,h2⟩⟩

/-- `unlock_stage` and `_unlock_stage_ny` raise the token, or ready one thread if any. -/
def Unlocks (k : Kernel cfg) (q : Itc cfg) (k' : Kernel cfg) (q' : Itc cfg) : Prop :=
  q.SameBody q' ∧ (k' = k ∧ q'.token.toNat ≤ q.token.toNat+1 ∨
    ∃ him, k' = readyByItc k him ∧ q'.token.toNat = 0)

theorem unlockStage_unlocks : Spec (unlockStage k q) (fun r => Unlocks k q r.1 r.2.1)
    (fun _ => True) := by
  simp only [unlockStage,spec_ite,spec_bind,spec_ok,spec_pure]
  refine ⟨fun ht => ⟨fun _ => ?_,fun _ => ?_⟩,fun ht => ?_⟩
  · refine spec_of_forall fun best => ?_
    cases best with
    | none => exact ⟨.refl q,Or.inl ⟨rfl,Nat.le_succ _⟩⟩
    | some p =>
      have hrem := itcRemoveBlocked_staged ht p.1
      have htok := hrem.token ht.le
      exact ⟨hrem.body,Or.inr ⟨p.2,rfl,by simp only; omega⟩⟩
  · refine (popBlocked_staged ht).imp fun p hp => ?_
    have htok := hp.token ht.le
    exact ⟨hp.body,Or.inr ⟨p.1,rfl,by omega⟩⟩
  · have hle := toInt32_le (z:=q.token+1) (by omega)
    exact ⟨⟨rfl,rfl,rfl,rfl,rfl,rfl⟩,Or.inl ⟨rfl,by simp only; omega⟩⟩

theorem unlockStageNy_unlocks : Spec (unlockStageNy k q) (fun r => Unlocks k q r.1 r.2.1)
    (fun _ => True) := by
  have heq := unlockStageNy_eq k q
  have hst := unlockStage_unlocks (k:=k) (q:=q)
  cases hn : unlockStageNy k q with
  | error e => trivial
  | ok r =>
    rw [hn] at heq
    obtain ⟨r',hr',he⟩ := map_eq_ok.mp heq.symm
    obtain ⟨h1,h2⟩ := Prod.mk.inj he
    have := hst.of_ok hr'
    rw [h1,h2] at this
    exact this

end

/-! ### Who holds a message -/

/-- A thread holds one of the pending messages: it receives and will return it, or it has entered it
and has not posted yet. -/
def holds (b : Tcb cfg) : NyLoc → Bool
  | .user => false
  | .inReceive m => !b.state.has .queue &&
      (m.isNone || decide (b.wakeupEvent ≠ .timer ∧ b.wakeupEvent ≠ .itc2))
  | .granted => true
  | .copied _ => true
  | .sends _ => false
  | .written _ => false
  | .posts => true
  | .inSend => false

def holders (s : NyState cfg) : Finset (Thid cfg) :=
  Finset.univ.filter fun t => holds (s.kernel.pool t) (s.loc t) = true

/-- Between two parts of a call. -/
def NyLoc.midCall : NyLoc → Bool
  | .user => false
  | .inReceive _ => false
  | .inSend => false
  | _ => true

/-- What is known of the threads. -/
structure NyThreads (s : NyState cfg) : Prop where
  inside : ∀ t, (s.loc t).midCall = true → t = s.kernel.activeThread ∧ s.yielding = false
  untimed : ∀ t, s.loc t = .inReceive none → (s.kernel.pool t).state.has .sleep = false
  alive : Alive s.kernel
  running : s.yielding = false → (s.kernel.pool s.kernel.activeThread).state = .ready

/-- The slots hold the messages accepted and not returned, oldest first, and there are enough of them
for the token and for those who hold one. -/
structure NyInv (s : NyState cfg) (pending : List Msg) : Prop where
  threads : NyThreads s
  sQueue : s.itc.bType = .sQueue
  slots : s.itc.Slots pending
  accepted : s.accepted = s.returned ++ pending
  owed : s.itc.token.toNat+(holders s).card ≤ pending.length
  copied : ∀ msg, s.loc s.kernel.activeThread = .copied msg → ∃ rest, pending = msg :: rest
  written : ∀ msg, s.loc s.kernel.activeThread = .written msg →
    pending.length < s.itc.sizeofQ ∧ s.itc.q s.itc.minIdx = msg

section

variable {s s' : NyState cfg} {pending : List Msg}

@[simp] theorem mem_holders {t : Thid cfg} :
    t ∈ holders s ↔ holds (s.kernel.pool t) (s.loc t) = true := by
  simp [holders]

theorem card_holders {D : Finset (Thid cfg)} (h : ∀ t ∉ D, t ∈ holders s' → t ∈ holders s) :
    (holders s').card ≤ (holders s).card+D.card := by
  have hsub : holders s' \ D ⊆ holders s := by
    intro t ht
    rw [Finset.mem_sdiff] at ht
    exact h t ht.2 ht.1
  calc (holders s').card ≤ (holders s' \ D).card+D.card := Finset.card_le_card_sdiff_add_card
    _ ≤ (holders s).card+D.card := Nat.add_le_add_right (Finset.card_le_card hsub) _

theorem NyThreads.user (he : s.runs = true) :
    s.yielding = false ∧ s.loc s.kernel.activeThread = .user := by
  simpa [NyState.runs] using he

/-- The running thread goes on to `x`. -/
theorem NyThreads.go (h : NyThreads s) (hy : s.yielding = false) {x : NyLoc}
    (hx : x ≠ .inReceive none) (hk : s'.kernel = s.kernel)
    (hl : s'.loc = Function.update s.loc s.kernel.activeThread x) (hy' : s'.yielding = false) :
    NyThreads s' where
  inside := fun t ht => by
    rw [hl] at ht
    rw [hk,hy']
    by_cases hme : t = s.kernel.activeThread
    · exact ⟨hme,rfl⟩
    · rw [Function.update_of_ne hme] at ht
      exact ⟨(h.inside t ht).1,rfl⟩
  untimed := fun t ht => by
    rw [hl] at ht
    rw [hk]
    exact h.untimed t (of_update_eq ht hx)
  alive := hk ▸ h.alive
  running := fun _ => hk ▸ h.running hy

/-- A thread is readied by the object. -/
theorem NyThreads.serves (h : NyThreads s) {him : Thid cfg}
    (hk : s'.kernel = readyByItc s.kernel him) (hl : s'.loc = s.loc)
    (hy : s'.yielding = s.yielding) : NyThreads s' where
  inside := fun t ht => by
    rw [hl] at ht
    rw [hk,hy]
    exact h.inside t ht
  untimed := fun t ht => by
    rw [hl] at ht
    rw [hk,readyByItc,Kernel.modTcb_pool]
    split
    · exact ProcState.clear_queueSleepTerm_has_sleep _
    · exact h.untimed t ht
  alive := by
    rw [hk]
    exact h.alive.readyByItc him
  running := fun hf => by
    rw [hy] at hf
    have hready := h.running hf
    have hact : (readyByItc s.kernel him).activeThread = s.kernel.activeThread := rfl
    rw [hk,hact,readyByItc,Kernel.modTcb_pool]
    by_cases he : s.kernel.activeThread = him
    · rw [if_pos he,← he,hready]
      rfl
    · rw [if_neg he]
      exact hready

/-- Others are told that they have timed out. -/
theorem NyThreads.drops (h : NyThreads s) (hd : DropsTimedOut s.kernel s'.kernel)
    (hl : s'.loc = s.loc) (hy : s'.yielding = s.yielding) : NyThreads s' := by
  have hsame : ∀ t, (s'.kernel.pool t).valid = (s.kernel.pool t).valid ∧
      (s'.kernel.pool t).state = (s.kernel.pool t).state := fun t => by
    obtain he | ⟨-,he⟩ := hd.pool t
    · rw [he]
      exact ⟨rfl,rfl⟩
    · rw [he]
      exact ⟨rfl,rfl⟩
  have hact : s'.kernel.activeThread = s.kernel.activeThread := by rw [hd.rest]
  refine ⟨fun t ht => ?_,fun t ht => ?_,fun t hv => ?_,fun hf => ?_⟩
  · rw [hl] at ht
    rw [hact,hy]
    exact h.inside t ht
  · rw [hl] at ht
    rw [(hsame t).2]
    exact h.untimed t ht
  · rw [(hsame t).1] at hv
    rw [(hsame t).2]
    exact h.alive t hv
  · rw [hact,(hsame _).2]
    exact h.running (hy ▸ hf)

/-- Who held a message before an object readied a thread still does, and that thread may. -/
theorem card_holders_serves {him : Thid cfg} (hk : s'.kernel = readyByItc s.kernel him)
    (hl : s'.loc = s.loc) : (holders s').card ≤ (holders s).card+1 := by
  refine card_holders (D:={him}) fun t ht hm => ?_
  rw [Finset.mem_singleton] at ht
  rw [mem_holders] at hm ⊢
  rwa [hk,hl,readyByItc,Kernel.modTcb_pool,if_neg ht] at hm

section

variable {x : NyLoc} (hk : s'.kernel = s.kernel)
  (hl : s'.loc = Function.update s.loc s.kernel.activeThread x)
include hk hl

theorem mem_holders_goes {t : Thid cfg} (ht : t ≠ s.kernel.activeThread) :
    t ∈ holders s' ↔ t ∈ holders s := by
  rw [mem_holders,mem_holders,hk,hl,Function.update_of_ne ht]

theorem card_holders_enter : (holders s').card ≤ (holders s).card+1 :=
  card_holders (D:={s.kernel.activeThread}) fun t ht hm => by
    rw [Finset.mem_singleton] at ht
    exact (mem_holders_goes hk hl ht).mp hm

/-- Going on does not make the running thread one that holds a message. -/
theorem card_holders_goes (hx : holds (s.kernel.pool s.kernel.activeThread) x = true →
    s.kernel.activeThread ∈ holders s) : (holders s').card ≤ (holders s).card := by
  refine Finset.card_le_card fun t hm => ?_
  by_cases ht : t = s.kernel.activeThread
  · subst ht
    rw [mem_holders,hk,hl,Function.update_self] at hm
    exact hx hm
  · exact (mem_holders_goes hk hl ht).mp hm

theorem card_holders_leave (hm : s.kernel.activeThread ∈ holders s)
    (hx : holds (s.kernel.pool s.kernel.activeThread) x = false) :
    (holders s').card+1 ≤ (holders s).card := by
  have hnot : s.kernel.activeThread ∉ holders s' := by
    rw [mem_holders,hk,hl,Function.update_self,hx]
    decide
  rw [← Finset.card_insert_of_notMem hnot]
  refine Finset.card_le_card fun t ht => ?_
  obtain rfl | ht := Finset.mem_insert.mp ht
  · exact hm
  · refine (mem_holders_goes hk hl ?_).mp ht
    rintro rfl
    exact hnot ht

end

/-- The running thread goes on to `x`. -/
theorem NyInv.goes {pending' : List Msg} {x : NyLoc} (h : NyInv s pending)
    (hy : s.yielding = false) (hx : x ≠ .inReceive none) (hk : s'.kernel = s.kernel)
    (hl : s'.loc = Function.update s.loc s.kernel.activeThread x) (hy' : s'.yielding = false)
    (hb : s'.itc.bType = .sQueue) (hs : s'.itc.Slots pending')
    (ha : s'.accepted = s'.returned ++ pending')
    (ho : s'.itc.token.toNat+(holders s').card ≤ pending'.length)
    (hc : ∀ msg, x = .copied msg → ∃ rest, pending' = msg :: rest)
    (hw : ∀ msg, x = .written msg →
      pending'.length < s'.itc.sizeofQ ∧ s'.itc.q s'.itc.minIdx = msg) : NyInv s' pending' := by
  refine ⟨h.threads.go hy hx hk hl hy',hb,hs,ha,ho,fun msg hm => ?_,fun msg hm => ?_⟩
  · rw [hk,hl,Function.update_self] at hm
    exact hc msg hm
  · rw [hk,hl,Function.update_self] at hm
    exact hw msg hm

/-- A call ends or goes on without a message changing hands. -/
theorem NyInv.go (h : NyInv s pending) (hy : s.yielding = false) {x : NyLoc}
    (hx : x ≠ .inReceive none) (hm : holds (s.kernel.pool s.kernel.activeThread) x = true →
      s.kernel.activeThread ∈ holders s) (hc : ∀ msg, x = .copied msg → ∃ rest, pending = msg :: rest)
    (hw : ∀ msg, x ≠ .written msg) : NyInv (s.go x) pending := by
  have hcard : (holders (s.go x)).card ≤ (holders s).card := card_holders_goes rfl rfl hm
  exact h.goes hy hx rfl rfl hy h.sQueue h.slots h.accepted
    ((Nat.add_le_add_left hcard _).trans h.owed) hc fun msg hx => absurd hx (hw msg)

/-- The thread goes to a place where it holds no message and has written none. -/
theorem NyInv.leaves (h : NyInv s pending) (hy : s.yielding = false) {x : NyLoc}
    (hx : x = .user ∨ x = .inSend ∨ ∃ msg, x = .sends msg) : NyInv (s.go x) pending := by
  obtain rfl | rfl | ⟨msg,rfl⟩ := hx <;>
    exact h.go hy (by simp) (fun hm => by cases hm) (by simp) (by simp)

theorem NyInv.sent (h : NyInv s pending) (hy : s.yielding = false) :
    Spec s.sent (fun s' => NyInv s' pending) (fun _ => True) := by
  simp only [NyState.sent,spec_bind,spec_check,spec_pure]
  exact spec_of_forall fun c =>
    ⟨fun _ => h.leaves hy (Or.inl rfl),fun _ => trivial⟩

/-- `lock_stage` returns to `q_receive`, with `ERR_OK` only where the thread holds a message. -/
theorem NyInv.locked (h : NyInv s pending) (hy : s.yielding = false) {rc : ItcErr}
    (hm : rc = .ok → s.kernel.activeThread ∈ holders s) :
    Spec (s.locked rc) (fun s' => NyInv s' pending) (fun _ => True) := by
  simp only [NyState.locked,spec_ite,spec_pure,spec_bind,spec_check]
  refine ⟨fun hok => h.go hy (by simp) (fun _ => hm hok) (by simp) (by simp),fun _ => ?_⟩
  exact spec_of_forall fun c =>
    ⟨fun _ => h.leaves hy (Or.inl rfl),fun _ => trivial⟩

theorem NyInv.exists_cons (h : NyInv s pending) (hp : 0 < s.itc.token.toNat+(holders s).card) :
    ∃ msg rest, pending = msg :: rest :=
  List.exists_cons_of_length_pos (hp.trans_le h.owed)

/-! ### The steps -/

/-- A receiver goes to sleep. -/
theorem NyInv.waits (h : NyInv s pending) (he : s.runs = true) {timeout clk : Clock} {m : Option ℕ}
    (hm : m = none → timeout = 0)
    (hk : s'.kernel = s.kernel.modTcb s.kernel.activeThread (goToSleep timeout clk))
    (hl : s'.loc = Function.update s.loc s.kernel.activeThread (.inReceive m))
    (hy' : s'.yielding = true) (hb : s.itc.SameBody s'.itc) (ht : s'.itc.token ≤ 0)
    (ha : s'.accepted = s.accepted) (hr : s'.returned = s.returned) : NyInv s' pending := by
  obtain ⟨hy,hloc⟩ := NyThreads.user he
  have hready := h.threads.running hy
  have hother : ∀ t ≠ s.kernel.activeThread, s'.kernel.pool t = s.kernel.pool t ∧ s'.loc t = s.loc t := by
    intro t hne
    rw [hk,hl,Kernel.modTcb_pool,if_neg hne,Function.update_of_ne hne]
    exact ⟨rfl,rfl⟩
  have hpool : s'.kernel.pool s.kernel.activeThread =
      goToSleep timeout clk (s.kernel.pool s.kernel.activeThread) := by
    rw [hk,Kernel.modTcb_pool,if_pos rfl]
  have hme : s'.loc s.kernel.activeThread = .inReceive m := by rw [hl,Function.update_self]
  have hact : s'.kernel.activeThread = s.kernel.activeThread := by rw [hk]; rfl
  have hstate := goToSleep_state timeout clk hready
  have hcard : (holders s').card ≤ (holders s).card := by
    refine Finset.card_le_card fun t hm => ?_
    rw [mem_holders] at hm ⊢
    by_cases hne : t = s.kernel.activeThread
    · subst hne
      have hq : (goToSleep timeout clk (s.kernel.pool s.kernel.activeThread)).state.has .queue = true := by
        rw [hstate]
        split <;> decide
      rw [hpool,hme,holds,hq] at hm
      cases hm
    · rwa [(hother t hne).1,(hother t hne).2] at hm
  refine ⟨⟨fun t htm => ?_,fun t htl => ?_,?_,fun hf => ?_⟩,hb.bType.trans h.sQueue,
    h.slots.sameBody hb,by rw [ha,hr]; exact h.accepted,?_,fun msg hx => ?_,fun msg hx => ?_⟩
  · by_cases hne : t = s.kernel.activeThread
    · subst hne
      rw [hme] at htm
      cases htm
    · rw [(hother t hne).2] at htm
      exact absurd (h.threads.inside t htm).1 hne
  · by_cases hne : t = s.kernel.activeThread
    · subst hne
      rw [hme] at htl
      rw [hpool,hstate,if_pos (hm (NyLoc.inReceive.inj htl))]
      rfl
    · rw [(hother t hne).2] at htl
      rw [(hother t hne).1]
      exact h.threads.untimed t htl
  · rw [hk]
    refine h.threads.alive.modTcb fun _ => ?_
    rw [hstate]
    split <;> decide
  · rw [hy'] at hf
    cases hf
  · have := h.owed
    omega
  · rw [hact,hme] at hx
    cases hx
  · rw [hact,hme] at hx
    cases hx

/-- `q_receive` up to the end of its `lock_stage` or to its yield. -/
theorem NyInv.qReceive (h : NyInv s pending) (he : s.runs = true) {flags : IpcFlags}
    {timeout clk : Clock} : Spec (nyNext s (.qReceive flags timeout clk))
      (fun s' => NyInv s' pending) (fun _ => True) := by
  obtain ⟨hy,hloc⟩ := NyThreads.user he
  have howed := h.owed
  simp only [nyNext]
  by_cases hns : s.itc.token ≤ 0 ∧ flags &&& nowait ≠ 0
  · rw [if_pos hns]
    exact h
  · rw [if_neg hns]
    simp only [lockStage]
    by_cases ht : 0 < s.itc.token
    · -- the thread has its token, so it holds a message from here on
      simp only [if_pos ht,NyState.locked,if_true,spec_pure]
      have hcard : (holders (NyState.go { s with
          itc := { s.itc with token := s.itc.token-1 } } .granted)).card ≤ (holders s).card+1 :=
        card_holders_enter rfl rfl
      refine h.goes hy (x:=.granted) (by simp) rfl rfl hy h.sQueue ⟨h.slots.fills,h.slots.minIdx⟩
        h.accepted ?_ (by simp) (by simp)
      simp only [NyState.go] at hcard ⊢
      omega
    · by_cases hr : s.itc.token.natAbs < cfg.maxBlockedOnQ-1
      · simp only [if_neg ht,if_pos hr]
        refine h.waits he (fun hm => ?_) rfl rfl rfl ⟨rfl,rfl,rfl,rfl,rfl,rfl⟩ ?_ rfl rfl
        · by_contra h0
          rw [if_neg h0] at hm
          cases hm
        · simp only
          omega
      · simp only [if_neg ht,if_neg hr]
        exact h.locked hy fun h => by cases h

/-- A message that nobody holds yet goes to the token or to a thread. -/
theorem NyInv.unlocks {k : Kernel cfg} {q : Itc cfg} (h : NyInv s pending)
    (hroom : s.itc.token.toNat+(holders s).card+1 ≤ pending.length)
    (hu : Unlocks s.kernel s.itc k q) : NyInv { s with kernel := k, itc := q } pending := by
  obtain ⟨hb,⟨rfl,ht⟩ | ⟨him,rfl,ht⟩⟩ := hu
  · refine ⟨⟨h.threads.inside,h.threads.untimed,h.threads.alive,h.threads.running⟩,
      hb.bType.trans h.sQueue,h.slots.sameBody hb,h.accepted,?_,h.copied,fun msg hm => ?_⟩
    · have hsame : holders { s with itc := q } = holders s := rfl
      simp only [hsame]
      omega
    · simp only [hb.sizeofQ,hb.q,hb.minIdx]
      exact h.written msg hm
  · refine ⟨h.threads.serves rfl rfl rfl,hb.bType.trans h.sQueue,h.slots.sameBody hb,h.accepted,?_,
      h.copied,fun msg hm => ?_⟩
    · have hcard : (holders { s with kernel := readyByItc s.kernel him, itc := q }).card ≤
          (holders s).card+1 := card_holders_serves rfl rfl
      simp only [ht]
      omega
    · simp only [hb.sizeofQ,hb.q,hb.minIdx]
      exact h.written msg hm

/-- The thread yields. -/
theorem NyInv.yields (h : NyInv s pending) (hm : (s.loc s.kernel.activeThread).midCall = false) :
    NyInv { s with yielding := true } pending := by
  refine ⟨⟨fun t ht => ?_,h.threads.untimed,h.threads.alive,fun hf => (by cases hf)⟩,h.sQueue,h.slots,
    h.accepted,h.owed,h.copied,h.written⟩
  rw [(h.threads.inside t ht).1,hm] at ht
  cases ht

/-- `unlock_stage`, before which the thread holds the message it has entered. -/
theorem NyInv.posts (h : NyInv s pending) (hy : s.yielding = false)
    (hloc : s.loc s.kernel.activeThread = .posts) :
    Spec (nyResume s) (fun s' => NyInv s' pending) (fun _ => True) := by
  have hmem : s.kernel.activeThread ∈ holders s := by rw [mem_holders,hloc]; rfl
  have hroom : ∀ x, holds (s.kernel.pool s.kernel.activeThread) x = false →
      s.itc.token.toNat+(holders (s.go x)).card+1 ≤ pending.length := fun x hx => by
    have hcard : (holders (s.go x)).card+1 ≤ (holders s).card := card_holders_leave rfl rfl hmem hx
    have := h.owed
    omega
  simp only [nyResume,hloc,spec_bind]
  refine unlockStage_unlocks.imp ?_
  rintro ⟨k,q,yields⟩ hu
  simp only [spec_ite,spec_pure]
  refine ⟨fun _ => ?_,fun _ => ?_⟩
  · have hgo := h.leaves hy (Or.inr (Or.inl rfl))
    have hserved := hgo.unlocks (hroom _ rfl) hu
    refine hserved.yields ?_
    have hact : k.activeThread = s.kernel.activeThread := by
      obtain ⟨-,⟨rfl,-⟩ | ⟨him,rfl,-⟩⟩ := hu
      · rfl
      · rfl
    simp only [NyState.go,hact,Function.update_self]
    rfl
  · have hgo := h.leaves hy (Or.inl rfl)
    have hserved := hgo.unlocks (hroom _ rfl) hu
    simp only [NyState.sent,spec_bind,spec_check,spec_pure]
    refine spec_of_forall fun c => ⟨fun _ => ?_,fun _ => trivial⟩
    obtain ⟨-,⟨rfl,-⟩ | ⟨him,rfl,-⟩⟩ := hu
    · exact hserved
    · exact hserved

/-- `q_receive` behind its yield. -/
theorem NyInv.wakes (h : NyInv s pending) (hy : s.yielding = false) {m : Option ℕ}
    (hloc : s.loc s.kernel.activeThread = .inReceive m) :
    Spec (nyResume s) (fun s' => NyInv s' pending) (fun _ => True) := by
  have hready := h.threads.running hy
  cases m with
  | none =>
    simp only [nyResume,hloc]
    refine h.locked hy fun _ => ?_
    rw [mem_holders,hloc,holds,hready]
    rfl
  | some markIdx =>
    simp only [nyResume,hloc,spec_bind]
    refine lockStageWoken_staged.imp ?_
    rintro ⟨k,q,rc⟩ ⟨hd,hb,htok,hok⟩
    have hact : k.activeThread = s.kernel.activeThread := by
      have := hd.rest
      simp only at this
      rw [this]
    have hholds : ∀ t, holds (k.pool t) (s.loc t) = true → holds (s.kernel.pool t) (s.loc t) = true := by
      intro t ht
      obtain he | ⟨-,he⟩ := hd.pool t
      · rwa [← he]
      · have he : k.pool t = { s.kernel.pool t with wakeupEvent := .itc2 } := he
        rw [he] at ht
        cases hl : s.loc t with
        | inReceive m' =>
          rw [hl] at ht
          cases m' with
          | none => exact ht
          | some i => simp [holds] at ht
        | _ => rw [hl] at ht; exact ht
    have hinv : NyInv { s with kernel := k, itc := q } pending := by
      refine ⟨h.threads.drops hd rfl rfl,hb.bType.trans h.sQueue,h.slots.sameBody hb,h.accepted,?_,
        fun msg hm => ?_,fun msg hm => ?_⟩
      · have hcard : (holders { s with kernel := k, itc := q }).card ≤ (holders s).card := by
          refine Finset.card_le_card fun t ht => ?_
          rw [mem_holders] at ht ⊢
          exact hholds t ht
        have htok : q.token.toNat = s.itc.token.toNat := htok
        have := h.owed
        simp only
        omega
      · simp only [hact,hloc] at hm
        cases hm
      · simp only [hact,hloc] at hm
        cases hm
    refine hinv.locked hy fun hrc => ?_
    obtain ⟨h1,h2⟩ := hok hrc
    have he : k.pool s.kernel.activeThread = s.kernel.pool s.kernel.activeThread := by
      obtain he | ⟨ht,-⟩ := hd.pool s.kernel.activeThread
      · exact he
      · exact absurd ht h1
    rw [mem_holders]
    simp only [hact,he,hloc,holds,hready]
    simp [h1,h2]

/-- The parts of a call behind its first one. -/
theorem NyInv.resume (h : NyInv s pending) (hy : s.yielding = false) (hc : Orderly s .resume) :
    Spec (nyResume s) (fun s' => ∃ pending', NyInv s' pending') (fun _ => True) := by
  have howed := h.owed
  cases hloc : s.loc s.kernel.activeThread with
  | user =>
    simp only [nyResume,hloc]
    exact ⟨pending,h⟩
  | inReceive m => exact (h.wakes hy hloc).imp fun s' hs => ⟨pending,hs⟩
  | posts => exact (h.posts hy hloc).imp fun s' hs => ⟨pending,hs⟩
  | inSend =>
    simp only [nyResume,hloc]
    exact (h.sent hy).imp fun s' hs => ⟨pending,hs⟩
  | granted =>
    have hmem : s.kernel.activeThread ∈ holders s := by rw [mem_holders,hloc]; rfl
    have hpos := Finset.card_pos.mpr ⟨_,hmem⟩
    obtain ⟨msg,rest,rfl⟩ := h.exists_cons (by omega)
    simp only [nyResume,hloc,spec_bind,spec_check,spec_pure]
    refine spec_of_forall fun c => ⟨fun _ => ⟨msg :: rest,?_⟩,fun _ => trivial⟩
    refine h.go hy (by simp) (fun _ => hmem) (fun m hm => ⟨rest,?_⟩) (by simp)
    rw [← NyLoc.copied.inj hm,h.slots.fills.pop.1]
  | copied msg =>
    have hmem : s.kernel.activeThread ∈ holders s := by rw [mem_holders,hloc]; rfl
    obtain ⟨rest,rfl⟩ := h.copied msg hloc
    simp only [nyResume,hloc]
    refine ⟨rest,h.goes hy (x:=.user) (by simp) rfl rfl hy h.sQueue ⟨h.slots.fills.pop.2,?_⟩ ?_ ?_
      (by simp) (by simp)⟩
    · simp only [h.slots.minIdx,List.length_cons]
      exact (place_succ _ _ _).symm
    · rw [List.append_assoc]
      exact h.accepted
    · have hcard : (holders { s.go .user with
          itc := { s.itc with moutIdx := (s.itc.moutIdx+1) % s.itc.sizeofQ }
          returned := s.returned ++ [msg] }).card+1 ≤ (holders s).card :=
        card_holders_leave rfl rfl hmem rfl
      simp only [List.length_cons] at howed
      simp only [NyState.go] at hcard ⊢
      omega
  | sends msg =>
    have hfree : pending.length < s.itc.sizeofQ := by
      have := hc (by rw [hloc]; rfl)
      rw [NyState.Free,h.accepted,List.length_append] at this
      omega
    simp only [nyResume,hloc]
    refine ⟨pending,h.goes hy (x:=.written msg) (by simp) rfl rfl hy h.sQueue ⟨?_,h.slots.minIdx⟩
      h.accepted ?_ (by simp) fun m hm => ⟨hfree,?_⟩⟩
    · refine h.slots.fills.update fun i hi hp => ?_
      rw [h.slots.minIdx] at hp
      exact hi.ne (place_inj (by omega) hfree hp)
    · have hcard : (holders { s.go (.written msg) with
          itc := { s.itc with q := Function.update s.itc.q s.itc.minIdx msg } }).card ≤
          (holders s).card := card_holders_goes rfl rfl fun h => by cases h
      simp only [NyState.go] at hcard ⊢
      omega
    · rw [← NyLoc.written.inj hm]
      simp
  | written msg =>
    obtain ⟨hlt,hcell⟩ := h.written msg hloc
    simp only [nyResume,hloc]
    have hpush := h.slots.push hlt msg
    have hsame : Function.update s.itc.q s.itc.minIdx msg = s.itc.q := by
      rw [← hcell,Function.update_eq_self]
    rw [hsame] at hpush
    refine ⟨pending ++ [msg],h.goes hy (x:=.posts) (by simp) rfl rfl hy h.sQueue hpush ?_ ?_
      (by simp) (by simp)⟩
    · rw [← List.append_assoc]
      exact congrArg (· ++ [msg]) h.accepted
    · have hcard : (holders { s.go .posts with
          itc := { s.itc with minIdx := (s.itc.minIdx+1) % s.itc.sizeofQ }
          accepted := s.accepted ++ [msg] }).card ≤ (holders s).card+1 :=
        card_holders_enter rfl rfl
      rw [List.length_append,List.length_singleton]
      simp only [NyState.go] at hcard ⊢
      omega

theorem NyInv.yield (h : NyInv s pending) {clk : Clock} {t : Thid cfg}
    (he : nyEnabled s (.yield clk t) = true) : Spec (nyNext s (.yield clk t))
      (fun s' => NyInv s' pending) (fun _ => True) := by
  simp only [nyEnabled,Bool.and_eq_true,Bool.or_eq_true] at he
  -- a thread yields from its own code or behind a whole part of a call
  have hnone : ∀ u, (s.loc u).midCall = false := by
    intro u
    by_contra hmid
    obtain ⟨rfl,hy⟩ := h.threads.inside u (by simpa using hmid)
    obtain hy' | hr := he.1
    · rw [hy] at hy'
      cases hy'
    · rw [(NyThreads.user hr).2] at hmid
      exact hmid rfl
  simp only [nyNext,spec_bind,spec_pure]
  refine (h.threads.alive.yield he.2).mono ?_ fun _ _ => trivial
  rintro k ⟨halive,hp,hready⟩
  have huntimed : ∀ u, s.loc u = .inReceive none → k.pool u = s.kernel.pool u := by
    intro u hl
    obtain hu | hu := hp u
    · exact hu
    · rw [hu,timerTest,h.threads.untimed u hl]
      rfl
  have hcard : (holders { s with kernel := k.dispatch t, yielding := false }).card ≤
      (holders s).card := by
    refine Finset.card_le_card fun u hm => ?_
    rw [mem_holders] at hm ⊢
    simp only [Kernel.dispatch_pool] at hm
    obtain hu | hu := hp u
    · rwa [← hu]
    · cases hl : s.loc u with
      | inReceive m =>
        cases m with
        | none => rwa [← huntimed u hl,← hl]
        | some i =>
          rw [hu,hl,timerTest] at hm
          split at hm
          · simp [holds] at hm
          · exact hm
      | _ => rw [hl] at hm; exact hm
  refine ⟨⟨fun u hm => ?_,fun u hl => ?_,halive,fun _ => hready⟩,h.sQueue,h.slots,h.accepted,?_,
    fun msg hm => ?_,fun msg hm => ?_⟩
  · rw [hnone u] at hm
    cases hm
  · simp only [Kernel.dispatch_pool,huntimed u hl]
    exact h.threads.untimed u hl
  · exact (Nat.add_le_add_left hcard _).trans h.owed
  · have hmid := hnone (k.dispatch t).activeThread
    rw [show s.loc (k.dispatch t).activeThread = .copied msg from hm] at hmid
    cases hmid
  · have hmid := hnone (k.dispatch t).activeThread
    rw [show s.loc (k.dispatch t).activeThread = .written msg from hm] at hmid
    cases hmid

/-- `q_receive_ny` takes the oldest message and a token with it, or nothing. -/
theorem NyInv.qReceiveNy (h : NyInv s pending) {flags : IpcFlags} {timeout clk : Clock}
    (hc : Orderly s (.qReceiveNy flags timeout clk)) :
    Spec (nyNext s (.qReceiveNy flags timeout clk))
      (fun s' => ∃ pending', NyInv s' pending') (fun _ => True) := by
  obtain ⟨hw,hcopied⟩ := hc
  have howed := h.owed
  have hsq : ¬s.itc.bType ≠ .sQueue := not_not_intro h.sQueue
  have hnil : NyInv { s with returned := s.returned ++ [] } pending := by
    rw [List.append_nil]
    exact h
  simp only [nyNext,Tinker.qReceiveNy,if_neg hsq]
  by_cases hns : s.itc.token ≤ 0 ∧ flags &&& nowait ≠ 0
  · simp only [if_pos hns]
    exact ⟨pending,hnil⟩
  · simp only [if_neg hns,lockStageNy,qReceiveEnd]
    by_cases ht : 0 < s.itc.token
    · obtain ⟨msg,rest,rfl⟩ := h.exists_cons (by omega)
      simp only [if_pos ht,spec_bind,spec_ok,spec_check,spec_pure]
      refine spec_of_forall fun c => ⟨fun _ => ⟨rest,?_⟩,fun _ => trivial⟩
      have hmsg := h.slots.fills.pop.1
      refine ⟨⟨h.threads.inside,h.threads.untimed,h.threads.alive,h.threads.running⟩,h.sQueue,
        ⟨h.slots.fills.pop.2,?_⟩,?_,?_,fun m hm => ?_,fun m hm => ?_⟩
      · simp only [Option.getD_some,h.slots.minIdx,List.length_cons]
        exact (place_succ _ _ _).symm
      · simp only [hmsg,Option.toList_some,List.append_assoc]
        exact h.accepted
      · have hsame : holders { s with
            itc := { s.itc with token := s.itc.token-1, moutIdx := (s.itc.moutIdx+1) % s.itc.sizeofQ }
            returned := s.returned ++ (some (s.itc.q s.itc.moutIdx)).toList } = holders s := rfl
        simp only [Option.getD_some,List.length_cons] at howed ⊢
        rw [hsame]
        omega
      · have hnot := hcopied ht
        rw [show s.loc s.kernel.activeThread = .copied m from hm] at hnot
        cases hnot
      · obtain ⟨hlt,hcell⟩ := h.written m hm
        exact ⟨Nat.lt_of_succ_lt hlt,hcell⟩
    · by_cases hr : absInt s.itc.token < (cfg.maxBlockedOnQ : ℤ)-1
      · refine absurd (waits_some.mpr ⟨h.sQueue,?_,by omega,hr⟩) hw
        exact not_not.mp fun hf => hns ⟨by omega,hf⟩
      · simp only [if_neg ht,if_neg hr,spec_bind,spec_ok,spec_check,spec_pure]
        refine spec_of_forall fun c => ⟨fun _ => ⟨pending,?_⟩,fun _ => trivial⟩
        exact hnil

/-- `q_send_ny` enters its message and raises the token or readies a receiver, or does nothing. -/
theorem NyInv.qSendNy (h : NyInv s pending) {msg : Msg} (hc : Orderly s (.qSendNy msg)) :
    Spec (nyNext s (.qSendNy msg)) (fun s' => ∃ pending', NyInv s' pending') (fun _ => True) := by
  have howed := h.owed
  have hsq : ¬s.itc.bType ≠ .sQueue := not_not_intro h.sQueue
  simp only [nyNext,Tinker.qSendNy,if_neg hsq]
  by_cases hfull : isFull s.itc
  · have hf : 0 < s.itc.token ∧ ¬s.itc.token < toInt32 s.itc.sizeofQ := hfull
    simp only [if_pos hf,if_pos hfull]
    exact ⟨pending,h⟩
  · have hf : ¬(0 < s.itc.token ∧ ¬s.itc.token < toInt32 s.itc.sizeofQ) := hfull
    obtain ⟨hfree,hwritten⟩ := hc hfull
    have hlt : pending.length < s.itc.sizeofQ := by
      rw [NyState.Free,h.accepted,List.length_append] at hfree
      omega
    simp only [if_neg hf,if_neg hfull,spec_bind,spec_pure]
    refine unlockStageNy_unlocks.imp ?_
    rintro ⟨k,q,him⟩ hu
    refine spec_of_forall fun e => ⟨pending ++ [msg],?_⟩
    -- the message is in its slot, and nobody holds it yet
    have hpush : NyInv { s with
        itc := { s.itc with
          q := Function.update s.itc.q s.itc.minIdx msg
          minIdx := (s.itc.minIdx+1) % s.itc.sizeofQ }
        accepted := s.accepted ++ [msg] } (pending ++ [msg]) := by
      refine ⟨⟨h.threads.inside,h.threads.untimed,h.threads.alive,h.threads.running⟩,h.sQueue,
        h.slots.push hlt msg,?_,?_,fun m hm => ?_,fun m hm => ?_⟩
      · rw [← List.append_assoc]
        exact congrArg (· ++ [msg]) h.accepted
      · rw [List.length_append,List.length_singleton]
        exact howed.trans (Nat.le_succ _)
      · obtain ⟨rest,rfl⟩ := h.copied m hm
        exact ⟨rest ++ [msg],rfl⟩
      · rw [show s.loc s.kernel.activeThread = .written m from hm] at hwritten
        cases hwritten
    refine hpush.unlocks ?_ hu
    rw [List.length_append,List.length_singleton]
    exact Nat.succ_le_succ howed

theorem nyStep_spec {x : NyLabel cfg} (h : NyInv s pending) (he : nyEnabled s x = true)
    (hc : Orderly s x) : Spec (nyNext s x) (fun s' => ∃ pending', NyInv s' pending')
      (fun _ => True) := by
  cases x with
  | qReceive flags timeout clk => exact (h.qReceive he).imp fun s' hs => ⟨pending,hs⟩
  | qSend msg =>
    obtain ⟨hy,-⟩ := NyThreads.user he
    simp only [nyNext,spec_ite,spec_ok]
    exact ⟨fun _ => ⟨pending,h⟩,fun _ => ⟨pending,h.leaves hy (Or.inr (Or.inr ⟨msg,rfl⟩))⟩⟩
  | resume =>
    simp only [nyEnabled,Bool.and_eq_true,Bool.not_eq_true'] at he
    exact h.resume he.1 hc
  | yield clk t => exact (h.yield he).imp fun s' hs => ⟨pending,hs⟩
  | qReceiveNy flags timeout clk => exact h.qReceiveNy hc
  | qSendNy msg => exact h.qSendNy hc

end

theorem nyInit_inv {k : Kernel cfg} {count : ℕ} {flags : IpcFlags} (hk : Quiet k)
    (hc : 0 < count) : NyInv (nyInit k count flags) [] where
  threads := ⟨fun t ht => (by cases ht),fun t hl => (by cases hl),hk.alive,fun _ => hk.ready⟩
  sQueue := rfl
  slots := ⟨⟨hc,Nat.zero_le _,fun i hi => absurd hi (Nat.not_lt_zero i)⟩,(Nat.zero_mod count).symm⟩
  accepted := rfl
  owed := by
    have hnone : holders (nyInit k count flags) = ∅ := by
      refine Finset.eq_empty_of_forall_notMem fun t ht => ?_
      rw [mem_holders] at ht
      cases ht
    rw [hnone]
    simp [nyInit,qCreate,smCreate,toInt32]
  copied := fun msg hm => by cases hm
  written := fun msg hm => by cases hm

/-- In an orderly run the receives of threads and interrupts return the accepted messages one after
the other, each of them once. -/
theorem nyRun_delivers {k : Kernel cfg} {count : ℕ} {flags : IpcFlags} (hk : Quiet k)
    (hn : 0 < count) {ls : List (NyLabel cfg)} {s : NyState cfg}
    (hc : (nyMachine cfg).Along Orderly (nyInit k count flags) ls)
    (hr : (nyMachine cfg).run (nyInit k count flags) ls = some s) : s.returned <+: s.accepted := by
  obtain ⟨pending,hi⟩ : ∃ pending, NyInv s pending := by
    refine (nyMachine cfg).run_invariant (I:=fun s => ∃ pending, NyInv s pending) ?_
      ⟨[],nyInit_inv hk hn⟩ hc hr
    rintro s x s' ⟨pending,hi⟩ hc hstep
    exact (nyStep_spec hi hstep.1 hc).of_ok hstep.2
  exact ⟨pending,hi.accepted.symm⟩

theorem qReceiveNy_message {k : Kernel cfg} {slot : Option (Itc cfg)} {flags : IpcFlags}
    {timeout clk : Clock} : Spec (qReceiveNy k slot flags timeout clk)
      (fun r => r.2.2.1 = .ok ↔ r.2.2.2.1.isSome = true) (fun _ => True) := by
  cases slot with
  | none => exact iff_of_false (by simp) (by simp)
  | some q =>
    simp only [qReceiveNy,qReceiveEnd,spec_ite,spec_ok,spec_bind,spec_check,spec_pure]
    refine ⟨fun _ => iff_of_false (by simp) (by simp),fun _ =>
      ⟨fun _ => iff_of_false (by simp) (by simp),fun _ => ?_⟩⟩
    refine spec_of_forall fun r => spec_of_forall fun c => ⟨fun _ => ⟨fun hrc => ?_,fun _ => ?_⟩,
      fun _ => trivial⟩
    · exact iff_of_false hrc (by simp)
    · exact iff_of_true trivial rfl

/-- When the calls from an interrupt take nothing that is not there. The first four are about every
state of the object and every call that returns, the last one about runs. -/
structure NyHoldsWhen (cfg : Config) (numQ : ℕ) : Prop where
  smP : ∀ (k : Kernel cfg) slot flags timeout clk, Spec (smPny k slot flags timeout clk) (fun r =>
    NoPhantom k r.1 (tokenOf slot) (tokenOf r.2.1) (r.2.2.1 = .ok) r.2.2.2 ↔ ¬Waits slot .sem flags)
    (fun _ => True)
  qReceive : ∀ (k : Kernel cfg) slot flags timeout clk, Spec (qReceiveNy k slot flags timeout clk)
    (fun r => (NoPhantom k r.1 (tokenOf slot) (tokenOf r.2.1) (r.2.2.1 = .ok) r.2.2.2.2 ↔
      ¬Waits slot .sQueue flags) ∧ (r.2.2.1 = .ok ↔ r.2.2.2.1.isSome = true)) (fun _ => True)
  qVreceive : ∀ (st : ItcStore cfg numQ) k qid flags timeout clk bufLen,
    Spec (st.qVreceiveNy k qid flags timeout clk bufLen) (fun r =>
      NoPhantom k r.1 (st.tokenAt qid) (r.2.1.tokenAt qid) (r.2.2.1 = .ok) r.2.2.2.2 ↔
        ¬st.VWaits qid flags bufLen) (fun _ => True)
  semWait : ∀ (k : Kernel cfg) slot intFlagCntr clk, intFlagCntr ≠ 0 →
    Spec (semWait intFlagCntr k slot clk) (fun r =>
      NoPhantom k r.1 (tokenOf slot) (tokenOf r.2.1) (∃ rc, r.2.2.1 = .ret true rc) r.2.2.2 ↔
        ¬Waits slot .sem wait) (fun _ => True)
  delivers : ∀ (k : Kernel cfg) count flags ls s, Quiet k → 0 < count →
    (nyMachine cfg).Along Orderly (nyInit k count flags) ls →
    (nyMachine cfg).run (nyInit k count flags) ls = some s → s.returned <+: s.accepted

theorem nonYielding_holdsWhen (cfg : Config) (numQ : ℕ) : NyHoldsWhen cfg numQ where
  smP := fun _ _ _ _ _ => smPny_noPhantom_iff
  qReceive := fun _ _ _ _ _ => qReceiveNy_noPhantom_iff.and qReceiveNy_message
  qVreceive := fun _ _ _ _ _ _ _ => ItcStore.qVreceiveNy_noPhantom_iff
  semWait := fun _ _ _ _ hi => semWait_noPhantom_iff hi
  delivers := fun _ _ _ _ _ hk hn hc hr => nyRun_delivers hk hn hc hr

/-- An interrupt sends, takes that message between the two parts of a thread's own call, and finds the
queue empty with `NOWAIT`. -/
def nySteps : List (NyLabel gnuArm) :=
  [.qSendNy (word 1),.qSendNy (word 2),.qReceive fifo 0 0,.qReceiveNy nowait 0 0,.resume,.resume,
    .qReceiveNy nowait 0 0]

theorem nonYielding_holdsWhen_run : ∃ s : NyState gnuArm,
    (nyMachine gnuArm).run (nyInit fiveThreads 2 fifo) nySteps = some s ∧
    s.returned = [word 1,word 2] ∧ s.returned <+: s.accepted := by
  obtain ⟨s,hr,hm⟩ := (nyMachine gnuArm).exists_run (fun s => s.returned = [word 1,word 2])
    (nyInit fiveThreads 2 fifo) nySteps (by decide +kernel)
  exact ⟨s,hr,hm,(nonYielding_holdsWhen gnuArm 4).delivers _ 2 fifo nySteps s fiveThreads_quiet
    (by decide) (by decide +kernel) hr⟩

/-- An interrupt finds no token: the interrupted thread is put into the ring, and on a queue a message
nobody has sent comes with `ERR_OK`. -/
theorem nonYielding_phantom :
    (¬∀ (k : Kernel gnuArm) slot flags timeout clk, Spec (smPny k slot flags timeout clk) (fun r =>
      NoPhantom k r.1 (tokenOf slot) (tokenOf r.2.1) (r.2.2.1 = .ok) r.2.2.2) (fun _ => True)) ∧
    ¬∀ (k : Kernel gnuArm) count flags ls s, Quiet k → 0 < count →
      (nyMachine gnuArm).run (nyInit k count flags) ls = some s → s.returned <+: s.accepted := by
  refine ⟨fun h => ?_,fun h => ?_⟩
  · obtain ⟨n,hn,hpos,-⟩ := (h fiveThreads (some (smCreate 0 fifo)) fifo 0 0).consumed rfl
    cases hn
    exact absurd hpos (by decide)
  · obtain ⟨s,hr,hm,ha⟩ := (nyMachine gnuArm).exists_run
      (fun s => s.returned = [fun _ => 0] ∧ s.accepted = []) (nyInit fiveThreads 1 fifo)
      [.qReceiveNy fifo 0 0] (by decide +kernel)
    have hp := h _ _ _ _ s fiveThreads_quiet (by decide) hr
    rw [hm,ha] at hp
    exact absurd hp (by decide)

end Tinker

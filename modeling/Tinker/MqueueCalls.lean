import Tinker.MqueueStep

/-! How far a step brings the running thread's call of `mq_send` or `mq_receive`: it waits, it ends, or
the one message it is about has been stored or fetched. No other thread is moved. -/
namespace Tinker

open Kernel Outcome

variable {cfg : Config}

theorem lockStage_active (k : Kernel cfg) (q : Itc cfg) (timeout clk : Clock) :
    (lockStage k q timeout clk).1.activeThread = k.activeThread := by
  unfold lockStage
  split_ifs <;> rfl

theorem smP_active (k : Kernel cfg) (slot : Option (Itc cfg)) (flags : IpcFlags)
    (timeout clk : Clock) : (smP k slot flags timeout clk).1.activeThread = k.activeThread := by
  cases slot with
  | none => rfl
  | some q =>
    simp only [smP]
    split_ifs
    · rfl
    · rfl
    · exact lockStage_active k q timeout clk

theorem unlockStage_active (k : Kernel cfg) (q : Itc cfg) : Spec (unlockStage k q)
    (fun x => x.1.activeThread = k.activeThread) (fun _ => True) := by
  unfold unlockStage
  simp only [spec_ite,spec_bind,spec_ok,spec_pure]
  refine ⟨fun _ => ⟨fun _ => ?_,fun _ => ?_⟩,fun _ => trivial⟩
  · apply spec_of_forall
    intro best
    cases best with
    | none => rfl
    | some x => rfl
  · exact spec_of_forall fun x => rfl

theorem smV_active (k : Kernel cfg) (slot : Option (Itc cfg)) : Spec (smV k slot)
    (fun x => x.1.activeThread = k.activeThread) (fun _ => True) := by
  cases slot with
  | none => rfl
  | some q =>
    unfold smV
    simp only [spec_ite,spec_bind,spec_ok,spec_pure]
    exact ⟨fun _ => trivial,fun _ => unlockStage_active k q⟩

theorem QueueD.store_taken {Q : QueueD cfg} {heap : Heap Byte} {a : SendArgs} :
    Spec (Q.store heap a) (fun x => x.1.taken = Q.taken) (fun _ => True) := by
  simp only [QueueD.store,spec_bind,spec_check,spec_pure]
  exact ⟨fun _ => spec_of_forall fun _ => trivial,fun _ => trivial⟩

theorem sortByPrio_taken (qsort : Qsort) (Q : QueueD cfg) (granted : Bool) :
    Spec (sortByPrio qsort Q granted) (fun Q' => Q'.taken = Q.taken) (fun _ => True) := by
  simp only [sortByPrio,spec_ite,spec_ok,spec_bind,spec_check,spec_pure,implies_true,and_true]

theorem QueueD.fetch_returns {Q : QueueD cfg} {heap : Heap Byte} {msgprio : Bool} :
    Spec (Q.fetch heap msgprio) (fun x => x.1.taken = Q.taken ∧
      ∃ prio, x.2.1 = .received x.2.2.bytes prio) (fun _ => True) := by
  simp only [QueueD.fetch,spec_bind,spec_check,spec_pure,implies_true,and_true]
  intro _
  apply spec_of_forall
  exact fun bytes _ => ⟨trivial,_,rfl⟩

/-- The call of `mq_receive` that waits there. -/
def MqLoc.receiver : MqLoc → Option RecvArgs
  | .recvWait c | .recvPost c _ | .recvSem c _ => some c
  | _ => none

/-- Where a call goes on with the result it had in mind. -/
def MqLoc.leaves : MqLoc → Option MqRet
  | .leaving r => some r
  | .sendPost => some .sent
  | _ => none

theorem MqLoc.leaves_of_receiver {x : MqLoc} {c : RecvArgs} (h : x.receiver = some c) :
    x.leaves = none := by
  cases x with
  | user => cases h
  | leaving r => cases h
  | sendWait a => cases h
  | sendPost => cases h
  | recvWait c => rfl
  | recvPost c q => rfl
  | recvSem c q => rfl

namespace MqState

variable {s s' s'' : MqState cfg} {q : QueueId} {qsort : Qsort} {a : SendArgs} {c : RecvArgs}
  {ret : MqRet}

/-- The calls are where they were, and no message has come or gone. -/
structure SameCalls (s s' : MqState cfg) : Prop where
  me : s'.me = s.me
  loc : s'.loc = s.loc
  ret : s'.ret = s.ret
  files : s'.filePool = s.filePool
  taken : ∀ q, (s'.queuePool q).taken = (s.queuePool q).taken
  accepted : s'.accepted = s.accepted
  returned : s'.returned = s.returned

/-- Only the running thread has moved. -/
structure Moves (s s' : MqState cfg) : Prop where
  me : s'.me = s.me
  others : ∀ t, t ≠ s.me → s'.loc t = s.loc t
  rets : ∀ t, t ≠ s.me → s'.ret t = s.ret t
  files : s'.filePool = s.filePool
  taken : ∀ q, (s'.queuePool q).taken = (s.queuePool q).taken

/-- The call of the running thread has its result, behind a yield or at once. -/
def Ends (s : MqState cfg) (ret : MqRet) : Prop :=
  s.loc s.me = .leaving ret ∨ s.loc s.me = .user ∧ s.ret s.me = some ret

/-- No message has come or gone. -/
def SameLogs (s s' : MqState cfg) : Prop := s'.accepted = s.accepted ∧ s'.returned = s.returned

/-- Descriptor `mq` is for queue `q`. -/
def Names (s : MqState cfg) (mq : ℤ) (q : QueueId) : Prop :=
  ∃ f, s.descriptor mq = some f ∧ f.qId = q

/-- The queue the running thread's `mq_receive` is for: its descriptor's, or the one it has settled
on. -/
def Picks (s : MqState cfg) (c : RecvArgs) (q : QueueId) : Prop :=
  s.Names c.mq q ∨ (s.loc s.me).receiver = some c ∧ (s.loc s.me).on = some q

/-- How far `mq_send` has come in a step. -/
inductive Sends (s : MqState cfg) (a : SendArgs) (s' : MqState cfg) : Prop
  | waits (h : s.SameLogs s') (hx : s'.loc s'.me = .sendWait a)
  | fails (h : s.SameLogs s') (e : MqErr) (hx : s'.Ends (.failed e))
  | stores (q : QueueId) (hl : s.Live (.queue q)) (hn : s.Names a.mq q)
      (ha : s'.accepted = Function.update s.accepted q (s.accepted q ++ [(a.msg,a.msgprio)]))
      (hr : s'.returned = s.returned) (hx : s'.loc s'.me = .sendPost ∨ s'.Ends .sent)

/-- How far `mq_receive` has come in a step. -/
inductive Receives (s : MqState cfg) (c : RecvArgs) (s' : MqState cfg) : Prop
  | waits (h : s.SameLogs s') (hx : (s'.loc s'.me).receiver = some c)
      (hn : ∀ q, (s'.loc s'.me).on = some q → s.Picks c q)
  | fails (h : s.SameLogs s') (e : MqErr) (hx : s'.Ends (.failed e))
  | fetches (q : QueueId) (r : Receipt) (prio : Option ℕ) (hl : s.Live (.queue q))
      (hn : s.Picks c q) (ha : s'.accepted = s.accepted)
      (hr : s'.returned = Function.update s.returned q (s.returned q ++ [r]))
      (hx : s'.loc s'.me = .user) (hret : s'.ret s'.me = some (.received r.bytes prio))

theorem SameCalls.live (h : s.SameCalls s') (r : MqSem) : s'.Live r ↔ s.Live r := by
  cases r with
  | pool => exact Iff.rfl
  | queue q => rw [Live,Live,h.taken]

theorem SameCalls.logs (h : s.SameCalls s') : s.SameLogs s' := ⟨h.accepted,h.returned⟩

theorem SameLogs.trans (h : s.SameLogs s') (h' : s'.SameLogs s'') : s.SameLogs s'' :=
  ⟨h'.1.trans h.1,h'.2.trans h.2⟩

theorem Names.of_files {mq : ℤ} (h : s'.Names mq q) (hf : s'.filePool = s.filePool) :
    s.Names mq q := by
  obtain ⟨f,hd,hq⟩ := h
  rw [descriptor,hf] at hd
  exact ⟨f,hd,hq⟩

theorem openQueue_names {mq : ℤ} {access : OFlags} {f : FileD cfg}
    (h : s.openQueue mq access = .ok f) : s.Names mq f.qId := by
  unfold openQueue at h
  split at h
  · cases h
  · next f' hd =>
    split_ifs at h
    cases h
    exact ⟨f,hd,rfl⟩

theorem sendCheck_names (h : s.sendCheck a = .ok q) : s.Names a.mq q := by
  unfold sendCheck at h
  split at h
  · cases h
  · next f hf =>
    simp only at h
    split_ifs at h
    cases h
    exact openQueue_names hf

theorem recvCheck_names (h : s.recvCheck c = .ok q) : s.Names c.mq q := by
  unfold recvCheck at h
  split at h
  · cases h
  · next f hf =>
    simp only at h
    split_ifs at h
    cases h
    exact openQueue_names hf

theorem SameCalls.picks_iff (h : s.SameCalls s') : s'.Picks c q ↔ s.Picks c q := by
  rw [Picks,Picks,h.loc,h.me]
  exact or_congr ⟨fun hn => hn.of_files h.files,fun hn => hn.of_files h.files.symm⟩ Iff.rfl

theorem SameCalls.moves (h : s.SameCalls s') (h' : s'.Moves s'') : s.Moves s'' where
  me := h'.me.trans h.me
  others t ht := (h'.others t (h.me ▸ ht)).trans (congrFun h.loc t)
  rets t ht := (h'.rets t (h.me ▸ ht)).trans (congrFun h.ret t)
  files := h'.files.trans h.files
  taken q := (h'.taken q).trans (h.taken q)

/-- What goes on behind a semaphore goes on from where it was. -/
theorem SameCalls.sends (h : s.SameCalls s') (h' : s'.Sends a s'') : s.Sends a s'' := by
  cases h' with
  | waits hs hx => exact .waits (h.logs.trans hs) hx
  | fails hs e hx => exact .fails (h.logs.trans hs) e hx
  | stores q hl hn ha hr hx =>
    rw [h.accepted] at ha
    rw [h.returned] at hr
    exact .stores q ((h.live _).mp hl) (hn.of_files h.files) ha hr hx

theorem SameCalls.receives (h : s.SameCalls s') (h' : s'.Receives c s'') : s.Receives c s'' := by
  cases h' with
  | waits hs hx hn => exact .waits (h.logs.trans hs) hx fun q hq => h.picks_iff.mp (hn q hq)
  | fails hs e hx => exact .fails (h.logs.trans hs) e hx
  | fetches q r prio hl hn ha hr hx hret =>
    rw [h.accepted] at ha
    rw [h.returned] at hr
    exact .fetches q r prio ((h.live _).mp hl) (h.picks_iff.mp hn) ha hr hx hret

theorem setSem_sameCalls (r : MqSem) {k : Kernel cfg} (o : Itc cfg)
    (hk : k.activeThread = s.kernel.activeThread) : s.SameCalls (s.setSem r k o) := by
  refine ⟨setSem_me o hk,setSem_loc k o,?_,?_,setSem_taken k o,setSem_accepted k o,
    setSem_returned k o⟩
  · cases r <;> rfl
  · cases r <;> rfl

theorem semWait_sameCalls (s : MqState cfg) (r : MqSem) (clk : Clock) :
    Spec (s.semWait r clk) (fun x => s.SameCalls x.1) (fun _ => True) := by
  have hact := smP_active s.kernel (some (s.sem r)) 0 0 clk
  unfold semWait
  split
  · next k o m hs =>
    rw [hs] at hact
    exact setSem_sameCalls r _ hact
  · next k o e hs =>
    rw [hs] at hact
    simp only [spec_bind,spec_check,spec_pure,implies_true,and_true]
    exact fun _ => setSem_sameCalls r _ hact

theorem semPost_sameCalls (s : MqState cfg) (r : MqSem) :
    Spec (s.semPost r) (fun x => s.SameCalls x.1) (fun _ => True) := by
  unfold semPost
  simp only [spec_bind]
  apply (smV_active s.kernel (some (s.sem r))).imp
  rintro ⟨k,o,y,e⟩ hact
  simp only [spec_check,spec_pure,implies_true,and_true]
  exact fun _ => setSem_sameCalls r _ hact

theorem goTo_moves (x : MqLoc) : s.Moves (s.goTo x) :=
  ⟨rfl,fun _ ht => Function.update_of_ne ht _ _,fun _ _ => rfl,rfl,fun _ => rfl⟩

theorem goTo_loc (s : MqState cfg) (x : MqLoc) : (s.goTo x).loc (s.goTo x).me = x :=
  Function.update_self ..

theorem endCall_moves (ret : MqRet) : s.Moves (s.endCall ret) :=
  ⟨rfl,fun _ ht => Function.update_of_ne ht _ _,fun _ ht => Function.update_of_ne ht _ _,rfl,
    fun _ => rfl⟩

theorem endCall_loc (s : MqState cfg) (ret : MqRet) :
    (s.endCall ret).loc (s.endCall ret).me = .user := Function.update_self ..

theorem endCall_ret (s : MqState cfg) (ret : MqRet) :
    (s.endCall ret).ret (s.endCall ret).me = some ret := Function.update_self ..

/-- Behind a semaphore a call yields, or goes on. -/
theorem spec_yields {s : MqState cfg} {x : Except Fault (MqState cfg × Bool)} {P : MqState cfg → Prop}
    {l : MqLoc} {f : MqState cfg → Except Fault (MqState cfg)}
    (hx : Spec x (fun y => s.SameCalls y.1) fun _ => True)
    (hyield : ∀ s1, s.SameCalls s1 → P (s1.goTo l))
    (hf : ∀ s1, s.SameCalls s1 → Spec (f s1) P fun _ => True) :
    Spec (do
      let (s,yields) ← x
      if yields then return s.goTo l else f s) P (fun _ => True) := by
  rw [spec_bind]
  apply hx.imp
  rintro ⟨s1,y⟩ hs
  cases y with
  | true => exact hyield s1 hs
  | false => exact hf s1 hs

theorem release_ends (s : MqState cfg) (ret : MqRet) : Spec (s.release ret)
    (fun s' => s.Moves s' ∧ s.SameLogs s' ∧ s'.Ends ret) (fun _ => True) := by
  unfold release
  rw [spec_bind]
  apply (semPost_sameCalls s .pool).imp
  rintro ⟨s1,y⟩ hs
  cases y with
  | true => exact ⟨hs.moves (goTo_moves _),hs.logs,Or.inl (goTo_loc s1 _)⟩
  | false => exact ⟨hs.moves (endCall_moves _),hs.logs,Or.inr ⟨endCall_loc s1 _,endCall_ret s1 _⟩⟩

theorem sendLocked_sends (qsort : Qsort) (s : MqState cfg) (a : SendArgs) :
    Spec (s.sendLocked qsort a) (fun s' => s.Moves s' ∧ s.Sends a s') (fun _ => True) := by
  unfold sendLocked
  cases hc : s.sendCheck a with
  | error e => exact (release_ends s _).imp fun s' h => ⟨h.1,.fails h.2.1 e h.2.2⟩
  | ok q =>
    have hl := (sendCheck_ok hc).1
    have hn := sendCheck_names hc
    simp only [spec_bind]
    apply QueueD.store_taken.imp
    rintro ⟨Q1,heap⟩ hst
    apply (sortByPrio_taken qsort Q1 a.granted).imp
    intro Q2 hsort
    set s1 : MqState cfg := { s.setQueue q Q2 with
      heap := heap
      accepted := Function.update s.accepted q (s.accepted q ++ [(a.msg,a.msgprio)]) } with hs1
    have hstored : s.Moves s1 := by
      refine ⟨rfl,fun _ _ => rfl,fun _ _ => rfl,rfl,fun u => ?_⟩
      by_cases hu : u = q
      · subst hu
        have hu : s1.queuePool u = Q2 := Function.update_self ..
        rw [hu,hsort]
        exact hst
      · exact congrArg QueueD.taken (Function.update_of_ne hu _ _)
    have hmoves : ∀ {s2}, s1.Moves s2 → s.Moves s2 := fun h =>
      ⟨h.me,fun t ht => h.others t ht,fun t ht => h.rets t ht,h.files,
        fun u => (h.taken u).trans (hstored.taken u)⟩
    apply (semPost_sameCalls s1 (.queue q)).imp
    rintro ⟨s2,y⟩ hs
    cases y with
    | true =>
      exact ⟨hmoves (hs.moves (goTo_moves _)),.stores q hl hn hs.accepted hs.returned
        (Or.inl (goTo_loc s2 _))⟩
    | false =>
      refine (release_ends s2 .sent).imp fun s3 h => ⟨hmoves (hs.moves h.1),.stores q hl hn ?_ ?_
        (Or.inr h.2.2)⟩
      · exact h.2.1.1.trans hs.accepted
      · exact h.2.1.2.trans hs.returned

theorem recvCopy_receives (hl : s.Live (.queue q)) (hn : s.Picks c q) :
    Spec (s.recvCopy c q) (fun s' => s.Moves s' ∧ s.Receives c s') (fun _ => True) := by
  unfold recvCopy
  simp only [spec_bind,spec_pure]
  apply QueueD.fetch_returns.imp
  rintro ⟨Q,ret,r⟩ ⟨htaken,prio,hret⟩
  dsimp only at hret htaken
  subst hret
  refine ⟨⟨rfl,fun _ ht => Function.update_of_ne ht _ _,fun _ ht => Function.update_of_ne ht _ _,rfl,
    fun u => ?_⟩,.fetches q r prio hl hn rfl rfl (endCall_loc _ _) (endCall_ret _ _)⟩
  by_cases hu : u = q
  · subst hu
    exact (congrArg QueueD.taken (Function.update_self u Q s.queuePool)).trans htaken
  · exact congrArg QueueD.taken (Function.update_of_ne hu _ _)

theorem recvToken_receives (hl : s.Live (.queue q)) (hn : s.Picks c q) (clk : Clock) :
    Spec (s.recvToken c q clk) (fun s' => s.Moves s' ∧ s.Receives c s') (fun _ => True) := by
  apply spec_yields (semWait_sameCalls s (.queue q) clk) (l:=.recvSem c q) (f:=fun s => s.recvCopy c q)
  · intro s1 hs
    refine ⟨hs.moves (goTo_moves _),.waits hs.logs (congrArg MqLoc.receiver (goTo_loc s1 _))
      fun u hu => ?_⟩
    rw [goTo_loc] at hu
    cases hu
    exact hn
  · intro s1 hs
    exact (recvCopy_receives ((hs.live _).mpr hl) (hs.picks_iff.mpr hn)).imp fun s2 h =>
      ⟨hs.moves h.1,hs.receives h.2⟩

theorem recvLocked_receives (s : MqState cfg) (c : RecvArgs) (clk : Clock) :
    Spec (s.recvLocked c clk) (fun s' => s.Moves s' ∧ s.Receives c s') (fun _ => True) := by
  unfold recvLocked
  cases hc : s.recvCheck c with
  | error e => exact (release_ends s _).imp fun s' h => ⟨h.1,.fails h.2.1 e h.2.2⟩
  | ok q =>
    have hl := recvCheck_ok hc
    have hn : s.Picks c q := Or.inl (recvCheck_names hc)
    apply spec_yields (semPost_sameCalls s .pool) (l:=.recvPost c q) (f:=fun s => s.recvToken c q clk)
    · intro s1 hs
      refine ⟨hs.moves (goTo_moves _),.waits hs.logs (congrArg MqLoc.receiver (goTo_loc s1 _))
        fun u hu => ?_⟩
      rw [goTo_loc] at hu
      cases hu
      exact hn
    · intro s1 hs
      exact (recvToken_receives ((hs.live _).mpr hl) (hs.picks_iff.mpr hn) clk).imp fun s2 h =>
        ⟨hs.moves h.1,hs.receives h.2⟩

theorem mqSend_sends (qsort : Qsort) (s : MqState cfg) (a : SendArgs) (clk : Clock) :
    Spec (mqNext qsort s (.mqSend a clk)) (fun s' => s.Moves s' ∧ s.Sends a s') (fun _ => True) := by
  apply spec_yields (semWait_sameCalls s .pool clk) (l:=.sendWait a) (f:=fun s => s.sendLocked qsort a)
  · intro s1 hs
    exact ⟨hs.moves (goTo_moves _),.waits hs.logs (goTo_loc s1 _)⟩
  · intro s1 hs
    exact (sendLocked_sends qsort s1 a).imp fun s2 h => ⟨hs.moves h.1,hs.sends h.2⟩

theorem mqReceive_receives (qsort : Qsort) (s : MqState cfg) (c : RecvArgs) (clk : Clock) :
    Spec (mqNext qsort s (.mqReceive c clk)) (fun s' => s.Moves s' ∧ s.Receives c s')
      (fun _ => True) := by
  apply spec_yields (semWait_sameCalls s .pool clk) (l:=.recvWait c) (f:=fun s => s.recvLocked c clk)
  · intro s1 hs
    refine ⟨hs.moves (goTo_moves _),.waits hs.logs (congrArg MqLoc.receiver (goTo_loc s1 _))
      fun u hu => ?_⟩
    rw [goTo_loc] at hu
    cases hu
  · intro s1 hs
    exact (recvLocked_receives s1 c clk).imp fun s2 h => ⟨hs.moves h.1,hs.receives h.2⟩

theorem resume_ends (qsort : Qsort) (s : MqState cfg) (clk : Clock) {ret : MqRet}
    (hloc : (s.loc s.me).leaves = some ret) : Spec (mqNext qsort s (.resume clk))
      (fun s' => s.Moves s' ∧ s.SameLogs s' ∧ s'.Ends ret) (fun _ => True) := by
  unfold mqNext
  cases hx : s.loc s.me with
  | leaving r =>
    rw [hx] at hloc
    cases hloc
    exact ⟨endCall_moves _,⟨rfl,rfl⟩,Or.inr ⟨endCall_loc s _,endCall_ret s _⟩⟩
  | sendPost =>
    rw [hx] at hloc
    cases hloc
    exact release_ends s .sent
  | user => rw [hx] at hloc; cases hloc
  | sendWait a => rw [hx] at hloc; cases hloc
  | recvWait a => rw [hx] at hloc; cases hloc
  | recvPost a q => rw [hx] at hloc; cases hloc
  | recvSem a q => rw [hx] at hloc; cases hloc

theorem resume_sends (qsort : Qsort) (s : MqState cfg) (clk : Clock) (hloc : s.loc s.me = .sendWait a) :
    Spec (mqNext qsort s (.resume clk)) (fun s' => s.Moves s' ∧ s.Sends a s') (fun _ => True) := by
  unfold mqNext
  simp only [hloc]
  exact sendLocked_sends qsort s a

theorem resume_receives (qsort : Qsort) (s : MqState cfg) (clk : Clock)
    (hopened : ∀ q, (s.loc s.me).on = some q → s.Live (.queue q))
    (hloc : (s.loc s.me).receiver = some c) : Spec (mqNext qsort s (.resume clk))
      (fun s' => s.Moves s' ∧ s.Receives c s') (fun _ => True) := by
  have hpicks : ∀ q, (s.loc s.me).on = some q → s.Picks c q := fun q hq => Or.inr ⟨hloc,hq⟩
  unfold mqNext
  cases hx : s.loc s.me with
  | recvWait d =>
    rw [hx] at hloc
    cases hloc
    exact recvLocked_receives s c clk
  | recvPost d q =>
    have hon : (s.loc s.me).on = some q := by rw [hx]; rfl
    rw [hx] at hloc
    cases hloc
    exact recvToken_receives (hopened q hon) (hpicks q hon) clk
  | recvSem d q =>
    have hon : (s.loc s.me).on = some q := by rw [hx]; rfl
    rw [hx] at hloc
    cases hloc
    exact recvCopy_receives (hopened q hon) (hpicks q hon)
  | user => rw [hx] at hloc; cases hloc
  | leaving r => rw [hx] at hloc; cases hloc
  | sendWait a => rw [hx] at hloc; cases hloc
  | sendPost => rw [hx] at hloc; cases hloc

/-- How far a call that was waiting at `x` has come in a step. -/
def GoesOn (s s' : MqState cfg) : MqLoc → Prop
  | .user => False
  | .leaving r => s.SameLogs s' ∧ s'.Ends r
  | .sendWait a => s.Sends a s'
  | .sendPost => s.SameLogs s' ∧ s'.Ends .sent
  | .recvWait c | .recvPost c _ | .recvSem c _ => s.Receives c s'

/-- Other threads run, and nothing else. -/
structure Yields (s s' : MqState cfg) : Prop where
  logs : s.SameLogs s'
  loc : s'.loc = s.loc
  ret : s'.ret = s.ret
  files : s'.filePool = s.filePool

/-- A step stores or fetches a message just when its call reports that, at once or when it goes
on. -/
def Reports (s s' : MqState cfg) : MqLabel cfg → Prop
  | .mqSend a _ => s.Moves s' ∧ s.Sends a s'
  | .mqReceive c _ => s.Moves s' ∧ s.Receives c s'
  | .resume _ => s.Moves s' ∧ s.GoesOn s' (s.loc s.me)
  | .yield _ _ => s.Yields s'

/-- A receiver that has settled on a queue has it from its descriptor. -/
def Settled (s : MqState cfg) : Prop :=
  ∀ t q, (s.loc t).on = some q → ∃ c, (s.loc t).receiver = some c ∧ s.Names c.mq q

theorem Settled.moves (h : s.Settled) (hm : s.Moves s')
    (hx : ∀ q, (s'.loc s'.me).on = some q →
      ∃ c, (s'.loc s'.me).receiver = some c ∧ s.Names c.mq q) : s'.Settled := by
  intro t q hq
  by_cases ht : t = s.me
  · rw [ht,← hm.me] at hq ⊢
    obtain ⟨c,hc,hn⟩ := hx q hq
    exact ⟨c,hc,hn.of_files hm.files.symm⟩
  · rw [hm.others t ht] at hq ⊢
    obtain ⟨c,hc,hn⟩ := h t q hq
    exact ⟨c,hc,hn.of_files hm.files.symm⟩

theorem Ends.on_none (h : s.Ends ret) : (s.loc s.me).on = none := by
  obtain hl | ⟨hl,-⟩ := h
  · rw [hl]
    rfl
  · rw [hl]
    rfl

theorem Settled.ends (h : s.Settled) (hm : s.Moves s') (hx : (s'.loc s'.me).on = none) :
    s'.Settled :=
  h.moves hm fun _ hq => nomatch hx.symm.trans hq

theorem Settled.sends (h : s.Settled) (hm : s.Moves s') (hs : s.Sends a s') : s'.Settled := by
  cases hs with
  | waits hlogs hx => exact h.ends hm (congrArg MqLoc.on hx)
  | fails hlogs e hx => exact h.ends hm hx.on_none
  | stores q hl hn ha hr hx =>
    rcases hx with hx | hx
    · exact h.ends hm (congrArg MqLoc.on hx)
    · exact h.ends hm hx.on_none

theorem Settled.picks (h : s.Settled) (hp : s.Picks c q) : s.Names c.mq q := by
  obtain hn | ⟨hc,hon⟩ := hp
  · exact hn
  · obtain ⟨c',hc',hn⟩ := h s.me q hon
    cases hc.symm.trans hc'
    exact hn

theorem Settled.receives (h : s.Settled) (hm : s.Moves s') (hs : s.Receives c s') :
    s'.Settled := by
  cases hs with
  | waits hlogs hx hn => exact h.moves hm fun q hq => ⟨c,hx,h.picks (hn q hq)⟩
  | fails hlogs e hx => exact h.ends hm hx.on_none
  | fetches q r prio hl hn ha hr hx hret => exact h.ends hm (congrArg MqLoc.on hx)

theorem Settled.reports (h : s.Settled) {l : MqLabel cfg} (hr : s.Reports s' l) : s'.Settled := by
  cases l with
  | mqSend a clk => exact h.sends hr.1 hr.2
  | mqReceive c clk => exact h.receives hr.1 hr.2
  | resume clk =>
    obtain ⟨hm,hg⟩ := hr
    cases hloc : s.loc s.me with
    | user =>
      rw [hloc] at hg
      exact hg.elim
    | leaving r =>
      rw [hloc] at hg
      exact h.ends hm hg.2.on_none
    | sendWait a =>
      rw [hloc] at hg
      exact h.sends hm hg
    | sendPost =>
      rw [hloc] at hg
      exact h.ends hm hg.2.on_none
    | recvWait c =>
      rw [hloc] at hg
      exact h.receives hm hg
    | recvPost c q =>
      rw [hloc] at hg
      exact h.receives hm hg
    | recvSem c q =>
      rw [hloc] at hg
      exact h.receives hm hg
  | yield clk t =>
    intro t q hq
    rw [hr.loc] at hq ⊢
    obtain ⟨c,hc,hn⟩ := h t q hq
    exact ⟨c,hc,hn.of_files hr.files.symm⟩

end MqState

/-! ### What a run keeps -/

open MqState

variable {qsort : Qsort} {k : Kernel cfg} {queuePool : QueueId → QueueD cfg}
  {filePool : Fin numberOfFiles → FileD cfg} {heap : Heap Byte} {own : QueueId → List ℕ}
  {s : MqState cfg}

end Tinker

import Tinker.SystemSteps

/-! The steps of the whole kernel, each with what it comes to. Every invariant of its runs is
proved from this list, and no call is opened again. -/
namespace Tinker

open Kernel Outcome

variable {cfg : Config} {numQ : ℕ}

/-- Where a call on a mutex or a condition variable may leave its thread. -/
def SyncPlace (x : Place cfg numQ) (y : Bool) : Prop :=
  y = false ∧ x = .user ∨ y = true ∧ (x = .returning ∨ (∃ c, x = .inWait c) ∨ ∃ c, x = .inSignal c)

def WorldLabel.isSync : WorldLabel cfg numQ → Bool
  | .lock _ | .unlock _ | .wait _ _ | .signal _ | .broadcast _ => true
  | _ => false

/-- A step that may put the running thread into a ring or a list. -/
def World.blocks (w : World cfg numQ) : WorldLabel cfg numQ → Bool
  | .take .. | .lock _ | .wait .. => true
  | .resume =>
    match w.place w.me with
    | .inWait _ => true
    | _ => false
  | _ => false

/-- What a step on mutexes and condition variables comes to. -/
def World.SyncGoes (w : World cfg numQ) (l : WorldLabel cfg numQ) (s : Sync cfg) : Prop :=
  ∀ x, (w.blocks l = true → x = w.me) → w.toSync.Goes x s

/-- `tk_create_thread` has taken slot `t` and runs the new thread. -/
def World.created (w : World cfg numQ) (r : ThreadReq) (k : Kernel cfg) (t : Thid cfg) :
    World cfg numQ :=
  { w with
    kernel := k
    place := Function.update (Function.update w.place w.me (.inCreate r t)) t .user
    yielding := true
    inst := Function.update w.inst t w.born
    born := w.born+1 }

/-- The control block of a parent that waits for its child. -/
def waitFor (t : Thid cfg) (b : Tcb cfg) : Tcb cfg :=
  { b with bOnId := ⟨.sched,.tcb t⟩, state := b.state ||| .term }

/-- `t` is a child of the running thread. -/
def Joinable (k : Kernel cfg) (t : Thid cfg) : Prop :=
  (k.pool t).gid = some k.activeThread ∧ (k.pool t).valid = true

/-- A step from `w`, by its label. -/
inductive World.Does (w : World cfg numQ) : WorldLabel cfg numQ → World cfg numQ → Prop
  | createItc {r granted} (hr : w.runs = true) : w.Does (.createItc r granted) (w.createItc r granted)
  | deleteItc {op qid st} (hr : w.runs = true)
      (hst : st.array = Function.update w.store.array qid none ∧ st.freed = w.store.freed) :
      w.Does (.deleteItc op qid) (w.setStore st)
  | destructItc {st} (hr : w.runs = true) (hst : st.array = w.store.array) :
      w.Does .destructItc (w.setStore st)
  | takes {op qid flags timeout bufLen st e evs} (hr : w.runs = true)
      (hst : w.store.SameSlots w.me st) (he : e ≠ .timeout) (hd : Deliveries qid (w.gen qid) evs) :
      w.Does (.take op qid flags timeout bufLen) (w.after w.toSync st
        (.took w.me ⟨op,qid,w.gen qid,timeout,w.now⟩ e w.now :: evs) .user false)
  | blocks {op qid flags timeout bufLen st m} (hr : w.runs = true)
      (hst : w.store.SameSlots w.me st) (ho : ∃ o, w.store.deref qid = .ok o) (hm : m = none ↔ timeout = 0) :
      w.Does (.take op qid flags timeout bufLen) (w.after
        { w.toSync with kernel := w.kernel.modTcb w.me (goToSleep timeout w.clock) } st []
        (.inTake ⟨op,qid,w.gen qid,timeout,w.now⟩ m) true)
  | gives {qid p k st evs x y} (hr : w.runs = true) (hs : w.Served qid k (y = true))
      (hst : ∀ x, w.store.SameSlots x st)
      (hev : ∀ ev ∈ evs, ∃ m, ev = .accepted qid (w.gen qid) m)
      (hx : y = false ∧ x = .user ∨ y = true ∧ (x = .returning ∨ x = .inSend qid (w.gen qid))) :
      w.Does (.give qid p) (w.after { w.toSync with kernel := k } st evs x y)
  | syncs {l s x y} (hl : l.isSync = true) (hr : w.runs = true)
      (hs : w.SyncGoes l s) (hx : SyncPlace x y) :
      w.Does l (w.after s w.store [] x y)
  | creates {r k t} (hr : w.runs = true) (hk : tkCreateThreadBegin w.kernel r = .ok (k,t)) :
      w.Does (.create r) (w.created r k t)
  | exits {retval} (hr : w.runs = true) (hroot : w.me ≠ root) (hidle : w.me ≠ w.kernel.idleThid) :
      w.Does (.exit retval) (w.after
        { w.toSync with kernel := tkDestructor w.kernel retval w.clock } w.store
        [.ended (w.inst w.me) retval] .ended true)
  | deletes {t k ok} (hr : w.runs = true) (hk : tkDeleteThread w.kernel t = .ok (k,ok)) :
      w.Does (.delete t) (w.setKernel k)
  | joins {t k d} (hr : w.runs = true) (ht : Joinable w.kernel t)
      (hz : (w.kernel.pool t).state.has .zombi = true)
      (hk : tkTryDetachParent w.kernel t true = .ok (k,d)) :
      w.Does (.join t) ((w.setKernel k).emit (.joined (w.inst t) (w.kernel.pool t).retval))
  | joinFails {t} (hr : w.runs = true) (ht : ¬Joinable w.kernel t) : w.Does (.join t) w
  | joinWaits {t} (hr : w.runs = true) (ht : Joinable w.kernel t)
      (hz : (w.kernel.pool t).state.has .zombi = false) :
      w.Does (.join t) (w.after { w.toSync with kernel := w.kernel.modTcb w.me (waitFor t) } w.store
        [] (.inJoin t (w.inst t)) true)
  | msleeps {ms} (hr : w.runs = true) :
      w.Does (.msleep ms) (w.after { w.toSync with kernel := tkMsleep w.kernel ms w.clock } w.store
        [] .returning true)
  | changesPrio {t p k y} (hr : w.runs = true) (hk : tkChangePrio w.kernel t p = .ok (k,y)) :
      w.Does (.changePrio t p) (w.setKernel k)
  | returns (hy : w.yielding = false)
      (hp : w.place w.me = .returning ∨ ∃ qid gen, w.place w.me = .inSend qid gen) :
      w.Does .resume (w.after w.toSync w.store [] .user false)
  | takeEnds {c markIdx k st e evs} (hy : w.yielding = false)
      (hp : w.place w.me = .inTake c markIdx) (hd : DropsTimedOut w.kernel k)
      (hst : ∀ x, w.store.SameSlots x st)
      (hev : Deliveries c.qid c.gen evs)
      (he : e = .timeout → markIdx ≠ none ∧ ((w.kernel.pool w.me).wakeupEvent = .timer ∨
        (w.kernel.pool w.me).wakeupEvent = .itc2)) :
      w.Does .resume (w.after { w.toSync with kernel := k } st (.took w.me c e w.now :: evs) .user
        false)
  | joinEnds {t inst} (hy : w.yielding = false) (hp : w.place w.me = .inJoin t inst)
      (he : (w.kernel.pool w.me).wakeupEvent = .childDeath) :
      w.Does .resume (w.after w.toSync w.store [.joined inst (w.kernel.pool w.me).retval] .user false)
  | createEnds {r t k v} (hy : w.yielding = false) (hp : w.place w.me = .inCreate r t)
      (hk : tkCreateThreadEnd w.kernel r t = .ok (k,v)) :
      w.Does .resume (w.after { w.toSync with kernel := k } w.store [] .user false)
  | syncEnds {s x y} (hy : w.yielding = false)
      (hp : (∃ c, w.place w.me = .inWait c) ∨ ∃ c, w.place w.me = .inSignal c)
      (hs : w.SyncGoes .resume s) (hx : SyncPlace x y) :
      w.Does .resume (w.after s w.store [] x y)
  | yields {t k} (hy : (w.yielding || w.runs) = true) (hr : readyAfterSweep w.kernel w.clock t = true)
      (hk : tkWakeupTimedoutThreads w.kernel w.clock = .ok k) :
      w.Does (.yield t) { w.setKernel (k.dispatch t) with yielding := false }
  | advances {us} : w.Does (.advance us) { w with now := w.now+us }

variable {w w' : World cfg numQ} {l : WorldLabel cfg numQ}

theorem World.SyncGoes.moves {s : Sync cfg} (hs : w.SyncGoes l s) :
    SyncMoves w.kernel s.kernel := (hs w.me fun _ => rfl).moves

theorem World.SyncGoes.of_me {s : Sync cfg} (hl : w.blocks l = true) (hs : w.toSync.Goes w.me s) :
    w.SyncGoes l s := fun x hx => by
  rw [hx hl]
  exact hs

theorem World.SyncGoes.of_all {s : Sync cfg} (hs : ∀ x, w.toSync.Goes x s) : w.SyncGoes l s :=
  fun x _ => hs x

theorem World.syncTo {s : Sync cfg} (hs : w.SyncGoes l s) (x : Place cfg numQ)
    (y : Bool) : (w.setSync s).goTo x y = w.after s w.store [] x y := by
  simp [World.after,World.goTo,World.setSync,World.me,hs.moves.active]

theorem World.syncStays {s : Sync cfg} (hr : w.runs = true) :
    w.setSync s = w.after s w.store [] .user false := by
  rw [World.after_self hr]
  simp [World.setSync]

theorem World.goTo_user : w.goTo .user false = w.after w.toSync w.store [] .user false := by
  simp [World.after,World.goTo]

/-- A call that yields at `x` or is done. -/
theorem World.Does.syncIf {s : Sync cfg} {y : Bool} {x : Place cfg numQ} (hl : l.isSync = true)
    (hr : w.runs = true) (hs : w.SyncGoes l s) (hx : SyncPlace x true) :
    w.Does l (if y then (w.setSync s).goTo x true else w.setSync s) := by
  cases y with
  | true =>
    rw [if_pos rfl,World.syncTo hs]
    exact .syncs hl hr hs hx
  | false =>
    rw [if_neg Bool.false_ne_true,World.syncStays hr]
    exact .syncs hl hr hs (Or.inl ⟨rfl,rfl⟩)

theorem syncPlace_returning : SyncPlace (.returning : Place cfg numQ) true :=
  Or.inr ⟨rfl,Or.inl rfl⟩

section

variable {st : ItcStore cfg numQ} {qid : Fin numQ}

theorem smDelete_frame : Spec (st.smDelete qid) (fun st' =>
    st'.array = Function.update st.array qid none ∧ st'.freed = st.freed) (fun _ => True) := by
  unfold ItcStore.smDelete
  cases st.deref qid with
  | error e => trivial
  | ok o => exact ⟨rfl,rfl⟩

theorem qDelete_frame : Spec (st.qDelete qid) (fun st' =>
    st'.array = Function.update st.array qid none ∧ st'.freed = st.freed) (fun _ => True) := by
  simp only [ItcStore.qDelete,spec_bind,spec_check]
  cases st.deref qid with
  | error e => trivial
  | ok o => exact ⟨fun _ => smDelete_frame,fun _ => trivial⟩

theorem qVdelete_frame : Spec (st.qVdelete qid) (fun st' =>
    st'.array = Function.update st.array qid none ∧ st'.freed = st.freed) (fun _ => True) := by
  simp only [ItcStore.qVdelete,spec_bind,spec_check]
  cases st.deref qid with
  | error e => trivial
  | ok o =>
    refine ⟨fun _ => ?_,fun _ => trivial⟩
    cases ItcStore.freeSlots st.heap o with
    | error e => trivial
    | ok heap => exact (show Spec (ItcStore.smDelete { st with heap := heap } qid) _ _ from smDelete_frame)

theorem tkItcDestruct_frame : Spec st.tkItcDestruct (fun st' => st'.array = st.array)
    (fun _ => True) := by
  refine spec_foldlM rfl fun s i _ hs => ?_
  unfold ItcStore.destructOne
  cases s.slot i with
  | error e => trivial
  | ok slot =>
    cases slot with
    | none => exact hs
    | some o =>
      simp only [spec_bind,spec_ok,spec_ite,spec_pure]
      refine ⟨fun _ => ?_,fun _ => hs⟩
      cases ItcStore.freeSlots s.heap o with
      | error e => trivial
      | ok heap => exact hs

end

theorem World.signal_does {c : ℕ} (hr : w.runs = true) :
    Spec (w.signal c) (w.Does (.signal c)) (fun _ => True) := by
  simp only [World.signal,spec_bind]
  have : Nonempty (Thid cfg) := ⟨w.me⟩
  refine (Spec.all fun me => pthreadCondSignal_goes me).imp ?_
  rintro ⟨s,_ | _ | _⟩ hs <;> replace hs : w.SyncGoes (.signal c) s := .of_all hs
  · simp only [spec_pure]
    rw [World.syncStays hr]
    exact .syncs rfl hr hs (Or.inl ⟨rfl,rfl⟩)
  · simp only [spec_pure]
    rw [World.syncTo hs]
    exact .syncs rfl hr hs (Or.inr ⟨rfl,Or.inr (Or.inr ⟨c,rfl⟩)⟩)
  · simp only [spec_pure]
    rw [World.syncTo hs]
    exact .syncs rfl hr hs syncPlace_returning

/-- `tk_join` reaps a dead child and waits for a living one. -/
theorem tkJoin_spec {k : Kernel cfg} {t : Thid cfg} : Spec (tkJoin k t) (fun r =>
    (¬Joinable k t ∧ (r = (k,.einval) ∨ r = (k,.esrch))) ∨
    Joinable k t ∧ (((k.pool t).state.has .zombi = true ∧ ∃ k' d,
      tkTryDetachParent k t true = .ok (k',d) ∧ r = (k',.ok (k.pool t).retval)) ∨
      (k.pool t).state.has .zombi = false ∧ r = (k.modTcb k.activeThread (waitFor t),.waits)))
    (fun _ => True) := by
  unfold tkJoin
  by_cases hg : (k.pool t).gid = some k.activeThread
  · rw [if_neg (not_not.mpr hg)]
    by_cases hv : (k.pool t).valid = false
    · rw [if_pos hv]
      exact Or.inl ⟨fun h => absurd (h.2.symm.trans hv) (by decide),Or.inr rfl⟩
    · rw [if_neg hv]
      have ht : Joinable k t := ⟨hg,by simpa using hv⟩
      by_cases hz : (k.pool t).state.has .zombi = true
      · rw [if_pos hz]
        cases hk : tkTryDetachParent k t true with
        | error e => trivial
        | ok p => exact Or.inr ⟨ht,Or.inl ⟨hz,p.1,p.2,rfl,rfl⟩⟩
      · rw [if_neg hz]
        exact Or.inr ⟨ht,Or.inr ⟨by simpa using hz,rfl⟩⟩
  · rw [if_pos hg]
    exact Or.inl ⟨fun h => hg h.1,Or.inl rfl⟩

theorem World.join_does {t : Thid cfg} (hr : w.runs = true) :
    Spec (w.join t) (w.Does (.join t)) (fun _ => True) := by
  simp only [World.join,spec_bind]
  refine tkJoin_spec.imp ?_
  rintro _ (⟨hn,rfl | rfl⟩ | ⟨ht,⟨hz,k,d,hk,rfl⟩ | ⟨hz,rfl⟩⟩)
  · exact .joinFails hr hn
  · exact .joinFails hr hn
  · exact .joins hr ht hz hk
  · simp only [spec_pure]
    have he := w.goTo_eq (w.kernel.modTcb w.me (waitFor t)) w.store rfl (.inJoin t (w.inst t)) true
    exact he ▸ .joinWaits hr ht hz

/-- A thread that runs again goes on behind the yield of its call. -/
theorem World.resume_does (hy : w.yielding = false) (hu : w.place w.me ≠ .user)
    (he : w.place w.me ≠ .ended) : Spec w.resume (w.Does .resume) (fun _ => True) := by
  unfold World.resume
  cases hp : w.place w.me with
  | user => exact absurd hp hu
  | ended => exact absurd hp he
  | returning =>
    rw [spec_ok,World.goTo_user]
    exact .returns hy (Or.inl hp)
  | inTake c markIdx =>
    refine World.takeWoken_spec.imp ?_
    rintro _ ⟨k,st,e,evs,hd,hst,hev,rfl,ht⟩
    exact .takeEnds hy hp hd hst hev ht
  | inSend qid gen =>
    simp only [spec_bind,spec_pure]
    cases w.store.sendEnd w.kernel qid with
    | error e => trivial
    | ok e =>
      rw [spec_ok,World.goTo_user]
      exact .returns hy (Or.inr ⟨qid,gen,hp⟩)
  | inJoin t inst =>
    simp only [World.joinWoken,tkJoinWoken,spec_bind,spec_check]
    exact ⟨fun hc => .joinEnds hy hp hc,fun _ => trivial⟩
  | inCreate r t =>
    simp only [spec_bind,spec_pure]
    cases hk : tkCreateThreadEnd w.kernel r t with
    | error e => trivial
    | ok p =>
      have he : (w.goTo .user false).setKernel p.1 =
          w.after { w.toSync with kernel := p.1 } w.store [] .user false := by
        simp [World.after,World.goTo,World.setKernel]
      rw [spec_ok,he]
      exact .createEnds hy hp hk
  | inWait c =>
    simp only [spec_bind,spec_pure]
    refine pthreadCondWaitEnd_goes.imp ?_
    rintro ⟨s,y⟩ hs
    have hs : w.SyncGoes .resume s := .of_me (by simp [World.blocks,hp]) hs
    rw [World.syncTo hs]
    refine .syncEnds hy (Or.inl ⟨c,hp⟩) hs ?_
    cases y with
    | true => exact syncPlace_returning
    | false => exact Or.inl ⟨rfl,rfl⟩
  | inSignal c =>
    simp only [spec_bind,spec_pure]
    have : Nonempty (Thid cfg) := ⟨w.me⟩
    refine (Spec.all fun me => pthreadCondSignalEnd_goes me).imp ?_
    rintro ⟨s,y⟩ hs
    have hs : w.SyncGoes .resume s := .of_all hs
    rw [World.syncTo hs]
    refine .syncEnds hy (Or.inr ⟨c,hp⟩) hs ?_
    cases y with
    | true => exact syncPlace_returning
    | false => exact Or.inl ⟨rfl,rfl⟩

/-- The list is complete. -/
theorem worldStep_does (hm : (worldMachine cfg numQ).Step w l w') : w.Does l w' := by
  have he : worldEnabled w l = true := hm.1
  have : Nonempty (Thid cfg) := ⟨w.me⟩
  suffices h : Spec (worldNext w l) (w.Does l) (fun _ => True) from h.of_ok hm.2
  cases l with
  | createItc r granted => exact .createItc he
  | deleteItc op qid =>
    have hr : w.runs = true := he
    simp only [worldNext,World.deleteItc]
    cases op with
    | sem =>
      rw [spec_bind]
      exact smDelete_frame.imp fun st hst => .deleteItc hr hst
    | sQueue =>
      rw [spec_bind]
      exact qDelete_frame.imp fun st hst => .deleteItc hr hst
    | vQueue =>
      rw [spec_bind]
      exact qVdelete_frame.imp fun st hst => .deleteItc hr hst
  | destructItc =>
    simp only [worldNext,spec_bind,spec_pure]
    exact tkItcDestruct_frame.imp fun st hst => .destructItc he hst
  | take op qid flags timeout bufLen =>
    refine World.take_spec.imp ?_
    rintro _ ⟨st,hst,⟨e,evs,hne,hd,rfl⟩ | ⟨m,hm,ho,rfl⟩⟩
    · exact .takes he hst hne hd
    · exact .blocks he hst ho hm
  | give qid p =>
    refine (World.give_spec he).imp ?_
    rintro _ ⟨k,st,evs,x,y,hs,hst,hev,hx,rfl⟩
    exact .gives he hs hst hev hx
  | lock r =>
    simp only [worldNext,World.lock,spec_bind,spec_pure]
    exact mutexLockPrimitive_goes.imp fun p hp => .syncIf rfl he (.of_me rfl hp) syncPlace_returning
  | unlock r =>
    simp only [worldNext,World.unlock,spec_bind,spec_pure]
    exact (Spec.all fun me => mutexUnlockPrimitive_goes me).imp fun p hp =>
      .syncIf rfl he (.of_all hp) syncPlace_returning
  | wait c r =>
    simp only [worldNext,World.wait,spec_bind,spec_pure]
    refine pthreadCondWait_goes.imp fun s hs => ?_
    have hs : w.SyncGoes (.wait c r) s := .of_me rfl hs
    rw [World.syncTo hs]
    exact .syncs rfl he hs (Or.inr ⟨rfl,Or.inr (Or.inl ⟨c,rfl⟩)⟩)
  | signal c => exact World.signal_does he
  | broadcast c =>
    simp only [worldNext,World.broadcast,spec_bind,spec_pure]
    exact (Spec.all fun me => pthreadCondBroadcast_goes me).imp fun p hp =>
      .syncIf rfl he (.of_all hp) syncPlace_returning
  | create r =>
    simp only [worldNext,World.create,spec_bind,spec_pure]
    cases hk : tkCreateThreadBegin w.kernel r with
    | error e => trivial
    | ok p => exact .creates he hk
  | exit retval =>
    obtain ⟨hr,hd⟩ := Bool.and_eq_true_iff.mp he
    have hd := of_decide_eq_true hd
    exact .exits hr hd.1 hd.2
  | delete t =>
    simp only [worldNext,World.delete,spec_bind,spec_pure]
    cases hk : tkDeleteThread w.kernel t with
    | error e => trivial
    | ok p => exact .deletes he hk
  | join t => exact World.join_does he
  | msleep ms =>
    have hms : w.msleep ms = w.after { w.toSync with kernel := tkMsleep w.kernel ms w.clock }
        w.store [] .returning true :=
      w.goTo_eq (tkMsleep w.kernel ms w.clock) w.store rfl .returning true
    simp only [worldNext,spec_ok,hms]
    exact .msleeps he
  | changePrio t newPrio =>
    simp only [worldNext,World.changePrio,spec_bind,spec_pure]
    cases hk : tkChangePrio w.kernel t newPrio with
    | error e => trivial
    | ok p => exact .changesPrio he hk
  | resume =>
    obtain ⟨hy,hp⟩ := Bool.and_eq_true_iff.mp he
    have hp := of_decide_eq_true hp
    exact World.resume_does (Bool.not_eq_true' _ ▸ hy) hp.1 hp.2
  | yield t =>
    obtain ⟨hy,hr⟩ := Bool.and_eq_true_iff.mp he
    simp only [worldNext,World.yield,spec_bind,spec_pure]
    cases hk : tkWakeupTimedoutThreads w.kernel w.clock with
    | error e => trivial
    | ok k => exact .yields hy hr hk
  | advance us => exact .advances

/-! ### What steps leave alone -/

section

variable {t : Thid cfg}

theorem World.createItc_frame (w : World cfg numQ) (r : ItcReq) (granted : Bool) :
    ∃ st gen, w.createItc r granted = { w with store := st, gen := gen } := by
  unfold World.createItc
  split
  · exact ⟨_,_,rfl⟩
  · exact ⟨_,w.gen,rfl⟩

theorem World.createItc_store (w : World cfg numQ) (r : ItcReq) (granted : Bool) :
    (w.createItc r granted).store = (w.store.create r.obj granted).1 := by
  unfold World.createItc
  split <;> next h => rw [h]; rfl

theorem World.Does.now_eq (h : w.Does l w') (hl : ∀ us, l ≠ .advance us) : w'.now = w.now := by
  cases h with
  | @createItc r granted hr =>
    obtain ⟨st,gen,he⟩ := w.createItc_frame r granted
    rw [he]
  | advances => exact absurd rfl (hl _)
  | _ => rfl

/-- A step moves no thread but the running one, and puts a new one to its start. -/
theorem World.Does.others (h : w.Does l w') (hl : ∀ r, l ≠ .create r) (ht : t ≠ w.me) :
    w'.place t = w.place t := by
  cases h with
  | @createItc r granted hr =>
    obtain ⟨st,gen,he⟩ := w.createItc_frame r granted
    rw [he]
  | creates hr hk => exact absurd rfl (hl _)
  | deleteItc | destructItc | deletes | joins | joinFails | changesPrio | yields | advances => rfl
  | _ => exact Function.update_of_ne ht _ _

end

end Tinker

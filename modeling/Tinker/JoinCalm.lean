import Tinker.Joins

/-! The steps that concern no thread inside `tk_join` and no dead one: each of them leaves the
invariant of the joins as it was. -/
namespace Tinker

open Kernel Outcome

variable {cfg : Config} {numQ : ℕ}

section

variable {w w' : World cfg numQ} {l : WorldLabel cfg numQ}

/-! ### Mutexes and condition variables -/

theorem Turns.active {s s' : Sync cfg} {y : Bool} (h : Turns s y s') :
    s'.kernel.activeThread = s.kernel.activeThread := by
  rw [h.rest]

/-- A step on mutexes and condition variables, with what it does to the threads. -/
def World.TurnsTo (w w' : World cfg numQ) : Prop :=
  ∃ s x y, Turns w.toSync y s ∧ SyncPlace x y ∧ w' = w.after s w.store [] x y

theorem World.TurnsTo.yields {s : Sync cfg} {x : Place cfg numQ} (h : Turns w.toSync true s)
    (hx : SyncPlace x true) : w.TurnsTo ((w.setSync s).goTo x true) := by
  refine ⟨s,x,true,h,hx,?_⟩
  have hact : s.kernel.activeThread = w.kernel.activeThread := h.active
  simp [World.after,World.goTo,World.setSync,World.me,hact]

theorem World.TurnsTo.done {s : Sync cfg} (hr : w.runs = true) (h : Turns w.toSync false s) :
    w.TurnsTo (w.setSync s) := by
  refine ⟨s,.user,false,h,Or.inl ⟨rfl,rfl⟩,?_⟩
  rw [World.after_self hr]
  simp [World.setSync]

theorem World.TurnsTo.ite {s : Sync cfg} {y : Bool} (hr : w.runs = true) (h : Turns w.toSync y s) :
    w.TurnsTo (if y then (w.setSync s).goTo .returning true else w.setSync s) := by
  cases y with
  | true => exact .yields h syncPlace_returning
  | false => exact .done hr h

theorem World.TurnsTo.woken {s : Sync cfg} {y : Bool} (h : Turns w.toSync y s) :
    w.TurnsTo ((w.setSync s).goTo (if y then .returning else .user) y) := by
  cases y with
  | true => exact .yields h syncPlace_returning
  | false =>
    refine ⟨s,.user,false,h,Or.inl ⟨rfl,rfl⟩,?_⟩
    have hact : s.kernel.activeThread = w.kernel.activeThread := h.active
    simp [World.after,World.goTo,World.setSync,World.me,hact]

theorem World.sync_turns (h : WaitLists w.toSync) (hme : (w.kernel.pool w.me).state = .ready)
    (hr : w.runs = true) (hl : l.isSync = true) :
    Spec (worldNext w l) w.TurnsTo (fun _ => True) := by
  cases l with
  | lock r =>
    simp only [worldNext,World.lock,spec_bind,spec_pure]
    exact ((Releases.refl h).lock h hme r).imp fun p hp => .ite hr hp
  | unlock r =>
    simp only [worldNext,World.unlock,spec_bind,spec_pure]
    exact (h.unlock hme r false).imp fun p hp => .ite hr (hp.turns _)
  | wait c r =>
    simp only [worldNext,World.wait,spec_bind,spec_pure]
    exact (pthreadCondWait_turns h hme).imp fun s hs =>
      .yields hs (Or.inr ⟨rfl,Or.inr (Or.inl ⟨c,rfl⟩)⟩)
  | signal c =>
    simp only [worldNext,World.signal,spec_bind]
    refine (pthreadCondSignal_releases h hme).imp ?_
    rintro ⟨s,_ | _ | _⟩ hs
    · exact .done hr (hs.turns _)
    · exact .yields (hs.turns _) (Or.inr ⟨rfl,Or.inr (Or.inr ⟨c,rfl⟩)⟩)
    · exact .yields (hs.turns _) syncPlace_returning
  | broadcast c =>
    simp only [worldNext,World.broadcast,spec_bind,spec_pure]
    exact (pthreadCondBroadcast_releases h hme).imp fun p hp => .ite hr (hp.turns _)
  | _ => cases hl

/-- A thread runs on behind its yield in `pthread_cond_wait` or `pthread_cond_signal`. -/
theorem World.resume_turns (h : WaitLists w.toSync) (hme : (w.kernel.pool w.me).state = .ready)
    (hp : (∃ c, w.place w.me = .inWait c) ∨ ∃ c, w.place w.me = .inSignal c) :
    Spec w.resume w.TurnsTo (fun _ => True) := by
  unfold World.resume
  obtain ⟨c,hp⟩ | ⟨c,hp⟩ := hp
  · simp only [hp,spec_bind,spec_pure]
    exact (pthreadCondWaitEnd_turns h hme).imp fun p hs => .woken hs
  · simp only [hp,spec_bind,spec_pure]
    exact (pthreadCondSignalEnd_releases h hme).imp fun p hs => .woken (hs.turns _)

/-! ### The calm steps -/

theorem JoinInv.sync_calm (h : JoinInv w) (hy : w.yielding = false)
    (hme : (w.place w.me).joins = false) (ht : w.TurnsTo w') : CalmFor w w' := by
  obtain ⟨s,x,y,ht,hx,rfl⟩ := ht
  have hready := h.turn hy
  have hxj : x.joins = false := by
    obtain ⟨_,rfl⟩ | ⟨_,rfl | ⟨c,rfl⟩ | ⟨c,rfl⟩⟩ := hx <;> rfl
  refine calm_after hme hxj (fun t => ?_) ?_ (fun i v => ⟨List.not_mem_nil,List.not_mem_nil⟩)
    ht.lists fun hy' => ?_
  · obtain he | ⟨⟨r,hm⟩,he⟩ | ⟨rfl,_,r,he⟩ := ht.pool t
    · rw [he]
      exact .refl _ _
    · -- a thread of a list waits outside of `tk_join`
      rw [he]
      refine .of_outside (h.listed hm) rfl (ProcState.clear_queue_has_zombi _) fun hterm => ?_
      rw [h.lists.unblock_ready hm,ProcState.has_ready] at hterm
      cases hterm
    · rw [he]
      refine .of_ready hme hready rfl (Or.inl ?_)
      rw [blockOn,show (w.kernel.pool w.kernel.activeThread).state = .ready from hready]
      exact ProcState.ready_or _
  · rw [ht.rest]
    exact ⟨rfl,rfl,rfl⟩
  · obtain he | ⟨⟨r,hm⟩,_⟩ | ⟨_,hy2,_⟩ := ht.pool w.me
    · rw [he]
      exact hready
    · exact absurd hm (h.lists.notMem hready r)
    · rw [hy'] at hy2
      cases hy2

/-- The running thread has done something to its own control block, and yields. -/
theorem JoinInv.own_calm (h : JoinInv w) (hy : w.yielding = false)
    (hme : (w.place w.me).joins = false) {f : Tcb cfg → Tcb cfg} {st : ItcStore cfg numQ}
    {x : Place cfg numQ} (hx : x.joins = false)
    (hf : f (w.kernel.pool w.me) = { w.kernel.pool w.me with
      bOnId := (f (w.kernel.pool w.me)).bOnId, state := (f (w.kernel.pool w.me)).state
      wakeuptime := (f (w.kernel.pool w.me)).wakeuptime
      wakeupEvent := (f (w.kernel.pool w.me)).wakeupEvent
      prio := (f (w.kernel.pool w.me)).prio, idx := (f (w.kernel.pool w.me)).idx })
    (hs : (f (w.kernel.pool w.me)).state = .queue ∨ (f (w.kernel.pool w.me)).state = .queueSleep ∨
      (f (w.kernel.pool w.me)).state = .sleep) :
    CalmFor w (w.after { w.toSync with kernel := w.kernel.modTcb w.me f } st [] x true) := by
  have hready := h.turn hy
  refine calm_after hme hx (fun t => ?_) ⟨rfl,rfl,rfl⟩
    (fun i v => ⟨List.not_mem_nil,List.not_mem_nil⟩) ?_ (by rintro ⟨⟩)
  · rw [Kernel.modTcb_pool]
    split
    · next ht =>
      rw [ht]
      exact .of_ready hme hready hf hs
    · exact .refl _ _
  · refine h.lists.congr rfl fun r t ht => ?_
    rw [Kernel.modTcb_pool,if_neg]
    · exact ⟨rfl,rfl⟩
    · rintro rfl
      exact h.lists.notMem hready r ht

/-- The control blocks have got new places in the schedule, at most. -/
theorem JoinInv.rank_calm (h : JoinInv w) (hy : w.yielding = false)
    (hme : (w.place w.me).joins = false) {k : Kernel cfg} {x : Place cfg numQ}
    (hx : x.joins = false) (hp : ∀ t, ∃ p i, k.pool t = { w.kernel.pool t with prio := p, idx := i })
    (hk : k.idleThid = w.kernel.idleThid ∧ k.npreempt = w.kernel.npreempt ∧
      k.activeThread = w.kernel.activeThread) :
    CalmFor w (w.after { w.toSync with kernel := k } w.store [] x false) := by
  refine calm_after hme hx (fun t => ?_) hk (fun i v => ⟨List.not_mem_nil,List.not_mem_nil⟩)
    (h.lists.congr rfl fun r t _ => ?_) fun _ => ?_
  · obtain ⟨p,i,he⟩ := hp t
    rw [he]
    exact ⟨rfl,rfl,rfl,rfl,rfl,fun h => h,fun _ => ⟨rfl,rfl,fun h => h⟩⟩
  · obtain ⟨p,i,he⟩ := hp t
    simp only [he]
    exact ⟨trivial,trivial⟩
  · obtain ⟨p,i,he⟩ := hp w.me
    rw [he]
    exact h.turn hy

/-- What a giving call readies is neither inside `tk_join` nor blocked on a mutex. -/
theorem JoinInv.give_calm (h : JoinInv w) (hr : w.runs = true) {qid : Fin numQ} {p : Payload}
    {k : Kernel cfg} {st : ItcStore cfg numQ} {evs : List (Event cfg numQ)} {x : Place cfg numQ}
    {y : Bool} (hsp : SparesJoins w (.give qid p)) (hs : w.Served qid k (y = true))
    (hev : ∀ ev ∈ evs, ∃ m, ev = .accepted qid (w.gen qid) m) (hx : x.joins = false) :
    CalmFor w (w.after { w.toSync with kernel := k } st evs x y) := by
  obtain ⟨hy,hu⟩ := World.runs_iff.mp hr
  have hme : (w.place w.me).joins = false := by rw [hu]; rfl
  have hevs : ∀ i v, .ended i v ∉ evs ∧ .joined i v ∉ evs := by
    intro i v
    refine ⟨fun hm => ?_,fun hm => ?_⟩
    · obtain ⟨m,he⟩ := hev _ hm
      cases he
    · obtain ⟨m,he⟩ := hev _ hm
      cases he
  obtain ⟨rfl,_⟩ | ⟨t,ht,rfl,hyes⟩ := hs
  · exact calm_after hme hx (fun t => .refl _ _) ⟨rfl,rfl,rfl⟩ hevs h.lists fun _ => h.turn hy
  · obtain ⟨htj,htq⟩ := hsp t ht
    refine calm_after hme hx (fun u => ?_) ⟨rfl,rfl,rfl⟩ hevs (h.lists.congr rfl fun r u hu => ?_)
      fun hno => ?_
    · rw [readyByItc,Kernel.modTcb_pool]
      split
      · next hut =>
        subst hut
        refine .of_outside htj rfl (ProcState.clear_queueSleepTerm_has_zombi _) fun hterm => ?_
        rw [ProcState.clear_queueSleepTerm_has_term] at hterm
        cases hterm
      · exact .refl _ _
    · -- the threads of the lists are blocked on mutexes
      obtain ⟨hst,hb⟩ := h.lists.blocked r u hu
      rw [readyByItc,Kernel.modTcb_pool,if_neg]
      · exact ⟨rfl,rfl⟩
      · rintro rfl
        refine htq ?_ ?_
        · rw [hst]
          exact ProcState.queue_has_queue
        · rw [hb]
    · rw [hyes] at hno
      cases hno

/-- A timed wait that ends tells others of their timeouts. -/
theorem JoinInv.take_calm (h : JoinInv w) (hy : w.yielding = false)
    (hme : (w.place w.me).joins = false) {k : Kernel cfg} {st : ItcStore cfg numQ}
    {evs : List (Event cfg numQ)} (hd : DropsTimedOut w.kernel k)
    (hevs : ∀ i v, .ended i v ∉ evs ∧ .joined i v ∉ evs) :
    CalmFor w (w.after { w.toSync with kernel := k } st evs .user false) := by
  have hsame : ∀ t, (k.pool t).state = (w.kernel.pool t).state ∧
      (k.pool t).bOnId = (w.kernel.pool t).bOnId := by
    intro t
    obtain he | ⟨_,he⟩ := hd.pool t <;> rw [he] <;> exact ⟨rfl,rfl⟩
  refine calm_after hme rfl (fun t => ?_) ?_ hevs (h.lists.congr rfl fun r t _ => hsame t)
    fun _ => (hsame w.me).1.trans (h.turn hy)
  · obtain he | ⟨hev,he⟩ := hd.pool t
    · rw [he]
      exact .refl _ _
    · rw [he]
      refine ⟨rfl,rfl,rfl,rfl,rfl,fun h => h,fun _ => ⟨rfl,rfl,fun hc => ?_⟩⟩
      rw [hev] at hc
      cases hc
  · rw [hd.rest]
    exact ⟨rfl,rfl,rfl⟩

theorem took_events {t : Thid cfg} {c : TakeCall numQ} {e : ItcErr} {now : ℕ} {qid : Fin numQ}
    {gen : ℕ} {evs : List (Event cfg numQ)} (hd : Deliveries qid gen evs) (i v : ℕ) :
    .ended i v ∉ Event.took t c e now :: evs ∧ .joined i v ∉ Event.took t c e now :: evs := by
  refine ⟨fun hm => ?_,fun hm => ?_⟩
  · obtain he | hm := List.mem_cons.mp hm
    · cases he
    · obtain ⟨_,_,he⟩ := hd _ hm
      cases he
  · obtain he | hm := List.mem_cons.mp hm
    · cases he
    · obtain ⟨_,_,he⟩ := hd _ hm
      cases he

/-- Nothing has been done but to the objects and the clock. -/
theorem JoinInv.same_calm (h : JoinInv w) (st : ItcStore cfg numQ) (gen : Fin numQ → ℕ) (now : ℕ) :
    CalmFor w { w with store := st, gen := gen, now := now } where
  place := fun _ => Or.inl rfl
  tcb := fun _ => .refl _ _
  idle := rfl
  npreempt := rfl
  inst := rfl
  born := rfl
  log := ⟨[],(List.append_nil _).symm,fun _ _ => ⟨List.not_mem_nil,List.not_mem_nil⟩⟩
  lists := h.lists
  turn := h.turn

/-- The step is calm. -/
theorem JoinInv.quiet_calm (h : JoinInv w) (hs : (worldMachine cfg numQ).Step w l w')
    (hq : w.Quiet l) (hsp : SparesJoins w l) : CalmFor w w' := by
  have hruns : w.runs = true → w.yielding = false ∧ (w.place w.me).joins = false := by
    intro hr
    obtain ⟨hy,hp⟩ := World.runs_iff.mp hr
    exact ⟨hy,by rw [hp]; rfl⟩
  have hset : ∀ k, w.runs = true →
      w.setKernel k = w.after { w.toSync with kernel := k } w.store [] .user false := by
    intro k hr
    rw [World.after_self hr]
    simp [World.setKernel]
  cases worldStep_does hs with
  | @createItc r granted hr =>
    obtain ⟨st,gen,he⟩ := w.createItc_frame r granted
    rw [he]
    exact h.same_calm st gen w.now
  | deleteItc hr hst => exact h.same_calm _ w.gen w.now
  | destructItc hr hst => exact h.same_calm _ w.gen w.now
  | takes hr hst he hd =>
    obtain ⟨hy,hme⟩ := hruns hr
    exact h.take_calm hy hme (.refl w.kernel) (took_events hd)
  | @blocks op qid flags timeout bufLen st m hr hst ho hm =>
    obtain ⟨hy,hme⟩ := hruns hr
    refine h.own_calm hy hme rfl ?_ ?_
    · unfold goToSleep
      split <;> rfl
    · rw [goToSleep_state timeout w.clock (h.turn hy)]
      split
      · exact Or.inl rfl
      · exact Or.inr (Or.inl rfl)
  | gives hr hsv hst hev hx =>
    refine h.give_calm hr hsp hsv hev ?_
    obtain ⟨_,rfl⟩ | ⟨_,rfl | rfl⟩ := hx <;> rfl
  | syncs hl hr hgo hx =>
    obtain ⟨hy,hme⟩ := hruns hr
    exact h.sync_calm hy hme ((World.sync_turns h.lists (h.turn hy) hr hl).of_ok hs.2)
  | creates hr hk => cases hq
  | exits hr hroot hidle => cases hq
  | deletes hr hk => cases hq
  | joins hr ht hz hk => exact absurd ht hq
  | joinFails hr ht => exact h.same_calm w.store w.gen w.now
  | joinWaits hr ht hz => exact absurd ht hq
  | @msleeps ms hr =>
    obtain ⟨hy,hme⟩ := hruns hr
    refine h.own_calm hy hme rfl rfl (Or.inr (Or.inr ?_))
    rw [show (w.kernel.pool w.me).state = .ready from h.turn hy]
    exact ProcState.ready_or _
  | @changesPrio t p k y hr hk =>
    obtain ⟨hy,hme⟩ := hruns hr
    rw [hset k hr]
    have hm := tkChangePrio_moves.of_ok hk
    refine h.rank_calm hy hme rfl (fun u => ?_) ⟨hm.idle,hm.npreempt,hm.active⟩
    obtain ⟨i,he⟩ := (tkChangePrio_pool.of_ok hk).2.2 u
    exact ⟨_,i,he⟩
  | returns hy hp => exact h.take_calm hy hq (.refl w.kernel) fun _ _ => ⟨List.not_mem_nil,List.not_mem_nil⟩
  | takeEnds hy hp hd hst hev he => exact h.take_calm hy hq hd (took_events hev)
  | joinEnds hy hp he =>
    have hq : (w.place w.me).joins = false := hq
    rw [hp] at hq
    cases hq
  | createEnds hy hp hk =>
    have hm := tkCreateThreadEnd_moves.of_ok hk
    refine h.rank_calm hy hq rfl (fun u => ?_) ⟨hm.idle,hm.npreempt,hm.active⟩
    obtain ⟨i,he⟩ := tkCreateThreadEnd_pool.of_ok hk u
    exact ⟨(w.kernel.pool u).prio,i,he⟩
  | syncEnds hy hp hgo hx =>
    exact h.sync_calm hy hq ((World.resume_turns h.lists (h.turn hy) hp).of_ok hs.2)
  | yields hy hr hk => cases hq
  | @advances us => exact h.same_calm w.store w.gen (w.now+us)

end

end Tinker

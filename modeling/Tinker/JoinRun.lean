import Tinker.JoinSteps

/-! The sweep reaps the dead and tells the parents that wait for them, and with it whole runs: what
`tk_join` is promised holds as long as no object readies a thread that waits for something else. -/
namespace Tinker

open Kernel Outcome

variable {cfg : Config} {numQ : ℕ}

section

variable {k k' : Kernel cfg} {c : Thid cfg} {clk : Clock}

/-! ### One round of the sweep -/

/-- From `k` to `k'` the dead thread `c` has been taken out of the table. Its parent, if it had one
still, was waiting for it and has been told. -/
structure Reaped (k : Kernel cfg) (c : Thid cfg) (k' : Kernel cfg) : Prop where
  idle : k'.idleThid = k.idleThid
  active : k'.activeThread = k.activeThread
  npreempt : k'.npreempt = k.npreempt
  self : k'.pool c = { k.pool c with valid := false, gid := none, idx := (k'.pool c).idx }
  parent : ∀ p, (k.pool c).gid = some p → waitsFor (k.pool p) c = true ∧
    k'.pool p = { unblockParent c (k.pool c).retval (k.pool p) with
      noChilds := (k.pool p).noChilds-1, idx := (k'.pool p).idx }
  others : ∀ u ≠ c, (k.pool c).gid ≠ some u → k'.pool u = { k.pool u with idx := (k'.pool u).idx }

/-- The control blocks behind a burial. -/
theorem bury_pool : Spec (bury k c) (fun k' => k'.idleThid = k.idleThid ∧
    k'.activeThread = k.activeThread ∧ k'.npreempt = k.npreempt ∧ ∀ u, k'.pool u = { k.pool u with
      valid := if u = c then false else (k.pool u).valid, idx := (k'.pool u).idx })
    (fun _ => True) := by
  refine (bury_moves.and ?_).imp fun k' h => ⟨h.1.idle,h.1.active,h.1.npreempt,h.2⟩
  simp only [bury,Kernel.readCell,Kernel.readProcs,spec_bind,spec_check,spec_ite,spec_ok,spec_pure]
  refine ⟨fun _ => ⟨fun _ => ⟨fun _ => (compactRow_pool _ _ _).mono (fun k' hk u => ?_)
    fun _ _ => trivial,fun _ => trivial⟩,fun _ => trivial⟩,fun _ => trivial⟩
  rw [Kernel.modTcb_pool]
  split
  · next hu =>
    subst hu
    simp only [shortenRow,Kernel.modStat_pool]
    rw [hk u]
  · simp only [shortenRow,Kernel.modStat_pool]
    rw [hk u]

/-- A dead thread is deleted by its burial. -/
theorem tkDeleteThread_dead (hv : (k.pool c).valid = true)
    (hz : (k.pool c).state.has .zombi = true) :
    tkDeleteThread k c = (do let k ← bury k c; return (k,true)) := by
  rw [tkDeleteThread,hv,killThread,if_pos hz]
  rfl

/-- The dead thread `c` is taken out of the table, unless its parent does not wait for it. -/
theorem reap_cases {Q : Kernel cfg → Prop} (hv : (k.pool c).valid = true)
    (hz : (k.pool c).state.has .zombi = true) (ht : (k.pool c).state.has .term = false)
    (hstay : ∀ p, (k.pool c).gid = some p → waitsFor (k.pool p) c = false → Q k)
    (hreap : ∀ k', Reaped k c k' → Q k') :
    Spec (tkTryDetachParent k c false) (fun r =>
      (r.2 = true → Spec (tkDeleteThread r.1 c) (fun s => Q s.1) (fun _ => True)) ∧
      (¬r.2 = true → Q r.1)) (fun _ => True) := by
  have hdelete : ∀ k1 : Kernel cfg, (k1.pool c).valid = true → (k1.pool c).state.has .zombi = true →
      (∀ k', (k'.idleThid = k1.idleThid ∧ k'.activeThread = k1.activeThread ∧
        k'.npreempt = k1.npreempt ∧ ∀ u, k'.pool u = { k1.pool u with
          valid := if u = c then false else (k1.pool u).valid, idx := (k'.pool u).idx }) → Q k') →
      Spec (tkDeleteThread k1 c) (fun s => Q s.1) (fun _ => True) := by
    intro k1 hv1 hz1 hq
    rw [tkDeleteThread_dead hv1 hz1]
    simp only [spec_bind,spec_pure]
    exact bury_pool.imp hq
  refine tkTryDetachParent_cases.imp ?_
  rintro ⟨k1,detached⟩ (⟨hg,he⟩ | ⟨p,hg,⟨hw,_,he⟩ | ⟨hw,hd,hp⟩⟩)
  · -- nobody asks for it any more
    obtain ⟨rfl,rfl⟩ := Prod.mk.inj he
    refine ⟨fun _ => hdelete k1 hv hz ?_,fun hn => absurd rfl hn⟩
    rintro k' ⟨hi,ha,hn,hpool⟩
    refine hreap k' ⟨hi,ha,hn,?_,fun p hp => ?_,fun u hu _ => ?_⟩
    · conv_lhs => rw [hpool c]
      simp only [if_true,hg]
    · rw [hg] at hp
      cases hp
    · conv_lhs => rw [hpool u]
      rw [if_neg hu]
  · obtain ⟨rfl,rfl⟩ := Prod.mk.inj he
    exact ⟨fun hf => (by cases hf),fun _ => hstay p hg hw⟩
  · obtain rfl : detached = true := hd
    have hp : Parts k p c k1 := hp
    have hw : waitsFor (k.pool p) c = true := by simpa using hw
    have hpc : p ≠ c := by
      rintro rfl
      rw [waitsFor,ht] at hw
      cases hw
    have hself := hp.child hpc
    refine ⟨fun _ => hdelete k1 ?_ ?_ ?_,fun hn => absurd rfl hn⟩
    · rw [hself]
      exact hv
    · rw [hself]
      exact hz
    rintro k' ⟨hi,ha,hn,hpool⟩
    refine hreap k' ⟨hi.trans (by rw [hp.rest]),ha.trans (by rw [hp.rest]),
      hn.trans (by rw [hp.rest]),?_,fun q hq => ?_,fun u hu hne => ?_⟩
    · conv_lhs => rw [hpool c]
      rw [if_pos rfl,hself]
    · obtain rfl : p = q := Option.some.inj (hg.symm.trans hq)
      refine ⟨hw,?_⟩
      conv_lhs => rw [hpool p]
      rw [if_neg hpc,hp.parent hpc,if_pos hw]
    · have hup : u ≠ p := by
        rintro rfl
        exact hne hg
      conv_lhs => rw [hpool u]
      rw [if_neg hu,hp.others u hup hu]

/-- What a round comes to: a timer test, and a burial where the thread is dead and nobody is going
to ask for it. -/
inductive Swept (clk : Clock) (k : Kernel cfg) (c : Thid cfg) : Kernel cfg → Prop
  | passed (hv : (k.pool c).valid = false) : Swept clk k c k
  | tested (hv : (k.pool c).valid = true)
      (hs : c ≠ k.activeThread → (k.pool c).state.has .zombi = true → ∃ p, (k.pool c).gid = some p ∧
        waitsFor ((k.modTcb c (timerTest (actTimeUs clk))).pool p) c = false) :
      Swept clk k c (k.modTcb c (timerTest (actTimeUs clk)))
  | reaped {k' : Kernel cfg} (hv : (k.pool c).valid = true)
      (hz : (k.pool c).state.has .zombi = true)
      (hr : Reaped (k.modTcb c (timerTest (actTimeUs clk))) c k') :
      Swept clk k c k'

theorem sweepThread_swept (hn : k.npreempt = 0)
    (ht : (k.pool c).state.has .zombi = true → (k.pool c).state.has .term = false) :
    Spec (sweepThread clk k c) (Swept clk k c) (fun _ => True) := by
  let k1 := k.modTcb c (timerTest (actTimeUs clk))
  have hc1 : k1.pool c = timerTest (actTimeUs clk) (k.pool c) := by
    rw [Kernel.modTcb_pool,if_pos rfl]
  have hz1 : (k1.pool c).state.has .zombi = (k.pool c).state.has .zombi := by
    rw [hc1,timerTest_has_zombi]
  have hv1 : (k1.pool c).valid = (k.pool c).valid := by rw [hc1,timerTest_eq]
  have hg1 : (k1.pool c).gid = (k.pool c).gid := by rw [hc1,timerTest_eq]
  unfold sweepThread
  simp only [spec_ite,spec_bind,spec_pure]
  refine ⟨fun h => absurd hn h.ne',fun _ => ⟨fun hv => .passed hv,fun hv => ?_⟩⟩
  have hv : (k.pool c).valid = true := by simpa using hv
  refine ⟨fun hz => ?_,fun hz => .tested hv fun hca hzc => absurd ?_ hz⟩
  · have hz : (k1.pool c).state.has .zombi = true := (Bool.and_eq_true_iff.mp hz).1
    have hzc := hz1.symm.trans hz
    have ht1 : (k1.pool c).state.has .term = false := by rw [hc1,timerTest_has_term,ht hzc]
    refine reap_cases (Q:=Swept clk k c) (hv1.trans hv) hz ht1 (fun p hg hw => ?_) fun k' hr => ?_
    · exact .tested hv fun _ _ => ⟨p,hg1.symm.trans hg,hw⟩
    · exact .reaped hv hzc hr
  · rw [Bool.and_eq_true_iff]
    exact ⟨hz1.trans hzc,decide_eq_true hca⟩

/-- What a burial leaves of the other threads. -/
theorem Reaped.kept (h : Reaped k c k') {u : Thid cfg} (hu : u ≠ c) :
    (k'.pool u).valid = (k.pool u).valid ∧ (k'.pool u).gid = (k.pool u).gid := by
  by_cases hg : (k.pool c).gid = some u
  · rw [(h.parent u hg).2]
    exact ⟨rfl,rfl⟩
  · rw [h.others u hu hg]
    exact ⟨rfl,rfl⟩

theorem Reaped.zombi (h : Reaped k c k') (u : Thid cfg) :
    (k'.pool u).state.has .zombi = (k.pool u).state.has .zombi := by
  by_cases hg : (k.pool c).gid = some u
  · rw [(h.parent u hg).2]
    exact ProcState.clear_term_has_zombi _
  · by_cases hu : u = c
    · rw [hu,h.self]
    · rw [h.others u hu hg]

theorem Reaped.term (h : Reaped k c k') {u : Thid cfg}
    (ht : (k'.pool u).state.has .term = true) :
    (k.pool u).state.has .term = true ∧ (k'.pool u).bOnId = (k.pool u).bOnId := by
  by_cases hg : (k.pool c).gid = some u
  · rw [(h.parent u hg).2] at ht
    simp only [unblockParent,ProcState.clear_term_has_term] at ht
    cases ht
  · by_cases hu : u = c
    · rw [hu,h.self] at ht ⊢
      exact ⟨ht,rfl⟩
    · rw [h.others u hu hg] at ht ⊢
      exact ⟨ht,rfl⟩

end

/-! ### The sweep in the whole kernel -/

section

variable {w : World cfg numQ} {k k' k'' : Kernel cfg} {c p : Thid cfg}

/-- The world within the sweep of the running thread's yield. -/
def World.sweeping (w : World cfg numQ) (k : Kernel cfg) : World cfg numQ :=
  { w.setKernel k with yielding := true }

/-- From `k` to `k'` the sweep has reaped dead threads and told the parents that wait for them. -/
structure SweepTells (w : World cfg numQ) (k k' : Kernel cfg) : Prop where
  active : k'.activeThread = k.activeThread
  valid : ∀ t, (k'.pool t).valid = true → (k.pool t).valid = true
  gid : ∀ t, (k'.pool t).valid = true → (k'.pool t).gid = (k.pool t).gid
  zombi : ∀ t, (k'.pool t).state.has .zombi = (k.pool t).state.has .zombi
  retval : ∀ t, (k.pool t).state.has .zombi = true → (k'.pool t).retval = (k.pool t).retval
  waits : ∀ p t, waitsFor (k'.pool p) t = true → waitsFor (k.pool p) t = true
  told : ∀ p c i, w.place p = .inJoin c i → Untold (w.sweeping k) (w.sweeping k') p ∨
    Told (w.sweeping k) (w.sweeping k') p c ∧ i = w.inst c ∧ (k.pool c).state.has .zombi = true
  frees : ∀ c, (k.pool c).valid = true → (k'.pool c).valid = false →
    (k.pool c).state.has .zombi = true ∧ ((k.pool c).gid = none ∨
      ∃ p, w.place p = .inJoin c (w.inst c) ∧ Told (w.sweeping k) (w.sweeping k') p c)

theorem SweepTells.refl (k : Kernel cfg) : SweepTells w k k where
  active := rfl
  valid := fun _ h => h
  gid := fun _ _ => rfl
  zombi := fun _ => rfl
  retval := fun _ _ => rfl
  waits := fun _ _ h => h
  told := fun _ _ _ _ => Or.inl ⟨rfl,rfl,rfl⟩
  frees := fun c hv hv' => absurd (hv.symm.trans hv') (by decide)

theorem Untold.trans (h : Untold (w.sweeping k) (w.sweeping k') p)
    (h' : Untold (w.sweeping k') (w.sweeping k'') p) : Untold (w.sweeping k) (w.sweeping k'') p :=
  ⟨h'.term.trans h.term,h'.noChilds.trans h.noChilds,h'.retval.trans h.retval⟩

/-- A parent is told later. -/
theorem Untold.told (h : Untold (w.sweeping k) (w.sweeping k') p)
    (h' : Told (w.sweeping k') (w.sweeping k'') p c) (hv : (k.pool c).valid = true)
    (hr : (k'.pool c).retval = (k.pool c).retval) : Told (w.sweeping k) (w.sweeping k'') p c where
  waited := h.term.symm.trans h'.waited
  woken := h'.woken
  noChilds := h'.noChilds.trans (by rw [h.noChilds])
  value := h'.value.trans hr
  freed := ⟨hv,h'.freed.2⟩

/-- A parent has been told. -/
theorem Told.untold (h : Told (w.sweeping k) (w.sweeping k') p c)
    (h' : Untold (w.sweeping k') (w.sweeping k'') p)
    (hv : (k''.pool c).valid = false) : Told (w.sweeping k) (w.sweeping k'') p c where
  waited := h.waited
  woken := h'.term.trans h.woken
  noChilds := h'.noChilds.trans h.noChilds
  value := h'.retval.trans h.value
  freed := ⟨h.freed.1,hv⟩

theorem SweepTells.invalid (h : SweepTells w k k') (hc : (k.pool c).valid = false) :
    (k'.pool c).valid = false := by
  by_contra hv
  have hv := h.valid c (by simpa using hv)
  rw [hc] at hv
  cases hv

theorem SweepTells.trans (h : SweepTells w k k') (h' : SweepTells w k' k'') : SweepTells w k k'' where
  active := h'.active.trans h.active
  valid := fun t ht => h.valid t (h'.valid t ht)
  gid := fun t ht => (h'.gid t ht).trans (h.gid t (h'.valid t ht))
  zombi := fun t => (h'.zombi t).trans (h.zombi t)
  retval := fun t hz => (h'.retval t ((h.zombi t).trans hz)).trans (h.retval t hz)
  waits := fun p t ht => h.waits p t (h'.waits p t ht)
  told := by
    intro p c i hp
    obtain hu | ⟨ht,hi,hz⟩ := h.told p c i hp
    · obtain hu' | ⟨ht',hi',hz'⟩ := h'.told p c i hp
      · exact Or.inl (hu.trans hu')
      · have hz := (h.zombi c).symm.trans hz'
        exact Or.inr ⟨hu.told ht' (h.valid c ht'.freed.1) (h.retval c hz),hi',hz⟩
    · obtain hu' | ⟨ht',_⟩ := h'.told p c i hp
      · exact Or.inr ⟨ht.untold hu' (h'.invalid ht.freed.2),hi,hz⟩
      · exact absurd (ht.freed.2.symm.trans ht'.freed.1) (by decide)
  frees := by
    intro c hv hv'
    by_cases hm : (k'.pool c).valid = true
    · obtain ⟨hz,hg⟩ := h'.frees c hm hv'
      have hz := (h.zombi c).symm.trans hz
      refine ⟨hz,hg.imp ((h.gid c hm).symm.trans) ?_⟩
      rintro ⟨p,hp,ht'⟩
      refine ⟨p,hp,?_⟩
      obtain hu | ⟨ht,_⟩ := h.told p c _ hp
      · exact hu.told ht' hv (h.retval c hz)
      · exact absurd (ht.freed.2.symm.trans hm) (by decide)
    · have hm : (k'.pool c).valid = false := by simpa using hm
      obtain ⟨hz,hg⟩ := h.frees c hv hm
      refine ⟨hz,hg.imp_right ?_⟩
      rintro ⟨p,hp,ht⟩
      refine ⟨p,hp,?_⟩
      obtain hu' | ⟨ht',_⟩ := h'.told p c _ hp
      · exact ht.untold hu' hv'
      · exact absurd (hm.symm.trans ht'.freed.1) (by decide)

/-- Who sleeps in `tk_join` is not touched by the timer, and nobody dies of it. -/
theorem JoinInv.timed (h : JoinInv (w.sweeping k)) (c : Thid cfg) (us : Clock) :
    CalmFor (w.sweeping k) (w.sweeping (k.modTcb c (timerTest us))) := by
  have hawake : ∀ b : Tcb cfg, b.state.has .sleep = false → timerTest us b = b := by
    intro b hb
    rw [timerTest,hb,Bool.false_and,if_neg Bool.false_ne_true]
  have hpool : ∀ u, (w.sweeping (k.modTcb c (timerTest us))).kernel.pool u =
      if u = c then timerTest us (k.pool c) else k.pool u := fun u => Kernel.modTcb_pool _ _ _ _
  have hsame : ∀ u, (k.pool u).state.has .sleep = false →
      (w.sweeping (k.modTcb c (timerTest us))).kernel.pool u = k.pool u := by
    intro u hu
    rw [hpool]
    split
    · next huc => rw [huc] at hu ⊢; exact hawake _ hu
    · rfl
  refine ⟨fun _ => Or.inl rfl,fun u => ?_,rfl,rfl,rfl,rfl,⟨[],(List.append_nil _).symm,fun _ _ =>
    ⟨List.not_mem_nil,List.not_mem_nil⟩⟩,h.lists.congr rfl fun r u hu => ?_,by rintro ⟨⟩⟩
  · by_cases hj : ((w.sweeping k).place u).joins = true
    · have hs : (k.pool u).state.has .sleep = false := by
        obtain ⟨c,i,hp⟩ := Place.joins_iff.mp hj
        obtain hw | hi := h.joining u c i hp
        · rw [show (k.pool u).state = .term from hw.state]
          decide
        · rw [show (k.pool u).state = .ready from hi.state]
          exact ProcState.has_ready _
      rw [hsame u hs]
      exact .refl _ _
    · rw [hpool]
      split
      · next huc =>
        subst huc
        refine .of_outside (by simpa using hj) ?_ (timerTest_has_zombi _ _) ?_
        · unfold timerTest
          split <;> rfl
        · rw [timerTest_has_term]
          exact id
      · exact .refl _ _
  · have hs : (k.pool u).state.has .sleep = false := by
      rw [show (k.pool u).state = .queue from (h.lists.blocked r u hu).1]
      exact ProcState.queue_has_sleep
    rw [hsame u hs]
    exact ⟨rfl,rfl⟩

theorem CalmFor.sweepTells (hc : CalmFor (w.sweeping k) (w.sweeping k'))
    (ha : k'.activeThread = k.activeThread)
    (hw : ∀ p t, waitsFor (k'.pool p) t = true → waitsFor (k.pool p) t = true) :
    SweepTells w k k' where
  active := ha
  valid := fun t ht => (hc.tcb t).valid.symm.trans ht
  gid := fun t _ => (hc.tcb t).gid
  zombi := fun t => (hc.tcb t).zombi
  retval := fun t _ => (hc.tcb t).retval
  waits := hw
  told := by
    intro p c i hp
    obtain ⟨hs,_,_⟩ := (hc.tcb p).asleep (Place.joins_iff.mpr ⟨c,i,hp⟩)
    exact Or.inl ⟨by rw [hs],(hc.tcb p).noChilds,(hc.tcb p).retval⟩
  frees := fun c hv hv' => absurd ((hc.tcb c).valid.symm.trans hv') (by
    rw [show ((w.sweeping k).kernel.pool c).valid = true from hv]
    decide)

/-- Who waits for a thread is inside `tk_join` for it. -/
theorem JoinInv.waiter (h : JoinInv w) (hw : waitsFor (w.kernel.pool p) c = true) :
    w.place p = .inJoin c (w.inst c) ∧ AwaitsEnd w p c (w.inst c) := by
  rw [waitsFor,Bool.and_eq_true_iff] at hw
  obtain ⟨ht,hb⟩ := hw
  obtain ⟨c',i,hp⟩ := Place.joins_iff.mp (h.term p ht)
  obtain hw | hi := h.joining p c' i hp
  · have hb := of_decide_eq_true hb
    rw [hw.bOnId] at hb
    obtain rfl : c' = c := BonEntity.tcb.inj hb
    rw [hw.inst]
    exact ⟨hp,hw⟩
  · rw [hi.state,ProcState.has_ready] at ht
    cases ht

/-- The parent that is told was asleep for the thread, and is ready with its value. -/
theorem JoinInv.tells (h : JoinInv (w.sweeping k)) (hr : Reaped k c k')
    (hv : (k.pool c).valid = true) (hz : (k.pool c).state.has .zombi = true)
    (hp : (k.pool c).gid = some p) : w.place p = .inJoin c (w.inst c) ∧
    Told (w.sweeping k) (w.sweeping k') p c ∧ Informed (w.sweeping k') p (w.inst c) := by
  obtain ⟨hw,hpool⟩ := hr.parent p hp
  obtain ⟨hplace,hawaits⟩ := JoinInv.waiter (w:=w.sweeping k) h hw
  have hs : (k.pool p).state = .term := hawaits.state
  have hpool : (w.sweeping k').kernel.pool p = _ := hpool
  have hready : (unblockParent c (k.pool c).retval (k.pool p)).state = .ready := by
    simp only [unblockParent,hs]
    decide
  refine ⟨hplace,⟨?_,?_,?_,?_,hv,?_⟩,?_,?_,?_⟩
  · rw [show ((w.sweeping k).kernel.pool p).state = .term from hs]
    decide
  · rw [hpool]
    exact (congrArg (ProcState.has · .term) hready).trans (ProcState.has_ready _)
  · rw [hpool]
    rfl
  · rw [hpool]
    rfl
  · rw [show (w.sweeping k').kernel.pool c = _ from hr.self]
  · rw [hpool]
    exact hready
  · rw [hpool]
    rfl
  · rw [hpool]
    exact (h.dead c hz).2.2 hv

/-- Every other thread but the dead one is left alone. -/
theorem Reaped.untold (hr : Reaped k c k') {u : Thid cfg} (hu : u ≠ c)
    (hg : (k.pool c).gid ≠ some u) : Untold (w.sweeping k) (w.sweeping k') u := by
  have hpool : (w.sweeping k').kernel.pool u = _ := hr.others u hu hg
  refine ⟨?_,?_,?_⟩ <;> rw [hpool] <;> rfl

theorem JoinInv.reaped (h : JoinInv (w.sweeping k)) (hr : Reaped k c k')
    (hv : (k.pool c).valid = true) (hz : (k.pool c).state.has .zombi = true) (hf : FamilyInv k') :
    JoinInv (w.sweeping k') := by
  obtain ⟨hcj,hct,hce⟩ := h.dead c hz
  have hzombi : ∀ u, ((w.sweeping k').kernel.pool u).state.has .zombi =
      (k.pool u).state.has .zombi := hr.zombi
  have htold : ∀ {u}, (k.pool c).gid = some u → (k.pool u).state = .term := fun hu =>
    (JoinInv.waiter (w:=w.sweeping k) h (hr.parent _ hu).1).2.state
  -- a thread that is dead or in a list has not been told
  have hsame : ∀ {u}, u ≠ c → (k.pool u).state ≠ .term →
      (w.sweeping k').kernel.pool u = { k.pool u with idx := (k'.pool u).idx } := fun hu hs =>
    hr.others _ hu fun hg => hs (htold hg)
  have hdead : ∀ {u}, (k.pool u).state.has .zombi = true → (k.pool u).state ≠ .term := by
    rintro u hzu hs
    rw [hs] at hzu
    exact absurd hzu (by decide)
  refine { toRecorded := ⟨h.inst_inj,h.inst_lt,h.ended_lt,fun u v hm => ?_,h.ended_once,h.joined⟩
           family := hf,own := ?_,npreempt := hr.npreempt.trans h.npreempt,lists := ?_
           turn := by rintro ⟨⟩,invalid := ?_,dead := ?_,term := ?_,joining := ?_ }
  · rw [hzombi]
    exact h.ended_dead u v hm
  · intro u hg
    rw [show (w.sweeping k').kernel.idleThid = k.idleThid from hr.idle]
    by_cases huc : u = c
    · rw [huc,show (w.sweeping k').kernel.pool c = _ from hr.self] at hg
      cases hg
    · exact h.own u ((hr.kept huc).2.symm.trans hg)
  · refine h.lists.congr rfl fun m u hm => ?_
    have hq : (k.pool u).state = .queue := (h.lists.blocked m u hm).1
    have huc : u ≠ c := by
      rintro rfl
      rw [hq] at hz
      exact absurd hz (by decide)
    rw [hsame huc (by rw [hq]; decide)]
    exact ⟨rfl,rfl⟩
  · intro u hu
    rw [hzombi]
    by_cases huc : u = c
    · rw [huc]
      exact hz
    · exact h.invalid u ((hr.kept huc).1.symm.trans hu)
  · intro u hzu
    rw [hzombi] at hzu
    obtain ⟨hj,hterm,hend⟩ := h.dead u hzu
    by_cases huc : u = c
    · subst huc
      rw [show (w.sweeping k').kernel.pool u = _ from hr.self]
      exact ⟨hj,hterm,by rintro ⟨⟩⟩
    · rw [hsame huc (hdead hzu)]
      exact ⟨hj,hterm,hend⟩
  · exact fun u hterm => h.term u (hr.term hterm).1
  · intro q d j hq
    by_cases hg : (k.pool c).gid = some q
    · obtain ⟨hplace,_,hinf⟩ := h.tells hr hv hz hg
      obtain ⟨rfl,rfl⟩ := Place.inJoin.inj (hplace.symm.trans hq)
      exact Or.inr hinf
    · have hqc : q ≠ c := by
        rintro rfl
        rw [show (w.sweeping k).place q = _ from hq] at hcj
        cases hcj
      have hpool : (w.sweeping k').kernel.pool q = _ := hr.others q hqc hg
      obtain hw | hi := h.joining q d j hq
      · have hdc : d ≠ c := by
          rintro rfl
          exact hg hw.child.1
        refine Or.inl ⟨?_,?_,⟨(hr.kept hdc).2.trans hw.child.1,(hr.kept hdc).1.trans hw.child.2⟩,hw.inst⟩
        · rw [hpool]
          exact hw.state
        · rw [hpool]
          exact hw.bOnId
      · refine Or.inr ⟨?_,?_,?_⟩
        · rw [hpool]
          exact hi.state
        · rw [hpool]
          exact hi.event
        · rw [hpool]
          exact hi.ended

theorem JoinInv.reaped_tells (h : JoinInv (w.sweeping k)) (hr : Reaped k c k')
    (hv : (k.pool c).valid = true) (hz : (k.pool c).state.has .zombi = true) :
    SweepTells w k k' where
  active := hr.active
  valid := by
    intro u hu
    by_cases huc : u = c
    · rw [huc]
      exact hv
    · exact (hr.kept huc).1.symm.trans hu
  gid := by
    intro u hu
    refine (hr.kept ?_).2
    rintro rfl
    rw [hr.self] at hu
    cases hu
  zombi := hr.zombi
  retval := by
    intro u hzu
    by_cases huc : u = c
    · rw [huc,hr.self]
    · rw [hr.others u huc]
      intro hg
      obtain ⟨hplace,_⟩ := h.tells hr hv hz hg
      have hj := (h.dead u hzu).1
      rw [show (w.sweeping k).place u = _ from hplace] at hj
      cases hj
  waits := by
    intro q t hw
    rw [waitsFor,Bool.and_eq_true_iff] at hw
    obtain ⟨hterm,hb⟩ := hr.term hw.1
    rw [waitsFor,hterm,← hb]
    exact hw.2
  told := by
    intro q d j hq
    by_cases hg : (k.pool c).gid = some q
    · obtain ⟨hplace,htold,_⟩ := h.tells hr hv hz hg
      obtain ⟨rfl,rfl⟩ := Place.inJoin.inj (hplace.symm.trans hq)
      exact Or.inr ⟨htold,rfl,hz⟩
    · refine Or.inl (hr.untold ?_ hg)
      rintro rfl
      have hj := (h.dead q hz).1
      rw [show (w.sweeping k).place q = _ from hq] at hj
      cases hj
  frees := by
    intro d hd hd'
    have hdc : d = c := by
      by_contra hdc
      rw [(hr.kept hdc).1,hd] at hd'
      cases hd'
    subst hdc
    refine ⟨hz,?_⟩
    cases hg : (k.pool d).gid with
    | none => exact Or.inl rfl
    | some p =>
      obtain ⟨hplace,htold,_⟩ := h.tells hr hv hz hg
      exact Or.inr ⟨p,hplace,htold⟩

/-- Nobody is left in the slot whom the sweep could take out. -/
def Settled (c : Thid cfg) (k : Kernel cfg) : Prop :=
  c ≠ k.activeThread → (k.pool c).valid = true → (k.pool c).state.has .zombi = true →
    ∃ p, (k.pool c).gid = some p ∧ waitsFor (k.pool p) c = false

theorem SweepTells.settled (h : SweepTells w k k') (hs : Settled c k) : Settled c k' := by
  intro hca hv hz
  rw [h.active] at hca
  obtain ⟨p,hg,hw⟩ := hs hca (h.valid c hv) ((h.zombi c).symm.trans hz)
  refine ⟨p,(h.gid c hv).trans hg,?_⟩
  rw [Bool.eq_false_iff] at hw ⊢
  exact fun hw' => hw (h.waits p c hw')

/-- One round keeps the invariant. -/
theorem JoinInv.sweepThread (h : JoinInv (w.sweeping k)) {clk : Clock} :
    Spec (sweepThread clk k c) (fun k' => (JoinInv (w.sweeping k') ∧ SweepTells w k k') ∧
      Settled c k') (fun _ => True) := by
  have hswept : Spec (Tinker.sweepThread clk k c) (Swept clk k c) (fun _ => True) :=
    sweepThread_swept h.npreempt fun hz => (h.dead c hz).2.1
  have hfam := (FamilyInv.sweepThread h.family clk c).mono (fun _ hk => hk) fun _ _ => trivial
  refine (hswept.and hfam).imp ?_
  let k1 := k.modTcb c (timerTest (actTimeUs clk))
  have hcalm : CalmFor (w.sweeping k) (w.sweeping k1) := h.timed c (actTimeUs clk)
  have h1 : JoinInv (w.sweeping k1) := h.calm hcalm
  have hwaits : ∀ p t, waitsFor (k1.pool p) t = true → waitsFor (k.pool p) t = true := by
    intro p t
    rw [Kernel.modTcb_pool]
    split
    · next hp =>
      rw [hp,waitsFor,waitsFor,timerTest_has_term,timerTest_eq]
      exact id
    · exact id
  have htells : SweepTells w k k1 := hcalm.sweepTells rfl hwaits
  rintro k' ⟨hs,hf⟩
  cases hs with
  | passed hv =>
    refine ⟨⟨h,.refl k⟩,fun _ hv' => ?_⟩
    rw [hv] at hv'
    cases hv'
  | tested hv hleft =>
    refine ⟨⟨h1,htells⟩,fun hca _ hz => ?_⟩
    obtain ⟨p,hg,hw⟩ := hleft hca ((htells.zombi c).symm.trans hz)
    exact ⟨p,(hcalm.tcb c).gid.trans hg,hw⟩
  | reaped hv hz hr =>
    have hv1 : (k1.pool c).valid = true := (hcalm.tcb c).valid.trans hv
    have hz1 : (k1.pool c).state.has .zombi = true := (htells.zombi c).trans hz
    refine ⟨⟨h1.reaped hr hv1 hz1 hf,htells.trans (h1.reaped_tells hr hv1 hz1)⟩,fun _ hv' => ?_⟩
    rw [hr.self] at hv'
    cases hv'

/-- The sweep keeps the invariant, and leaves nobody it could have taken out. -/
theorem JoinInv.sweep (h : JoinInv (w.sweeping k)) {clk : Clock} :
    Spec (tkWakeupTimedoutThreads k clk) (fun k' => (JoinInv (w.sweeping k') ∧ SweepTells w k k') ∧
      ∀ c, Settled c k') (fun _ => True) := by
  refine (spec_foldlM_settles (I:=fun k' => JoinInv (w.sweeping k') ∧ SweepTells w k k')
    (P:=Settled) ⟨h,.refl k⟩ fun k1 c _ h1 => ?_).imp fun k' hk => ⟨hk.1,fun c => ?_⟩
  · refine (h1.1.sweepThread (c:=c)).imp ?_
    rintro k2 ⟨⟨h2,ht⟩,hs⟩
    exact ⟨⟨h2,h1.2.trans ht⟩,hs,fun d hd => ht.settled hd⟩
  · exact hk.2.1 c (List.mem_finRange c)

/-- The yield of the running thread, up to the dispatch of `t`. -/
def World.swept (w : World cfg numQ) (k : Kernel cfg) (t : Thid cfg) : World cfg numQ :=
  { w.setKernel (k.dispatch t) with yielding := false }

theorem JoinInv.yields_inv (h : JoinInv (w.sweeping k)) {t : Thid cfg}
    (ht : (k.pool t).state = .ready) : JoinInv (w.swept k t) where
  inst_inj := h.inst_inj
  inst_lt := h.inst_lt
  ended_lt := h.ended_lt
  ended_dead := h.ended_dead
  ended_once := h.ended_once
  joined := h.joined
  family := SameFamily.inv (k:=k) ⟨fun _ => ⟨rfl,rfl,rfl,rfl⟩,fun _ _ ht => ht⟩ h.family
  own := h.own
  npreempt := h.npreempt
  lists := ⟨h.lists.lists,h.lists.nodup,h.lists.blocked⟩
  turn := fun _ => ht
  invalid := h.invalid
  dead := h.dead
  term := h.term
  joining := fun p c i hp => (h.joining p c i hp).imp
    (fun hw => ⟨hw.state,hw.bOnId,hw.child,hw.inst⟩) fun hi => ⟨hi.state,hi.event,hi.ended⟩

theorem JoinInv.yields_step (h : JoinInv w) (ht : SweepTells w w.kernel k)
    (hs : ∀ c, Settled c k) (t : Thid cfg) : JoinStep w (.yield t) (w.swept k t) := by
  have htold : ∀ {p c}, Told (w.sweeping w.kernel) (w.sweeping k) p c → Told w (w.swept k t) p c :=
    fun ht => ⟨ht.waited,ht.woken,ht.noChilds,ht.value,ht.freed⟩
  refine ⟨by rintro _ ⟨⟩,fun p c i hp hn => absurd hp hn,fun p c i hp _ => ?_,
    fun p c i hp hn => absurd hp hn,fun c hv hv' => ?_,fun c p hv hg hv' hg' => ?_,
    fun u _ c hc hv hz => ?_,fun c hv hv' => ?_⟩
  · obtain hu | ⟨htd,hi,_⟩ := ht.told p c i hp
    · exact Or.inl ⟨hu.term,hu.noChilds,hu.retval⟩
    · exact Or.inr ⟨htold htd,hi⟩
  · obtain ⟨hz,hg⟩ := ht.frees c hv hv'
    refine ⟨(h.dead c hz).2.2 hv,hg.imp_right ?_⟩
    rintro ⟨p,hp,htd⟩
    exact ⟨p,hp,htold htd⟩
  · exact absurd ((ht.gid c hv').trans hg) hg'
  · exact hs c (by rw [ht.active]; exact hc) hv hz
  · have hv' := ht.valid c hv'
    rw [hv] at hv'
    cases hv'

end

/-! ### Whole runs -/

section

variable {w w' : World cfg numQ} {l : WorldLabel cfg numQ} {k : Kernel cfg}

theorem JoinInv.sweeping (h : JoinInv w) : JoinInv (w.sweeping w.kernel) :=
  h.calm ⟨fun _ => Or.inl rfl,fun _ => .refl _ _,rfl,rfl,rfl,rfl,
    ⟨[],(List.append_nil _).symm,fun _ _ => ⟨List.not_mem_nil,List.not_mem_nil⟩⟩,h.lists,by rintro ⟨⟩⟩

/-- Every step but a deletion keeps the invariant, and is as it is to be. -/
theorem JoinInv.step (h : JoinInv w) (hs : (worldMachine cfg numQ).Step w l w')
    (hsp : SparesJoins w l) (hd : ∀ t, l ≠ .delete t) : JoinInv w' ∧ JoinStep w l w' := by
  have hcalm : w.Quiet l → (∀ c, l = .join c → ¬Joinable w.kernel c) → (∀ t, l ≠ .yield t) →
      JoinInv w' ∧ JoinStep w l w' := fun hq hj hy =>
    have hc := h.quiet_calm hs hq hsp
    ⟨h.calm hc,hc.step hj hy⟩
  have hdoes := worldStep_does hs
  cases l with
  | create r =>
    cases hdoes with
    | syncs hl => cases hl
    | creates hr hk =>
      have hb := (tkCreateThreadBegin_begun w.kernel r).of_ok hk
      exact ⟨h.created hr hb,h.created_step hr hb⟩
  | exit v =>
    cases hdoes with
    | syncs hl => cases hl
    | exits hr hroot hidle => exact ⟨h.exited hr hroot hidle,h.exited_step hr hroot hidle⟩
  | delete t => exact absurd rfl (hd t)
  | join t =>
    cases hdoes with
    | syncs hl => cases hl
    | joins hr ht hz hk =>
      have hy := (World.runs_iff.mp hr).1
      have hp := h.parts hy ht hk
      have hf := (h.family.tryDetach ht.2 true fun hg => absurd
        (Option.some.inj (ht.1.symm.trans hg)) (h.ne_dead hy hz)).of_ok hk
      exact ⟨h.joined_inv hr ht hz hp hf.1,h.joined_step hr ht hz hp⟩
    | joinFails hr ht => exact hcalm ht (fun c hc => by cases hc; exact ht) (by rintro _ ⟨⟩)
    | joinWaits hr ht hz =>
      have hf : FamilyInv (w.joinWaits t).kernel := by
        have hjoin : tkJoin w.kernel t = .ok ((w.joinWaits t).kernel,.waits) := by
          rw [tkJoin,if_neg (not_not.mpr ht.1),if_neg (by rw [ht.2]; decide),if_neg (by rw [hz]; decide)]
          rfl
        exact (h.family.join fun hself => absurd (hself.2.1.symm.trans hz) (by decide)).of_ok hjoin
      exact ⟨h.joinWaits_inv hr ht hf,h.joinWaits_step hr ht hz⟩
  | resume =>
    cases hj : (w.place w.me).joins with
    | false => exact hcalm hj (by rintro _ ⟨⟩) (by rintro _ ⟨⟩)
    | true =>
      obtain ⟨c,i,hp⟩ := Place.joins_iff.mp hj
      cases hdoes with
      | syncs hl => cases hl
      | joinEnds hy hp' he => exact ⟨h.joinEnds_inv hy hp',h.joinEnds_step hy hp'⟩
      | returns hy hp' =>
        obtain hp' | ⟨_,_,hp'⟩ := hp' <;> rw [hp] at hp' <;> cases hp'
      | takeEnds hy hp' => rw [hp] at hp'; cases hp'
      | createEnds hy hp' => rw [hp] at hp'; cases hp'
      | syncEnds hy hp' =>
        obtain ⟨_,hp'⟩ | ⟨_,hp'⟩ := hp' <;> rw [hp] at hp' <;> cases hp'
  | yield t =>
    cases hdoes with
    | syncs hl => cases hl
    | yields hy hr hk =>
      obtain ⟨⟨hi,ht⟩,hset⟩ := h.sweeping.sweep.of_ok hk
      rw [readyAfterSweep,hk] at hr
      exact ⟨hi.yields_inv (of_decide_eq_true hr),h.yields_step ht hset t⟩
  | _ => exact hcalm trivial (by rintro _ ⟨⟩) (by rintro _ ⟨⟩)

/-- A thread dispatched inside `tk_join` has been told. -/
theorem JoinInv.delivers (h : JoinInv w) : JoinsDeliver w where
  values := h.joined
  ends := h.ended_once
  returns := by
    intro c i hy hp
    have hev := (h.informed hy hp).event
    have hwoken : tkJoinWoken w.kernel = .ok (.ok (w.kernel.pool w.me).retval) := by
      have hact : (w.kernel.pool w.kernel.activeThread).wakeupEvent = .childDeath := hev
      simp only [tkJoinWoken,check,if_pos hact]
      rfl
    refine ⟨(w.goTo .user false).emit (.joined i (w.kernel.pool w.me).retval),?_⟩
    simp only [worldNext,World.resume,hp,World.joinWoken,hwoken]
    rfl

/-- The slots that are free when the kernel has been created. -/
theorem tkCreateKernel_free {clk : Clock} : Spec (tkCreateKernel clk)
    (fun k : Kernel cfg => ∀ t, (k.pool t).valid = false → k.pool t = zombiTcb) (fun _ => True) := by
  simp only [tkCreateKernel,spec_bind]
  refine (tkCreateThread_idle_spec clk).mono ?_ fun _ _ => trivial
  rintro ⟨k,idle⟩ ⟨hir,_,_,_,hpool⟩
  have hir : idle ≠ root := hir
  have hpool : k.pool = _ := hpool
  have hg : (k.pool idle).gid = some root := by simp [hpool,newTcb]
  simp only [hg,Kernel.writeCell,spec_ite,spec_ok]
  refine ⟨fun _ t hv => ?_,fun _ => trivial⟩
  simp only [Kernel.modStat_pool,Kernel.modTcb_pool,hpool] at hv ⊢
  by_cases hti : t = idle
  · subst hti
    simp [newTcb,hir] at hv
  · by_cases htr : t = root
    · subst htr
      simp [hti] at hv
    · simp [hti,htr]

theorem worldInit_joinInv {clk : Clock} (hk : tkCreateKernel clk = .ok k) (i : Fin numQ) :
    JoinInv (worldInit k i) := by
  have hboot : Booted k := (tkCreateKernel_spec clk).of_ok hk
  have hfree := tkCreateKernel_free.of_ok hk
  have hready : ∀ {t}, (k.pool t).valid = true → (k.pool t).state = .ready := fun ht =>
    (hboot.own _ ht).2.2
  have hterm : ∀ t, (k.pool t).state.has .term = false := by
    intro t
    by_cases ht : (k.pool t).valid = true
    · rw [hready ht]
      exact ProcState.has_ready _
    · rw [hfree t (by simpa using ht)]
      exact ProcState.zombi_has_term
  exact {
    inst_inj := fun _ _ he => Fin.ext he
    inst_lt := fun t => t.isLt
    ended_lt := fun _ _ hm => absurd hm List.not_mem_nil
    ended_dead := fun _ _ hm => absurd hm List.not_mem_nil
    ended_once := fun _ _ _ hm => absurd hm List.not_mem_nil
    joined := fun pre _ _ _ he => absurd he (by simp [worldInit])
    family := hboot.family
    own := by
      intro t hg
      by_cases ht : (k.pool t).valid = true
      · exact (hboot.valid t).mp ht
      · have hg : (k.pool t).gid = some t := hg
        rw [hfree t (by simpa using ht)] at hg
        exact Or.inl (Option.some.inj hg).symm
    npreempt := tkCreateKernel_npreempt.of_ok hk
    lists := waitLists_init k
    turn := by
      intro _
      refine hready ?_
      rw [hboot.valid,World.me]
      exact Or.inl hboot.active
    invalid := by
      intro t ht
      rw [show (worldInit k i).kernel.pool t = zombiTcb from hfree t ht]
      exact ProcState.zombi_has_zombi
    dead := by
      intro t hz
      refine ⟨rfl,hterm t,fun hv => ?_⟩
      rw [show ((worldInit k i).kernel.pool t).state = .ready from hready hv] at hz
      rw [ProcState.has_ready] at hz
      cases hz
    term := by
      intro t ht
      rw [show ((worldInit k i).kernel.pool t).state.has .term = false from hterm t] at ht
      cases ht
    joining := fun p c j hp => by cases hp }

/-- Where no object readies a thread inside `tk_join` or blocked on a mutex, `tk_join` returns after
the end of the child, with its value, and the steps are as they are to be for joins. -/
theorem worldRun_joinsDeliver {clk : Clock} (hk : tkCreateKernel clk = .ok k) (i : Fin numQ)
    {ls : List (WorldLabel cfg numQ)} (hd : ∀ t, .delete t ∉ ls)
    (hc : (worldMachine cfg numQ).Along SparesJoins (worldInit k i) ls)
    (hr : (worldMachine cfg numQ).run (worldInit k i) ls = some w) :
    JoinsDeliver w ∧ (worldMachine cfg numQ).Along
      (fun w l => ∀ w', (worldMachine cfg numQ).Step w l w' → JoinStep w l w') (worldInit k i) ls := by
  have h0 := worldInit_joinInv hk i
  have hc := hc.and_forall (P:=fun l => ∀ t, l ≠ WorldLabel.delete t) _ fun l hl t he => hd t (he ▸ hl)
  refine ⟨JoinInv.delivers ?_,?_⟩
  · exact (worldMachine cfg numQ).run_invariant (I:=JoinInv)
      (fun s l s' hi hc hs => (hi.step hs hc.1 hc.2).1) h0 hc hr
  · exact (worldMachine cfg numQ).along_of_invariant (I:=JoinInv)
      (fun s l s' hi hc hs => (hi.step hs hc.1 hc.2).1)
      (fun s l hi hc s' hs => (hi.step hs hc.1 hc.2).2) h0 hc

end

/-- The root thread joins its child, which ends; the idle thread's yield tells it. -/
def joinEndSteps : List (WorldLabel gnuArm 4) :=
  [.create ⟨"a",1,0,true⟩,.yield root,.resume,.join 2,.yield 2,.exit 7,.yield 1,.yield root,.resume]

theorem worldRun_joinsDeliver_end : ∃ (k : Kernel gnuArm) (w : World gnuArm 4),
    (worldMachine gnuArm 4).run (worldInit k 0) joinEndSteps = some w ∧
    w.log = [.ended 10 7,.joined 10 7] ∧ JoinsDeliver w := by
  obtain ⟨k,w,hk,hr,hl⟩ := (worldMachine gnuArm 4).exists_start (x:=tkCreateKernel 0)
    (fun w => w.log = [.ended 10 7,.joined 10 7]) (worldInit · 0) joinEndSteps (by decide +kernel)
  have hc : (worldMachine gnuArm 4).Along SparesJoins (worldInit k 0) joinEndSteps := by
    refine (worldMachine gnuArm 4).along_of_invariant (I:=fun _ => True)
      (C:=fun _ l => ∀ w, SparesJoins w l) (fun _ _ _ _ _ _ => trivial) (fun w l _ h => h w) trivial
      ((worldMachine gnuArm 4).along_of_forall fun l hl w => ?_)
    simp only [joinEndSteps,List.mem_cons,List.not_mem_nil,or_false] at hl
    obtain rfl | rfl | rfl | rfl | rfl | rfl | rfl | rfl | rfl := hl <;> trivial
  exact ⟨k,w,hr,hl,(worldRun_joinsDeliver hk 0 (by simp [joinEndSteps]) hc hr).1⟩

def WorldLabel.creates : WorldLabel cfg numQ → Bool
  | .create _ => true
  | _ => false

def Place.creates : Place cfg numQ → Bool
  | .inCreate _ _ => true
  | _ => false

/-- A creation begins only when no other is going on. -/
def OneCreation (w : World cfg numQ) (l : WorldLabel cfg numQ) : Prop :=
  l.creates = true → ∀ t, (w.place t).creates = false

instance decidableOneCreation (w : World cfg numQ) (l : WorldLabel cfg numQ) :
    Decidable (OneCreation w l) :=
  inferInstanceAs (Decidable (l.creates = true → ∀ t, (w.place t).creates = false))

/-- The timeout of thread 4 moves the cells of the ring. Thread 5, which times out too, clears the
cell at its old index, that of thread 3, and its own stays. While it waits in `tk_join` for thread 6
an `sm_v` serves it. -/
def staleCellSteps : List (WorldLabel gnuArm 4) :=
  [.createItc (.sem 0 fifo) true,.create ⟨"b",3,0,true⟩,.yield root,.resume,
    .take .sem 0 fifo 0 0,.yield 2,.create ⟨"d",4,0,true⟩,.yield 2,.resume,
    .create ⟨"f",1,0,true⟩,.yield 2,.resume,.yield 4,.take .sem 0 fifo 10 0,.yield 2,
    .create ⟨"c",2,0,true⟩,.yield 2,.resume,.take .sem 0 fifo 2000 0,.yield 5,
    .create ⟨"e",5,0,true⟩,.yield 5,.resume,.take .sem 0 fifo 2000 0,.yield 3,
    .take .sem 0 fifo 0 0,.yield 6,.advance 10,.yield 4,.resume,.msleep 1000,.yield 6,
    .advance 2000,.yield 5,.resume,.join 6,.yield 2,.resume,.give 0 .token,.yield root,.resume,
    .give 0 .token,.yield root,.resume,.msleep 1000,.yield 5]

/-- The assert behind the yield of `tk_join` fails. -/
theorem worldRun_not_joinsDeliver :
    ¬∀ (k : Kernel gnuArm) (ls : List (WorldLabel gnuArm 4)) (w : World gnuArm 4),
      tkCreateKernel 0 = .ok k → (∀ t, .delete t ∉ ls) →
      (worldMachine gnuArm 4).Along OneCreation (worldInit k 0) ls →
      (worldMachine gnuArm 4).run (worldInit k 0) ls = some w → JoinsDeliver w := by
  intro h
  obtain ⟨k,w,hk,hone,hr,hy,hp,hev⟩ := (worldMachine gnuArm 4).exists_along (x:=tkCreateKernel 0)
    OneCreation (fun w => w.yielding = false ∧ w.place w.me = .inJoin 6 14 ∧
      (w.kernel.pool w.me).wakeupEvent ≠ .childDeath)
    (worldInit · 0) staleCellSteps (by decide +kernel)
  obtain ⟨w',hw⟩ := (h k _ w hk (by simp [staleCellSteps]) hone hr).returns 6 14 hy hp
  have hs : (worldMachine gnuArm 4).Step w .resume w' :=
    ⟨by simp [worldMachine,worldEnabled,hy,hp],hw⟩
  cases worldStep_does hs with
  | syncs hl => cases hl
  | joinEnds _ _ he => exact hev he
  | returns _ hp' => obtain hp' | ⟨_,_,hp'⟩ := hp' <;> rw [hp] at hp' <;> cases hp'
  | takeEnds _ hp' => rw [hp] at hp'; cases hp'
  | createEnds _ hp' => rw [hp] at hp'; cases hp'
  | syncEnds _ hp' => obtain ⟨_,hp'⟩ | ⟨_,hp'⟩ := hp' <;> rw [hp] at hp' <;> cases hp'

end Tinker

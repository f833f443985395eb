import Tinker.JoinCalm

/-! The steps that joins are about: a creation, the end of a thread, and `tk_join` itself. -/
namespace Tinker

open Kernel Outcome

variable {cfg : Config} {numQ : ℕ}

section

variable {k k' : Kernel cfg} {p t : Thid cfg}

/-- From `k` to `k'` the parent `p` has let go of `t`, and has been told the value of `t` if it
waits for it. -/
structure Parts (k : Kernel cfg) (p t : Thid cfg) (k' : Kernel cfg) : Prop where
  rest : k' = { k with pool := k'.pool }
  child : p ≠ t → k'.pool t = { k.pool t with gid := none }
  parent : p ≠ t → k'.pool p = { (if waitsFor (k.pool p) t then
    unblockParent t (k.pool t).retval (k.pool p) else k.pool p) with
    noChilds := (k.pool p).noChilds-1 }
  others : ∀ u, u ≠ p → u ≠ t → k'.pool u = k.pool u

/-- `_tk_try_detach_parent` leaves a parent that does not wait alone, unless it is forced. -/
theorem tkTryDetachParent_cases {force : Bool} : Spec (tkTryDetachParent k t force) (fun r =>
    (k.pool t).gid = none ∧ r = (k,true) ∨ ∃ p, (k.pool t).gid = some p ∧
      (waitsFor (k.pool p) t = false ∧ force = false ∧ r = (k,false) ∨
        (waitsFor (k.pool p) t = true ∨ force = true) ∧ r.2 = true ∧ Parts k p t r.1))
    (fun _ => True) := by
  unfold tkTryDetachParent
  split
  · next hg => exact Or.inl ⟨hg,rfl⟩
  · next p hg =>
    simp only [spec_bind,spec_check,spec_ite,spec_pure]
    refine ⟨fun _ => ⟨fun hw => ⟨fun _ => ?_,fun _ => trivial⟩,fun hw => ?_⟩,fun _ => trivial⟩
    · refine Or.inr ⟨p,hg,Or.inr ⟨by simpa using hw,trivial,?_⟩⟩
      refine ⟨?_,fun hpt => ?_,fun hpt => ?_,fun u hup hut => ?_⟩
      · split <;> rfl
      · rw [Kernel.modTcb_pool,if_pos rfl,Kernel.modTcb_pool,if_neg (Ne.symm hpt)]
        split
        · rw [Kernel.modTcb_pool,if_neg (Ne.symm hpt)]
        · rfl
      · rw [Kernel.modTcb_pool,if_neg hpt,Kernel.modTcb_pool,if_pos rfl]
        split
        · rw [Kernel.modTcb_pool,if_pos rfl]
          rfl
        · rfl
      · rw [Kernel.modTcb_pool,if_neg hut,Kernel.modTcb_pool,if_neg hup]
        split
        · rw [Kernel.modTcb_pool,if_neg hup]
        · rfl
    · have hw : waitsFor (k.pool p) t = false ∧ force = false := by simpa using hw
      refine Or.inr ⟨p,hg,Or.inl ⟨hw.1,hw.2,?_⟩⟩
      rw [hw.1,if_neg Bool.false_ne_true]

/-- What is left of a thread that returns from its start function, and of its children. -/
theorem tkDestructor_pool (retval : ℕ) (clk : Clock)
    (hs : (k.pool k.activeThread).gid ≠ some k.activeThread)
    (hn : (k.pool k.activeThread).noChilds = (children k k.activeThread).card) :
    (tkDestructor k retval clk).pool k.activeThread = { k.pool k.activeThread with
      state := ProcState.zombi ||| .sleep, retval := retval, noChilds := 0
      wakeuptime := ((tkDestructor k retval clk).pool k.activeThread).wakeuptime } ∧
    ∀ u ≠ k.activeThread, (tkDestructor k retval clk).pool u = { k.pool u with
      gid := if (k.pool u).valid = true ∧ (k.pool u).gid = some k.activeThread then none
        else (k.pool u).gid } := by
  let dead := k.modTcb k.activeThread fun b => { b with state := .zombi, retval := retval }
  have hdead : ∀ u, dead.pool u = if u = k.activeThread then
      { k.pool k.activeThread with state := .zombi, retval := retval } else k.pool u :=
    fun u => Kernel.modTcb_pool _ _ _ _
  have hchildren : children dead k.activeThread = children k k.activeThread := by
    ext c
    simp only [mem_children,hdead]
    split
    · next hc => rw [hc]
    · rfl
  have hpool := tkDetachChildren_pool_exact (k:=dead) (t:=k.activeThread)
    (by rw [hdead,if_pos rfl]; exact hs) (by rw [hchildren,hdead,if_pos rfl]; exact hn)
  have hact : (tkDetachChildren dead k.activeThread).activeThread = k.activeThread :=
    tkDetachChildren_moves.active
  have hend : ∀ u, (tkDestructor k retval clk).pool u = if u = k.activeThread then
      { (tkDetachChildren dead k.activeThread).pool k.activeThread with
        wakeuptime := actTimeUs clk + 1000 * 1000
        state := ((tkDetachChildren dead k.activeThread).pool k.activeThread).state ||| .sleep }
      else (tkDetachChildren dead k.activeThread).pool u := by
    intro u
    rw [tkDestructor,tkMsleep,hact,Kernel.modTcb_pool]
  refine ⟨?_,fun u hu => ?_⟩
  · rw [hend,if_pos rfl,hpool,hdead,if_pos rfl,if_pos rfl,if_neg fun h => hs h.2]
  · rw [hend,if_neg hu,hpool,hdead,if_neg hu,if_neg hu]

end

section

variable {w w' : World cfg numQ}

/-! ### A creation -/

section

variable {k k' : Kernel cfg} {r : ThreadReq} {t : Thid cfg}

theorem Begun.ne_active (h : Begun k r k' t) (hv : (k.pool k.activeThread).valid = true) :
    t ≠ k.activeThread := by
  rintro rfl
  rw [h.free] at hv
  cases hv

theorem Begun.new (h : Begun k r k' t) (ht : t ≠ k.activeThread) :
    k'.pool t = newTcb t k.activeThread r (k.procs r.prio) (k.pool t).wakeuptime := by
  rw [h.pool,if_neg ht,if_pos rfl]

/-- What a creation makes of the other threads. -/
theorem Begun.others (h : Begun k r k' t) {u : Thid cfg} (hut : u ≠ t) :
    k'.pool u = { k.pool u with noChilds := (k'.pool u).noChilds } ∧
    (u ≠ k.activeThread → k'.pool u = k.pool u) := by
  rw [h.pool,if_neg hut,if_neg hut]
  split
  · next hu => exact ⟨rfl,fun hn => absurd hu hn⟩
  · exact ⟨rfl,fun _ => rfl⟩

theorem Begun.ne_valid (h : Begun k r k' t) {c : Thid cfg} (hc : (k.pool c).valid = true) :
    c ≠ t := by
  rintro rfl
  rw [h.free] at hc
  cases hc

end

section

variable {r : ThreadReq} {k : Kernel cfg} {t : Thid cfg}

/-- The running thread and the one it creates are not inside `tk_join`. -/
theorem JoinInv.created_far (h : JoinInv w) (hr : w.runs = true) (hb : Begun w.kernel r k t)
    {p : Thid cfg} (hj : (w.place p).joins = true) : p ≠ t ∧ p ≠ w.me := by
  refine ⟨?_,?_⟩
  · rintro rfl
    rw [(h.dead p (h.invalid p hb.free)).1] at hj
    cases hj
  · rintro rfl
    rw [(World.runs_iff.mp hr).2] at hj
    cases hj

theorem JoinInv.created_inJoin (h : JoinInv w) (hr : w.runs = true) (hb : Begun w.kernel r k t)
    (p c : Thid cfg) (i : ℕ) : (w.created r k t).place p = .inJoin c i ↔ w.place p = .inJoin c i := by
  have hfar : w.place p = .inJoin c i → p ≠ t ∧ p ≠ w.me := fun hp =>
    h.created_far hr hb (Place.joins_iff.mpr ⟨c,i,hp⟩)
  by_cases hpt : p = t
  · subst hpt
    refine iff_of_false (fun hp => ?_) fun hp => (hfar hp).1 rfl
    simp [World.created] at hp
  · by_cases hpm : p = w.me
    · subst hpm
      refine iff_of_false (fun hp => ?_) fun hp => (hfar hp).2 rfl
      simp [World.created,Function.update_of_ne hpt] at hp
    · simp only [World.created,Function.update_of_ne hpt,Function.update_of_ne hpm]

theorem JoinInv.created_undisturbed (h : JoinInv w) (hr : w.runs = true)
    (hb : Begun w.kernel r k t) : Undisturbed w (w.created r k t) := by
  have hsame : ∀ p, (w.place p).joins = true → k.pool p = w.kernel.pool p := fun p hj =>
    (hb.others (h.created_far hr hb hj).1).2 (h.created_far hr hb hj).2
  refine ⟨h.created_inJoin hr hb,fun p hj => ?_,fun p hj => ?_,fun p hj he => ?_,fun p hj => ?_,
    fun p hj => ?_,fun p c i hp hc => ?_,fun i v hm => hm⟩
  · exact congrArg Tcb.state (hsame p hj)
  · exact congrArg Tcb.bOnId (hsame p hj)
  · exact (congrArg Tcb.wakeupEvent (hsame p hj)).trans he
  · exact congrArg Tcb.noChilds (hsame p hj)
  · exact congrArg Tcb.retval (hsame p hj)
  · have hct := hb.ne_valid hc.2
    have hkept := (hb.others hct).1
    exact ⟨⟨(congrArg Tcb.gid hkept).trans hc.1,(congrArg Tcb.valid hkept).trans hc.2⟩,
      Function.update_of_ne hct _ _⟩

/-- The number a new thread gets is one that nobody has or has had. -/
theorem Recorded.created (h : Recorded w) (hz : ∀ u ≠ t, (k.pool u).state.has .zombi =
    (w.kernel.pool u).state.has .zombi) : Recorded (w.created r k t) where
  inst_inj := by
    intro u v huv
    by_cases hut : u = t <;> by_cases hvt : v = t
    · rw [hut,hvt]
    · simp only [World.created,hut,Function.update_self,Function.update_of_ne hvt] at huv
      exact absurd huv (h.inst_lt v).ne'
    · simp only [World.created,hvt,Function.update_self,Function.update_of_ne hut] at huv
      exact absurd huv (h.inst_lt u).ne
    · simp only [World.created,Function.update_of_ne hut,Function.update_of_ne hvt] at huv
      exact h.inst_inj huv
  inst_lt := by
    intro u
    by_cases hut : u = t
    · simp [World.created,hut]
    · simp only [World.created,Function.update_of_ne hut]
      exact (h.inst_lt u).trans (Nat.lt_succ_self _)
  ended_lt := fun i v hm => (h.ended_lt i v hm).trans (Nat.lt_succ_self _)
  ended_dead := by
    intro u v hm
    by_cases hut : u = t
    · simp only [World.created,hut,Function.update_self] at hm
      exact absurd (h.ended_lt _ _ hm) (Nat.lt_irrefl _)
    · simp only [World.created,Function.update_of_ne hut] at hm
      exact (hz u hut).trans (h.ended_dead u v hm)
  ended_once := h.ended_once
  joined := h.joined

theorem JoinInv.created (h : JoinInv w) (hr : w.runs = true) (hb : Begun w.kernel r k t) :
    JoinInv (w.created r k t) := by
  obtain ⟨hy,hu⟩ := World.runs_iff.mp hr
  have hready : (w.kernel.pool w.me).state = .ready := h.turn hy
  have hv := h.me_valid hy
  have hnew := hb.new (hb.ne_active hv)
  have hkept := fun {u} (hut : u ≠ t) => (hb.others (u:=u) hut).1
  have hstate : ∀ {u}, u ≠ t → (k.pool u).state = (w.kernel.pool u).state := fun hut => by
    rw [hkept hut]
  have hidle : k.idleThid = w.kernel.idleThid := by rw [hb.eq]; rfl
  have hplace : ∀ {u}, u ≠ t → (w.created r k t).place u = w.place u ∨ u = w.me := by
    intro u hut
    by_cases hum : u = w.me
    · exact Or.inr hum
    · simp only [World.created,Function.update_of_ne hut,Function.update_of_ne hum,true_or]
  have hjoins : ∀ {u}, u ≠ t → (w.place u).joins = ((w.created r k t).place u).joins := by
    intro u hut
    obtain he | rfl := hplace hut
    · rw [he]
    · simp [World.created,Function.update_of_ne hut,hu,Place.joins]
  refine { toRecorded := ?_,family := ?_,own := ?_,npreempt := ?_,lists := ?_,turn := by rintro ⟨⟩
           invalid := ?_,dead := ?_,term := ?_
           joining := (h.created_undisturbed hr hb).joining h.joining }
  · exact h.toRecorded.created fun u hut => by rw [hstate hut]
  · refine h.family.create hb hv ?_
    rw [show (w.kernel.pool w.kernel.activeThread).state = .ready from hready]
    exact ProcState.has_ready _
  · intro u hg
    change (k.pool u).gid = some u at hg
    rw [show (w.created r k t).kernel.idleThid = w.kernel.idleThid from hidle]
    by_cases hut : u = t
    · subst hut
      rw [hnew] at hg
      exact absurd (Option.some.inj hg).symm (hb.ne_active hv)
    · rw [hkept hut] at hg
      exact h.own u hg
  · have hn : k.npreempt = w.kernel.npreempt := by rw [hb.eq]; rfl
    exact hn.trans h.npreempt
  · refine h.lists.congr rfl fun m u hm => ?_
    have hut : u ≠ t := by
      rintro rfl
      have hz := h.invalid u hb.free
      rw [(h.lists.blocked m u hm).1] at hz
      cases hz
    refine ⟨hstate hut,?_⟩
    change (k.pool u).bOnId = (w.kernel.pool u).bOnId
    rw [hkept hut]
  · intro u hu'
    change (k.pool u).valid = false at hu'
    change (k.pool u).state.has .zombi = true
    by_cases hut : u = t
    · rw [hut,hnew] at hu'
      cases hu'
    · rw [hkept hut] at hu'
      rw [hstate hut]
      exact h.invalid u hu'
  · intro u hz
    change (k.pool u).state.has .zombi = true at hz
    by_cases hut : u = t
    · rw [hut,hnew] at hz
      simp [newTcb] at hz
    · rw [hstate hut] at hz
      obtain ⟨hj,hterm,hend⟩ := h.dead u hz
      refine ⟨(hjoins hut).symm.trans hj,?_,fun hvu => ?_⟩
      · change (k.pool u).state.has .term = false
        rw [hstate hut]
        exact hterm
      · change (k.pool u).valid = true at hvu
        rw [hkept hut] at hvu
        change .ended (Function.update w.inst t w.born u) (k.pool u).retval ∈ w.log
        rw [Function.update_of_ne hut,hkept hut]
        exact hend hvu
  · intro u hterm
    change (k.pool u).state.has .term = true at hterm
    by_cases hut : u = t
    · rw [hut,hnew] at hterm
      simp [newTcb] at hterm
    · rw [hstate hut] at hterm
      rw [← hjoins hut]
      exact h.term u hterm

theorem JoinInv.created_step (h : JoinInv w) (hr : w.runs = true) (hb : Begun w.kernel r k t) :
    JoinStep w (.create r) (w.created r k t) := by
  have hkept := fun {u} (hut : u ≠ t) => (hb.others (u:=u) hut).1
  refine (h.created_undisturbed hr hb).step (by rintro _ ⟨⟩) (by rintro _ ⟨⟩) (fun c hc => ?_)
    (fun c p hc hg hg' => ?_) fun c hc hc' => ?_
  · exact (congrArg Tcb.valid (hkept (hb.ne_valid hc))).trans hc
  · exact absurd ((congrArg Tcb.gid (hkept (hb.ne_valid hc))).trans hg) hg'
  · by_cases hct : c = t
    · refine ⟨?_,h.inst_lt⟩
      rw [hct]
      exact Function.update_self _ _ _
    · change (k.pool c).valid = true at hc'
      rw [hkept hct,hc] at hc'
      cases hc'

end

/-! ### The end of a thread -/

section

variable {retval : ℕ}

theorem ProcState.dead_has_zombi : (zombi ||| sleep).has zombi = true := by decide
theorem ProcState.dead_has_term : (zombi ||| sleep).has term = false := by decide

/-- What the end of the running thread leaves of the control blocks. -/
structure Exits (w : World cfg numQ) (retval : ℕ) (k : Kernel cfg) : Prop where
  me : ∃ t n, k.pool w.me = { w.kernel.pool w.me with
    state := ProcState.zombi ||| .sleep, retval := retval, wakeuptime := t, noChilds := n }
  others : ∀ u ≠ w.me, k.pool u = { w.kernel.pool u with gid := (k.pool u).gid }
  gid : ∀ u p, p ≠ w.me → ((k.pool u).gid = some p ↔ (w.kernel.pool u).gid = some p)
  idle : k.idleThid = w.kernel.idleThid
  npreempt : k.npreempt = w.kernel.npreempt

theorem JoinInv.own_ne (h : JoinInv w) (hroot : w.me ≠ root) (hidle : w.me ≠ w.kernel.idleThid) :
    (w.kernel.pool w.me).gid ≠ some w.me := fun hg =>
  (h.own w.me hg).elim hroot hidle

theorem JoinInv.exits (h : JoinInv w) (hy : w.yielding = false) (hroot : w.me ≠ root)
    (hidle : w.me ≠ w.kernel.idleThid) : Exits w retval (w.exit retval).kernel := by
  have hs := h.own_ne hroot hidle
  obtain ⟨hme,hothers⟩ := tkDestructor_pool retval w.clock hs
    (h.family.count _ (h.me_valid hy))
  have hpool : ∀ u, (w.exit retval).kernel.pool u =
      (tkDestructor w.kernel retval w.clock).pool u := fun _ => rfl
  refine ⟨⟨_,_,hme⟩,fun u hu => ?_,fun u p hp => ?_,(tkDestructor_moves.idle :),(tkDestructor_moves.npreempt :)⟩
  · rw [hpool,hothers u hu]
  · by_cases hu : u = w.me
    · subst hu
      rw [hpool,show (tkDestructor w.kernel retval w.clock).pool w.me = _ from hme]
      rfl
    · rw [hpool,hothers u hu]
      simp only
      split
      · next hg =>
        refine iff_of_false (by simp) fun hgp => hp ?_
        exact Option.some.inj (hgp.symm.trans hg.2)
      · exact Iff.rfl

/-- The log tells of the end of the running thread now. -/
theorem Recorded.exited (h : Recorded w) (hz : (w.kernel.pool w.me).state.has .zombi = false)
    (he : Exits w retval (w.exit retval).kernel) : Recorded (w.exit retval) where
  inst_inj := h.inst_inj
  inst_lt := h.inst_lt
  ended_lt := by
    intro i v hm
    obtain hm | hm := List.mem_append.mp hm
    · exact h.ended_lt i v hm
    · obtain ⟨rfl,rfl⟩ := Event.ended.inj (List.mem_singleton.mp hm)
      exact h.inst_lt w.me
  ended_dead := by
    intro u v hm
    by_cases hu : u = w.me
    · obtain ⟨t,n,hme⟩ := he.me
      rw [hu,hme]
      exact ProcState.dead_has_zombi
    · rw [he.others u hu]
      obtain hm | hm := List.mem_append.mp hm
      · exact h.ended_dead u v hm
      · exact absurd (h.inst_inj (Event.ended.inj (List.mem_singleton.mp hm)).1) hu
  ended_once := by
    -- whose end the log has told is dead already
    have hnot : ∀ v, .ended (w.inst w.me) v ∉ w.log := fun v hm => by
      rw [h.ended_dead w.me v hm] at hz
      cases hz
    intro i u v hu hv
    obtain hu | hu := List.mem_append.mp hu <;> obtain hv | hv := List.mem_append.mp hv
    · exact h.ended_once i u v hu hv
    · obtain ⟨rfl,rfl⟩ := Event.ended.inj (List.mem_singleton.mp hv)
      exact absurd hu (hnot u)
    · obtain ⟨rfl,rfl⟩ := Event.ended.inj (List.mem_singleton.mp hu)
      exact absurd hv (hnot v)
    · rw [(Event.ended.inj (List.mem_singleton.mp hu)).2,(Event.ended.inj (List.mem_singleton.mp hv)).2]
  joined := joined_append h.joined fun i v hm => by cases List.mem_singleton.mp hm

theorem World.exit_place {u : Thid cfg} (hu : u ≠ w.me) : (w.exit retval).place u = w.place u :=
  Function.update_of_ne hu _ _

theorem World.exit_place_me : (w.exit retval).place w.me = .ended := Function.update_self _ _ _

theorem Exits.undisturbed (he : Exits w retval (w.exit retval).kernel)
    (hr : w.runs = true) : Undisturbed w (w.exit retval) := by
  have hfar : ∀ p, (w.place p).joins = true → p ≠ w.me := by
    rintro p hj rfl
    rw [(World.runs_iff.mp hr).2] at hj
    cases hj
  have hsame : ∀ p, (w.place p).joins = true → ((w.exit retval).kernel.pool p) =
      { w.kernel.pool p with gid := ((w.exit retval).kernel.pool p).gid } := fun p hj =>
    he.others p (hfar p hj)
  refine ⟨fun p c i => ?_,fun p hj => ?_,fun p hj => ?_,fun p hj hev => ?_,fun p hj => ?_,
    fun p hj => ?_,fun p c i hp hc => ⟨⟨?_,?_⟩,rfl⟩,fun i v hm => List.mem_append_left _ hm⟩
  · by_cases hp : p = w.me
    · rw [hp,World.exit_place_me,(World.runs_iff.mp hr).2]
      exact iff_of_false (by simp) (by simp)
    · rw [World.exit_place hp]
  · rw [hsame p hj]
  · rw [hsame p hj]
  · rw [hsame p hj]
    exact hev
  · rw [hsame p hj]
  · rw [hsame p hj]
  · have hpm := hfar p (Place.joins_iff.mpr ⟨c,i,hp⟩)
    exact (he.gid c p hpm).mpr hc.1
  · change ((w.exit retval).kernel.pool c).valid = true
    by_cases hcm : c = w.me
    · obtain ⟨t,n,hme⟩ := he.me
      rw [hcm,hme]
      exact hcm ▸ hc.2
    · rw [he.others c hcm]
      exact hc.2

theorem JoinInv.exited (h : JoinInv w) (hr : w.runs = true) (hroot : w.me ≠ root)
    (hidle : w.me ≠ w.kernel.idleThid) : JoinInv (w.exit retval) := by
  obtain ⟨hy,hu⟩ := World.runs_iff.mp hr
  have hready : (w.kernel.pool w.me).state = .ready := h.turn hy
  have he : Exits w retval (w.exit retval).kernel := h.exits hy hroot hidle
  obtain ⟨t,n,hme⟩ := he.me
  refine { toRecorded := h.toRecorded.exited (by rw [hready]; exact ProcState.has_ready _) he
           family := h.family.destructor retval w.clock (Or.inl (h.own_ne hroot hidle))
           own := ?_,npreempt := he.npreempt.trans h.npreempt,lists := ?_,turn := by rintro ⟨⟩
           invalid := ?_,dead := ?_,term := ?_
           joining := (he.undisturbed hr).joining h.joining }
  · intro u hg
    rw [show (w.exit retval).kernel.idleThid = w.kernel.idleThid from he.idle]
    by_cases hum : u = w.me
    · rw [hum,hme] at hg
      exact absurd hg (h.own_ne hroot hidle)
    · exact h.own u ((he.gid u u hum).mp hg)
  · refine h.lists.congr rfl fun m u hm => ?_
    have hum : u ≠ w.me := by
      rintro rfl
      exact h.lists.notMem hready m hm
    rw [he.others u hum]
    exact ⟨rfl,rfl⟩
  · intro u hv
    by_cases hum : u = w.me
    · rw [hum,hme]
      exact ProcState.dead_has_zombi
    · rw [he.others u hum] at hv ⊢
      exact h.invalid u hv
  · intro u hz
    by_cases hum : u = w.me
    · rw [hum,World.exit_place_me,hme]
      exact ⟨rfl,ProcState.dead_has_term,fun _ => List.mem_append_right _ List.mem_cons_self⟩
    · rw [he.others u hum] at hz
      obtain ⟨hj,ht,hend⟩ := h.dead u hz
      rw [World.exit_place hum,he.others u hum]
      exact ⟨hj,ht,fun hv => List.mem_append_left _ (hend hv)⟩
  · intro u ht
    by_cases hum : u = w.me
    · rw [hum,hme,ProcState.dead_has_term] at ht
      cases ht
    · rw [he.others u hum] at ht
      rw [World.exit_place hum]
      exact h.term u ht

theorem JoinInv.exited_step (h : JoinInv w) (hr : w.runs = true) (hroot : w.me ≠ root)
    (hidle : w.me ≠ w.kernel.idleThid) : JoinStep w (.exit retval) (w.exit retval) := by
  have he : Exits w retval (w.exit retval).kernel :=
    h.exits (World.runs_iff.mp hr).1 hroot hidle
  have hvalid : ∀ c, ((w.exit retval).kernel.pool c).valid = (w.kernel.pool c).valid := by
    intro c
    by_cases hcm : c = w.me
    · obtain ⟨t,n,hme⟩ := he.me
      rw [hcm,hme]
    · rw [he.others c hcm]
  refine (he.undisturbed hr).step (by rintro _ ⟨⟩) (by rintro _ ⟨⟩) (fun c hc => (hvalid c).trans hc)
    (fun c p hc hg hg' => ?_) fun c hc hc' => ?_
  · refine ⟨?_,Or.inr ⟨retval,rfl⟩⟩
    by_contra hp
    exact hg' ((he.gid c p hp).mpr hg)
  · rw [hvalid,hc] at hc'
    cases hc'

end

/-! ### `tk_join` -/

/-- `tk_join` returns the value of a thread whose end the log tells. -/
theorem Recorded.joins (h : Recorded w) {i v : ℕ} (he : .ended i v ∈ w.log)
    (hi : w'.inst = w.inst) (hb : w'.born = w.born) (hl : w'.log = w.log ++ [.joined i v])
    (hz : ∀ t, (w'.kernel.pool t).state.has .zombi = (w.kernel.pool t).state.has .zombi) :
    Recorded w' := by
  have hended : ∀ j u, .ended j u ∈ w'.log ↔ .ended j u ∈ w.log := fun j u => by
    rw [hl,List.mem_append,List.mem_singleton]
    simp
  refine ⟨by rw [hi]; exact h.inst_inj,by rw [hi,hb]; exact h.inst_lt,fun j u hm => ?_,
    fun t u hm => ?_,fun j u u' hu hu' => ?_,?_⟩
  · rw [hb]
    exact h.ended_lt j u ((hended j u).mp hm)
  · rw [hi] at hm
    rw [hz]
    exact h.ended_dead t u ((hended _ _).mp hm)
  · exact h.ended_once j u u' ((hended j u).mp hu) ((hended j u').mp hu')
  · rw [hl]
    refine joined_append h.joined fun j u hm => ?_
    obtain ⟨rfl,rfl⟩ := Event.joined.inj (List.mem_singleton.mp hm)
    exact he

section

variable {t : Thid cfg} {k : Kernel cfg}

theorem JoinInv.ne_dead (h : JoinInv w) (hy : w.yielding = false)
    (hz : (w.kernel.pool t).state.has .zombi = true) : w.me ≠ t := by
  rintro rfl
  rw [h.turn hy] at hz
  cases hz

/-- The running thread does not sleep in `tk_join`. -/
theorem JoinInv.waits_nobody (h : JoinInv w) (hy : w.yielding = false) (t : Thid cfg) :
    waitsFor (w.kernel.pool w.me) t = false := by
  rw [waitsFor,h.turn hy,ProcState.has_ready]
  rfl

/-- A dead child is let go. -/
theorem JoinInv.parts (h : JoinInv w) (hy : w.yielding = false) (ht : Joinable w.kernel t) {d : Bool}
    (hk : tkTryDetachParent w.kernel t true = .ok (k,d)) : Parts w.kernel w.me t k := by
  have hw := h.waits_nobody hy t
  obtain ⟨hn,_⟩ | ⟨p,hg,hcase⟩ := tkTryDetachParent_cases.of_ok hk
  · rw [ht.1] at hn
    cases hn
  · obtain rfl : w.kernel.activeThread = p := Option.some.inj (ht.1.symm.trans hg)
    obtain ⟨_,hf,_⟩ | ⟨_,_,hp⟩ := hcase
    · cases hf
    · exact hp

/-- What letting a child go leaves of the control blocks. -/
theorem Parts.kept {k k' : Kernel cfg} {p t : Thid cfg} (h : Parts k p t k') (hpt : p ≠ t)
    (hw : waitsFor (k.pool p) t = false) (u : Thid cfg) : k'.pool u = { k.pool u with
      gid := (k'.pool u).gid, noChilds := (k'.pool u).noChilds } := by
  by_cases hup : u = p
  · rw [hup,h.parent hpt,hw]
    rfl
  · by_cases hut : u = t
    · rw [hut,h.child hpt]
    · rw [h.others u hup hut]

theorem Parts.gid {k k' : Kernel cfg} {p t : Thid cfg} (h : Parts k p t k') (hpt : p ≠ t)
    (hw : waitsFor (k.pool p) t = false) {u : Thid cfg} (hut : u ≠ t) :
    (k'.pool u).gid = (k.pool u).gid := by
  by_cases hup : u = p
  · rw [hup,h.parent hpt,hw]
    rfl
  · rw [h.others u hup hut]

/-- The call has found its child dead. -/
def World.joined (w : World cfg numQ) (t : Thid cfg) (k : Kernel cfg) : World cfg numQ :=
  (w.setKernel k).emit (.joined (w.inst t) (w.kernel.pool t).retval)

theorem JoinInv.joined_undisturbed (h : JoinInv w) (hr : w.runs = true) (ht : Joinable w.kernel t)
    (hz : (w.kernel.pool t).state.has .zombi = true) (hp : Parts w.kernel w.me t k) :
    Undisturbed w (w.joined t k) := by
  obtain ⟨hy,hu⟩ := World.runs_iff.mp hr
  have hw := h.waits_nobody hy t
  have hmt := h.ne_dead hy hz
  have hkept := hp.kept hmt hw
  have hne : ∀ p, (w.place p).joins = true → p ≠ w.me := by
    rintro p hj rfl
    rw [hu] at hj
    cases hj
  refine ⟨fun p c i => Iff.rfl,fun p hj => ?_,fun p hj => ?_,fun p hj hev => ?_,fun p hj => ?_,
    fun p hj => ?_,fun p c i hpj hc => ⟨⟨?_,?_⟩,rfl⟩,fun i v hm => List.mem_append_left _ hm⟩
  · change (k.pool p).state = _
    rw [hkept p]
  · change (k.pool p).bOnId = _
    rw [hkept p]
  · change (k.pool p).wakeupEvent = _
    rw [hkept p]
    exact hev
  · change (k.pool p).noChilds = _
    by_cases hpt : p = t
    · rw [hpt,hp.child hmt]
    · rw [hp.others p (hne p hj) hpt]
  · change (k.pool p).retval = _
    rw [hkept p]
  · have hct : c ≠ t := by
      rintro rfl
      refine hne p (Place.joins_iff.mpr ⟨c,i,hpj⟩) ?_
      exact Option.some.inj (hc.1.symm.trans ht.1)
    exact (hp.gid hmt hw hct).trans hc.1
  · change (k.pool c).valid = true
    rw [hkept c]
    exact hc.2

theorem JoinInv.joined_inv (h : JoinInv w) (hr : w.runs = true) (ht : Joinable w.kernel t)
    (hz : (w.kernel.pool t).state.has .zombi = true) (hp : Parts w.kernel w.me t k)
    (hf : FamilyInv k) : JoinInv (w.joined t k) := by
  obtain ⟨hy,hu⟩ := World.runs_iff.mp hr
  have hw := h.waits_nobody hy t
  have hmt := h.ne_dead hy hz
  have hkept : ∀ u, (w.joined t k).kernel.pool u = { w.kernel.pool u with
      gid := (k.pool u).gid, noChilds := (k.pool u).noChilds } := hp.kept hmt hw
  have hstate : ∀ u, ((w.joined t k).kernel.pool u).state = (w.kernel.pool u).state := fun u => by
    rw [hkept u]
  have hme : (w.joined t k).me = w.me := by
    have hact : k.activeThread = w.kernel.activeThread := by rw [hp.rest]
    exact hact
  refine { toRecorded := ?_,family := hf,own := ?_,npreempt := ?_,lists := ?_
           turn := fun _ => ?_,invalid := ?_,dead := ?_,term := ?_
           joining := (h.joined_undisturbed hr ht hz hp).joining h.joining }
  · exact h.toRecorded.joins ((h.dead t hz).2.2 ht.2) rfl rfl rfl fun u => by rw [hstate u]
  · intro u hg
    have hidle : k.idleThid = w.kernel.idleThid := by rw [hp.rest]
    rw [show (w.joined t k).kernel.idleThid = w.kernel.idleThid from hidle]
    by_cases hut : u = t
    · rw [hut,show (w.joined t k).kernel.pool t = _ from hp.child hmt] at hg
      cases hg
    · exact h.own u ((hp.gid hmt hw hut).symm.trans hg)
  · have hn : k.npreempt = w.kernel.npreempt := by rw [hp.rest]
    exact hn.trans h.npreempt
  · exact h.lists.congr rfl fun m u _ => ⟨hstate u,by rw [hkept u]⟩
  · rw [hme,hstate]
    exact h.turn hy
  · intro u hv
    rw [hkept u] at hv
    rw [hstate u]
    exact h.invalid u hv
  · intro u hzu
    rw [hstate u] at hzu
    obtain ⟨hj,hterm,hend⟩ := h.dead u hzu
    rw [hkept u]
    exact ⟨hj,hterm,fun hv => List.mem_append_left _ (hend hv)⟩
  · intro u hterm
    rw [hstate u] at hterm
    exact h.term u hterm

theorem JoinInv.joined_step (h : JoinInv w) (hr : w.runs = true) (ht : Joinable w.kernel t)
    (hz : (w.kernel.pool t).state.has .zombi = true) (hp : Parts w.kernel w.me t k) :
    JoinStep w (.join t) (w.joined t k) := by
  obtain ⟨hy,_⟩ := World.runs_iff.mp hr
  have hw := h.waits_nobody hy t
  have hmt := h.ne_dead hy hz
  have hvalid : ∀ c, ((w.joined t k).kernel.pool c).valid = (w.kernel.pool c).valid := fun c => by
    rw [show (w.joined t k).kernel.pool c = _ from hp.kept hmt hw c]
  refine (h.joined_undisturbed hr ht hz hp).step (by rintro _ ⟨⟩) (fun c hl _ _ => ?_)
    (fun c hc => (hvalid c).trans hc) (fun c p hc hg hg' => ?_) fun c hc hc' => ?_
  · obtain rfl := WorldLabel.join.inj hl
    refine ⟨rfl,?_,(hvalid t).trans ht.2,?_⟩
    · rw [show (w.joined t k).kernel.pool w.me = _ from hp.parent hmt]
    · rw [show (w.joined t k).kernel.pool t = _ from hp.child hmt]
  · have hct : c = t := by
      by_contra hct
      exact hg' ((hp.gid hmt hw hct).trans hg)
    subst hct
    exact ⟨Option.some.inj (hg.symm.trans ht.1),Or.inl ⟨rfl,hz⟩⟩
  · rw [hvalid,hc] at hc'
    cases hc'

end

/-! #### Waiting -/

section

variable {t : Thid cfg}

/-- The call has found its child alive. -/
def World.joinWaits (w : World cfg numQ) (t : Thid cfg) : World cfg numQ :=
  w.after { w.toSync with kernel := w.kernel.modTcb w.me (waitFor t) } w.store []
    (.inJoin t (w.inst t)) true

theorem World.joinWaits_pool (u : Thid cfg) : (w.joinWaits t).kernel.pool u =
    if u = w.me then waitFor t (w.kernel.pool w.me) else w.kernel.pool u := Kernel.modTcb_pool _ _ _ _

theorem World.joinWaits_place_me : (w.joinWaits t).place w.me = .inJoin t (w.inst t) :=
  World.after_place_me _ _ _ _ _

theorem World.joinWaits_place {u : Thid cfg} (hu : u ≠ w.me) :
    (w.joinWaits t).place u = w.place u := Function.update_of_ne hu _ _

theorem World.joinWaits_ended {i v : ℕ} :
    .ended i v ∈ (w.joinWaits t).log ↔ .ended i v ∈ w.log := by
  change _ ∈ w.log ++ [] ↔ _
  rw [List.append_nil]

/-- The fields that waiting for a child leaves alone. -/
theorem World.joinWaits_kept (w : World cfg numQ) (t u : Thid cfg) :
    (w.joinWaits t).kernel.pool u = { w.kernel.pool u with
      state := ((w.joinWaits t).kernel.pool u).state
      bOnId := ((w.joinWaits t).kernel.pool u).bOnId } := by
  rw [World.joinWaits_pool]
  split
  · next hu => rw [hu]; rfl
  · rfl

theorem World.joinWaits_zombi (w : World cfg numQ) (t u : Thid cfg) :
    ((w.joinWaits t).kernel.pool u).state.has .zombi = (w.kernel.pool u).state.has .zombi := by
  rw [World.joinWaits_pool]
  split
  · next hu => rw [hu]; exact ProcState.or_term_has_zombi _
  · rfl

theorem JoinInv.joinWaits_inv (h : JoinInv w) (hr : w.runs = true) (ht : Joinable w.kernel t)
    (hf : FamilyInv (w.joinWaits t).kernel) : JoinInv (w.joinWaits t) := by
  obtain ⟨hy,hu⟩ := World.runs_iff.mp hr
  have hready : (w.kernel.pool w.me).state = .ready := h.turn hy
  have hkept := w.joinWaits_kept t
  have hzombi := w.joinWaits_zombi t
  have hother : ∀ {u}, u ≠ w.me → (w.joinWaits t).kernel.pool u = w.kernel.pool u := fun hum => by
    rw [World.joinWaits_pool,if_neg hum]
  refine { toRecorded := ?_,family := hf,own := ?_,npreempt := h.npreempt,lists := ?_
           turn := by rintro ⟨⟩,invalid := ?_,dead := ?_,term := ?_,joining := ?_ }
  · refine ⟨h.inst_inj,h.inst_lt,fun i v hm => h.ended_lt i v (World.joinWaits_ended.mp hm),
      fun u v hm => ?_,fun i v v' hv hv' => ?_,?_⟩
    · rw [hzombi]
      exact h.ended_dead u v (World.joinWaits_ended.mp hm)
    · exact h.ended_once i v v' (World.joinWaits_ended.mp hv) (World.joinWaits_ended.mp hv')
    · exact joined_append h.joined fun i v hm => absurd hm List.not_mem_nil
  · intro u hg
    rw [hkept u] at hg
    exact h.own u hg
  · refine h.lists.congr rfl fun m u hm => ?_
    have hum : u ≠ w.me := by
      rintro rfl
      exact h.lists.notMem hready m hm
    rw [hother hum]
    exact ⟨rfl,rfl⟩
  · intro u hv
    rw [hkept u] at hv
    rw [hzombi]
    exact h.invalid u hv
  · intro u hz
    rw [hzombi] at hz
    have hum : u ≠ w.me := Ne.symm (h.ne_dead hy hz)
    obtain ⟨hj,hterm,hend⟩ := h.dead u hz
    rw [World.joinWaits_place hum,hother hum]
    exact ⟨hj,hterm,fun hv => World.joinWaits_ended.mpr (hend hv)⟩
  · intro u hterm
    by_cases hum : u = w.me
    · rw [hum,World.joinWaits_place_me]
      rfl
    · rw [hother hum] at hterm
      rw [World.joinWaits_place hum]
      exact h.term u hterm
  · intro p c i hp
    by_cases hpm : p = w.me
    · -- the running thread sleeps from now on
      rw [hpm,World.joinWaits_place_me] at hp
      obtain ⟨rfl,rfl⟩ := Place.inJoin.inj hp
      refine Or.inl ⟨?_,?_,⟨?_,?_⟩,rfl⟩
      · rw [hpm,World.joinWaits_pool,if_pos rfl,waitFor,hready]
        exact ProcState.ready_or _
      · rw [hpm,World.joinWaits_pool,if_pos rfl,waitFor]
      · change ((w.joinWaits t).kernel.pool t).gid = some p
        rw [hkept t,hpm]
        exact ht.1
      · change ((w.joinWaits t).kernel.pool t).valid = true
        rw [hkept t]
        exact ht.2
    · rw [World.joinWaits_place hpm] at hp
      have hchild : Joinable (w.kernel.dispatch p) c → Joinable ((w.joinWaits t).kernel.dispatch p) c := by
        rintro ⟨hg,hv⟩
        refine ⟨?_,?_⟩
        · change ((w.joinWaits t).kernel.pool c).gid = some p
          rw [hkept c]
          exact hg
        · change ((w.joinWaits t).kernel.pool c).valid = true
          rw [hkept c]
          exact hv
      obtain hw | hi := h.joining p c i hp
      · refine Or.inl ⟨?_,?_,hchild hw.child,hw.inst⟩
        · rw [hother hpm]
          exact hw.state
        · rw [hother hpm]
          exact hw.bOnId
      · refine Or.inr ⟨?_,?_,World.joinWaits_ended.mpr ?_⟩
        · rw [hother hpm]
          exact hi.state
        · rw [hother hpm]
          exact hi.event
        · rw [hother hpm]
          exact hi.ended

theorem JoinInv.joinWaits_step (h : JoinInv w) (hr : w.runs = true) (ht : Joinable w.kernel t)
    (hz : (w.kernel.pool t).state.has .zombi = false) :
    JoinStep w (.join t) (w.joinWaits t) := by
  obtain ⟨hy,hu⟩ := World.runs_iff.mp hr
  have hkept := w.joinWaits_kept t
  have hother : ∀ {u}, u ≠ w.me → (w.joinWaits t).kernel.pool u = w.kernel.pool u := fun hum => by
    rw [World.joinWaits_pool,if_neg hum]
  have hout : ∀ {p c i}, w.place p = .inJoin c i → p ≠ w.me := by
    rintro p c i hp rfl
    rw [hu] at hp
    cases hp
  refine ⟨fun c hl _ hzc => ?_,fun p c i hp hn => ?_,fun p c i hp _ => ?_,fun p c i hp hn => ?_,
    fun c hv hv' => ?_,fun c p hv hg _ hg' => ?_,by rintro _ ⟨⟩,fun c hv hv' => ?_⟩
  · obtain rfl := WorldLabel.join.inj hl
    rw [hz] at hzc
    cases hzc
  · have hpm : p = w.me := by
      by_contra hpm
      exact hn ((World.joinWaits_place hpm).symm.trans hp)
    rw [hpm,World.joinWaits_place_me] at hp
    obtain ⟨rfl,rfl⟩ := Place.inJoin.inj hp
    refine ⟨rfl,hpm,rfl,ht,?_,by rw [hkept p]⟩
    rw [hpm,World.joinWaits_pool,if_pos rfl,waitFor,h.turn hy]
    change (ProcState.ready ||| ProcState.term).has .term = true
    decide
  · refine Or.inl ?_
    have hsame := hother (hout hp)
    exact ⟨by rw [hsame],by rw [hsame],by rw [hsame]⟩
  · exact absurd ((World.joinWaits_place (hout hp)).trans hp) hn
  · rw [hkept c] at hv'
    exact absurd hv (by rw [hv']; decide)
  · rw [hkept c] at hg'
    exact absurd hg hg'
  · rw [hkept c] at hv'
    rw [hv] at hv'
    cases hv'

end

/-! #### Its end -/

/-- The caller has been told, and returns. -/
def World.joinEnds (w : World cfg numQ) (inst : ℕ) : World cfg numQ :=
  w.after w.toSync w.store [.joined inst (w.kernel.pool w.me).retval] .user false

theorem JoinInv.informed (h : JoinInv w) (hy : w.yielding = false) {t : Thid cfg} {i : ℕ}
    (hp : w.place w.me = .inJoin t i) : Informed w w.me i := by
  obtain hw | hi := h.joining w.me t i hp
  · have hs := hw.state
    rw [h.turn hy] at hs
    cases hs
  · exact hi

theorem JoinInv.joinEnds_inv (h : JoinInv w) (hy : w.yielding = false) {t : Thid cfg} {i : ℕ}
    (hp : w.place w.me = .inJoin t i) : JoinInv (w.joinEnds i) := by
  have hready : (w.kernel.pool w.me).state = .ready := h.turn hy
  have hother : ∀ {u}, u ≠ w.me → (w.joinEnds i).place u = w.place u := fun hum =>
    Function.update_of_ne hum _ _
  have hmeplace : (w.joinEnds i).place w.me = .user := World.after_place_me _ _ _ _ _
  refine { toRecorded := ?_,family := h.family,own := h.own,npreempt := h.npreempt
           lists := h.lists,turn := fun _ => hready,invalid := h.invalid,dead := ?_,term := ?_
           joining := ?_ }
  · exact h.toRecorded.joins (h.informed hy hp).ended rfl rfl rfl fun _ => rfl
  · intro u hz
    obtain ⟨hj,hterm,hend⟩ := h.dead u hz
    rw [hother (Ne.symm (h.ne_dead hy hz))]
    exact ⟨hj,hterm,fun hv => List.mem_append_left _ (hend hv)⟩
  · intro u hterm
    have hum : u ≠ w.me := by
      rintro rfl
      rw [show ((w.joinEnds i).kernel.pool w.me).state = .ready from hready] at hterm
      cases hterm
    rw [hother hum]
    exact h.term u hterm
  · intro p c j hpj
    have hpm : p ≠ w.me := by
      rintro rfl
      rw [hmeplace] at hpj
      cases hpj
    rw [hother hpm] at hpj
    obtain hw | hi := h.joining p c j hpj
    · exact Or.inl ⟨hw.state,hw.bOnId,hw.child,hw.inst⟩
    · exact Or.inr ⟨hi.state,hi.event,List.mem_append_left _ hi.ended⟩

theorem JoinInv.joinEnds_step (h : JoinInv w) (hy : w.yielding = false) {t : Thid cfg} {i : ℕ}
    (hp : w.place w.me = .inJoin t i) : JoinStep w .resume (w.joinEnds i) := by
  have hother : ∀ {u}, u ≠ w.me → (w.joinEnds i).place u = w.place u := fun hum =>
    Function.update_of_ne hum _ _
  have hmeplace : (w.joinEnds i).place w.me = .user := World.after_place_me _ _ _ _ _
  refine ⟨by rintro _ ⟨⟩,fun p c j hpj hn => ?_,fun p c j hpj _ => Or.inl ⟨rfl,rfl,rfl⟩,
    fun p c j hpj hn => ?_,fun c hv hv' => ?_,fun c p hv hg _ hg' => absurd hg hg',
    by rintro _ ⟨⟩,fun c hv hv' => ?_⟩
  · have hpm : p ≠ w.me := by
      rintro rfl
      rw [hmeplace] at hpj
      cases hpj
    exact absurd ((hother hpm).symm.trans hpj) hn
  · have hpm : p = w.me := by
      by_contra hpm
      exact hn ((hother hpm).trans hpj)
    subst hpm
    obtain ⟨rfl,rfl⟩ := Place.inJoin.inj (hpj.symm.trans hp)
    refine ⟨rfl,?_,rfl⟩
    rw [h.turn hy]
    exact ProcState.has_ready _
  · exact absurd (hv.symm.trans hv') (by decide)
  · exact absurd (hv.symm.trans hv') (by decide)

end

end Tinker

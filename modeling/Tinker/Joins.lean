import Tinker.Moves

/-! What `tk_join` is promised in the whole kernel, and what the steps that concern no joining
thread and no dead one leave of it. -/
namespace Tinker

open Kernel Outcome

variable {cfg : Config} {numQ : ℕ}

/-- The thread is inside `tk_join`. -/
def Place.joins : Place cfg numQ → Bool
  | .inJoin _ _ => true
  | _ => false

/-- Between `w` and `w'` the parent `p` that waits for `c` has been told the value `c` has ended
with; it counts one child less, and the slot of `c` is free. -/
structure Told (w w' : World cfg numQ) (p c : Thid cfg) : Prop where
  waited : (w.kernel.pool p).state.has .term = true
  woken : (w'.kernel.pool p).state.has .term = false
  noChilds : (w'.kernel.pool p).noChilds = (w.kernel.pool p).noChilds-1
  value : (w'.kernel.pool p).retval = (w.kernel.pool c).retval
  freed : (w.kernel.pool c).valid = true ∧ (w'.kernel.pool c).valid = false

/-- Between `w` and `w'` nothing has been done to the parent `p`. -/
structure Untold (w w' : World cfg numQ) (p : Thid cfg) : Prop where
  term : (w'.kernel.pool p).state.has .term = (w.kernel.pool p).state.has .term
  noChilds : (w'.kernel.pool p).noChilds = (w.kernel.pool p).noChilds
  retval : (w'.kernel.pool p).retval = (w.kernel.pool p).retval

/-- A step, as it is to be for the callers of `tk_join`: the call takes the value of a dead child
at once, and for a living one it waits until it has been told; each way the parent counts one child
less, once. A slot is freed only when its thread has ended and nobody is going to ask for it. -/
structure JoinStep (w : World cfg numQ) (l : WorldLabel cfg numQ) (w' : World cfg numQ) : Prop where
  finds : ∀ c, l = .join c → Joinable w.kernel c → (w.kernel.pool c).state.has .zombi = true →
    w'.log = w.log ++ [.joined (w.inst c) (w.kernel.pool c).retval] ∧
    (w'.kernel.pool w.me).noChilds = (w.kernel.pool w.me).noChilds-1 ∧
    (w'.kernel.pool c).valid = true ∧ (w'.kernel.pool c).gid = none
  enters : ∀ p c i, w'.place p = .inJoin c i → w.place p ≠ .inJoin c i →
    l = .join c ∧ p = w.me ∧ i = w.inst c ∧ Joinable w.kernel c ∧
    (w'.kernel.pool p).state.has .term = true ∧
    (w'.kernel.pool p).noChilds = (w.kernel.pool p).noChilds
  inside : ∀ p c i, w.place p = .inJoin c i → w'.place p = .inJoin c i →
    Untold w w' p ∨ Told w w' p c ∧ i = w.inst c
  leaves : ∀ p c i, w.place p = .inJoin c i → w'.place p ≠ .inJoin c i →
    w'.log = w.log ++ [.joined i (w.kernel.pool p).retval] ∧
    (w.kernel.pool p).state.has .term = false ∧
    (w'.kernel.pool p).noChilds = (w.kernel.pool p).noChilds
  frees : ∀ c, (w.kernel.pool c).valid = true → (w'.kernel.pool c).valid = false →
    .ended (w.inst c) (w.kernel.pool c).retval ∈ w.log ∧ ((w.kernel.pool c).gid = none ∨
      ∃ p, w.place p = .inJoin c (w.inst c) ∧ Told w w' p c)
  leftBy : ∀ c p, (w.kernel.pool c).valid = true → (w.kernel.pool c).gid = some p →
    (w'.kernel.pool c).valid = true → (w'.kernel.pool c).gid ≠ some p →
    p = w.me ∧ (l = .join c ∧ (w.kernel.pool c).state.has .zombi = true ∨ ∃ v, l = .exit v)
  sweeps : ∀ t, l = .yield t → ∀ c ≠ w.me, (w'.kernel.pool c).valid = true →
    (w'.kernel.pool c).state.has .zombi = true →
    ∃ p, (w'.kernel.pool c).gid = some p ∧ waitsFor (w'.kernel.pool p) c = false
  renews : ∀ c, (w.kernel.pool c).valid = false → (w'.kernel.pool c).valid = true →
    w'.inst c = w.born ∧ ∀ t, w.inst t < w.born

/-- What the log tells of `tk_join`, and that a thread which has been dispatched in it returns. -/
structure JoinsDeliver (w : World cfg numQ) : Prop where
  values : ∀ pre i v post, w.log = pre ++ .joined i v :: post → .ended i v ∈ pre
  ends : ∀ i u v, .ended i u ∈ w.log → .ended i v ∈ w.log → u = v
  returns : ∀ c i, w.yielding = false → w.place w.me = .inJoin c i →
    ∃ w', worldNext w .resume = .ok w'

/-- What `sm_v`, `q_send` and `q_vsend` ready is not inside `tk_join`, and not blocked on a mutex. -/
def SparesJoins (w : World cfg numQ) : WorldLabel cfg numQ → Prop
  | .give qid _ => ∀ t ∈ w.target qid, (w.place t).joins = false ∧
    ((w.kernel.pool t).state.has .queue = true → (w.kernel.pool t).bOnId.kind ≠ .pmutex)
  | _ => True

/-! ### The invariant -/

/-- The parent sleeps until its child has been reaped. -/
structure AwaitsEnd (w : World cfg numQ) (p c : Thid cfg) (i : ℕ) : Prop where
  state : (w.kernel.pool p).state = .term
  bOnId : (w.kernel.pool p).bOnId = ⟨.sched,.tcb c⟩
  child : Joinable (w.kernel.dispatch p) c
  inst : w.inst c = i

/-- The parent has been readied with the value of the child. -/
structure Informed (w : World cfg numQ) (p : Thid cfg) (i : ℕ) : Prop where
  state : (w.kernel.pool p).state = .ready
  event : (w.kernel.pool p).wakeupEvent = .childDeath
  ended : .ended i (w.kernel.pool p).retval ∈ w.log

/-- The threads of the pool are told apart by their numbers, and the log tells once who has ended,
and who has been joined only after that. -/
structure Recorded (w : World cfg numQ) : Prop where
  inst_inj : Function.Injective w.inst
  inst_lt : ∀ t, w.inst t < w.born
  ended_lt : ∀ i v, .ended i v ∈ w.log → i < w.born
  ended_dead : ∀ t v, .ended (w.inst t) v ∈ w.log → (w.kernel.pool t).state.has .zombi = true
  ended_once : ∀ i u v, .ended i u ∈ w.log → .ended i v ∈ w.log → u = v
  joined : ∀ pre i v post, w.log = pre ++ .joined i v :: post → .ended i v ∈ pre

structure JoinInv (w : World cfg numQ) : Prop extends Recorded w where
  family : FamilyInv w.kernel
  own : ∀ t, (w.kernel.pool t).gid = some t → t = root ∨ t = w.kernel.idleThid
  npreempt : w.kernel.npreempt = 0
  lists : WaitLists w.toSync
  turn : w.yielding = false → (w.kernel.pool w.me).state = .ready
  invalid : ∀ t, (w.kernel.pool t).valid = false → (w.kernel.pool t).state.has .zombi = true
  dead : ∀ t, (w.kernel.pool t).state.has .zombi = true →
    (w.place t).joins = false ∧ (w.kernel.pool t).state.has .term = false ∧
    ((w.kernel.pool t).valid = true → .ended (w.inst t) (w.kernel.pool t).retval ∈ w.log)
  term : ∀ t, (w.kernel.pool t).state.has .term = true → (w.place t).joins = true
  joining : ∀ p c i, w.place p = .inJoin c i → AwaitsEnd w p c i ∨ Informed w p i

/-! ### Steps that leave the threads inside `tk_join` alone -/

/-- Nobody comes into `tk_join` or out of it, and who is in there stays as it was. -/
structure Undisturbed (w w' : World cfg numQ) : Prop where
  place : ∀ p c i, w'.place p = .inJoin c i ↔ w.place p = .inJoin c i
  state : ∀ p, (w.place p).joins = true → (w'.kernel.pool p).state = (w.kernel.pool p).state
  bOnId : ∀ p, (w.place p).joins = true → (w'.kernel.pool p).bOnId = (w.kernel.pool p).bOnId
  event : ∀ p, (w.place p).joins = true → (w.kernel.pool p).wakeupEvent = .childDeath →
    (w'.kernel.pool p).wakeupEvent = .childDeath
  noChilds : ∀ p, (w.place p).joins = true →
    (w'.kernel.pool p).noChilds = (w.kernel.pool p).noChilds
  retval : ∀ p, (w.place p).joins = true → (w'.kernel.pool p).retval = (w.kernel.pool p).retval
  child : ∀ p c i, w.place p = .inJoin c i → Joinable (w.kernel.dispatch p) c →
    Joinable (w'.kernel.dispatch p) c ∧ w'.inst c = w.inst c
  ended : ∀ i v, .ended i v ∈ w.log → .ended i v ∈ w'.log

theorem Place.joins_iff {x : Place cfg numQ} : x.joins = true ↔ ∃ c i, x = .inJoin c i := by
  cases x <;> simp [Place.joins]

section

variable {w w' : World cfg numQ} {l : WorldLabel cfg numQ}

theorem Undisturbed.joining (hu : Undisturbed w w')
    (h : ∀ p c i, w.place p = .inJoin c i → AwaitsEnd w p c i ∨ Informed w p i) (p c : Thid cfg)
    (i : ℕ) (hp : w'.place p = .inJoin c i) : AwaitsEnd w' p c i ∨ Informed w' p i := by
  rw [hu.place] at hp
  have hj : (w.place p).joins = true := Place.joins_iff.mpr ⟨c,i,hp⟩
  obtain hw | hi := h p c i hp
  · obtain ⟨hchild,hinst⟩ := hu.child p c i hp hw.child
    exact Or.inl ⟨(hu.state p hj).trans hw.state,(hu.bOnId p hj).trans hw.bOnId,hchild,
      hinst.trans hw.inst⟩
  · refine Or.inr ⟨(hu.state p hj).trans hi.state,hu.event p hj hi.event,?_⟩
    rw [hu.retval p hj]
    exact hu.ended _ _ hi.ended

/-- Such a step is as it is to be if it is so for the children. -/
theorem Undisturbed.step (hu : Undisturbed w w') (hy : ∀ t, l ≠ .yield t)
    (hfinds : ∀ c, l = .join c → Joinable w.kernel c → (w.kernel.pool c).state.has .zombi = true →
      w'.log = w.log ++ [.joined (w.inst c) (w.kernel.pool c).retval] ∧
      (w'.kernel.pool w.me).noChilds = (w.kernel.pool w.me).noChilds-1 ∧
      (w'.kernel.pool c).valid = true ∧ (w'.kernel.pool c).gid = none)
    (hvalid : ∀ c, (w.kernel.pool c).valid = true → (w'.kernel.pool c).valid = true)
    (hleft : ∀ c p, (w.kernel.pool c).valid = true → (w.kernel.pool c).gid = some p →
      (w'.kernel.pool c).gid ≠ some p →
      p = w.me ∧ (l = .join c ∧ (w.kernel.pool c).state.has .zombi = true ∨ ∃ v, l = .exit v))
    (hnew : ∀ c, (w.kernel.pool c).valid = false → (w'.kernel.pool c).valid = true →
      w'.inst c = w.born ∧ ∀ t, w.inst t < w.born) : JoinStep w l w' where
  finds := hfinds
  enters := fun p c i hp hn => absurd ((hu.place p c i).mp hp) hn
  inside := by
    intro p c i hp _
    have hj : (w.place p).joins = true := Place.joins_iff.mpr ⟨c,i,hp⟩
    exact Or.inl ⟨by rw [hu.state p hj],hu.noChilds p hj,hu.retval p hj⟩
  leaves := fun p c i hp hn => absurd ((hu.place p c i).mpr hp) hn
  frees := by
    intro c hv hv'
    rw [hvalid c hv] at hv'
    cases hv'
  leftBy := fun c p hv hg _ hg' => hleft c p hv hg hg'
  sweeps := fun t hl => absurd hl (hy t)
  renews := hnew

end

/-! ### Steps that concern no joining thread -/

/-- What may happen to the control block of a thread by the way; if it is inside `tk_join`, it does
not wake up. -/
structure CalmTcb (joins : Bool) (b b' : Tcb cfg) : Prop where
  valid : b'.valid = b.valid
  gid : b'.gid = b.gid
  noChilds : b'.noChilds = b.noChilds
  retval : b'.retval = b.retval
  zombi : b'.state.has .zombi = b.state.has .zombi
  term : b'.state.has .term = true → b.state.has .term = true
  asleep : joins = true → b'.state = b.state ∧ b'.bOnId = b.bOnId ∧
    (b.wakeupEvent = .childDeath → b'.wakeupEvent = .childDeath)

theorem CalmTcb.refl (j : Bool) (b : Tcb cfg) : CalmTcb j b b :=
  ⟨rfl,rfl,rfl,rfl,rfl,fun h => h,fun _ => ⟨rfl,rfl,fun h => h⟩⟩

/-- Nobody comes into `tk_join` or out of it, and nobody ends. -/
structure CalmFor (w w' : World cfg numQ) : Prop where
  place : ∀ t, w'.place t = w.place t ∨ (w.place t).joins = false ∧ (w'.place t).joins = false
  tcb : ∀ t, CalmTcb (w.place t).joins (w.kernel.pool t) (w'.kernel.pool t)
  idle : w'.kernel.idleThid = w.kernel.idleThid
  npreempt : w'.kernel.npreempt = w.kernel.npreempt
  inst : w'.inst = w.inst
  born : w'.born = w.born
  log : ∃ evs, w'.log = w.log ++ evs ∧ ∀ i v, .ended i v ∉ evs ∧ .joined i v ∉ evs
  lists : WaitLists w'.toSync
  turn : w'.yielding = false → (w'.kernel.pool w'.me).state = .ready

section

variable {w w' : World cfg numQ} {l : WorldLabel cfg numQ}

/-- Where each new join is of a thread whose end the log tells already, they stay in order. -/
theorem joined_append {log evs : List (Event cfg numQ)}
    (h : ∀ pre i v post, log = pre ++ .joined i v :: post → .ended i v ∈ pre)
    (he : ∀ i v, .joined i v ∈ evs → .ended i v ∈ log) :
    ∀ pre i v post, log ++ evs = pre ++ .joined i v :: post → .ended i v ∈ pre := by
  intro pre i v post hl
  obtain ⟨as,rfl,rfl⟩ | ⟨bs,rfl,hp⟩ := List.append_eq_append_iff.mp hl
  · exact List.mem_append_left _ (he i v (by simp))
  · cases bs with
    | nil =>
      have hm := he i v (by rw [← List.nil_append evs,← hp]; exact List.mem_cons_self)
      rwa [List.append_nil] at hm
    | cons b bs =>
      rw [List.cons_append,List.cons.injEq] at hp
      exact h pre i v bs (by rw [hp.1])

theorem CalmFor.family (hc : CalmFor w w') (h : FamilyInv w.kernel) : FamilyInv w'.kernel :=
  SameFamily.inv ⟨fun t => ⟨(hc.tcb t).valid,(hc.tcb t).gid,(hc.tcb t).noChilds,(hc.tcb t).zombi⟩,
    fun t _ => (hc.tcb t).term⟩ h

/-- Where a thread is inside `tk_join`. -/
theorem CalmFor.inJoin (hc : CalmFor w w') (p c : Thid cfg) (i : ℕ) :
    w'.place p = .inJoin c i ↔ w.place p = .inJoin c i := by
  obtain he | ⟨h,h'⟩ := hc.place p
  · rw [he]
  · refine iff_of_false (fun hp => ?_) fun hp => ?_
    · rw [hp] at h'; cases h'
    · rw [hp] at h; cases h

theorem CalmFor.ended (hc : CalmFor w w') (i v : ℕ) : .ended i v ∈ w'.log ↔ .ended i v ∈ w.log := by
  obtain ⟨evs,he,hn⟩ := hc.log
  rw [he,List.mem_append,or_iff_left (hn i v).1]

theorem CalmFor.recorded (hc : CalmFor w w') (h : Recorded w) : Recorded w' where
  inst_inj := by rw [hc.inst]; exact h.inst_inj
  inst_lt := by rw [hc.inst,hc.born]; exact h.inst_lt
  ended_lt := by
    intro i v hm
    rw [hc.born]
    exact h.ended_lt i v ((hc.ended i v).mp hm)
  ended_dead := by
    intro t v hm
    rw [hc.inst,hc.ended] at hm
    rw [(hc.tcb t).zombi]
    exact h.ended_dead t v hm
  ended_once := by
    intro i u v hu hv
    exact h.ended_once i u v ((hc.ended i u).mp hu) ((hc.ended i v).mp hv)
  joined := by
    obtain ⟨evs,he,hn⟩ := hc.log
    rw [he]
    exact joined_append h.joined fun i v hm => absurd hm (hn i v).2

theorem CalmFor.undisturbed (hc : CalmFor w w') : Undisturbed w w' where
  place := hc.inJoin
  state := fun p hj => ((hc.tcb p).asleep hj).1
  bOnId := fun p hj => ((hc.tcb p).asleep hj).2.1
  event := fun p hj => ((hc.tcb p).asleep hj).2.2
  noChilds := fun p _ => (hc.tcb p).noChilds
  retval := fun p _ => (hc.tcb p).retval
  child := by
    intro p c i _ hchild
    exact ⟨⟨(hc.tcb c).gid.trans hchild.1,(hc.tcb c).valid.trans hchild.2⟩,by rw [hc.inst]⟩
  ended := fun i v => (hc.ended i v).mpr

theorem CalmFor.joins (hc : CalmFor w w') (t : Thid cfg) : (w'.place t).joins = (w.place t).joins := by
  obtain he | ⟨h,h'⟩ := hc.place t
  · rw [he]
  · rw [h,h']

/-- A calm step keeps the invariant. -/
theorem JoinInv.calm (h : JoinInv w) (hc : CalmFor w w') : JoinInv w' where
  toRecorded := hc.recorded h.toRecorded
  family := hc.family h.family
  own := by
    intro t ht
    rw [(hc.tcb t).gid] at ht
    rw [hc.idle]
    exact h.own t ht
  npreempt := hc.npreempt.trans h.npreempt
  lists := hc.lists
  turn := hc.turn
  invalid := by
    intro t ht
    rw [(hc.tcb t).valid] at ht
    rw [(hc.tcb t).zombi]
    exact h.invalid t ht
  dead := by
    intro t hz
    rw [(hc.tcb t).zombi] at hz
    obtain ⟨hj,hterm,he⟩ := h.dead t hz
    refine ⟨(hc.joins t).trans hj,?_,fun hv => ?_⟩
    · rw [Bool.eq_false_iff]
      exact fun ht => Bool.false_ne_true (hterm.symm.trans ((hc.tcb t).term ht))
    · rw [(hc.tcb t).valid] at hv
      rw [hc.inst,(hc.tcb t).retval,hc.ended]
      exact he hv
  term := by
    intro t ht
    rw [hc.joins]
    exact h.term t ((hc.tcb t).term ht)
  joining := hc.undisturbed.joining h.joining

/-- A calm step is as it is to be. -/
theorem CalmFor.step (hc : CalmFor w w') (hj : ∀ c, l = .join c → ¬Joinable w.kernel c)
    (hy : ∀ t, l ≠ .yield t) : JoinStep w l w' := by
  refine hc.undisturbed.step hy (fun c hl hjoin => absurd hjoin (hj c hl)) (fun c hv => ?_)
    (fun c p _ hg hg' => ?_) fun c hv hv' => ?_
  · rw [(hc.tcb c).valid]
    exact hv
  · rw [(hc.tcb c).gid] at hg'
    exact absurd hg hg'
  · rw [(hc.tcb c).valid,hv] at hv'
    cases hv'

/-! ### The calm steps -/

/-- A step that concerns no thread inside `tk_join` and no dead one. -/
def World.Quiet (w : World cfg numQ) : WorldLabel cfg numQ → Prop
  | .create _ | .exit _ | .delete _ | .yield _ => False
  | .join c => ¬Joinable w.kernel c
  | .resume => (w.place w.me).joins = false
  | _ => True

theorem JoinInv.me_valid (h : JoinInv w) (hy : w.yielding = false) :
    (w.kernel.pool w.me).valid = true := by
  by_contra hv
  have hz := h.invalid w.me (by simpa using hv)
  rw [h.turn hy] at hz
  cases hz

/-- Who is in a list is not inside `tk_join`. -/
theorem JoinInv.listed (h : JoinInv w) {r : MutexRef} {t : Thid cfg} (ht : t ∈ w.waiters r) :
    (w.place t).joins = false := by
  rw [Bool.eq_false_iff]
  intro hj
  obtain ⟨c,i,hp⟩ := Place.joins_iff.mp hj
  have hq := (h.lists.blocked r t ht).1
  obtain hw | hi := h.joining t c i hp
  · rw [hw.state] at hq; cases hq
  · rw [hi.state] at hq; cases hq

/-- A thread outside of `tk_join` may also be blocked and readied. -/
theorem CalmTcb.of_outside {b b' : Tcb cfg} {j : Bool} (hj : j = false)
    (hb : b' = { b with
      bOnId := b'.bOnId, state := b'.state, wakeuptime := b'.wakeuptime
      wakeupEvent := b'.wakeupEvent, prio := b'.prio, idx := b'.idx })
    (hz : b'.state.has .zombi = b.state.has .zombi)
    (ht : b'.state.has .term = true → b.state.has .term = true) : CalmTcb j b b' := by
  refine ⟨by rw [hb],by rw [hb],by rw [hb],by rw [hb],hz,ht,?_⟩
  rw [hj]
  rintro ⟨⟩

/-- The running thread blocks or goes to sleep. -/
theorem CalmTcb.of_ready {b b' : Tcb cfg} {j : Bool} (hj : j = false) (hr : b.state = .ready)
    (hb : b' = { b with
      bOnId := b'.bOnId, state := b'.state, wakeuptime := b'.wakeuptime
      wakeupEvent := b'.wakeupEvent, prio := b'.prio, idx := b'.idx })
    (hs : b'.state = .queue ∨ b'.state = .queueSleep ∨ b'.state = .sleep) : CalmTcb j b b' := by
  refine .of_outside hj hb ?_ ?_ <;> rw [hr] <;> obtain hs | hs | hs := hs <;> rw [hs] <;> decide

/-- A call of the running thread, from outside of `tk_join` and to outside of it. -/
theorem calm_after {s : Sync cfg} {st : ItcStore cfg numQ} {evs : List (Event cfg numQ)}
    {x : Place cfg numQ} {y : Bool} (hme : (w.place w.me).joins = false) (hx : x.joins = false)
    (htcb : ∀ t, CalmTcb (w.place t).joins (w.kernel.pool t) (s.kernel.pool t))
    (hk : s.kernel.idleThid = w.kernel.idleThid ∧ s.kernel.npreempt = w.kernel.npreempt ∧
      s.kernel.activeThread = w.kernel.activeThread)
    (hevs : ∀ i v, .ended i v ∉ evs ∧ .joined i v ∉ evs) (hl : WaitLists s)
    (ht : y = false → (s.kernel.pool w.me).state = .ready) : CalmFor w (w.after s st evs x y) where
  place := by
    intro t
    by_cases hme' : t = w.me
    · rw [hme',World.after_place_me]
      exact Or.inr ⟨hme,hx⟩
    · exact Or.inl (Function.update_of_ne hme' _ _)
  tcb := htcb
  idle := hk.1
  npreempt := hk.2.1
  inst := rfl
  born := rfl
  log := ⟨evs,rfl,hevs⟩
  lists := hl
  turn := by
    intro hy
    have hme' : (w.after s st evs x y).me = w.me := hk.2.2
    rw [hme']
    exact ht hy

end

end Tinker

import Tinker.Moves

/-! Timeouts of `sm_p`, `q_receive` and `q_vreceive` in the whole kernel. `lock_stage` computes the
deadline on a clock of milliseconds in whole seconds, and the sweep compares it with a clock of
microseconds. -/
namespace Tinker

open Kernel Outcome

variable {cfg : Config} {numQ : ℕ}

/-- The reading of the sweep's clock from which on the call is taken to be over. -/
def TakeCall.dueAt (c : TakeCall numQ) : ℕ := c.since/clkTck*1000+c.timeout.toNat

/-- The deadline is ahead of the clock, and no farther than a signed difference can tell. -/
def TakeCall.Ahead (c : TakeCall numQ) (now : ℕ) : Prop := now < c.dueAt ∧ c.dueAt ≤ now+2^31

/-- The milliseconds of the timeout have passed since the call. -/
def TakeCall.Over (c : TakeCall numQ) (now : ℕ) : Prop := c.since+1000*c.timeout.toNat ≤ now

instance (c : TakeCall numQ) (now : ℕ) : Decidable (c.Ahead now) := instDecidableAnd
instance (c : TakeCall numQ) (now : ℕ) : Decidable (c.Over now) := Nat.decLe _ _

/-- The timed call a thread is in. -/
def Place.timedTake : Place cfg numQ → Option (TakeCall numQ)
  | .inTake c (some _) => some c
  | _ => none

/-- No sweep finds a thread asleep whose deadline has come while its timeout has not passed. -/
def TimelySweep (w : World cfg numQ) : WorldLabel cfg numQ → Prop
  | .yield _ => ∀ t, ∀ c ∈ (w.place t).timedTake,
      (w.kernel.pool t).state.has .sleep = true → c.Ahead w.now ∨ c.Over w.now
  | _ => True

instance (w : World cfg numQ) (l : WorldLabel cfg numQ) : Decidable (TimelySweep w l) :=
  match l with
  | .yield _ => inferInstanceAs (Decidable (∀ t, ∀ c ∈ (w.place t).timedTake,
      (w.kernel.pool t).state.has .sleep = true → c.Ahead w.now ∨ c.Over w.now))
  | .createItc .. | .deleteItc .. | .destructItc | .take .. | .give .. | .lock _ | .unlock _
  | .wait .. | .signal _ | .broadcast _ | .create _ | .exit _ | .delete _ | .join _ | .msleep _
  | .changePrio .. | .resume | .advance _ => isTrue trivial

/-! ### One control block -/

/-- The deadline as `lock_stage` stores it. -/
def TakeCall.deadline (c : TakeCall numQ) : Clock := actTimeMs (BitVec.ofNat 32 c.since) + c.timeout

/-- The wait of `c` is on, or was not ended by the timer, or was not ended too early. -/
def InTime (now : ℕ) (c : TakeCall numQ) (b : Tcb cfg) : Prop :=
  b.state.has .zombi = true ∨
  (b.state.has .sleep = true ∧ b.wakeuptime = c.deadline) ∨
  (b.state.has .sleep = false ∧ b.wakeupEvent ≠ .timer ∧ b.wakeupEvent ≠ .itc2) ∨ c.Over now

section

variable {c : TakeCall numQ} {now : ℕ} {b b' : Tcb cfg} {m : MoveKind}

theorem TakeCall.deadline_eq (hs : c.since < 2^32) : c.deadline = BitVec.ofNat 32 c.dueAt := by
  apply BitVec.eq_of_toNat_eq
  simp only [TakeCall.deadline,TakeCall.dueAt,actTimeMs,clkTck,clocksPerSec,BitVec.toNat_add,
    BitVec.toNat_mul,BitVec.toNat_udiv,BitVec.toNat_ofNat,BitVec.natCast_eq_ofNat,
    Nat.mod_eq_of_lt hs,Nat.mod_add_mod]
  rfl

/-- A deadline ahead of the clock does not pass the sweep's test. -/
theorem TakeCall.Ahead.not_due (h : c.Ahead now) (hs : c.since ≤ now) (hn : now < 2^32) :
    tkDifftime (actTimeUs (BitVec.ofNat 32 now)) c.deadline < 0 := by
  obtain ⟨h1,h2⟩ := h
  have hus : actTimeUs (BitVec.ofNat 32 now) = BitVec.ofNat 32 now := by
    simp [actTimeUs,clocksPerSec]
  rw [tkDifftime,TakeCall.deadline_eq (by omega),hus,BitVec.toInt_sub,BitVec.toInt_ofNat',
    BitVec.toInt_ofNat',Int.bmod_sub_bmod,Int.sub_bmod_bmod,Int.bmod_eq_of_le] <;> omega

/-- The assignments that are neither the timer's nor the thread's own keep a wait in time. -/
theorem InTime.move (h : InTime now c b) (hm : TcbMove b m b') (ht : ∀ us, m ≠ .timer us)
    (ho : m ≠ .own) :
    InTime now c b' := by
  cases hm with
  | counts n => exact h
  | adopts g => exact h
  | shifts i => exact h
  | ranks p i => exact h
  | frees => exact h
  | told t v =>
    have hsleep : (unblockParent t v b).state.has .sleep = b.state.has .sleep :=
      ProcState.clear_term_has_sleep _
    obtain hz | ⟨hs,hw⟩ | ⟨hs,_⟩ | hov := h
    · exact Or.inl ((ProcState.clear_term_has_zombi _).trans hz)
    · exact Or.inr (Or.inl ⟨hsleep.trans hs,hw⟩)
    · exact Or.inr (Or.inr (Or.inl ⟨hsleep.trans hs,by simp [unblockParent]⟩))
    · exact Or.inr (Or.inr (Or.inr hov))
  | readied =>
    exact Or.inr (Or.inr (Or.inl ⟨ProcState.clear_queueSleepTerm_has_sleep _,by simp⟩))
  | unblocks =>
    have hsleep : (unblock b).state.has .sleep = b.state.has .sleep :=
      ProcState.clear_queue_has_sleep _
    obtain hz | ⟨hs,hw⟩ | ⟨hs,_⟩ | hov := h
    · exact Or.inl ((ProcState.clear_queue_has_zombi _).trans hz)
    · exact Or.inr (Or.inl ⟨hsleep.trans hs,hw⟩)
    · exact Or.inr (Or.inr (Or.inl ⟨hsleep.trans hs,by simp [unblock]⟩))
    · exact Or.inr (Or.inr (Or.inr hov))
  | late he =>
    obtain hz | hs | ⟨_,ht,_⟩ | hov := h
    · exact Or.inl hz
    · exact Or.inr (Or.inl hs)
    · exact absurd he ht
    · exact Or.inr (Or.inr (Or.inr hov))
  | timer us => exact absurd rfl (ht us)
  | dies v => exact Or.inl ProcState.zombi_has_zombi
  | goesToSleep timeout clk => exact absurd rfl ho
  | blocksOn r => exact absurd rfl ho
  | joins t => exact absurd rfl ho
  | msleeps us => exact absurd rfl ho

/-- No thread is put to sleep by another. -/
theorem TcbMove.awake (hm : TcbMove b m b') (ho : m ≠ .own) (hs : b.state.has .sleep = false) :
    b'.state.has .sleep = false := by
  cases hm with
  | told t v => exact (ProcState.clear_term_has_sleep _).trans hs
  | readied => exact ProcState.clear_queueSleepTerm_has_sleep _
  | unblocks => exact (ProcState.clear_queue_has_sleep _).trans hs
  | timer us =>
    unfold timerTest
    split
    · exact ProcState.clear_queueSleep_has_sleep _
    · exact hs
  | dies v => exact ProcState.zombi_has_sleep
  | counts | adopts | shifts | ranks | frees | late => exact hs
  | goesToSleep | blocksOn | joins | msleeps => exact absurd rfl ho

/-- A timer test that comes in time keeps a wait in time. -/
theorem InTime.test (h : InTime now c b) (hs : c.since ≤ now) (hn : now < 2^32)
    (ha : b.state.has .sleep = true → c.Ahead now ∨ c.Over now) :
    InTime now c (timerTest (actTimeUs (BitVec.ofNat 32 now)) b) := by
  obtain hz | ⟨hb,hw⟩ | ⟨hb,he⟩ | hov := h
  · exact Or.inl ((timerTest_has_zombi _ _).trans hz)
  · obtain hahead | hov := ha hb
    · have hdue := hahead.not_due hs hn
      have hsame : timerTest (actTimeUs (BitVec.ofNat 32 now)) b = b := by
        rw [timerTest,hw,hb,decide_eq_false (by omega)]
        rfl
      rw [hsame]
      exact Or.inr (Or.inl ⟨hb,hw⟩)
    · exact Or.inr (Or.inr (Or.inr hov))
  · have hsame : timerTest (actTimeUs (BitVec.ofNat 32 now)) b = b := by
      rw [timerTest,hb]
      rfl
    rw [hsame]
    exact Or.inr (Or.inr (Or.inl ⟨hb,he⟩))
  · exact Or.inr (Or.inr (Or.inr hov))

end

/-! ### Whole runs -/

/-- Every timed wait is in time, a running thread is ready, and no call has returned early. -/
structure TimeInv (w : World cfg numQ) : Prop where
  since : ∀ t c m, w.place t = .inTake c m → c.since ≤ w.now
  waits : ∀ t c i, w.place t = .inTake c (some i) → InTime w.now c (w.kernel.pool t)
  running : w.yielding = false → ∀ c m, w.place w.me = .inTake c m →
    (w.kernel.pool w.me).state = .ready
  log : ∀ t c n, .took t c .timeout n ∈ w.log → c.Over n

section

variable {w w' : World cfg numQ} {l : WorldLabel cfg numQ}

theorem SyncPlace.not_inTake {x : Place cfg numQ} {y : Bool} (hx : SyncPlace x y)
    (c : TakeCall numQ) (m : Option ℕ) : x ≠ .inTake c m := by
  rintro rfl
  obtain ⟨_,h⟩ | ⟨_,h | ⟨_,h⟩ | ⟨_,h⟩⟩ := hx <;> cases h

/-- A step by which the running thread neither goes to sleep nor yields the processor. -/
theorem TimeInv.step (hi : TimeInv w) (h : w.Does l w') (hl : ∀ r, l ≠ .create r)
    (hy : ∀ t, l ≠ .yield t) (ha : ∀ us, l ≠ .advance us)
    (hme : ∀ c m, w'.place w.me ≠ .inTake c m)
    (hlog : ∀ t c n, .took t c .timeout n ∈ w'.log → .took t c .timeout n ∈ w.log ∨ c.Over n) :
    TimeInv w' := by
  have hm := h.moves hl hy
  have hact : w'.me = w.me := hm.active
  have hnow := h.now_eq ha
  have hplace : ∀ {t c m}, w'.place t = .inTake c m → t ≠ w.me ∧ w.place t = .inTake c m := by
    intro t c m ht
    have hne : t ≠ w.me := by
      rintro rfl
      exact hme c m ht
    exact ⟨hne,(h.others hl hne).symm.trans ht⟩
  refine ⟨?_,?_,?_,?_⟩
  · intro t c m ht
    rw [hnow]
    exact hi.since t c m (hplace ht).2
  · intro t c i ht
    obtain ⟨hne,ht⟩ := hplace ht
    rw [hnow]
    refine hm.keep (fun m b b' hK hb hin => InTime.move hin hb ?_ ?_) (hi.waits t c i ht)
    · rintro us rfl
      obtain ⟨⟨u,hu⟩,_⟩ := hK
      exact hy u hu
    · rintro rfl
      exact hne hK
  · intro _ c m ht
    rw [hact] at ht
    exact absurd ht (hme c m)
  · intro t c n hmem
    exact (hlog t c n hmem).elim (hi.log t c n) id

/-- A thread that goes to sleep has its deadline. -/
theorem TimeInv.block (hi : TimeInv w) {op : ItcSet} {qid : Fin numQ} {timeout : Clock}
    {st : ItcStore cfg numQ} {m : Option ℕ} (hm : m = none ↔ timeout = 0) :
    TimeInv (w.after { w.toSync with kernel := w.kernel.modTcb w.me (goToSleep timeout w.clock) } st
      [] (.inTake ⟨op,qid,w.gen qid,timeout,w.now⟩ m) true) := by
  refine ⟨?_,?_,?_,?_⟩
  · intro t c m' ht
    by_cases hme : t = w.me
    · subst hme
      simp only [World.after,Function.update_self,Place.inTake.injEq] at ht
      rw [← ht.1]
      exact le_refl _
    · exact hi.since t c m' ((Function.update_of_ne hme _ _).symm.trans ht)
  · intro t c i ht
    by_cases hme : t = w.me
    · subst hme
      simp only [World.after,Function.update_self,Place.inTake.injEq] at ht
      obtain ⟨rfl,rfl⟩ := ht
      have h0 : timeout ≠ 0 := fun h => by simpa using hm.mpr h
      right; left
      simp only [World.after,Kernel.modTcb_pool,if_pos,goToSleep,if_neg h0]
      exact ⟨ProcState.or_queueSleep_has_sleep _,rfl⟩
    · have ht : w.place t = .inTake c (some i) := (Function.update_of_ne hme _ _).symm.trans ht
      simp only [World.after,Kernel.modTcb_pool,if_neg hme]
      exact hi.waits t c i ht
  · rintro ⟨⟩
  · intro t c n hmem
    exact hi.log t c n (by simpa [World.after] using hmem)

/-- A sweep that comes in time. -/
theorem TimeInv.sweep (hi : TimeInv w) {t : Thid cfg} (h : w.Does (.yield t) w')
    (hc : TimelySweep w (.yield t)) (hn : w.now < 2^32) : TimeInv w' := by
  obtain ⟨k,hk,hr,rfl⟩ := h.sweeps
  refine ⟨hi.since,?_,fun _ _ _ _ => hr,hi.log⟩
  intro u c i hu
  have hin := hi.waits u c i hu
  have hs := hi.since u c _ hu
  have hmem : c ∈ (w.place u).timedTake := by
    have hu : w.place u = .inTake c (some i) := hu
    rw [hu]
    rfl
  have hown : ∀ {m : MoveKind}, (Kept u m ∨ m = .timer (actTimeUs w.clock)) → m ≠ .own := by
    rintro m ((rfl | rfl) | rfl) <;> nofun
  by_cases htime : c.Ahead w.now ∨ c.Over w.now
  · refine hk.keep (fun m b b' hm hb hin => ?_) hin
    obtain hkept | rfl := hm
    · exact hin.move hb (by rintro us rfl; obtain h | h := hkept <;> cases h) (hown (Or.inl hkept))
    · cases hb with
      | timer => exact hin.test hs hn fun _ => htime
  · have hawake : (w.kernel.pool u).state.has .sleep = false :=
      Bool.eq_false_iff.mpr fun hb => htime (hc u c hmem hb)
    refine (hk.keep (I:=fun b => InTime w.now c b ∧ b.state.has .sleep = false)
      (fun m b b' hm hb ⟨hin,hb0⟩ => ⟨?_,hb.awake (hown hm) hb0⟩) ⟨hin,hawake⟩).1
    obtain hkept | rfl := hm
    · exact hin.move hb (by rintro us rfl; obtain h | h := hkept <;> cases h) (hown (Or.inl hkept))
    · cases hb with
      | timer => exact hin.test hs hn fun h => by rw [hb0] at h; cases h

theorem TimeInv.advance (hi : TimeInv w) (us : ℕ) : TimeInv { w with now := w.now+us } := by
  refine ⟨fun t c m ht => (hi.since t c m ht).trans (Nat.le_add_right _ _),?_,hi.running,hi.log⟩
  intro t c i ht
  obtain hz | hs | he | hov := hi.waits t c i ht
  · exact Or.inl hz
  · exact Or.inr (Or.inl hs)
  · exact Or.inr (Or.inr (Or.inl he))
  · exact Or.inr (Or.inr (Or.inr (hov.trans (Nat.le_add_right _ _))))

/-- A new thread has not called anything yet. -/
theorem TimeInv.create (hi : TimeInv w) {r : ThreadReq} {k : Kernel cfg} {t : Thid cfg}
    (hb : Begun w.kernel r k t) : TimeInv (w.created r k t) := by
  have hplace : ∀ {u c m}, (w.created r k t).place u = .inTake c m →
      u ≠ t ∧ u ≠ w.me ∧ w.place u = .inTake c m := by
    intro u c m hu
    simp only [World.created,Function.update_apply] at hu
    split at hu
    · cases hu
    · split at hu
      · cases hu
      · next h1 h2 => exact ⟨h1,h2,hu⟩
  refine ⟨fun u c m hu => hi.since u c m (hplace hu).2.2,?_,nofun,hi.log⟩
  intro u c i hu
  obtain ⟨ht,hme,hu⟩ := hplace hu
  have hme : u ≠ w.kernel.activeThread := hme
  have hsame : k.pool u = w.kernel.pool u := by
    rw [hb.pool,if_neg hme,if_neg ht]
  simp only [World.created,hsame]
  exact hi.waits u c i hu

/-- A thread in its own code is in no call. -/
theorem World.runs_not_inTake (hr : w.runs = true) (c : TakeCall numQ) (m : Option ℕ) :
    w.place w.me ≠ .inTake c m := by
  rw [(World.runs_iff.mp hr).2]
  nofun

theorem Deliveries.no_took {qid : Fin numQ} {gen : ℕ} {evs : List (Event cfg numQ)}
    (h : Deliveries qid gen evs) {t : Thid cfg} {c : TakeCall numQ} {e : ItcErr} {n : ℕ} :
    .took t c e n ∉ evs := by
  intro hmem
  obtain ⟨_,_,he⟩ := h _ hmem
  cases he

/-- The running thread has been woken, so a timeout it reports is no early one. -/
theorem TimeInv.ends (hi : TimeInv w) {c : TakeCall numQ} {markIdx : Option ℕ}
    (hy : w.yielding = false) (hp : w.place w.me = .inTake c markIdx) (hm : markIdx ≠ none)
    (he : (w.kernel.pool w.me).wakeupEvent = .timer ∨ (w.kernel.pool w.me).wakeupEvent = .itc2) :
    c.Over w.now := by
  obtain ⟨i,rfl⟩ := Option.ne_none_iff_exists'.mp hm
  have hready := hi.running hy c _ hp
  obtain hz | ⟨hs,_⟩ | ⟨_,h1,h2⟩ | hov := hi.waits _ c i hp
  · rw [hready] at hz; cases hz
  · rw [hready] at hs; cases hs
  · exact absurd he (not_or.mpr ⟨h1,h2⟩)
  · exact hov

theorem World.Does.timeInv (h : w.Does l w') (hi : TimeInv w) (hc : TimelySweep w l)
    (hn : w.now < 2^32) : TimeInv w' := by
  have hd := h
  have hin : ∀ {s : Sync cfg} {st : ItcStore cfg numQ} {evs : List (Event cfg numQ)}
      {x : Place cfg numQ} {y : Bool}, (∀ c m, x ≠ .inTake c m) →
      ∀ c m, (w.after s st evs x y).place w.me ≠ .inTake c m := by
    intro s st evs x y hx c m
    rw [World.after_place_me]
    exact hx c m
  have hlog : ∀ {evs : List (Event cfg numQ)},
      (∀ t c n, .took t c .timeout n ∈ evs → TakeCall.Over c n) →
      ∀ t c n, .took t c .timeout n ∈ w.log ++ evs →
      .took t c .timeout n ∈ w.log ∨ TakeCall.Over c n := by
    intro evs hev t c n hmem
    exact (List.mem_append.mp hmem).imp id (hev t c n)
  cases h with
  | @createItc r granted hr =>
    obtain ⟨st,gen,he⟩ := w.createItc_frame r granted
    rw [he] at hd ⊢
    exact hi.step hd nofun nofun nofun (World.runs_not_inTake hr) fun _ _ _ => Or.inl
  | deleteItc hr hst =>
    exact hi.step hd nofun nofun nofun (World.runs_not_inTake hr) fun _ _ _ => Or.inl
  | destructItc hr hst =>
    exact hi.step hd nofun nofun nofun (World.runs_not_inTake hr) fun _ _ _ => Or.inl
  | takes hr hst he hev =>
    refine hi.step hd nofun nofun nofun (hin nofun) (hlog fun t c n hmem => ?_)
    obtain heq | hmem := List.mem_cons.mp hmem
    · cases heq
      exact absurd rfl he
    · exact absurd hmem hev.no_took
  | blocks hr hst ho hm => exact hi.block hm
  | gives hr hs hst hev hx =>
    refine hi.step hd nofun nofun nofun (hin ?_) (hlog fun t c n hmem => ?_)
    · rintro c m rfl
      obtain ⟨_,h⟩ | ⟨_,h | h⟩ := hx <;> cases h
    · obtain ⟨_,he⟩ := hev _ hmem
      cases he
  | syncs hs hr hmoves hx =>
    refine hi.step hd ?_ ?_ ?_ (hin hx.not_inTake) (hlog nofun) <;> rintro _ rfl <;> cases hs
  | creates hr hk => exact hi.create ((tkCreateThreadBegin_begun _ _).of_ok hk)
  | exits hr hroot hidle =>
    exact hi.step hd nofun nofun nofun (hin nofun) (hlog fun t c n hmem => by simp at hmem)
  | deletes hr hk =>
    exact hi.step hd nofun nofun nofun (World.runs_not_inTake hr) fun _ _ _ => Or.inl
  | joins hr ht hz hk =>
    exact hi.step hd nofun nofun nofun (World.runs_not_inTake hr)
      (hlog fun t c n hmem => by simp at hmem)
  | joinFails hr ht =>
    exact hi.step hd nofun nofun nofun (World.runs_not_inTake hr) fun _ _ _ => Or.inl
  | joinWaits hr ht hz => exact hi.step hd nofun nofun nofun (hin nofun) (hlog nofun)
  | msleeps hr => exact hi.step hd nofun nofun nofun (hin nofun) (hlog nofun)
  | changesPrio hr hk =>
    exact hi.step hd nofun nofun nofun (World.runs_not_inTake hr) fun _ _ _ => Or.inl
  | returns hy hp => exact hi.step hd nofun nofun nofun (hin nofun) (hlog nofun)
  | takeEnds hy hp hdrops hst hev he =>
    refine hi.step hd nofun nofun nofun (hin nofun) (hlog fun t c n hmem => ?_)
    obtain heq | hmem := List.mem_cons.mp hmem
    · cases heq
      exact hi.ends hy hp (he rfl).1 (he rfl).2
    · exact absurd hmem hev.no_took
  | joinEnds hy hp he =>
    exact hi.step hd nofun nofun nofun (hin nofun) (hlog fun t c n hmem => by simp at hmem)
  | createEnds hy hp hk => exact hi.step hd nofun nofun nofun (hin nofun) (hlog nofun)
  | syncEnds hy hp hmoves hx =>
    exact hi.step hd nofun nofun nofun (hin hx.not_inTake) (hlog nofun)
  | yields => exact hi.sweep hd hc hn
  | advances => exact hi.advance _

theorem worldInit_timeInv (k : Kernel cfg) (i : Fin numQ) : TimeInv (worldInit k i) :=
  ⟨nofun,nofun,nofun,nofun⟩

theorem World.Does.now_le (h : w.Does l w') : w.now ≤ w'.now := by
  by_cases ha : ∃ us, l = .advance us
  · obtain ⟨us,rfl⟩ := ha
    cases h with
    | syncs hs => cases hs
    | advances => exact Nat.le_add_right _ _
  · exact (h.now_eq fun us hl => ha ⟨us,hl⟩).ge

end

theorem worldRun_now_le {w w' : World cfg numQ} {ls : List (WorldLabel cfg numQ)}
    (hr : (worldMachine cfg numQ).run w ls = some w') : w.now ≤ w'.now :=
  (worldMachine cfg numQ).run_invariant_of_step (I:=fun m => w.now ≤ m.now)
    (fun _ _ _ hle hm => hle.trans (worldStep_does hm).now_le) (le_refl _) hr

theorem worldRun_timeInv {w w' : World cfg numQ} {ls : List (WorldLabel cfg numQ)}
    (hi : TimeInv w) (hc : (worldMachine cfg numQ).Along TimelySweep w ls)
    (hr : (worldMachine cfg numQ).run w ls = some w') (hn : w'.now < 2^32) : TimeInv w' := by
  induction ls generalizing w with
  | nil => simp only [Machine.run,Option.some.injEq] at hr; exact hr ▸ hi
  | cons l ls ih =>
    have hnow := (worldRun_now_le hr).trans_lt hn
    obtain ⟨m,hm,hr⟩ := (Machine.run_cons _).mp hr
    exact ih ((worldStep_does hm).timeInv hi hc.1 hnow) (hc.2 m hm) hr

/-- Where every sweep is timely, and until the clock wraps, no call returns `ERR_TIMEOUT` before
the milliseconds of its timeout have passed. -/
theorem worldRun_neverEarly {k : Kernel cfg} {i : Fin numQ} {ls : List (WorldLabel cfg numQ)}
    {w : World cfg numQ} (hc : (worldMachine cfg numQ).Along TimelySweep (worldInit k i) ls)
    (hr : (worldMachine cfg numQ).run (worldInit k i) ls = some w) (hn : w.now < 2^32) :
    ∀ t c n, .took t c .timeout n ∈ w.log → c.since+1000*c.timeout.toNat ≤ n :=
  (worldRun_timeInv (worldInit_timeInv k i) hc hr hn).log

/-- A thread waits two milliseconds, which the idle thread lets pass. -/
def waitSteps : List (WorldLabel gnuArm 4) :=
  [.createItc (.sem 0 fifo) true,.take .sem 0 fifo 2 0,.yield 1,.advance 2000,.yield root,.resume]

theorem worldRun_neverEarly_wait : ∃ (k : Kernel gnuArm) (w : World gnuArm 4),
    (worldMachine gnuArm 4).run (worldInit k 0) waitSteps = some w ∧
    w.log = [.took root ⟨.sem,0,1,2,0⟩ .timeout 2000] ∧
    ∀ t c n, .took t c .timeout n ∈ w.log → c.since+1000*c.timeout.toNat ≤ n := by
  obtain ⟨k,w,hk,hc,hr,hn,hlog⟩ := (worldMachine gnuArm 4).exists_along (x:=tkCreateKernel 0)
    TimelySweep (fun w => w.now < 2^32 ∧ w.log = [.took root ⟨.sem,0,1,2,0⟩ .timeout 2000])
    (worldInit · 0) waitSteps (by decide +kernel)
  exact ⟨k,w,hr,hlog,worldRun_neverEarly hc hr hn⟩

/-- The same wait is over after two microseconds. -/
def earlySteps : List (WorldLabel gnuArm 4) :=
  [.createItc (.sem 0 fifo) true,.take .sem 0 fifo 2 0,.yield 1,.advance 2,.yield root,.resume]

theorem worldRun_not_neverEarly :
    ¬∀ (k : Kernel gnuArm) (ls : List (WorldLabel gnuArm 4)) (w : World gnuArm 4),
      tkCreateKernel 0 = .ok k → (worldMachine gnuArm 4).run (worldInit k 0) ls = some w →
      w.now < 2^32 →
      ∀ t c n, .took t c .timeout n ∈ w.log → c.since+1000*c.timeout.toNat ≤ n := by
  intro h
  obtain ⟨k,w,hk,hr,hn,hlog⟩ := (worldMachine gnuArm 4).exists_start (x:=tkCreateKernel 0)
    (fun w => w.now < 2^32 ∧ w.log = [.took root ⟨.sem,0,1,2,0⟩ .timeout 2])
    (worldInit · 0) earlySteps (by decide +kernel)
  have := h k _ w hk hr hn root ⟨.sem,0,1,2,0⟩ 2 (by rw [hlog]; exact List.mem_singleton_self _)
  exact absurd this (by decide)

end Tinker

import Tinker.Family
import Tinker.SystemMoves

/-! The assignments the calls make to control blocks. Each call is a sequence of a few kinds of
assignments, and what no kind of them does to a control block no run does. -/
namespace Tinker

open Kernel Outcome

variable {cfg : Config} {numQ : ℕ}

/-- Bookkeeping of the schedule and the family, a new priority, a parent told of a death, a thread
readied by an object, a timed out thread passed over, the timer, a death, and what a running thread
does to itself. -/
inductive MoveKind
  | keeps | ranks | told | served | late | timer (us : Clock) | dies | own
  deriving DecidableEq

inductive TcbMove (b : Tcb cfg) : MoveKind → Tcb cfg → Prop
  | counts (n : ℤ) : TcbMove b .keeps { b with noChilds := n }
  | adopts (g : Option (Thid cfg)) : TcbMove b .keeps { b with gid := g }
  | shifts (i : ℕ) : TcbMove b .keeps { b with idx := i }
  | frees : TcbMove b .keeps { b with valid := false }
  | ranks (p i : ℕ) : TcbMove b .ranks { b with prio := p, idx := i }
  | told (t : Thid cfg) (v : ℕ) : TcbMove b .told (unblockParent t v b)
  | readied : TcbMove b .served
      { b with state := b.state &&& ~~~ProcState.queueSleepTerm, wakeupEvent := .itc }
  | unblocks : TcbMove b .served (unblock b)
  | late (h : b.wakeupEvent = .timer) : TcbMove b .late { b with wakeupEvent := .itc2 }
  | timer (us : Clock) : TcbMove b (.timer us) (timerTest us b)
  | dies (v : ℕ) : TcbMove b .dies { b with state := .zombi, retval := v }
  | goesToSleep (timeout clk : Clock) : TcbMove b .own (goToSleep timeout clk b)
  | blocksOn (r : MutexRef) : TcbMove b .own (blockOn r b)
  | joins (t : Thid cfg) : TcbMove b .own (waitFor t b)
  | msleeps (us : Clock) : TcbMove b .own
      { b with wakeuptime := us, state := b.state ||| .sleep }

/-- From `k` to `k'` every control block has gone through assignments of the kinds `K` allows it. -/
structure TcbMoves (K : Thid cfg → MoveKind → Prop) (k k' : Kernel cfg) : Prop where
  idle : k'.idleThid = k.idleThid
  active : k'.activeThread = k.activeThread
  npreempt : k'.npreempt = k.npreempt
  pool : ∀ t, Relation.ReflTransGen (fun b b' => ∃ m, K t m ∧ TcbMove b m b') (k.pool t) (k'.pool t)

/-- The kinds of the kernel's own bookkeeping. -/
def Kept (_ : Thid cfg) (m : MoveKind) : Prop := m = .keeps ∨ m = .told

section

variable {K K' : Thid cfg → MoveKind → Prop} {k k' k'' : Kernel cfg} {t : Thid cfg}

theorem TcbMoves.of_eq (hi : k'.idleThid = k.idleThid) (ha : k'.activeThread = k.activeThread)
    (hn : k'.npreempt = k.npreempt) (hp : k'.pool = k.pool) : TcbMoves K k k' :=
  ⟨hi,ha,hn,fun t => by rw [hp]⟩

theorem TcbMoves.refl (k : Kernel cfg) : TcbMoves K k k := TcbMoves.of_eq rfl rfl rfl rfl

theorem TcbMoves.trans (h : TcbMoves K k k') (h' : TcbMoves K k' k'') : TcbMoves K k k'' :=
  ⟨h'.idle.trans h.idle,h'.active.trans h.active,h'.npreempt.trans h.npreempt,
    fun t => (h.pool t).trans (h'.pool t)⟩

theorem TcbMoves.mono (h : TcbMoves K k k') (hk : ∀ t m, K t m → K' t m) : TcbMoves K' k k' :=
  ⟨h.idle,h.active,h.npreempt,fun t => (h.pool t).lift id fun _ _ ⟨m,hm,hb⟩ => ⟨m,hk t m hm,hb⟩⟩

/-- What every allowed assignment keeps of a control block. -/
theorem TcbMoves.keep {I : Tcb cfg → Prop} (h : TcbMoves K k k')
    (hi : ∀ m b b', K t m → TcbMove b m b' → I b → I b') (ht : I (k.pool t)) : I (k'.pool t) := by
  have hp := h.pool t
  generalize k'.pool t = b' at hp
  induction hp with
  | refl => exact ht
  | tail _ hb ih =>
    obtain ⟨m,hm,hb⟩ := hb
    exact hi m _ _ hm hb ih

/-- One control block is assigned to. -/
theorem TcbMoves.assign {m : MoveKind} {b : Tcb cfg} (hm : K t m) (hb : TcbMove (k.pool t) m b)
    (hi : k'.idleThid = k.idleThid) (ha : k'.activeThread = k.activeThread)
    (hn : k'.npreempt = k.npreempt) (hp : k'.pool = Function.update k.pool t b) : TcbMoves K k k' where
  idle := hi
  active := ha
  npreempt := hn
  pool := by
    intro u
    rw [hp]
    by_cases hu : u = t
    · subst hu
      rw [Function.update_self]
      exact .single ⟨m,hm,hb⟩
    · rw [Function.update_of_ne hu]

theorem TcbMoves.modTcb {m : MoveKind} {f : Tcb cfg → Tcb cfg} (hm : K t m)
    (hf : TcbMove (k.pool t) m (f (k.pool t))) : TcbMoves K k (k.modTcb t f) :=
  TcbMoves.assign hm hf rfl rfl rfl rfl

/-- No assignment but a death touches the `ZOMBI` bit. -/
theorem TcbMove.zombi {m : MoveKind} {b b' : Tcb cfg} (h : TcbMove b m b') :
    b'.state.has .zombi = b.state.has .zombi ∨ m = .dies ∧ b'.state = .zombi := by
  cases h with
  | counts n => exact Or.inl rfl
  | adopts g => exact Or.inl rfl
  | shifts i => exact Or.inl rfl
  | ranks p i => exact Or.inl rfl
  | frees => exact Or.inl rfl
  | told t v => exact Or.inl (ProcState.clear_term_has_zombi _)
  | readied => exact Or.inl (ProcState.clear_queueSleepTerm_has_zombi _)
  | unblocks => exact Or.inl (ProcState.clear_queue_has_zombi _)
  | late he => exact Or.inl rfl
  | timer us => exact Or.inl (timerTest_has_zombi _ _)
  | dies v => exact Or.inr ⟨rfl,rfl⟩
  | goesToSleep timeout clk =>
    left
    unfold goToSleep
    split
    · exact ProcState.or_queue_has_zombi _
    · exact ProcState.or_queueSleep_has_zombi _
  | blocksOn r => exact Or.inl (ProcState.or_queue_has_zombi _)
  | joins t => exact Or.inl (ProcState.or_term_has_zombi _)
  | msleeps us => exact Or.inl (ProcState.or_sleep_has_zombi _)

/-- A dead control block stays dead. -/
theorem TcbMove.dead_stays {m : MoveKind} {b b' : Tcb cfg} (h : TcbMove b m b')
    (hz : b.state.has .zombi = true) : b'.state.has .zombi = true := by
  obtain he | ⟨_,he⟩ := h.zombi
  · rw [he]; exact hz
  · rw [he]; exact ProcState.zombi_has_zombi

/-- A living one lives on, but for a death. -/
theorem TcbMove.lives {m : MoveKind} {b b' : Tcb cfg} (h : TcbMove b m b') (hm : m ≠ .dies)
    (hz : b.state.has .zombi = false) : b'.state.has .zombi = false := by
  obtain he | ⟨hd,_⟩ := h.zombi
  · rw [he]; exact hz
  · exact absurd hd hm

/-! ### The operations of the kernel -/

theorem tkDetachChildren_moves : TcbMoves Kept k (tkDetachChildren k t) := by
  unfold tkDetachChildren
  generalize List.finRange cfg.maxThreads = js
  induction js generalizing k with
  | nil => exact TcbMoves.refl k
  | cons j js ih =>
    rw [List.foldl_cons]
    refine TcbMoves.trans ?_ ih
    unfold detachChild
    split
    · exact (TcbMoves.modTcb (Or.inl rfl) (.adopts _)).trans (TcbMoves.modTcb (Or.inl rfl) (.counts _))
    · exact TcbMoves.refl k

theorem tkTryDetachParent_moves {force : Bool} :
    Spec (tkTryDetachParent k t force) (fun r => TcbMoves Kept k r.1) (fun _ => True) := by
  unfold tkTryDetachParent
  split
  · exact TcbMoves.refl k
  · next p _ =>
    have hpar : TcbMoves Kept k (if waitsFor (k.pool p) t then
        k.modTcb p (unblockParent t (k.pool t).retval) else k) := by
      split
      · exact TcbMoves.modTcb (Or.inr rfl) (.told _ _)
      · exact TcbMoves.refl k
    simp only [spec_bind,spec_check,spec_ite,spec_pure]
    refine ⟨fun _ => ⟨fun _ => ⟨fun _ => ?_,fun _ => trivial⟩,fun _ => hpar⟩,fun _ => trivial⟩
    exact (hpar.trans (TcbMoves.modTcb (Or.inl rfl) (.counts _))).trans
      (TcbMoves.modTcb (Or.inl rfl) (.adopts _))

theorem compactRow_moves {prio n i : ℕ} :
    Spec (compactRow prio n i k) (TcbMoves Kept k) (fun _ => True) := by
  induction n generalizing i k with
  | zero => exact TcbMoves.refl k
  | succ n ih =>
    simp only [compactRow,Kernel.readCell,Kernel.writeCell,spec_bind,spec_ite,spec_ok]
    refine ⟨fun _ => ⟨fun _ => ih.imp fun k' hk => TcbMoves.trans ?_ hk,fun _ => trivial⟩,
      fun _ => trivial⟩
    exact TcbMoves.assign (Or.inl rfl) (.shifts i) rfl rfl rfl rfl

theorem bury_moves : Spec (bury k t) (TcbMoves Kept k) (fun _ => True) := by
  simp only [bury,Kernel.readCell,Kernel.readProcs,spec_bind,spec_ite,spec_ok,spec_check,spec_pure]
  refine ⟨fun _ => ⟨fun _ => ⟨fun _ => compactRow_moves.imp fun k' hk => ?_,
    fun _ => trivial⟩,fun _ => trivial⟩,fun _ => trivial⟩
  have hstart : TcbMoves Kept k { k with procsInUse := k.procsInUse-1 } :=
    TcbMoves.of_eq rfl rfl rfl rfl
  have hshort : TcbMoves Kept k' (shortenRow k' (k.pool t).prio) := TcbMoves.of_eq rfl rfl rfl rfl
  exact ((hstart.trans hk).trans hshort).trans (TcbMoves.modTcb (Or.inl rfl) .frees)

/-- A living thread that is deleted dies; of a dead one only the bookkeeping is left. -/
theorem tkDeleteThread_moves : Spec (tkDeleteThread k t) (fun r =>
    TcbMoves (fun u m => Kept u m ∨ m = .dies ∧ u = t ∧ (k.pool t).state.has .zombi = false) k r.1)
    (fun _ => True) := by
  unfold tkDeleteThread killThread
  split
  · exact TcbMoves.refl k
  · simp only [spec_bind,spec_ite,spec_pure,spec_ok]
    refine ⟨fun hz => ⟨fun _ => bury_moves.imp fun k' h => h.mono fun _ _ => Or.inl,fun hn =>
      absurd trivial hn⟩,fun hz => ?_⟩
    refine tkTryDetachParent_moves.imp ?_
    rintro ⟨k1,buryIt⟩ h1
    have hdie : TcbMoves (fun u m => Kept u m ∨ m = .dies ∧ u = t ∧ (k.pool t).state.has .zombi = false)
        k (k.modTcb t fun b => { b with state := .zombi }) :=
      TcbMoves.modTcb (Or.inr ⟨rfl,rfl,Bool.eq_false_iff.mpr hz⟩) (.dies _)
    have h1 := hdie.trans ((tkDetachChildren_moves.trans h1).mono fun _ _ => Or.inl)
    exact ⟨fun _ => bury_moves.imp fun k2 h2 => h1.trans (h2.mono fun _ _ => Or.inl),fun _ => h1⟩

/-- The sweep makes the timer tests and deletes dead threads. -/
theorem sweepThread_moves {clk : Clock} {i : Thid cfg} : Spec (sweepThread clk k i)
    (TcbMoves (fun u m => Kept u m ∨ m = .timer (actTimeUs clk)) k) (fun _ => True) := by
  have htest : TcbMoves (fun u m => Kept u m ∨ m = .timer (actTimeUs clk)) k
      (k.modTcb i (timerTest (actTimeUs clk))) := TcbMoves.modTcb (Or.inr rfl) (.timer _)
  simp only [sweepThread,spec_ite,spec_bind,spec_pure]
  refine ⟨fun _ => TcbMoves.refl k,fun _ => ⟨fun _ => TcbMoves.refl k,fun _ => ⟨fun hz => ?_,
    fun _ => htest⟩⟩⟩
  have hz := (Bool.and_eq_true_iff.mp hz).1
  refine tkTryDetachParent_moves.imp ?_
  rintro ⟨k1,detached⟩ h1
  have hz1 : (k1.pool i).state.has .zombi = true := by
    exact h1.keep (I:=fun b => b.state.has .zombi = true) (fun _ _ _ _ hb => hb.dead_stays) hz
  have h1 := htest.trans (h1.mono fun _ _ => Or.inl)
  refine ⟨fun _ => ?_,fun _ => h1⟩
  refine tkDeleteThread_moves.imp fun r hr => h1.trans (hr.mono ?_)
  rintro u m (hm | ⟨_,_,hz2⟩)
  · exact Or.inl hm
  · have hz2 : (k1.pool i).state.has .zombi = false := hz2
    rw [hz1] at hz2
    cases hz2

theorem tkWakeupTimedoutThreads_moves {clk : Clock} : Spec (tkWakeupTimedoutThreads k clk)
    (TcbMoves (fun u m => Kept u m ∨ m = .timer (actTimeUs clk)) k) (fun _ => True) :=
  spec_foldlM (TcbMoves.refl k) fun _ _ _ hk => sweepThread_moves.imp fun _ h => hk.trans h

theorem tkChangePrio_moves {newPrio : ℤ} : Spec (tkChangePrio k t newPrio)
    (fun r => TcbMoves (fun u m => Kept u m ∨ m = .ranks ∧ u = t) k r.1) (fun _ => True) := by
  simp only [tkChangePrio,Kernel.readProcs,Kernel.writeCell,spec_bind,spec_ite,spec_ok,spec_check,
    spec_pure]
  refine ⟨fun _ => ⟨fun _ => ⟨fun _ => ⟨fun _ => TcbMoves.refl k,fun _ => ⟨fun _ => ?_,
    fun _ => trivial⟩⟩,fun _ => trivial⟩,fun _ => trivial⟩,fun _ => trivial⟩
  refine compactRow_moves.imp fun k1 h1 => ?_
  refine ⟨fun _ => ⟨fun _ => (h1.mono fun _ _ => Or.inl).trans ?_,fun _ => trivial⟩,fun _ => trivial⟩
  exact TcbMoves.assign (Or.inr ⟨rfl,rfl⟩) (.ranks _ _) rfl rfl rfl rfl

/-- All a priority change does to the threads. -/
theorem tkChangePrio_pool {k : Kernel cfg} {t : Thid cfg} {p : ℤ} : Spec (tkChangePrio k t p)
    (fun r => 0 ≤ p ∧ p.toNat < cfg.maxPrioLevels ∧ ∀ u, ∃ i, r.1.pool u =
      { k.pool u with idx := i, prio := if u = t then p.toNat else (k.pool u).prio })
    (fun _ => True) := by
  simp only [tkChangePrio,Kernel.readProcs,Kernel.writeCell,spec_bind,spec_ite,spec_ok,spec_check,
    spec_error,spec_pure,implies_true,and_true]
  refine fun hp hlt _ => ⟨fun he => ⟨hp,hlt,fun u => ⟨(k.pool u).idx,?_⟩⟩,fun _ _ => ?_⟩
  · split
    · next hu => rw [hu,← he]
    · rfl
  · refine (compactRow_pool _ _ _).mono (fun k1 h1 => ?_) fun _ _ => trivial
    refine fun _ _ => ⟨hp,hlt,fun u => ?_⟩
    by_cases hu : u = t
    · subst hu
      refine ⟨(shortenRow k1 (k.pool u).prio).procs p.toNat,?_⟩
      rw [Kernel.modTcb_pool,if_pos rfl,if_pos rfl]
      change ({ k1.pool u with
        prio := p.toNat, idx := (shortenRow k1 (k.pool u).prio).procs p.toNat } : Tcb cfg) = _
      rw [h1 u]
    · refine ⟨(k1.pool u).idx,?_⟩
      rw [Kernel.modTcb_pool,if_neg hu,if_neg hu]
      exact h1 u

theorem tkMsleep_moves {ms : BitVec 32} {clk : Clock} :
    TcbMoves (fun u m => m = .own ∧ u = k.activeThread) k (tkMsleep k ms clk) :=
  TcbMoves.modTcb ⟨rfl,rfl⟩ (.msleeps _)

/-- The running thread dies where its start function returns. -/
theorem tkDestructor_moves {retval : ℕ} {clk : Clock} :
    TcbMoves (fun u m => Kept u m ∨ (m = .own ∨ m = .dies) ∧ u = k.activeThread) k
      (tkDestructor k retval clk) := by
  have hdie : TcbMoves (fun u m => Kept u m ∨ (m = .own ∨ m = .dies) ∧ u = k.activeThread) k
      (k.modTcb k.activeThread fun b => { b with state := .zombi, retval := retval }) :=
    TcbMoves.modTcb (Or.inr ⟨Or.inr rfl,rfl⟩) (.dies _)
  have hdetach : ∀ k' : Kernel cfg, TcbMoves (fun u m => Kept u m ∨
      (m = .own ∨ m = .dies) ∧ u = k.activeThread) k' (tkDetachChildren k' k.activeThread) :=
    fun k' => tkDetachChildren_moves.mono fun _ _ => Or.inl
  refine (hdie.trans (hdetach _)).trans (tkMsleep_moves.mono ?_)
  rintro u m ⟨rfl,rfl⟩
  exact Or.inr ⟨Or.inl rfl,(hdetach _).active⟩

theorem tkCreateThreadEnd_moves {r : ThreadReq} :
    Spec (tkCreateThreadEnd k r t) (fun s => TcbMoves Kept k s.1) (fun _ => True) := by
  simp only [tkCreateThreadEnd,Kernel.readProcs,Kernel.writeCell,spec_bind,spec_ite,spec_ok,
    spec_pure]
  refine ⟨fun _ => ⟨fun _ => ?_,fun _ => trivial⟩,fun _ => trivial⟩
  exact TcbMoves.assign (Or.inl rfl) (.shifts _) rfl rfl rfl rfl

/-- The second half of a creation writes an index to a control block. -/
theorem tkCreateThreadEnd_pool {r : ThreadReq} : Spec (tkCreateThreadEnd k r t)
    (fun s => ∀ u, ∃ i, s.1.pool u = { k.pool u with idx := i }) (fun _ => True) := by
  simp only [tkCreateThreadEnd,Kernel.readProcs,Kernel.writeCell,spec_bind,spec_ite,spec_ok,
    spec_error,spec_pure,implies_true,and_true]
  intro _ _ u
  simp only [Kernel.modStat_pool,Kernel.modTcb_pool]
  split
  · next hu => subst hu; exact ⟨_,rfl⟩
  · exact ⟨(k.pool u).idx,rfl⟩

theorem readyByItc_moves : TcbMoves (fun _ m => m = .served) k (readyByItc k t) :=
  TcbMoves.modTcb rfl .readied

theorem DropsTimedOut.moves (h : DropsTimedOut k k') : TcbMoves (fun _ m => m = .late) k k' where
  idle := by rw [h.rest]
  active := by rw [h.rest]
  npreempt := by rw [h.rest]
  pool := by
    intro t
    obtain ht | ⟨he,ht⟩ := h.pool t
    · rw [ht]
    · rw [ht]
      exact .single ⟨.late,rfl,.late he⟩

theorem SyncMoves.moves (h : SyncMoves k k') :
    TcbMoves (fun u m => m = .served ∨ m = .own ∧ u = k.activeThread) k k' := by
  induction h with
  | refl => exact TcbMoves.refl k
  | tail hpre hs ih =>
    refine ih.trans ?_
    cases hs with
    | blocks r => exact TcbMoves.modTcb (Or.inr ⟨rfl,SyncMoves.active hpre⟩) (.blocksOn _)
    | unblocks t => exact TcbMoves.modTcb (Or.inl rfl) .unblocks

theorem tkCreateKernel_npreempt {clk : Clock} :
    Spec (tkCreateKernel clk) (fun k : Kernel cfg => k.npreempt = 0) (fun _ => True) := by
  simp only [tkCreateKernel,tkCreateThread,spec_bind]
  refine ((tkCreateThreadBegin_begun clearKernel (idleReq cfg)).mono (fun _ hb => hb)
    fun _ _ => trivial).imp fun p hb => ?_
  refine tkWakeupTimedoutThreads_moves.imp fun k1 h1 => ?_
  refine tkCreateThreadEnd_moves.imp fun r h2 => ?_
  have hn : r.1.npreempt = 0 :=
    (h2.npreempt.trans h1.npreempt).trans (congrArg Kernel.npreempt hb.eq)
  split
  · trivial
  · simp only [Kernel.writeCell,spec_ite,spec_ok]
    exact ⟨fun _ => hn,fun _ => trivial⟩

end

/-! ### The steps of the whole kernel -/

/-- The kinds of assignments a step makes to the control block of `t`. -/
def WorldLabel.Moved (w : World cfg numQ) (l : WorldLabel cfg numQ) (t : Thid cfg) : MoveKind → Prop
  | .timer us => (∃ u, l = .yield u) ∧ us = actTimeUs w.clock
  | .dies => l = .delete t ∨ (∃ v, l = .exit v) ∧ t = w.me ∧ w.me ≠ w.kernel.idleThid
  | .own => t = w.me
  | .ranks => ∃ p, l = .changePrio t p
  | _ => True

theorem WorldLabel.Moved.of_kept {w : World cfg numQ} {l : WorldLabel cfg numQ} {t : Thid cfg}
    {m : MoveKind} (hm : Kept t m) : l.Moved w t m := by
  obtain rfl | rfl := hm <;> trivial

section

variable {w w' : World cfg numQ} {l : WorldLabel cfg numQ} {t : Thid cfg}

/-- The steps but creations and yields are sequences of assignments. -/
theorem World.Does.moves (h : w.Does l w') (hl : ∀ r, l ≠ .create r) (hy : ∀ t, l ≠ .yield t) :
    TcbMoves (l.Moved w) w.kernel w'.kernel := by
  have hkept : ∀ t m, Kept t m → l.Moved w t m := fun _ _ => WorldLabel.Moved.of_kept
  have hsync : ∀ {s : Sync cfg}, SyncMoves w.kernel s.kernel →
      TcbMoves (l.Moved w) w.kernel s.kernel := fun hs => hs.moves.mono fun t m hm => by
    obtain rfl | ⟨rfl,hu⟩ := hm
    · trivial
    · exact hu
  cases h with
  | createItc hr =>
    unfold World.createItc
    split <;> exact TcbMoves.refl _
  | deleteItc hr hst => exact TcbMoves.refl _
  | destructItc hr hst => exact TcbMoves.refl _
  | takes hr hst he hd => exact TcbMoves.refl _
  | blocks hr hst ho hm => exact TcbMoves.modTcb (m:=.own) rfl (.goesToSleep _ _)
  | gives hr hs hst hev hx =>
    obtain ⟨rfl,_⟩ | ⟨t,_,rfl,_⟩ := hs
    · exact TcbMoves.refl _
    · exact readyByItc_moves.mono fun _ _ hm => hm ▸ trivial
  | syncs hs hr hmoves hx => exact hsync hmoves.moves
  | creates hr hk => exact absurd rfl (hl _)
  | exits hr hroot hidle =>
    refine tkDestructor_moves.mono fun t m hm => ?_
    obtain hm | ⟨rfl | rfl,rfl⟩ := hm
    · exact hkept t m hm
    · exact rfl
    · exact Or.inr ⟨⟨_,rfl⟩,rfl,hidle⟩
  | deletes hr hk =>
    refine (tkDeleteThread_moves.of_ok hk).mono fun t m hm => ?_
    obtain hm | ⟨rfl,rfl,_⟩ := hm
    · exact hkept t m hm
    · exact Or.inl rfl
  | joins hr ht hz hk => exact (tkTryDetachParent_moves.of_ok hk).mono hkept
  | joinFails hr ht => exact TcbMoves.refl _
  | joinWaits hr ht hz => exact TcbMoves.modTcb (m:=.own) rfl (.joins _)
  | msleeps hr => exact tkMsleep_moves.mono fun _ _ h => h.1 ▸ h.2
  | changesPrio hr hk =>
    refine (tkChangePrio_moves.of_ok hk).mono fun t m hm => ?_
    obtain hm | ⟨rfl,rfl⟩ := hm
    · exact hkept t m hm
    · exact ⟨_,rfl⟩
  | returns hy hp => exact TcbMoves.refl _
  | takeEnds hy hp hd hst hev he => exact hd.moves.mono fun _ _ hm => hm ▸ trivial
  | joinEnds hy hp he => exact TcbMoves.refl _
  | createEnds hy hp hk => exact (tkCreateThreadEnd_moves.of_ok hk).mono hkept
  | syncEnds hy hp hmoves hx => exact hsync hmoves.moves
  | @yields t => exact absurd rfl (hy t)
  | advances => exact TcbMoves.refl _

/-- A yield makes the timer tests, reaps and dispatches. -/
theorem World.Does.sweeps (h : w.Does (.yield t) w') : ∃ k,
    TcbMoves (fun u m => Kept u m ∨ m = .timer (actTimeUs w.clock)) w.kernel k ∧ (k.pool t).state = .ready ∧
    w' = { w.setKernel (k.dispatch t) with yielding := false } := by
  cases h with
  | syncs hs => cases hs
  | yields hy hr hk =>
    rw [readyAfterSweep,hk] at hr
    exact ⟨_,tkWakeupTimedoutThreads_moves.of_ok hk,of_decide_eq_true hr,rfl⟩

/-- What every allowed assignment keeps of a control block, a creation in its slot apart. -/
theorem World.Does.keep {I : Tcb cfg → Prop} (h : w.Does l w') (hl : ∀ r, l ≠ .create r)
    (hi : ∀ m b b', l.Moved w t m → TcbMove b m b' → I b → I b') (ht : I (w.kernel.pool t)) :
    I (w'.kernel.pool t) := by
  by_cases hy : ∃ u, l = .yield u
  · obtain ⟨u,rfl⟩ := hy
    obtain ⟨k,hk,_,rfl⟩ := h.sweeps
    have hk : I (k.pool t) := by
      refine hk.keep (fun m b b' hm => hi m b b' ?_) ht
      obtain hm | rfl := hm
      · exact WorldLabel.Moved.of_kept hm
      · exact ⟨⟨u,rfl⟩,rfl⟩
    exact hk
  · exact (h.moves hl fun u hu => hy ⟨u,hu⟩).keep hi ht

theorem World.Does.idleThid (h : w.Does l w') (hl : ∀ r, l ≠ .create r) :
    w'.kernel.idleThid = w.kernel.idleThid := by
  by_cases hy : ∃ u, l = .yield u
  · obtain ⟨u,rfl⟩ := hy
    obtain ⟨k,hk,_,rfl⟩ := h.sweeps
    exact hk.idle
  · exact (h.moves hl fun u hu => hy ⟨u,hu⟩).idle

end

end Tinker

import Tinker.Preempt
import Tinker.WorldTable

/-! The whole kernel with its own dispatcher: a yield goes where `_tk_next_runable_thread` says. Its
runs are runs of the kernel whose yields may go to any ready thread, and each yield goes to the
first of the most important ready threads. -/
namespace Tinker

open Kernel Outcome

variable {cfg : Config} {numQ : ℕ}

/-- A call of a thread or of nobody's doing, or a `tk_yield` with the dispatch. -/
inductive DispatchLabel (cfg : Config) (numQ : ℕ)
  | call (l : WorldLabel cfg numQ) | yield

def WorldLabel.isYield : WorldLabel cfg numQ → Bool
  | .yield _ => true
  | _ => false

def dispatchEnabled (w : World cfg numQ) : DispatchLabel cfg numQ → Bool
  | .call l => worldEnabled w l && !l.isYield
  | .yield => w.yielding || w.runs

def dispatchNext (w : World cfg numQ) :
    DispatchLabel cfg numQ → Except Fault (World cfg numQ)
  | .call l => worldNext w l
  | .yield => do
    let k ← tkYield w.kernel w.clock
    return { w.setKernel k with yielding := false }

def dispatchMachine (cfg : Config) (numQ : ℕ) :
    Machine (World cfg numQ) (DispatchLabel cfg numQ) Fault where
  enabled := dispatchEnabled
  next := dispatchNext

/-- The idle thread does nothing but yield, as `_tk_idle` has it, and nobody deletes it. -/
def IdleYields (w : World cfg numQ) : DispatchLabel cfg numQ → Prop
  | .call (.advance _) => True
  | .call (.delete t) => t ≠ w.kernel.idleThid ∧ w.me ≠ w.kernel.idleThid
  | .call _ => w.me ≠ w.kernel.idleThid
  | .yield => True

/-- The sweep of a yield takes threads out of the table clean. -/
def CleanSweep (w : World cfg numQ) : Prop :=
  (sweepMachine w.clock).Along CleanReap w.kernel (List.finRange cfg.maxThreads)

/-- The step keeps the table in order, and the idle thread only yields. -/
def OrderlyDispatch (w : World cfg numQ) (l : DispatchLabel cfg numQ) : Prop :=
  IdleYields w l ∧
  match l with
  | .call l => OrderlyStep w l
  | .yield => CleanSweep w

instance (w : World cfg numQ) (l : DispatchLabel cfg numQ) : Decidable (IdleYields w l) := by
  unfold IdleYields; split <;> infer_instance

instance (w : World cfg numQ) : Decidable (CleanSweep w) := Machine.decidableAlong _ CleanReap _ _

instance (w : World cfg numQ) (l : DispatchLabel cfg numQ) : Decidable (OrderlyDispatch w l) := by
  unfold OrderlyDispatch; cases l <;> infer_instance

/-- What the dispatcher's step is in the kernel whose yields may go anywhere. -/
def Answers : DispatchLabel cfg numQ → WorldLabel cfg numQ → Prop
  | .call l, l' => l' = l
  | .yield, l' => ∃ t, l' = .yield t

/-! ### The idle thread -/

section

variable {w w' : World cfg numQ} {k : Kernel cfg} {l : WorldLabel cfg numQ} {t : Thid cfg}

/-- A ready thread stays ready but for its death and its own calls. -/
theorem TcbMove.stays_ready {m : MoveKind} {b b' : Tcb cfg} (h : TcbMove b m b') (hd : m ≠ .dies)
    (ho : m ≠ .own) (hb : b.state = .ready) : b'.state = .ready := by
  cases h with
  | counts n => exact hb
  | adopts g => exact hb
  | shifts i => exact hb
  | frees => exact hb
  | ranks p i => exact hb
  | told t v => simp only [unblockParent,hb]; decide
  | readied => simp only [hb]; decide
  | unblocks => simp only [unblock,hb]; decide
  | late he => exact hb
  | timer us => simp [timerTest,hb]
  | dies v => exact absurd rfl hd
  | goesToSleep timeout clk => exact absurd rfl ho
  | blocksOn r => exact absurd rfl ho
  | joins t => exact absurd rfl ho
  | msleeps us => exact absurd rfl ho

/-- Nothing is listed for preemption and the idle thread is ready. -/
structure IdleReady (w : World cfg numQ) : Prop where
  npreempt : w.kernel.npreempt = 0
  ready : (w.kernel.pool w.kernel.idleThid).state = .ready

/-- A step blocks no other thread, and kills one only by a deletion. -/
theorem World.Does.stays_ready (h : w.Does l w') (hme : w.me ≠ t) (hdel : l ≠ .delete t)
    (ht : (w.kernel.pool t).state = .ready) : (w'.kernel.pool t).state = .ready := by
  by_cases hl : ∃ r, l = .create r
  · obtain ⟨r,rfl⟩ := hl
    cases h with
    | syncs hs => cases hs
    | @creates _ k' u hr hk =>
      have hb : Begun w.kernel r k' u := (tkCreateThreadBegin_begun _ _).of_ok hk
      simp only [World.created]
      rw [hb.state]
      split
      · rfl
      · exact ht
  · refine h.keep (I:=fun b => b.state = .ready) (fun r hr => hl ⟨r,hr⟩) ?_ ht
    intro m b b' hm hb
    apply hb.stays_ready
    · rintro rfl
      obtain hd | ⟨_,hd,_⟩ := hm
      · exact hdel hd
      · exact hme hd.symm
    · rintro rfl
      exact hme hm.symm

theorem World.Does.idle_eq (h : w.Does l w') : w'.kernel.idleThid = w.kernel.idleThid := by
  by_cases hl : ∃ r, l = .create r
  · obtain ⟨r,rfl⟩ := hl
    cases h with
    | syncs hs => cases hs
    | @creates _ k' u hr hk =>
      have hb : Begun w.kernel r k' u := (tkCreateThreadBegin_begun _ _).of_ok hk
      have hid := congrArg Kernel.idleThid hb.eq
      exact hid
  · exact h.idleThid fun r hr => hl ⟨r,hr⟩

theorem IdleReady.call (h : IdleReady w) (hc : IdleYields w (.call l)) (hd : w.Does l w') :
    IdleReady w' := by
  refine ⟨hd.npreempt.trans h.npreempt,?_⟩
  rw [hd.idle_eq]
  by_cases hadv : ∃ us, l = .advance us
  · obtain ⟨us,rfl⟩ := hadv
    cases hd with
    | syncs hs => cases hs
    | advances => exact h.ready
  · have hboth : w.me ≠ w.kernel.idleThid ∧ l ≠ .delete w.kernel.idleThid := by
      cases l with
      | advance us => exact absurd ⟨us,rfl⟩ hadv
      | delete t =>
        refine ⟨hc.2,?_⟩
        rintro ⟨⟩
        exact hc.1 rfl
      | _ => exact ⟨hc,by rintro ⟨⟩⟩
    exact hd.stays_ready hboth.1 hboth.2 h.ready

/-- A yield sweeps, finds no thread to preempt for and takes what the dispatcher says. -/
theorem IdleReady.yield_spec (h : IdleReady w) {clk : Clock} :
    Spec (tkYield w.kernel clk) (fun k => ∃ k', tkWakeupTimedoutThreads w.kernel clk = .ok k' ∧
      tkNextRunableThread k' = .ok k.activeThread ∧ k = k'.dispatch k.activeThread ∧
      k'.npreempt = 0 ∧ k'.idleThid = w.kernel.idleThid ∧
      (k'.pool w.kernel.idleThid).state = .ready) (fun _ => True) := by
  unfold tkYield
  cases hk : tkWakeupTimedoutThreads w.kernel clk with
  | error e => trivial
  | ok k' =>
    have hs := tkWakeupTimedoutThreads_moves.of_ok hk
    have hn : ¬0 < k'.npreempt := by
      rw [hs.npreempt,h.npreempt]
      exact lt_irrefl 0
    have hidle : (k'.pool w.kernel.idleThid).state = .ready := by
      refine hs.keep (I:=fun b => b.state = .ready) (fun m b b' hm hb => hb.stays_ready ?_ ?_) h.ready
      · rintro rfl
        obtain (hm | hm) | hm := hm <;> cases hm
      · rintro rfl
        obtain (hm | hm) | hm := hm <;> cases hm
    simp only [spec_bind,spec_ok,if_neg hn,spec_pure]
    cases ht : tkNextRunableThread k' with
    | error e => trivial
    | ok t => exact ⟨k',rfl,ht,rfl,hs.npreempt.trans h.npreempt,hs.idle,hidle⟩

/-! ### Refinement -/

/-- Each step of the dispatcher's kernel is one of the other. -/
theorem IdleReady.step (h : IdleReady w) {l : DispatchLabel cfg numQ} (hc : IdleYields w l)
    (hm : (dispatchMachine cfg numQ).Step w l w') :
    ∃ l', Answers l l' ∧ (worldMachine cfg numQ).Step w l' w' ∧ IdleReady w' := by
  obtain ⟨he,hn⟩ := hm
  cases l with
  | call l =>
    obtain ⟨he,_⟩ := (Bool.and_eq_true _ _).mp he
    have hm : (worldMachine cfg numQ).Step w l w' := ⟨he,hn⟩
    exact ⟨l,rfl,hm,h.call hc (worldStep_does hm)⟩
  | yield =>
    have hn : (do let k ← tkYield w.kernel w.clock; return { w.setKernel k with yielding := false }) =
      Except.ok w' := hn
    obtain ⟨k,hk,hw⟩ := bind_eq_ok.mp hn
    cases hw
    obtain ⟨k',hsweep,hnext,heq,hnp,hid,hidle⟩ := h.yield_spec.of_ok hk
    have hready : (k'.pool k.activeThread).state = .ready := by
      obtain hr | ht := tkNextRunableThread_spec.of_ok hnext
      · exact hr
      · rw [ht,hid]
        exact hidle
    refine ⟨.yield k.activeThread,⟨_,rfl⟩,⟨?_,?_⟩,?_⟩
    · refine (Bool.and_eq_true _ _).mpr ⟨he,?_⟩
      rw [readyAfterSweep,hsweep]
      exact decide_eq_true hready
    · show w.yield k.activeThread = _
      rw [World.yield,hsweep,heq]
      rfl
    · rw [heq]
      exact ⟨hnp,by rw [← hid] at hidle; exact hidle⟩

theorem IdleReady.init {clk : Clock} {k : Kernel cfg} (hk : tkCreateKernel clk = .ok k)
    (i : Fin numQ) : IdleReady (worldInit k i) := by
  have hb : Booted k := (tkCreateKernel_spec clk).of_ok hk
  exact ⟨tkCreateKernel_npreempt.of_ok hk,(hb.own k.idleThid ((hb.valid _).mpr (Or.inr rfl))).2.2⟩

/-- A run of the kernel with its dispatcher is a run of the kernel whose yields may go to any ready
thread, the same calls in the same order. -/
theorem dispatchRun_refines {clk : Clock} {k : Kernel cfg} (hk : tkCreateKernel clk = .ok k)
    {i : Fin numQ} {ls : List (DispatchLabel cfg numQ)} {w : World cfg numQ}
    (hc : (dispatchMachine cfg numQ).Along IdleYields (worldInit k i) ls)
    (hr : (dispatchMachine cfg numQ).run (worldInit k i) ls = some w) :
    ∃ ls', List.Forall₂ Answers ls ls' ∧ (worldMachine cfg numQ).run (worldInit k i) ls' = some w := by
  have hstep : ∀ (w w' : World cfg numQ) (l : DispatchLabel cfg numQ) (m : World cfg numQ),
      (w = w' ∧ IdleReady w) → IdleYields w l → (dispatchMachine cfg numQ).Step w l m →
      ∃ l' m', Answers l l' ∧ (worldMachine cfg numQ).Step w' l' m' ∧ m = m' ∧ IdleReady m := by
    rintro w _ l m ⟨rfl,h⟩ hc hm
    obtain ⟨l',ha,hm',h'⟩ := h.step hc hm
    exact ⟨l',m,ha,hm',rfl,h'⟩
  obtain ⟨ls',w',ha,hr',rfl,_⟩ := Machine.run_refines hstep ⟨rfl,IdleReady.init hk i⟩ hc hr
  exact ⟨ls',ha,hr'⟩

/-! ### The choice -/

/-- The control blocks of valid threads hold their own numbers. -/
def OwnThids (k : Kernel cfg) : Prop := ∀ t, (k.pool t).valid = true → (k.pool t).thid = t

theorem TcbMove.own_thid {m : MoveKind} {b b' : Tcb cfg} (h : TcbMove b m b')
    (hb : b.valid = true → b.thid = t) : b'.valid = true → b'.thid = t := by
  cases h with
  | frees => exact fun hv => (by cases hv)
  | timer us => rw [timerTest_eq]; exact hb
  | goesToSleep timeout clk => unfold goToSleep; split <;> exact hb
  | _ => exact hb

theorem TcbMoves.ownThids {K : Thid cfg → MoveKind → Prop} {k' : Kernel cfg}
    (h : TcbMoves K k k') (hk : OwnThids k) : OwnThids k' := fun t =>
  h.keep (I:=fun b => b.valid = true → b.thid = t) (fun _ _ _ _ hb => hb.own_thid) (hk t)

theorem OwnThids.modTcb (hk : OwnThids k) {f : Tcb cfg → Tcb cfg}
    (hf : ∀ b, (f b).valid = b.valid ∧ (f b).thid = b.thid) : OwnThids (k.modTcb t f) := by
  intro u hu
  rw [Kernel.modTcb_pool] at hu ⊢
  split
  · next hut =>
    rw [if_pos hut,(hf _).1] at hu
    rw [(hf _).2,hut]
    exact hk t hu
  · next hut =>
    rw [if_neg hut] at hu
    exact hk u hu

theorem Begun.ownThids {r : ThreadReq} {k' : Kernel cfg} (h : Begun k r k' t) (hk : OwnThids k) :
    OwnThids k' := by
  intro u hu
  rw [h.pool] at hu ⊢
  split
  · next hact =>
    rw [if_pos hact] at hu
    split
    · next hut => exact hut.symm
    · next hut =>
      rw [if_neg hut] at hu
      exact hk u hu
  · next hact =>
    rw [if_neg hact] at hu
    split
    · next hut => exact hut.symm
    · next hut =>
      rw [if_neg hut] at hu
      exact hk u hu

theorem World.Does.ownThids (h : w.Does l w') (hk : OwnThids w.kernel) : OwnThids w'.kernel := by
  by_cases hl : ∃ r, l = .create r
  · obtain ⟨r,rfl⟩ := hl
    cases h with
    | syncs hs => cases hs
    | @creates _ k' u hr hkb =>
      have hb : Begun w.kernel r k' u := (tkCreateThreadBegin_begun _ _).of_ok hkb
      exact hb.ownThids hk
  · exact fun t => h.keep (I:=fun b => b.valid = true → b.thid = t) (fun r hr => hl ⟨r,hr⟩)
      (fun _ _ _ _ hb => hb.own_thid) (hk t)

theorem tkCreateKernel_ownThids {clk : Clock} :
    Spec (tkCreateKernel clk) (OwnThids : Kernel cfg → Prop) (fun _ => True) := by
  have hclear : OwnThids (clearKernel : Kernel cfg) := by
    intro t ht
    by_cases htr : t = root
    · subst htr; simp [clearKernel,zombiTcb]
    · simp [clearKernel,Function.update_of_ne htr,zombiTcb] at ht
  simp only [tkCreateKernel,tkCreateThread,spec_bind]
  refine ((tkCreateThreadBegin_begun clearKernel (idleReq cfg)).mono (fun _ hb => hb)
    fun _ _ => trivial).imp fun p hb => ?_
  refine tkWakeupTimedoutThreads_moves.imp fun k1 h1 => ?_
  refine tkCreateThreadEnd_moves.imp fun r h2 => ?_
  have hr : OwnThids r.1 := h2.ownThids (h1.ownThids (hb.ownThids hclear))
  split
  · trivial
  · next g _ =>
    simp only [Kernel.writeCell,spec_ite,spec_ok]
    refine ⟨fun _ => ?_,fun _ => trivial⟩
    have h3 := hr.modTcb (t:=g) (f:=fun b => { b with noChilds := b.noChilds-1 }) fun _ => ⟨rfl,rfl⟩
    exact h3.modTcb (t:=r.2) (f:=fun b => { b with gid := some b.thid }) fun _ => ⟨rfl,rfl⟩

/-- `t` is chosen, and no ready thread in the table is more important. -/
structure BestChoice (k : Kernel cfg) (t : Thid cfg) : Prop where
  chosen : Chosen k t
  best : ∀ u, InPlace k u → (k.pool u).state = .ready →
    (k.pool t).state = .ready ∧ (k.pool t).prio ≤ (k.pool u).prio

/-- In a table that is well formed, some threads apart, the search fails no assert and ends at a
thread no ready one outranks. -/
theorem ScheduleInv.next_best {out : Finset (Thid cfg)} (h : ScheduleInv k out)
    (hid : OwnThids k) : Spec (tkNextRunableThread k) (BestChoice k) (fun _ => False) := by
  refine (tkNextRunableThread_chosen (h.rowsOk hid) h.rowsApart).imp ?_
  rintro t ⟨hc,_⟩
  refine ⟨hc,fun u hu hr => ?_⟩
  have hready : isReady k u = true := decide_eq_true hr
  have hrow : u ∈ row k (k.pool u).prio := mem_row.mpr ⟨_,hu.1.2,hu.2⟩
  obtain ⟨p,hp,ht,⟨before,after,hv,_⟩,hless⟩ | ⟨_,hnone⟩ := hc
  · have hmem : t ∈ row k p := by
      rw [← mem_visits,hv]
      exact List.mem_append_right _ List.mem_cons_self
    obtain ⟨i,hi,hcell⟩ := mem_row.mp hmem
    have hprio : (k.pool t).prio = p := by
      have := (h.live p i ⟨hp,hi⟩).2.1
      rwa [hcell] at this
    refine ⟨of_decide_eq_true ht,?_⟩
    rw [hprio]
    by_contra hlt
    have := hless _ (Nat.lt_of_not_le hlt) u hrow
    rw [hready] at this
    cases this
  · have := hnone _ hu.1.1 u hrow
    rw [hready] at this
    cases this

/-- What holds between the steps of the kernel with its dispatcher. -/
structure DispatchInv (w : World cfg numQ) : Prop where
  idle : IdleReady w
  table : ∃ out, TableInv w out
  thids : OwnThids w.kernel

theorem DispatchInv.step (h : DispatchInv w) {l : DispatchLabel cfg numQ}
    (hc : OrderlyDispatch w l) (hm : (dispatchMachine cfg numQ).Step w l w') : DispatchInv w' := by
  obtain ⟨l',ha,hm',hi⟩ := h.idle.step hc.1 hm
  have hd := worldStep_does hm'
  obtain ⟨out,ht⟩ := h.table
  refine ⟨hi,ht.step ?_ hd,hd.ownThids h.thids⟩
  cases l with
  | call l => exact ha ▸ hc.2
  | yield =>
    obtain ⟨t,rfl⟩ := ha
    exact hc.2

/-- In every state of a run each yield that sweeps clean goes to the first of the most important
ready threads, and no assert of the dispatcher fails. -/
theorem dispatchRun_best {clk : Clock} {k : Kernel cfg} (hk : tkCreateKernel clk = .ok k)
    {i : Fin numQ} {ls : List (DispatchLabel cfg numQ)} {w : World cfg numQ}
    (hc : (dispatchMachine cfg numQ).Along OrderlyDispatch (worldInit k i) ls)
    (hr : (dispatchMachine cfg numQ).run (worldInit k i) ls = some w) (hs : CleanSweep w) :
    Spec (dispatchNext w .yield) (fun w' => BestChoice w'.kernel w'.me)
      (fun e => e = .assertParent ∨ e = .assertNoChilds) := by
  have h0 : DispatchInv (worldInit k i) := by
    have hb : Booted k := (tkCreateKernel_spec clk).of_ok hk
    refine ⟨IdleReady.init hk i,⟨∅,hb.table,?_,?_⟩,tkCreateKernel_ownThids.of_ok hk⟩
    · rintro c r t ⟨⟩
    · rintro c c' r r' t ⟨⟩
  have hi : DispatchInv w :=
    (dispatchMachine cfg numQ).run_invariant (fun _ _ _ hi hc hm => hi.step hc hm) h0 hc hr
  obtain ⟨out,ht⟩ := hi.table
  have hsweep := ht.table.sweep hs
  simp only [dispatchNext,tkYield,spec_bind]
  cases hk' : tkWakeupTimedoutThreads w.kernel w.clock with
  | error e => exact hsweep.of_error hk'
  | ok k' =>
    obtain ⟨hi',_⟩ := hsweep.of_ok hk'
    have hmoves := tkWakeupTimedoutThreads_moves.of_ok hk'
    have hn : ¬0 < k'.npreempt := by
      rw [hmoves.npreempt,hi.idle.npreempt]
      exact lt_irrefl 0
    simp only [spec_ok,if_neg hn,pure_bind,spec_bind,spec_pure]
    exact (hi'.next_best (hmoves.ownThids hi.thids)).mono
      (fun t hbest => ⟨hbest.chosen,hbest.best⟩) fun _ => False.elim

end

/-- The root thread makes two threads. It sleeps, and the one it made second, of the better priority,
runs first; that one moves behind the other and yields to it. -/
def takeTurnsSteps : List (DispatchLabel gnuArm 4) :=
  [.call (.create ⟨"a",2,0,true⟩),.yield,.call .resume,.call (.create ⟨"b",1,0,true⟩),.yield,
    .call .resume,.call (.msleep 5),.yield,.call (.changePrio 3 3)]

theorem dispatchRun_refines_takeTurns : ∃ (k : Kernel gnuArm) (w : World gnuArm 4)
    (ls' : List (WorldLabel gnuArm 4)), tkCreateKernel 0 = .ok k ∧ w.me = 3 ∧
    List.Forall₂ Answers takeTurnsSteps ls' ∧
    (worldMachine gnuArm 4).run (worldInit k 0) ls' = some w := by
  obtain ⟨k,w,hk,hc,hr,hme⟩ := (dispatchMachine gnuArm 4).exists_along (x:=tkCreateKernel 0)
    IdleYields (fun w => w.me = 3) (worldInit · 0) takeTurnsSteps (by decide +kernel)
  obtain ⟨ls',ha,hr'⟩ := dispatchRun_refines hk hc hr
  exact ⟨k,w,ls',hk,hme,ha,hr'⟩

theorem dispatchRun_best_takeTurns : ∃ (k : Kernel gnuArm) (w w' : World gnuArm 4),
    tkCreateKernel 0 = .ok k ∧
    (dispatchMachine gnuArm 4).run (worldInit k 0) takeTurnsSteps = some w ∧
    dispatchNext w .yield = .ok w' ∧ w'.me = 2 ∧ BestChoice w'.kernel w'.me := by
  obtain ⟨k,w,hk,hc,hr,hs,hn⟩ := (dispatchMachine gnuArm 4).exists_along (x:=tkCreateKernel 0)
    OrderlyDispatch (fun w => CleanSweep w ∧
      ((dispatchNext w .yield).toOption.any fun w' => decide (w'.me = 2)) = true)
    (worldInit · 0) takeTurnsSteps (by decide +kernel)
  have hbest := dispatchRun_best hk hc hr hs
  cases hy : dispatchNext w .yield with
  | error e => rw [hy] at hn; cases hn
  | ok w' =>
    rw [hy] at hn
    exact ⟨k,w,w',hk,hr,hy,of_decide_eq_true hn,hbest.of_ok hy⟩


end Tinker

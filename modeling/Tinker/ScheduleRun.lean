import Tinker.ScheduleOps

/-! Runs of `tk_create_thread`, `tk_delete_thread` and `tk_change_prio` calls, each completed
before the next, from the kernel as created. A creation takes several steps, because the
sweep in the constructor's `tk_yield` may take dead threads out of the table one by one. -/
namespace Tinker

open Outcome

variable {cfg : Config}

/-- A `tk_create_thread` call whose constructor is inside `tk_yield`. -/
structure Creation (cfg : Config) where
  caller : Thid cfg
  req : ThreadReq
  validProcIdx : Thid cfg
  clk : Clock
  todo : List (Thid cfg)

structure SchedState (cfg : Config) where
  kernel : Kernel cfg
  creation : Option (Creation cfg)

inductive SchedLabel (cfg : Config)
  | create (r : ThreadReq) (clk : Clock) | sweep | resume
  | delete (t : Thid cfg) | changePrio (t : Thid cfg) (newPrio : ℤ) | dispatch (t : Thid cfg)

/-- A call is made with arguments its own checks accept and none other is in progress; the
creation's caller is dispatched again once the sweep is done. -/
def schedEnabled (s : SchedState cfg) : SchedLabel cfg → Bool
  | .create r _ => s.creation.isNone && decide (Accepted s.kernel r)
  | .sweep => match s.creation with
    | some c => !c.todo.isEmpty
    | none => false
  | .resume => match s.creation with
    | some c => c.todo.isEmpty && (s.kernel.pool c.caller).valid &&
        decide ((s.kernel.pool c.caller).state = .ready)
    | none => false
  | .delete t => s.creation.isNone && (s.kernel.pool t).valid
  | .changePrio t newPrio => s.creation.isNone &&
      (decide (newPrio < 0) && (s.kernel.pool t).valid ||
        decide (changePrioErrors s.kernel t newPrio (s.kernel.procs newPrio.toNat) = 0))
  | .dispatch t => s.creation.isNone && (s.kernel.pool t).valid &&
      decide ((s.kernel.pool t).state = .ready)

def schedNext (s : SchedState cfg) : SchedLabel cfg → Except Fault (SchedState cfg)
  | .create r clk => do
    let (k,t) ← tkCreateThreadBegin s.kernel r
    return ⟨k,some ⟨s.kernel.activeThread,r,t,clk,List.finRange cfg.maxThreads⟩⟩
  | .sweep => match s.creation with
    | some ⟨caller,r,t,clk,i::todo⟩ => do
      let k ← sweepThread clk s.kernel i
      return ⟨k,some ⟨caller,r,t,clk,todo⟩⟩
    | _ => .ok s
  | .resume => match s.creation with
    | some c => do
      let (k,_) ← tkCreateThreadEnd (s.kernel.dispatch c.caller) c.req c.validProcIdx
      return ⟨k,none⟩
    | none => .ok s
  | .delete t => do
    let (k,_) ← tkDeleteThread s.kernel t
    return { s with kernel := k }
  | .changePrio t newPrio => do
    let (k,_) ← tkChangePrio s.kernel t newPrio
    return { s with kernel := k }
  | .dispatch t => .ok { s with kernel := s.kernel.dispatch t }

def schedMachine (cfg : Config) : Machine (SchedState cfg) (SchedLabel cfg) Fault where
  enabled := schedEnabled
  next := schedNext

/-- A thread that the step takes out of its row comes out clean, and no priority is negative. -/
def CleanStep (s : SchedState cfg) : SchedLabel cfg → Prop
  | .delete t => Buries s.kernel t → CleanRemoval s.kernel t
  | .changePrio t newPrio => 0 ≤ newPrio ∧
      (newPrio ≠ (s.kernel.pool t).prio → CleanRemoval s.kernel t)
  | .sweep => match s.creation with
    | some ⟨_,_,_,_,i::_⟩ => Reaps s.kernel i → CleanRemoval s.kernel i
    | _ => True
  | _ => True

/-- What holds between two steps: the table is well formed for all threads except the one
under construction, for which there is room. -/
def SchedInv (s : SchedState cfg) : Prop :=
  match s.creation with
  | none => ScheduleInv s.kernel ∅
  | some c => ScheduleInv s.kernel {c.validProcIdx} ∧ s.kernel.procIdx = c.validProcIdx ∧
      s.kernel.activeThread = c.validProcIdx ∧
      (s.kernel.pool c.validProcIdx).prio = c.req.prio ∧ c.req.prio < cfg.maxPrioLevels ∧
      s.kernel.procs c.req.prio < cfg.maxThreadsAtPrio

theorem schedStep_spec {s : SchedState cfg} {l : SchedLabel cfg} (hi : SchedInv s)
    (he : schedEnabled s l = true) (hc : CleanStep s l) :
    Spec (schedNext s l) SchedInv (fun e => e = .assertParent ∨ e = .assertNoChilds) := by
  obtain ⟨k,c⟩ := s
  cases l with
  | create r clk =>
    simp only [schedEnabled,Bool.and_eq_true,Option.isNone_iff_eq_none,decide_eq_true_eq] at he
    obtain ⟨rfl,ha⟩ := he
    simp only [schedNext,spec_bind,spec_pure]
    refine (tkCreateThreadBegin_spec hi).mono ?_ fun _ hn => absurd ha hn
    rintro ⟨k',t⟩ hb
    obtain ⟨hi',hidx,hact,_,hprio,hprocs⟩ := hb.inv hi
    exact ⟨hi',hidx,hact,hprio,hb.prio,by rw [hprocs]; exact hb.room⟩
  | sweep =>
    cases c with
    | none => cases he
    | some c =>
      obtain ⟨caller,r,t,clk,todo⟩ := c
      cases todo with
      | nil => cases he
      | cons i todo =>
        obtain ⟨hi,hidx,hact,hprio,hlev,hroom⟩ := hi
        simp only [schedNext,spec_bind,spec_pure]
        refine (sweepThread_spec clk hi (fun hm => ?_) hc).imp ?_
        · exact (Finset.mem_singleton.mp hm).trans hact.symm
        · rintro k' ⟨hi',hs⟩
          exact ⟨hi',hs.procIdx.trans hidx,hs.activeThread.trans hact,(hs.prio t).trans hprio,hlev,
            (hs.procs_le _).trans_lt hroom⟩
  | resume =>
    cases c with
    | none => cases he
    | some c =>
      obtain ⟨hi,hidx,_,hprio,hlev,hroom⟩ := hi
      have hidx : k.procIdx = c.validProcIdx := hidx
      simp only [schedNext,spec_bind,spec_pure]
      refine (tkCreateThreadEnd_spec (k:=k.dispatch c.caller) (hi.congr rfl rfl rfl
        fun _ => ⟨rfl,rfl,rfl⟩) (by simp [hidx]) hlev hroom (by simpa [hidx] using hprio)).mono
        ?_ fun _ => False.elim
      rintro ⟨k',v⟩ ⟨hi',_⟩
      simpa [SchedInv,hidx] using hi'
  | delete t =>
    simp only [schedEnabled,Bool.and_eq_true,Option.isNone_iff_eq_none] at he
    obtain ⟨rfl,_⟩ := he
    simp only [schedNext,spec_bind,spec_pure]
    exact (tkDeleteThread_spec hi (Finset.notMem_empty t) hc).imp fun _ h => h.1
  | changePrio t newPrio =>
    simp only [schedEnabled,Bool.and_eq_true,Option.isNone_iff_eq_none,Bool.or_eq_true,
      decide_eq_true_eq] at he
    obtain ⟨rfl,hok⟩ := he
    have hpos := hc.1
    obtain ⟨hneg,_⟩ | hok := hok
    · omega
    have hlt := ((changePrioErrors_eq_zero k t newPrio _).mp hok).2.1
    simp only [schedNext,spec_bind,spec_pure]
    exact (tkChangePrio_spec hi (Finset.notMem_empty t) hpos hlt hc.2).mono (fun _ h => h)
      fun _ hn => absurd hok hn
  | dispatch t =>
    simp only [schedEnabled,Bool.and_eq_true,Option.isNone_iff_eq_none] at he
    obtain ⟨⟨rfl,_⟩,_⟩ := he
    exact ScheduleInv.congr hi rfl rfl rfl fun _ => ⟨rfl,rfl,rfl⟩

instance (s : SchedState cfg) (l : SchedLabel cfg) : Decidable (CleanStep s l) := by
  unfold CleanStep
  split
  · infer_instance
  · infer_instance
  · split <;> infer_instance
  · infer_instance

/-! ### Whole runs -/

/-- A well-formed table, said without reference to the operations. -/
structure WellScheduled (k : Kernel cfg) : Prop where
  placed : ∀ t, (k.pool t).valid = true → LiveCell k (k.pool t).prio (k.pool t).idx ∧
    k.schedule (k.pool t).prio (k.pool t).idx = t
  once : ∀ t p i, LiveCell k p i → k.schedule p i = t → p = (k.pool t).prio ∧ i = (k.pool t).idx
  named : ∀ p i, LiveCell k p i → (k.pool (k.schedule p i)).valid = true
  count_valid : k.procsInUse = (Finset.univ.filter fun t => (k.pool t).valid = true).card
  count_rows : k.procsInUse = ∑ p ∈ Finset.range cfg.maxPrioLevels, k.procs p
  curr : ∀ p < cfg.maxPrioLevels, (k.prioIdxs p).currIdx = 0 ∨ (k.prioIdxs p).currIdx < k.procs p
  row_le : ∀ p < cfg.maxPrioLevels, k.procs p ≤ cfg.maxThreadsAtPrio

theorem ScheduleInv.wellScheduled {k : Kernel cfg} (h : ScheduleInv k ∅) : WellScheduled k where
  placed := fun t ht => h.placed t ht (Finset.notMem_empty t)
  once := by
    rintro t p i hl rfl
    obtain ⟨_,hp,hi,_⟩ := h.live p i hl
    exact ⟨hp.symm,hi.symm⟩
  named := fun p i hl => (h.live p i hl).1
  count_valid := h.card_valid.symm
  count_rows := by have := h.in_use; simpa [liveCells] using this
  curr := h.curr
  row_le := h.row_le

/-- Where every removal along the run is a clean one, the table is well formed between the
calls, and no call leaves the table or trips over it. -/
theorem schedRun_wellScheduled {clk : Clock} {k : Kernel cfg} (hk : tkCreateKernel clk = .ok k)
    {ls : List (SchedLabel cfg)} {s : SchedState cfg}
    (hc : (schedMachine cfg).Along CleanStep ⟨k,none⟩ ls)
    (hr : (schedMachine cfg).run ⟨k,none⟩ ls = some s) :
    (s.creation = none → WellScheduled s.kernel) ∧
    ∀ l e, schedEnabled s l = true → CleanStep s l → schedNext s l = .error e →
      e = .assertParent ∨ e = .assertNoChilds := by
  have hi : SchedInv s := by
    have hboot : SchedInv ⟨k,none⟩ := ((tkCreateKernel_spec clk).of_ok hk).table
    refine (schedMachine cfg).run_invariant ?_ hboot hc hr
    intro s l s' hi hc hstep
    exact (schedStep_spec hi hstep.1 hc).of_ok hstep.2
  refine ⟨fun hn => ?_,fun l e he hc hx => (schedStep_spec hi he hc).of_error hx⟩
  simp only [SchedInv,hn] at hi
  exact hi.wellScheduled

/-- A thread made at priority 1 by the running thread. -/
def createSteps (name : String) : List (SchedLabel gnuArm) :=
  .create ⟨name,1,0,true⟩ 0 :: List.replicate 10 .sweep ++ [.resume]

/-- A thread alone in its row is moved to another priority, deleted and buried. -/
def moveSteps : List (SchedLabel gnuArm) :=
  createSteps "a" ++ [.changePrio 2 3,.delete 2,.delete 2]

theorem schedRun_wellScheduled_move : ∃ (k : Kernel gnuArm) (s : SchedState gnuArm),
    tkCreateKernel 0 = .ok k ∧ (schedMachine gnuArm).run ⟨k,none⟩ moveSteps = some s ∧
    WellScheduled s.kernel := by
  obtain ⟨k,s,hk,hc,hr,hn⟩ := (schedMachine gnuArm).exists_along (x:=tkCreateKernel 0)
    CleanStep (fun s => s.creation.isNone = true) (⟨·,none⟩) moveSteps (by decide +kernel)
  have hn := Option.isNone_iff_eq_none.mp hn
  exact ⟨k,s,hk,hr,(schedRun_wellScheduled hk hc hr).1 hn⟩

/-- The first of two threads in a row is deleted and then buried. -/
def burySteps : List (SchedLabel gnuArm) :=
  createSteps "a" ++ createSteps "b" ++ [.delete 2,.delete 2]

/-- The loop copies the cell past the row's live part, whose zero names the root thread. -/
theorem schedRun_not_wellScheduled :
    ¬∀ (k : Kernel gnuArm) (ls : List (SchedLabel gnuArm)) (s : SchedState gnuArm),
      tkCreateKernel 0 = .ok k → (schedMachine gnuArm).run ⟨k,none⟩ ls = some s →
      s.creation = none → WellScheduled s.kernel := by
  intro h
  obtain ⟨k,s,hk,hr,hn,hv,hi⟩ := (schedMachine gnuArm).exists_start (x:=tkCreateKernel 0)
    (fun s => s.creation.isNone = true ∧ (s.kernel.pool root).valid = true ∧
      s.kernel.procs (s.kernel.pool root).prio ≤ (s.kernel.pool root).idx)
    (⟨·,none⟩) burySteps (by decide +kernel)
  have hn := Option.isNone_iff_eq_none.mp hn
  have := ((h k _ s hk hr hn).placed root hv).1.2
  omega

end Tinker

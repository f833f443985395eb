import Tinker.Dispatch
import Tinker.Machine
import Tinker.Schedule
import Tinker.ScheduleOps

/-! Threads that do nothing but `tk_yield`. The search of a row begins at its `curr_idx`, which no
dispatch moves, so of several ready threads it always finds the same one. -/
namespace Tinker

open Kernel Outcome

variable {cfg : Config}

/-- The kernel with the threads that have been dispatched, oldest first. -/
structure YieldState (cfg : Config) where
  kernel : Kernel cfg
  dispatched : List (Thid cfg)

/-- `tk_yield`. A thread to preempt for is counted off and then overruled by the search. -/
def yieldNext (s : YieldState cfg) (clk : Clock) : Except Fault (YieldState cfg) := do
  let k ← tkWakeupTimedoutThreads s.kernel clk
  let k ← if 0 < k.npreempt then do
      check (k.npreempt < 2) .assertPreempt
      pure { k with npreempt := k.npreempt-1 }
    else pure k
  let t ← tkNextRunableThread k
  return ⟨k.dispatch t,s.dispatched ++ [t]⟩

/-- The running thread yields, whatever the clock shows. -/
def yieldMachine (cfg : Config) : Machine (YieldState cfg) Clock Fault where
  enabled := fun _ _ => true
  next := yieldNext

/-- The threads of `T` are those that are ready at priority `p`, and none is ready above. -/
structure Foremost (k : Kernel cfg) (p : ℕ) (T : Finset (Thid cfg)) : Prop where
  mem : ∀ t ∈ T, (k.pool t).valid = true ∧ (k.pool t).prio = p
  ready : ∀ t, (k.pool t).valid = true → (k.pool t).prio = p →
    ((k.pool t).state = .ready ↔ t ∈ T)
  above : ∀ t, (k.pool t).valid = true → (k.pool t).prio < p → (k.pool t).state ≠ .ready

/-- The sweep of the yield creates and deletes nobody, and leaves the threads of `T` in front. -/
def Calm (p : ℕ) (T : Finset (Thid cfg)) (s : YieldState cfg) (clk : Clock) : Prop :=
  ∃ k, tkWakeupTimedoutThreads s.kernel clk = .ok k ∧ SameTable s.kernel k ∧ Foremost k p T

/-- The schedule has not been touched. -/
structure SameRows (k k' : Kernel cfg) : Prop where
  schedule : k'.schedule = k.schedule
  prioIdxs : k'.prioIdxs = k.prioIdxs
  procsInUse : k'.procsInUse = k.procsInUse
  pool : ∀ t, (k'.pool t).valid = (k.pool t).valid ∧ (k'.pool t).prio = (k.pool t).prio ∧
    (k'.pool t).idx = (k.pool t).idx

section

variable {k k1 k2 : Kernel cfg} {p : ℕ} {T : Finset (Thid cfg)}

theorem SameRows.refl (k : Kernel cfg) : SameRows k k := ⟨rfl,rfl,rfl,fun _ => ⟨rfl,rfl,rfl⟩⟩

theorem SameRows.trans {k3 : Kernel cfg} (h : SameRows k1 k2) (h' : SameRows k2 k3) :
    SameRows k1 k3 where
  schedule := h'.schedule.trans h.schedule
  prioIdxs := h'.prioIdxs.trans h.prioIdxs
  procsInUse := h'.procsInUse.trans h.procsInUse
  pool := fun t => ⟨(h'.pool t).1.trans (h.pool t).1,(h'.pool t).2.1.trans (h.pool t).2.1,
    (h'.pool t).2.2.trans (h.pool t).2.2⟩

theorem SameRows.symm (h : SameRows k1 k2) : SameRows k2 k1 where
  schedule := h.schedule.symm
  prioIdxs := h.prioIdxs.symm
  procsInUse := h.procsInUse.symm
  pool := fun t => ⟨(h.pool t).1.symm,(h.pool t).2.1.symm,(h.pool t).2.2.symm⟩

end

/-- The first thread that is ready, `n` cells of a row of `m` from `idx` on. -/
def firstReady (ready : Thid cfg → Bool) (row : ℕ → Thid cfg) (m : ℕ) : ℕ → ℕ → Option (Thid cfg)
  | 0, _ => none
  | n+1, idx => if ready (row idx) then some (row idx) else firstReady ready row m n ((idx+1) % m)

section

variable {k k1 : Kernel cfg} {p m n idx : ℕ} {T : Finset (Thid cfg)} {row : ℕ → Thid cfg}
  {ready ready' : Thid cfg → Bool}

theorem firstReady_congr (h : ∀ i < m, ready (row i) = ready' (row i)) (hidx : idx < m) :
    firstReady ready row m n idx = firstReady ready' row m n idx := by
  induction n generalizing idx with
  | zero => rfl
  | succ n ih =>
    rw [firstReady,firstReady,h idx hidx,ih (Nat.mod_lt _ (Nat.zero_lt_of_lt hidx))]

theorem firstReady_eq_none (h : ∀ i < m, ready (row i) = false) (hidx : idx < m) :
    firstReady ready row m n idx = none := by
  induction n generalizing idx with
  | zero => rfl
  | succ n ih =>
    rw [firstReady,h idx hidx]
    exact ih (Nat.mod_lt _ (Nat.zero_lt_of_lt hidx))

variable (row ready) in
theorem firstReady_eq_some {d : ℕ} (hd : d < n) (hidx : idx < m)
    (hr : ready (row ((idx+d) % m)) = true) :
    ∃ t, firstReady ready row m n idx = some t ∧ ready t = true := by
  induction n generalizing idx d with
  | zero => cases hd
  | succ n ih =>
    rw [firstReady]
    by_cases h0 : ready (row idx) = true
    · exact ⟨row idx,if_pos h0,h0⟩
    · rw [if_neg h0]
      obtain _ | d := d
      · rw [Nat.add_zero,Nat.mod_eq_of_lt hidx] at hr
        exact absurd hr h0
      · refine ih (d:=d) (by omega) (Nat.mod_lt _ (Nat.zero_lt_of_lt hidx)) ?_
        rw [Nat.mod_add_mod,Nat.add_assoc,Nat.add_comm 1 d]
        exact hr

/-- The search of one row, where its asserts hold. -/
theorem runableAt_spec {prio : ℕ} {last : Option (Thid cfg)} :
    Spec (runableAt k prio m n idx last) (fun r => r.1 =
      firstReady (fun t => decide ((k.pool t).state = .ready)) (k.schedule prio) m n idx)
      (fun _ => True) := by
  induction n generalizing idx last with
  | zero => rfl
  | succ n ih =>
    simp only [runableAt,spec_bind,Kernel.readCell,spec_ite,spec_ok,spec_check,spec_pure,spec_error,
      implies_true,and_true]
    refine fun _ _ _ => ⟨fun hr => ?_,fun hr => ih.imp fun r h => ?_⟩
    · rw [firstReady,if_pos (by simpa using hr)]
    · rw [firstReady,if_neg (by simpa using hr)]
      exact h

/-- The thread that the search finds when the threads of `T` are in front. -/
def leader (k : Kernel cfg) (p : ℕ) (T : Finset (Thid cfg)) : Option (Thid cfg) :=
  firstReady (fun t => decide (t ∈ T)) (k.schedule p) (k.procs p) (k.procs p) (k.prioIdxs p).currIdx

theorem ScheduleInv.row_pos (hk : ScheduleInv k ∅) (hf : Foremost k p T) {t : Thid cfg}
    (ht : t ∈ T) : LiveCell k p (k.pool t).idx ∧ k.schedule p (k.pool t).idx = t := by
  obtain ⟨hv,hp⟩ := hf.mem t ht
  obtain ⟨hl,hs⟩ := hk.placed t hv (Finset.notMem_empty t)
  rw [hp] at hl hs
  exact ⟨hl,hs⟩

theorem ScheduleInv.leader_mem (hk : ScheduleInv k ∅) (hf : Foremost k p T) (hT : T.Nonempty) :
    ∃ t ∈ T, leader k p T = some t := by
  obtain ⟨u,hu⟩ := hT
  obtain ⟨⟨hpm,hlt⟩,hcell⟩ := hk.row_pos hf hu
  have hidx : (k.prioIdxs p).currIdx < k.procs p := by
    have := hk.curr p hpm
    omega
  -- the cell of `u` is some way ahead of `curr_idx`
  obtain ⟨t,ht,hr⟩ := firstReady_eq_some (k.schedule p) (fun t => decide (t ∈ T))
    (n:=k.procs p) (d:=((k.pool u).idx+k.procs p-(k.prioIdxs p).currIdx) % k.procs p)
    (Nat.mod_lt _ (by omega)) hidx (by
      rw [Nat.add_mod_mod,show (k.prioIdxs p).currIdx+((k.pool u).idx+k.procs p-
        (k.prioIdxs p).currIdx) = (k.pool u).idx+k.procs p by omega,Nat.add_mod_right,
        Nat.mod_eq_of_lt hlt,hcell]
      exact decide_eq_true hu)
  exact ⟨t,of_decide_eq_true hr,ht⟩

theorem ScheduleInv.firstReady_above (hk : ScheduleInv k ∅) (hf : Foremost k p T) {q : ℕ}
    (hq : q < p) (hqm : q < cfg.maxPrioLevels) :
    firstReady (fun t => decide ((k.pool t).state = .ready)) (k.schedule q) (k.procs q) (k.procs q)
      (k.prioIdxs q).currIdx = none := by
  obtain h0 | hpos := Nat.eq_zero_or_pos (k.procs q)
  · rw [h0]
    rfl
  refine firstReady_eq_none (fun i hi => ?_) ?_
  · obtain ⟨hv,hp,-,-⟩ := hk.live q i ⟨hqm,hi⟩
    exact decide_eq_false (hf.above _ hv (by rw [hp]; exact hq))
  · have := hk.curr q hqm
    omega

theorem ScheduleInv.firstReady_front (hk : ScheduleInv k ∅) (hf : Foremost k p T)
    (hT : T.Nonempty) :
    firstReady (fun t => decide ((k.pool t).state = .ready)) (k.schedule p) (k.procs p) (k.procs p)
      (k.prioIdxs p).currIdx = leader k p T := by
  obtain ⟨u,hu⟩ := hT
  obtain ⟨⟨hpm,hlt⟩,-⟩ := hk.row_pos hf hu
  refine firstReady_congr (fun i hi => ?_) ?_
  · obtain ⟨hv,hp,-,-⟩ := hk.live p i ⟨hpm,hi⟩
    exact decide_eq_decide.mpr (hf.ready _ hv hp)
  · have := hk.curr p hpm
    omega

/-- `_tk_next_runable_thread` finds the leader of the foremost threads. -/
theorem ScheduleInv.next (hk : ScheduleInv k ∅) (hf : Foremost k p T) (hT : T.Nonempty) :
    Spec (tkNextRunableThread k) (fun t => t ∈ T ∧ leader k p T = some t) (fun _ => True) := by
  obtain ⟨u,hu,hlead⟩ := hk.leader_mem hf hT
  have hp : p ∈ List.range cfg.maxPrioLevels := by
    obtain ⟨⟨hpm,-⟩,-⟩ := hk.row_pos hf hu
    exact List.mem_range.mpr hpm
  have hmax : ∀ q ∈ List.range cfg.maxPrioLevels, q < cfg.maxPrioLevels := fun q => List.mem_range.mp
  have hsorted : (List.range cfg.maxPrioLevels).Pairwise (· < ·) := List.pairwise_lt_range
  unfold tkNextRunableThread
  generalize (none : Option (Thid cfg)) = last
  generalize List.range cfg.maxPrioLevels = prios at hp hmax hsorted ⊢
  induction prios generalizing last with
  | nil => cases hp
  | cons q qs ih =>
    obtain ⟨hq,hsorted⟩ := List.pairwise_cons.mp hsorted
    simp only [runableFrom,spec_bind]
    refine runableAt_spec.imp ?_
    rintro ⟨found,last'⟩ hfound
    obtain rfl | hpq := List.mem_cons.mp hp
    · simp only [hk.firstReady_front hf hT,hlead] at hfound
      subst hfound
      exact ⟨hu,hlead⟩
    · simp only [hk.firstReady_above hf (hq p hpq) (hmax q List.mem_cons_self)] at hfound
      subst hfound
      exact ih last' hpq (fun q hq => hmax q (List.mem_cons_of_mem _ hq)) hsorted

theorem SameRows.inv (h : SameRows k k1) (hk : ScheduleInv k ∅) : ScheduleInv k1 ∅ :=
  hk.congr h.schedule h.prioIdxs h.procsInUse h.pool

theorem SameRows.leader (h : SameRows k k1) : leader k1 p T = leader k p T := by
  rw [Tinker.leader,Tinker.leader,Kernel.procs,Kernel.procs,h.schedule,h.prioIdxs]

/-- A yield dispatches the leader and leaves the schedule alone. -/
theorem yieldStep_spec {s : YieldState cfg} {clk : Clock} (hk : ScheduleInv k ∅)
    (hs : SameRows k s.kernel) (hT : T.Nonempty) (hc : Calm p T s clk) :
    Spec (yieldNext s clk) (fun s' => SameRows k s'.kernel ∧ ∃ t ∈ T, leader k p T = some t ∧
      s'.dispatched = s.dispatched ++ [t]) (fun _ => True) := by
  obtain ⟨k1,hsweep,hsame,hf⟩ := hc
  have hrows : SameRows k k1 :=
    hs.trans ⟨hsame.schedule,hsame.prioIdxs,hsame.procsInUse,hsame.pool⟩
  have hgo : ∀ n, Spec (tkNextRunableThread { k1 with npreempt := n }) (fun t =>
      SameRows k (({ k1 with npreempt := n } : Kernel cfg).dispatch t) ∧
        ∃ u ∈ T, leader k p T = some u ∧ s.dispatched ++ [t] = s.dispatched ++ [u])
      (fun _ => True) := by
    intro n
    have hrows' : SameRows k ({ k1 with npreempt := n } : Kernel cfg) :=
      ⟨hrows.schedule,hrows.prioIdxs,hrows.procsInUse,hrows.pool⟩
    refine ((hrows'.inv hk).next ⟨hf.mem,hf.ready,hf.above⟩ hT).imp ?_
    rintro t ⟨ht,hlead⟩
    refine ⟨⟨hrows.schedule,hrows.prioIdxs,hrows.procsInUse,hrows.pool⟩,t,ht,?_,rfl⟩
    rw [← hlead]
    exact hrows'.leader.symm
  simp only [yieldNext,hsweep,spec_bind,spec_ok,spec_ite,spec_check,spec_pure,implies_true,and_true]
  exact ⟨fun _ _ => hgo _,fun _ => hgo _⟩

/-- However often equal threads yield, one of them runs and the others never do. -/
theorem yieldRun_sticks (hk : ScheduleInv k ∅) (hT : 2 ≤ T.card) {clks : List Clock}
    (hc : (yieldMachine cfg).Along (Calm p T) ⟨k,[]⟩ clks) :
    (∀ s, (yieldMachine cfg).run ⟨k,[]⟩ clks = some s → ∃ t, ∀ u ∈ s.dispatched, u = t) ∧
    ¬∃ s, (yieldMachine cfg).run ⟨k,[]⟩ clks = some s ∧ ∀ t ∈ T, s.dispatched.count t = 1 := by
  have hT0 : T.Nonempty := Finset.card_pos.mp (by omega)
  have hinv : ∀ s, (yieldMachine cfg).run ⟨k,[]⟩ clks = some s →
      SameRows k s.kernel ∧ ∀ u ∈ s.dispatched, leader k p T = some u := by
    intro s hr
    refine (yieldMachine cfg).run_invariant (I:=fun s => SameRows k s.kernel ∧
      ∀ u ∈ s.dispatched, leader k p T = some u) ?_ ⟨SameRows.refl k,fun u hu =>
        absurd hu List.not_mem_nil⟩ hc hr
    rintro s clk s' ⟨hs,hd⟩ hc hstep
    obtain ⟨hs',t,-,hlead,hd'⟩ := (yieldStep_spec hk hs hT0 hc).of_ok hstep.2
    refine ⟨hs',fun u hu => ?_⟩
    rw [hd'] at hu
    obtain hu | hu := List.mem_append.mp hu
    · exact hd u hu
    · obtain rfl := List.mem_singleton.mp hu
      exact hlead
  refine ⟨fun s hr => ?_,?_⟩
  · obtain ⟨-,hd⟩ := hinv s hr
    cases hl : leader k p T with
    | none => exact ⟨root,fun u hu => by rw [hd u hu] at hl; cases hl⟩
    | some t => exact ⟨t,fun u hu => Option.some.inj ((hd u hu).symm.trans hl)⟩
  · rintro ⟨s,hr,hcount⟩
    obtain ⟨-,hd⟩ := hinv s hr
    obtain ⟨t,ht,u,hu,hne⟩ := Finset.one_lt_card.mp hT
    have hmem : ∀ t ∈ T, t ∈ s.dispatched := fun t ht =>
      List.count_pos_iff.mp (by rw [hcount t ht]; exact Nat.one_pos)
    exact hne (Option.some.inj ((hd t (hmem t ht)).symm.trans (hd u (hmem u hu))))

/-- Where nobody sleeps, the threads in front stay there whatever the clock shows. -/
theorem Foremost.calm (hf : Foremost k p T) (ha : Alive k)
    (hs : ∀ t, (k.pool t).state.has .sleep = false) (ds : List (Thid cfg)) (clks : List Clock) :
    (yieldMachine cfg).Along (Calm p T) ⟨k,ds⟩ clks := by
  induction clks generalizing k ds with
  | nil => trivial
  | cons clk clks ih =>
    obtain ⟨k1,hsweep,hsame,hp⟩ := spec_total_iff.mp (tkWakeupTimedoutThreads_alive clk ha)
    have hpool : k1.pool = k.pool := by
      funext t
      obtain h | h := hp t
      · exact h
      · rw [h,timerTest,if_neg]
        rw [hs t]
        simp
    have hgo : ∀ n t, (yieldMachine cfg).Along (Calm p T)
        ⟨({ k1 with npreempt := n } : Kernel cfg).dispatch t,ds ++ [t]⟩ clks := fun n t =>
      ih (k:=({ k1 with npreempt := n } : Kernel cfg).dispatch t)
        ⟨by simpa only [Kernel.dispatch,hpool] using hf.mem,
          by simpa only [Kernel.dispatch,hpool] using hf.ready,
          by simpa only [Kernel.dispatch,hpool] using hf.above⟩
        (by simpa only [Alive,Kernel.dispatch,hpool] using ha)
        (by simpa only [Kernel.dispatch,hpool] using hs) _
    refine ⟨⟨k1,hsweep,hsame,?_⟩,fun s' hstep => ?_⟩
    · exact ⟨by simpa only [hpool] using hf.mem,by simpa only [hpool] using hf.ready,
        by simpa only [hpool] using hf.above⟩
    · have hspec : Spec (yieldNext ⟨k,ds⟩ clk)
          (fun s' => (yieldMachine cfg).Along (Calm p T) s' clks) (fun _ => True) := by
        have hnext : ∀ n, Spec (tkNextRunableThread { k1 with npreempt := n }) (fun t =>
            (yieldMachine cfg).Along (Calm p T)
              ⟨({ k1 with npreempt := n } : Kernel cfg).dispatch t,ds ++ [t]⟩ clks)
            (fun _ => True) := fun n => tkNextRunableThread_spec.imp fun t _ => hgo n t
        simp only [yieldNext,hsweep,spec_bind,spec_ok,spec_ite,spec_check,spec_pure,implies_true,
          and_true]
        exact ⟨fun _ _ => hnext _,fun _ => hnext _⟩
      exact hspec.of_ok hstep.2

end

/-- The live cells of a table are a finite matter. -/
theorem liveCells_of_rows {k : Kernel cfg}
    (hrow : ∀ p < cfg.maxPrioLevels, k.procs p ≤ cfg.maxThreadsAtPrio)
    (hcell : ∀ p < cfg.maxPrioLevels, ∀ i < cfg.maxThreadsAtPrio, i < k.procs p →
      (k.pool (k.schedule p i)).valid = true ∧ (k.pool (k.schedule p i)).prio = p ∧
      (k.pool (k.schedule p i)).idx = i) (p i : ℕ) (hl : LiveCell k p i) :
    (k.pool (k.schedule p i)).valid = true ∧ (k.pool (k.schedule p i)).prio = p ∧
      (k.pool (k.schedule p i)).idx = i ∧ k.schedule p i ∉ (∅ : Finset (Thid cfg)) := by
  obtain ⟨hv,hpr,hidx⟩ := hcell p hl.1 i (hl.2.trans_le (hrow p hl.1)) hl.2
  exact ⟨hv,hpr,hidx,Finset.notMem_empty _⟩

/-- Two ready threads of the highest priority, and the idle thread. -/
def twoReady : Kernel gnuArm :=
  { clearKernel with
    pool := fun t => { zombiTcb with
      thid := t
      valid := decide (t.val < 3)
      state := if t.val < 3 then .ready else .zombi
      prio := if t.val < 2 then 0 else 15
      idx := if t.val = 1 then 1 else 0 }
    schedule := fun p i => if p = 0 then (if i = 1 then 1 else 0) else 2
    prioIdxs := fun p => if p = 0 then ⟨2,0⟩ else if p = 15 then ⟨1,0⟩ else ⟨0,0⟩
    procsInUse := 3
    idleThid := 2 }

theorem twoReady_inv : ScheduleInv twoReady ∅ where
  row_le := by decide
  live := liveCells_of_rows (by decide) (by decide)
  placed := by decide
  out_valid := by decide
  in_use := by decide
  curr := by decide

theorem twoReady_calm : (yieldMachine gnuArm).Along (Calm 0 {0,1}) ⟨twoReady,[]⟩ [20,40] :=
  Foremost.calm ⟨by decide,by decide,by decide⟩ (by unfold Alive; decide) (by decide) _ _

theorem yieldRun_sticks_twoReady : ∃ s, (yieldMachine gnuArm).run ⟨twoReady,[]⟩ [20,40] = some s ∧
    s.dispatched = [0,0] ∧ ¬∃ s, (yieldMachine gnuArm).run ⟨twoReady,[]⟩ [20,40] = some s ∧
      ∀ t ∈ ({0,1} : Finset (Thid gnuArm)), s.dispatched.count t = 1 := by
  obtain ⟨s,hr,hd⟩ := (yieldMachine gnuArm).exists_run (fun s => s.dispatched = [0,0]) ⟨twoReady,[]⟩
    [20,40] (by decide +kernel)
  exact ⟨s,hr,hd,(yieldRun_sticks twoReady_inv (by decide) twoReady_calm).2⟩

theorem yieldRun_not_fair : ¬∀ (k : Kernel gnuArm) (p : ℕ) (T : Finset (Thid gnuArm))
    (clks : List Clock), ScheduleInv k ∅ → 2 ≤ T.card →
    (yieldMachine gnuArm).Along (Calm p T) ⟨k,[]⟩ clks → clks.length = T.card →
    ∃ s, (yieldMachine gnuArm).run ⟨k,[]⟩ clks = some s ∧ ∀ t ∈ T, s.dispatched.count t = 1 := by
  intro h
  obtain ⟨s,hr,hc⟩ := h twoReady 0 {0,1} [20,40] twoReady_inv (by decide) twoReady_calm rfl
  have hd : ((yieldMachine gnuArm).run ⟨twoReady,[]⟩ [20,40]).all
    (fun s => decide (s.dispatched.count 1 = 0)) = true := by decide +kernel
  rw [hr] at hd
  have h0 : s.dispatched.count 1 = 0 := of_decide_eq_true hd
  have h1 := hc 1 (by decide)
  omega

end Tinker

import Tinker.Dispatch
import Tinker.Moves

/-! Dead threads in the whole kernel: the `ZOMBI` bit is set by deaths only and cleared by nobody. -/
namespace Tinker

open Kernel Outcome

variable {cfg : Config} {numQ : ℕ}

section

variable {w w' : World cfg numQ} {l : WorldLabel cfg numQ} {k : Kernel cfg} {t : Thid cfg}

/-- A creation resets the control block of the free slot it takes and no other. -/
theorem Begun.state {r : ThreadReq} {k' : Kernel cfg} (h : Begun k r k' t) (u : Thid cfg) :
    (k'.pool u).state = if u = t then .ready else (k.pool u).state := by
  rw [h.pool]
  split <;> split <;> simp_all [newTcb]

/-- Nothing but an outside deletion kills the idle thread. -/
theorem World.Does.idle_lives (h : w.Does l w') (hl : l ≠ .delete w.kernel.idleThid)
    (hi : (w.kernel.pool w.kernel.idleThid).state.has .zombi = false) :
    w'.kernel.idleThid = w.kernel.idleThid ∧
    (w'.kernel.pool w'.kernel.idleThid).state.has .zombi = false := by
  by_cases hc : ∃ r, l = .create r
  · obtain ⟨r,rfl⟩ := hc
    cases h with
    | syncs hs => cases hs
    | creates hr hk =>
      have hb := (tkCreateThreadBegin_begun w.kernel r).of_ok hk
      have hb : Begun w.kernel r _ _ := hb
      have hid := congrArg Kernel.idleThid hb.eq
      refine ⟨hid,?_⟩
      simp only [World.created]
      rw [hid,hb.state]
      split
      · simp
      · exact hi
  · have hc : ∀ r, l ≠ .create r := fun r hr => hc ⟨r,hr⟩
    refine ⟨h.idleThid hc,?_⟩
    rw [h.idleThid hc]
    refine h.keep (I:=fun b => b.state.has .zombi = false) hc (fun m b b' hm hb => hb.lives ?_) hi
    rintro rfl
    obtain hd | ⟨_,hme,hne⟩ := hm
    · exact hl hd
    · exact hne hme.symm

/-- A dead thread stays dead, but for the creation that takes its slot. -/
theorem World.Does.dead_stays (h : w.Does l w') (hz : (w.kernel.pool t).state.has .zombi = true) :
    (w'.kernel.pool t).state.has .zombi = true ∨
    ∃ r k', l = .create r ∧ tkCreateThreadBegin w.kernel r = .ok (k',t) := by
  by_cases hc : ∃ r, l = .create r
  · obtain ⟨r,rfl⟩ := hc
    cases h with
    | syncs hs => cases hs
    | @creates _ k' u hr hk =>
      by_cases hu : t = u
      · subst hu; exact Or.inr ⟨r,k',rfl,hk⟩
      · have hb : Begun w.kernel r k' u := (tkCreateThreadBegin_begun w.kernel r).of_ok hk
        left
        simp only [World.created]
        rw [hb.state,if_neg hu]
        exact hz
  · exact Or.inl (h.keep (I:=fun b => b.state.has .zombi = true) (fun r hr => hc ⟨r,hr⟩)
      (fun _ _ _ _ hb => hb.dead_stays) hz)

/-- The thread is dead and the scheduler passes it over, before a sweep and after it. -/
structure StaysDead (k : Kernel cfg) (t : Thid cfg) : Prop where
  zombi : (k.pool t).state.has .zombi = true
  not_ready : (k.pool t).state ≠ .ready
  not_next : tkNextRunableThread k ≠ .ok t
  not_swept : ∀ clk k', tkWakeupTimedoutThreads k clk = .ok k' →
    (k'.pool t).state ≠ .ready ∧ tkNextRunableThread k' ≠ .ok t

theorem not_ready_of_zombi (hz : (k.pool t).state.has .zombi = true) : (k.pool t).state ≠ .ready := by
  intro hr
  rw [hr] at hz
  cases hz

theorem not_next_of_zombi (hi : (k.pool k.idleThid).state.has .zombi = false)
    (hz : (k.pool t).state.has .zombi = true) : tkNextRunableThread k ≠ .ok t := by
  intro hn
  obtain hr | rfl := tkNextRunableThread_spec.of_ok hn
  · exact not_ready_of_zombi hz hr
  · rw [hi] at hz; cases hz

theorem StaysDead.of_zombi (hi : (k.pool k.idleThid).state.has .zombi = false)
    (hz : (k.pool t).state.has .zombi = true) : StaysDead k t where
  zombi := hz
  not_ready := not_ready_of_zombi hz
  not_next := not_next_of_zombi hi hz
  not_swept := by
    intro clk k' hk
    have hs := tkWakeupTimedoutThreads_moves.of_ok hk
    have hi' : (k'.pool k'.idleThid).state.has .zombi = false := by
      rw [hs.idle]
      refine hs.keep (I:=fun b => b.state.has .zombi = false) (fun m b b' hm hb => hb.lives ?_) hi
      rintro rfl
      obtain (h | h) | h := hm <;> cases h
    have hz' : (k'.pool t).state.has .zombi = true :=
      hs.keep (I:=fun b => b.state.has .zombi = true) (fun _ _ _ _ hb => hb.dead_stays) hz
    exact ⟨not_ready_of_zombi hz',not_next_of_zombi hi' hz'⟩

end

/-- The idle thread is the one the kernel was created with, and lives. -/
def IdleLives (idle : Thid cfg) (w : World cfg numQ) : Prop :=
  w.kernel.idleThid = idle ∧ (w.kernel.pool idle).state.has .zombi = false

theorem worldRun_idleLives {idle : Thid cfg} {w w' : World cfg numQ}
    {ls : List (WorldLabel cfg numQ)} (hi : IdleLives idle w) (hls : ∀ l ∈ ls, l ≠ .delete idle)
    (hr : (worldMachine cfg numQ).run w ls = some w') : IdleLives idle w' := by
  induction ls generalizing w with
  | nil => simp only [Machine.run,Option.some.injEq] at hr; exact hr ▸ hi
  | cons l ls ih =>
    obtain ⟨m,hm,hr⟩ := (Machine.run_cons _).mp hr
    obtain ⟨hid,hz⟩ := hi
    have hstep := (worldStep_does hm).idle_lives (by rw [hid]; exact hls l List.mem_cons_self)
      (by rw [hid]; exact hz)
    refine ih ⟨hstep.1.trans hid,?_⟩ (fun l hl => hls l (List.mem_cons_of_mem _ hl)) hr
    rw [← hid,← hstep.1]
    exact hstep.2

/-- However the run goes on, a dead thread stays dead and out of the scheduler's hands, unless its
slot has been freed and a creation takes it. -/
theorem worldRun_deadStays {clk : Clock} {k : Kernel cfg} (hk : tkCreateKernel clk = .ok k)
    {i : Fin numQ} {pre ls : List (WorldLabel cfg numQ)} {w w' : World cfg numQ}
    (hidle : ∀ l ∈ pre ++ ls, l ≠ .delete k.idleThid)
    (hpre : (worldMachine cfg numQ).run (worldInit k i) pre = some w)
    (hls : (worldMachine cfg numQ).run w ls = some w') {t : Thid cfg}
    (hz : (w.kernel.pool t).state.has .zombi = true) :
    StaysDead w'.kernel t ∨ ∃ a r b m k', ls = a ++ .create r :: b ∧
      (worldMachine cfg numQ).run w a = some m ∧ StaysDead m.kernel t ∧
      (m.kernel.pool t).valid = false ∧ tkCreateThreadBegin m.kernel r = .ok (k',t) := by
  have hboot : Booted k := (tkCreateKernel_spec clk).of_ok hk
  have h0 : IdleLives k.idleThid (worldInit k i) := by
    refine ⟨rfl,?_⟩
    have hready := (hboot.own k.idleThid ((hboot.valid _).mpr (Or.inr rfl))).2.2
    have hready : ((worldInit k i).kernel.pool k.idleThid).state = .ready := hready
    rw [hready]
    rfl
  have hw := worldRun_idleLives h0 (fun l hl => hidle l (List.mem_append_left _ hl)) hpre
  have hdead : ∀ {m : World cfg numQ}, IdleLives k.idleThid m →
      (m.kernel.pool t).state.has .zombi = true →
      StaysDead m.kernel t := fun hm hz => StaysDead.of_zombi (by rw [hm.1]; exact hm.2) hz
  obtain hend | ⟨a,l,b,m,rfl,ha,hz',r,k',rfl,hc⟩ := (worldMachine cfg numQ).run_unless
    (I:=fun w => (w.kernel.pool t).state.has .zombi = true)
    (fun s l s' hz hstep => (worldStep_does hstep).dead_stays hz) hz hls
  · exact Or.inl (hdead (worldRun_idleLives hw (fun l hl => hidle l (List.mem_append_right _ hl))
      hls) hend)
  · have hm := worldRun_idleLives hw (fun l hl => hidle l
      (List.mem_append_right _ (List.mem_append_left _ hl))) ha
    have hb : Begun m.kernel r k' t := (tkCreateThreadBegin_begun m.kernel r).of_ok hc
    exact Or.inr ⟨a,r,b,m,k',rfl,ha,hdead hm hz',hb.free,hc⟩

/-- A thread returns from its start function while its parent still creates it. -/
def endSteps : List (WorldLabel gnuArm 4) :=
  [.createItc (.sem 1 fifo) true,.create ⟨"a",1,0,true⟩,.yield 2,.exit 7]

/-- The root thread takes a token, joins the dead thread and deletes it. -/
def afterEndSteps : List (WorldLabel gnuArm 4) :=
  [.yield root,.resume,.take .sem 0 fifo 0 0,.join 2,.delete 2]

theorem worldRun_deadStays_join : ∃ (k : Kernel gnuArm) (w w' : World gnuArm 4),
    (worldMachine gnuArm 4).run (worldInit k 0) endSteps = some w ∧
    (worldMachine gnuArm 4).run w afterEndSteps = some w' ∧
    (w.kernel.pool 2).valid = true ∧ (w.kernel.pool 2).state.has .zombi = true ∧
    (w'.kernel.pool 2).valid = false ∧ StaysDead w'.kernel 2 := by
  obtain ⟨k,hk,hp⟩ : ∃ k : Kernel gnuArm, tkCreateKernel 0 = .ok k ∧
      (decide (k.idleThid = 1) && ((worldMachine gnuArm 4).run (worldInit k 0) endSteps).any fun w =>
        (w.kernel.pool 2).valid && (w.kernel.pool 2).state.has .zombi &&
        ((worldMachine gnuArm 4).run w afterEndSteps).any fun w' =>
          !(w'.kernel.pool 2).valid && (w'.kernel.pool 2).state.has .zombi) = true :=
    exists_ok (by decide +kernel)
  simp only [Bool.and_eq_true,Option.any_eq_true,Bool.not_eq_true',decide_eq_true_eq] at hp
  obtain ⟨hid,w,hpre,⟨hv,hz⟩,w',hls,hv',_⟩ := hp
  have hidle : ∀ l ∈ endSteps ++ afterEndSteps, l ≠ .delete k.idleThid := by
    rw [hid]
    simp [endSteps,afterEndSteps]
  obtain hdead | ⟨a,r,b,m,k',hab,_⟩ := worldRun_deadStays hk hidle hpre hls hz
  · exact ⟨k,w,w',hpre,hls,hv,hz,hv',hdead⟩
  · have hr : WorldLabel.create r ∈ afterEndSteps := by rw [hab]; simp
    simp [afterEndSteps] at hr

end Tinker

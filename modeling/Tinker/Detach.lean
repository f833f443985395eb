import Tinker.Family
import Tinker.System

/-! `tk_detach`. Its test for a parent is the wrong way round, so it turns away the threads that
have one; the statements behind the test would do what a detach is to do. -/
namespace Tinker

open Kernel Outcome

variable {cfg : Config}

inductive DetachResult
  | zero | einval | esrch
  deriving DecidableEq

/-- `tk_detach`. -/
def tkDetach (k : Kernel cfg) (t : Thid cfg) : Except Fault (Kernel cfg × DetachResult) :=
  if (k.pool t).valid ≠ true then .ok (k,.esrch)
  else if (k.pool t).gid ≠ none then .ok (k,.einval)
  else do
    let (k,_) ← tkTryDetachParent k t true
    return (k,.zero)

/-- Thread `t` has lost its parent `p`, which no longer counts it nor waits for it, and the sweep of
any other thread takes it out of the table once it is dead. -/
structure Detached (k : Kernel cfg) (t p : Thid cfg) (k' : Kernel cfg) : Prop where
  gid : (k'.pool t).gid = none
  noChilds : (k'.pool p).noChilds = (k.pool p).noChilds-1
  released : waitsFor (k.pool p) t = true →
    (k'.pool p).state = (k.pool p).state &&& ~~~ProcState.term ∧
      (k'.pool p).wakeupEvent = .childDeath
  reclaimed : ∀ (later : Kernel cfg) (clk : Clock), (later.pool t).gid = (k'.pool t).gid →
    (later.pool t).valid = true → (later.pool t).state.has .zombi = true → t ≠ later.activeThread →
    later.npreempt = 0 →
    Spec (sweepThread clk later t) (fun k => (k.pool t).valid = false) (fun _ => True)

/-- What `tk_detach` of a valid thread is to do. -/
structure DetachesRight (k : Kernel cfg) (t : Thid cfg)
    (r : Except Fault (Kernel cfg × DetachResult)) : Prop where
  attached : ∀ p, (k.pool t).gid = some p → ∃ k', r = .ok (k',.zero) ∧ Detached k t p k'
  einval : (∃ k', r = .ok (k',.einval)) ↔ (k.pool t).gid = none
  unchanged : ∀ k', r = .ok (k',.einval) → k' = k

section

variable {k : Kernel cfg} {t p : Thid cfg}

theorem tkDetach_attached (ht : (k.pool t).valid = true) (hg : (k.pool t).gid = some p) :
    tkDetach k t = .ok (k,.einval) := by
  rw [tkDetach,if_neg (not_not_intro ht),if_pos (by rw [hg]; rintro ⟨⟩)]

theorem tkDetach_detached (ht : (k.pool t).valid = true) (hg : (k.pool t).gid = none) :
    tkDetach k t = .ok (k,.zero) := by
  have htry : tkTryDetachParent k t true = .ok (k,true) := by rw [tkTryDetachParent,hg]
  rw [tkDetach,if_neg (not_not_intro ht),if_neg (not_not_intro hg),htry]
  rfl

/-- `tk_detach` changes nothing, whatever it returns. -/
theorem tkDetach_kernel (k : Kernel cfg) (t : Thid cfg) : ∃ e, tkDetach k t = .ok (k,e) := by
  by_cases ht : (k.pool t).valid = true
  · cases hg : (k.pool t).gid with
    | none => exact ⟨.zero,tkDetach_detached ht hg⟩
    | some p => exact ⟨.einval,tkDetach_attached ht hg⟩
  · exact ⟨.esrch,if_pos ht⟩

/-- A dead thread without a parent leaves the table in the next sweep of another thread. -/
theorem sweepThread_reclaims {clk : Clock} (hg : (k.pool t).gid = none)
    (ht : (k.pool t).valid = true) (hz : (k.pool t).state.has .zombi = true)
    (hna : t ≠ k.activeThread) (hn : k.npreempt = 0) :
    Spec (sweepThread clk k t) (fun k' => (k'.pool t).valid = false) (fun _ => True) := by
  have hzt : ((k.modTcb t (timerTest (actTimeUs clk))).pool t).state.has .zombi = true := by
    rw [Kernel.modTcb_pool,if_pos rfl,timerTest_has_zombi,hz]
  have hgt : ((k.modTcb t (timerTest (actTimeUs clk))).pool t).gid = none := by
    rw [Kernel.modTcb_pool,if_pos rfl,timerTest_eq,hg]
  have hvt : ((k.modTcb t (timerTest (actTimeUs clk))).pool t).valid = true := by
    rw [Kernel.modTcb_pool,if_pos rfl,timerTest_eq,ht]
  have hcond : (((k.modTcb t (timerTest (actTimeUs clk))).pool t).state.has .zombi &&
      decide (t ≠ (k.modTcb t (timerTest (actTimeUs clk))).activeThread)) = true := by
    rw [hzt,Kernel.modTcb_activeThread,decide_eq_true hna]
    rfl
  have htry : tkTryDetachParent (k.modTcb t (timerTest (actTimeUs clk))) t false =
      .ok (k.modTcb t (timerTest (actTimeUs clk)),true) := by
    rw [tkTryDetachParent,hgt]
  have hkill : killThread (k.modTcb t (timerTest (actTimeUs clk))) t =
      .ok (k.modTcb t (timerTest (actTimeUs clk)),true) := if_pos hzt
  have hbury : ∀ k1 : Kernel cfg, Spec (bury k1 t) (fun k' => (k'.pool t).valid = false)
      (fun _ => True) := by
    intro k1
    simp only [bury,spec_bind,spec_check,spec_pure]
    refine spec_of_forall fun x => ⟨fun _ => ?_,fun _ => trivial⟩
    refine spec_of_forall fun procs => spec_of_forall fun k2 => ?_
    rw [Kernel.modTcb_pool,if_pos rfl]
  rw [sweepThread,if_neg (by omega),ht]
  simp only [Bool.true_eq_false,if_false]
  rw [if_pos hcond,spec_bind,htry]
  simp only [spec_ok,if_true,spec_bind]
  rw [tkDeleteThread,hvt]
  simp only [Bool.true_eq_false,if_false,spec_bind,hkill,spec_ok,if_true,spec_pure]
  exact hbury _

/-- Behind the test stands what a detach is to do. -/
theorem FamilyInv.tryDetach_forced (h : FamilyInv k) (ht : (k.pool t).valid = true)
    (hg : (k.pool t).gid = some p) (hpt : p ≠ t) :
    ∃ k', tkTryDetachParent k t true = .ok (k',true) ∧ Detached k t p k' := by
  have hp := h.parent t p ht hg hpt
  obtain ⟨hpos,_⟩ := h.leave ht hg hpt
  let k1 := if waitsFor (k.pool p) t = true then
    k.modTcb p (unblockParent t (k.pool t).retval) else k
  have hn : (k1.pool p).noChilds = (k.pool p).noChilds := by
    simp only [k1]
    split
    · rw [Kernel.modTcb_pool,if_pos rfl]
      rfl
    · rfl
  let k2 := (k1.modTcb p fun b => { b with noChilds := b.noChilds-1 })
  have hn2 : (k2.pool p).noChilds = (k.pool p).noChilds-1 := by
    simp only [k2,Kernel.modTcb_pool,if_true,hn]
  refine ⟨k2.modTcb t fun b => { b with gid := none },?_,?_⟩
  · rw [tkTryDetachParent,hg]
    simp only [check,if_pos hp,Bool.or_true,if_true,bind,Except.bind]
    rw [if_pos (show 0 ≤ (k2.pool p).noChilds by rw [hn2]; omega)]
    rfl
  · have hother : (k2.modTcb t fun b => { b with gid := none }).pool p = k2.pool p := by
      rw [Kernel.modTcb_pool,if_neg hpt]
    have hnone : ((k2.modTcb t fun b => { b with gid := none }).pool t).gid = none := by
      rw [Kernel.modTcb_pool,if_pos rfl]
    refine ⟨hnone,by rw [hother,hn2],fun hw => ?_,fun later clk hl hv hz hna hnp => ?_⟩
    · rw [hother]
      simp only [k2,k1,if_pos hw,Kernel.modTcb_pool,if_true,unblockParent,and_self]
    · exact sweepThread_reclaims (hl.trans hnone) hv hz hna hnp

/-- No valid thread is detached the way it is to be. -/
theorem tkDetach_not_right (ht : (k.pool t).valid = true) : ¬DetachesRight k t (tkDetach k t) := by
  intro h
  cases hg : (k.pool t).gid with
  | none =>
    obtain ⟨k',hk⟩ := h.einval.mpr hg
    rw [tkDetach_detached ht hg] at hk
    cases hk
  | some p =>
    obtain ⟨k',hk,_⟩ := h.attached p hg
    rw [tkDetach_attached ht hg] at hk
    cases hk

end

theorem tkDetach_not_right_child :
    ¬DetachesRight fiveThreads 1 (tkDetach fiveThreads 1) :=
  tkDetach_not_right (k:=fiveThreads) (t:=1) (by decide)

/-- The root thread creates a thread. -/
def childSteps : List (WorldLabel gnuArm 4) := [.create ⟨"a",3,0,true⟩,.yield root,.resume]

/-- The child of the root thread is not detached. -/
theorem worldRun_not_detaches : ¬∀ (k : Kernel gnuArm) (ls : List (WorldLabel gnuArm 4))
    (w : World gnuArm 4) (t : Thid gnuArm), tkCreateKernel 0 = .ok k →
    (worldMachine gnuArm 4).run (worldInit k 0) ls = some w → (w.kernel.pool t).valid = true →
    DetachesRight w.kernel t (tkDetach w.kernel t) := by
  intro h
  obtain ⟨k,w,hk,hr,hv,hg⟩ := (worldMachine gnuArm 4).exists_start (x:=tkCreateKernel 0)
    (fun w => (w.kernel.pool 2).valid = true ∧ (w.kernel.pool 2).gid = some root)
    (worldInit · 0) childSteps (by decide +kernel)
  obtain ⟨k',he,_⟩ := (h k childSteps w 2 hk hr hv).attached root hg
  rw [tkDetach_attached hv hg] at he
  cases he

end Tinker

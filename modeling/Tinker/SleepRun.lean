import Tinker.TimeoutRun

/-! `tk_msleep` in the whole kernel. The wake-up time is a product and a sum of 32 bits, and the
sweep takes a signed difference to it. -/
namespace Tinker

open Kernel Outcome

variable {cfg : Config} {numQ : ℕ}

/-- The sweep's timer test ends the sleep of a thread. -/
def TimerWakes (clk : Clock) (b : Tcb cfg) : Prop :=
  b.state.has .sleep = true ∧ (timerTest (actTimeUs clk) b).state.has .sleep = false

theorem timerWakes_iff {clk : Clock} {b : Tcb cfg} : TimerWakes clk b ↔
    b.state.has .sleep = true ∧ 0 ≤ tkDifftime (actTimeUs clk) b.wakeuptime := by
  unfold TimerWakes
  refine and_congr_right fun hs => ?_
  unfold timerTest
  rw [hs,Bool.true_and]
  split
  · next h => exact iff_of_true (ProcState.clear_queueSleep_has_sleep _) (of_decide_eq_true h)
  · next h =>
    refine iff_of_false ?_ fun hd => h (decide_eq_true hd)
    rw [hs]
    exact Bool.noConfusion

/-! ### The arithmetic -/

/-- The wake-up time of a sleep of `ms` milliseconds from the microsecond `since` on. -/
def napEnd (since : ℕ) (ms : BitVec 32) : Clock := actTimeUs (BitVec.ofNat 32 since) + ms * 1000

theorem napEnd_eq (since : ℕ) (ms : BitVec 32) :
    napEnd since ms = BitVec.ofNat 32 (since+1000*ms.toNat) := by
  have hunit : BitVec.toNat ((1000000/clocksPerSec : ℕ) : Clock) = 1 := rfl
  have hmilli : BitVec.toNat (1000 : BitVec 32) = 1000 := rfl
  apply BitVec.eq_of_toNat_eq
  simp only [napEnd,actTimeUs,BitVec.toNat_add,BitVec.toNat_mul,BitVec.toNat_ofNat,hunit,hmilli]
  omega

/-- The difference the sweep tests is the true one modulo `2^32`. -/
theorem difftime_napEnd (since now : ℕ) (ms : BitVec 32) :
    tkDifftime (actTimeUs (BitVec.ofNat 32 now)) (napEnd since ms) =
      Int.bmod ((now : ℤ)-(since+1000*ms.toNat : ℕ)) (2^32) := by
  have hus : actTimeUs (BitVec.ofNat 32 now) = BitVec.ofNat 32 now := by
    simp [actTimeUs,clocksPerSec]
  rw [tkDifftime,napEnd_eq,hus,BitVec.toInt_sub,BitVec.toInt_ofNat',BitVec.toInt_ofNat',
    Int.bmod_sub_bmod,Int.sub_bmod_bmod]

/-- The test never comes out early just for the durations of at most `2^31` microseconds. -/
theorem napEnd_never_early_iff (since : ℕ) (ms : BitVec 32) :
    (∀ d : ℕ, 0 ≤ tkDifftime (actTimeUs (BitVec.ofNat 32 (since+d))) (napEnd since ms) →
      1000*ms.toNat ≤ d) ↔ ms.toNat ≤ 2147483 := by
  simp only [difftime_napEnd]
  constructor
  · intro h
    by_contra hlt
    -- one reading at which the test comes out early
    by_cases hM : 1000*ms.toNat < 2^32
    · have h0 := h 0
      have hneg : Int.bmod (((since+0 : ℕ) : ℤ)-(since+1000*ms.toNat : ℕ)) (2^32) =
          2^32-1000*ms.toNat := by
        rw [show (((since+0 : ℕ) : ℤ)-(since+1000*ms.toNat : ℕ)) =
          (2^32-1000*ms.toNat : ℤ)+((2^32 : ℕ) : ℤ)*(-1) by omega,Int.add_mul_bmod_self_left]
        exact Int.bmod_eq_of_le (by omega) (by omega)
      rw [hneg] at h0
      omega
    · have h0 := h (1000*ms.toNat % 2^32)
      have hzero : Int.bmod (((since+1000*ms.toNat % 2^32 : ℕ) : ℤ)-(since+1000*ms.toNat : ℕ)) (2^32) =
          0 := by
        have hdiv := Nat.div_add_mod (1000*ms.toNat) (2^32)
        rw [show (((since+1000*ms.toNat % 2^32 : ℕ) : ℤ)-(since+1000*ms.toNat : ℕ)) =
          0+((2^32 : ℕ) : ℤ)*(-(1000*ms.toNat/2^32 : ℕ)) by omega,Int.add_mul_bmod_self_left]
        rfl
      rw [hzero] at h0
      have := h0 (le_refl 0)
      have := Nat.mod_lt (1000*ms.toNat) (show 0 < 2^32 by decide)
      omega
  · intro hle d hd
    by_contra hlt
    rw [Int.bmod_eq_of_le (by omega) (by omega)] at hd
    omega

/-! ### The sleep in a run -/

section

variable {w w' : World cfg numQ} {l : WorldLabel cfg numQ} {t : Thid cfg}

/-- What others assign leaves a sleep as it is or ends it. -/
theorem TcbMove.nap {b b' : Tcb cfg} {m : MoveKind} (hm : TcbMove b m b') (ho : m ≠ .own)
    (hs : b'.state.has .sleep = true) :
    b.state.has .sleep = true ∧ b'.wakeuptime = b.wakeuptime := by
  refine ⟨?_,?_⟩
  · by_contra hb
    rw [hm.awake ho (Bool.eq_false_iff.mpr hb)] at hs
    cases hs
  · cases hm with
    | timer us => rw [timerTest_eq]
    | goesToSleep | blocksOn | joins | msleeps => exact absurd rfl ho
    | _ => rfl

/-- A thread that is not running, or has just called `tk_yield`, keeps its wake-up time as long as
it sleeps. -/
structure Napping (t : Thid cfg) (wakeuptime : Clock) (w : World cfg numQ) : Prop where
  yields : w.me = t → w.yielding = true
  wakes : (w.kernel.pool t).state.has .sleep = true → (w.kernel.pool t).wakeuptime = wakeuptime

/-- A state in which the running thread has called `tk_yield` offers a yield and the passing of
time only. -/
theorem World.yielding_labels (hy : w.yielding = true) (he : worldEnabled w l = true) :
    (∃ u, l = .yield u) ∨ ∃ us, l = .advance us := by
  have hr : w.runs = false := by rw [World.runs,hy]; rfl
  cases l with
  | yield u => exact Or.inl ⟨u,rfl⟩
  | advance us => exact Or.inr ⟨us,rfl⟩
  | exit retval => simp [worldEnabled,hr] at he
  | resume => simp [worldEnabled,hy] at he
  | _ => exact absurd (hr.symm.trans he) Bool.false_ne_true

/-- No step but its dispatch changes the wake-up time of a sleeper. -/
theorem Napping.step {dl : Clock} (h : Napping t dl w) (hl : l ≠ .yield t)
    (hm : (worldMachine cfg numQ).Step w l w') : Napping t dl w' := by
  have hd := worldStep_does hm
  have he : worldEnabled w l = true := hm.1
  clear hm
  have hkeep : ∀ (m : MoveKind) (b b' : Tcb cfg), m ≠ .own → TcbMove b m b' →
      (b.state.has .sleep = true → b.wakeuptime = dl) →
      b'.state.has .sleep = true → b'.wakeuptime = dl := by
    intro m b b' ho hb hi hsl
    obtain ⟨h1,h2⟩ := hb.nap ho hsl
    rw [h2]
    exact hi h1
  by_cases hy : ∃ u, l = .yield u
  · obtain ⟨u,rfl⟩ := hy
    obtain ⟨k,hk,_,rfl⟩ := hd.sweeps
    refine ⟨fun hme => absurd (congrArg WorldLabel.yield hme) hl,?_⟩
    refine hk.keep (I:=fun b => b.state.has .sleep = true → b.wakeuptime = dl)
      (fun m b b' hm => hkeep m b b' ?_) h.wakes
    rintro rfl
    obtain (hm | hm) | hm := hm <;> cases hm
  by_cases hc : ∃ r, l = .create r
  · obtain ⟨r,rfl⟩ := hc
    cases hd with
    | syncs hs => cases hs
    | @creates _ k u hr hk =>
      have hb : Begun w.kernel r k u := (tkCreateThreadBegin_begun _ _).of_ok hk
      refine ⟨fun _ => rfl,fun hsl => ?_⟩
      have hp := hb.pool t
      by_cases hut : t = u
      · -- a new thread in the slot is ready
        have hready : (k.pool t).state = .ready := by
          rw [hp,if_pos hut,if_pos hut]
          split <;> rfl
        change (k.pool t).state.has .sleep = true at hsl
        rw [hready,ProcState.has_ready] at hsl
        cases hsl
      · have hsame : (k.pool t).state = (w.kernel.pool t).state ∧
            (k.pool t).wakeuptime = (w.kernel.pool t).wakeuptime := by
          rw [hp,if_neg hut,if_neg hut]
          split <;> exact ⟨rfl,rfl⟩
        change (k.pool t).state.has .sleep = true at hsl
        exact hsame.2.trans (h.wakes (hsame.1 ▸ hsl))
  have hm := hd.moves (fun r hr => hc ⟨r,hr⟩) fun u hu => hy ⟨u,hu⟩
  have hact : w'.me = w.me := hm.active
  by_cases hme : w.me = t
  · obtain hyl | ⟨us,rfl⟩ := World.yielding_labels (h.yields hme) he
    · exact absurd hyl hy
    · cases hd with
      | syncs hs => cases hs
      | advances => exact ⟨h.yields,h.wakes⟩
  · refine ⟨fun ha => absurd (hact.symm.trans ha) hme,?_⟩
    refine hm.keep (I:=fun b => b.state.has .sleep = true → b.wakeuptime = dl)
      (fun m b b' hK => hkeep m b b' ?_) h.wakes
    rintro rfl
    exact hme (Eq.symm hK)

theorem napping_msleep (w : World cfg numQ) (ms : BitVec 32) :
    Napping w.me (napEnd w.now ms) (w.msleep ms) := by
  have hact : w.me = w.kernel.activeThread := rfl
  refine ⟨fun _ => rfl,fun _ => ?_⟩
  simp only [World.msleep,World.goTo,World.setKernel,tkMsleep,Kernel.modTcb_pool,hact,if_true]
  rfl

/-- Until the sleeper is dispatched again its wake-up time is the one it computed. -/
theorem napping_run {ls : List (WorldLabel cfg numQ)} {ms : BitVec 32}
    (hl : ∀ l ∈ ls, l ≠ .yield w.me) (hr : (worldMachine cfg numQ).run (w.msleep ms) ls = some w') :
    Napping w.me (napEnd w.now ms) w' :=
  (worldMachine cfg numQ).run_invariant (C:=fun _ l => l ≠ .yield w.me)
    (fun _ _ _ hi hc hs => hi.step hc hs) (napping_msleep w ms)
    ((worldMachine cfg numQ).along_of_forall hl) hr

/-- A sweep ends a sleep only where the timer test does. -/
theorem World.Does.sweep_wakes {u : Thid cfg} (h : w.Does (.yield u) w')
    (hs : (w.kernel.pool t).state.has .sleep = true) (hs' : (w'.kernel.pool t).state.has .sleep = false) :
    TimerWakes w.clock (w.kernel.pool t) := by
  obtain ⟨k,hk,_,rfl⟩ := h.sweeps
  by_contra hn
  have hkeep : (k.pool t).state.has .sleep = true ∧
      (k.pool t).wakeuptime = (w.kernel.pool t).wakeuptime := by
    refine hk.keep (I:=fun b => b.state.has .sleep = true ∧
      b.wakeuptime = (w.kernel.pool t).wakeuptime) (fun m b b' hm hb hi => ?_) ⟨hs,rfl⟩
    obtain ⟨hsl,hwt⟩ := hi
    obtain (rfl | rfl) | rfl := hm
    · cases hb <;> exact ⟨hsl,hwt⟩
    · cases hb with
      | told c v => exact ⟨(ProcState.clear_term_has_sleep _).trans hsl,hwt⟩
    · cases hb with
      | timer =>
        have hearly : ¬0 ≤ tkDifftime (actTimeUs w.clock) b.wakeuptime := fun hd =>
          hn (timerWakes_iff.mpr ⟨hs,hwt ▸ hd⟩)
        rw [timerTest,hsl,decide_eq_false hearly]
        exact ⟨hsl,hwt⟩
  rw [show (k.pool t).state.has .sleep = false from hs'] at hkeep
  cases hkeep.1

/-- No sweep ends a `tk_msleep` too early, whatever happens until the sleeper runs again, just when
the time is at most `2^31` microseconds. -/
theorem msleep_never_early_iff (w : World cfg numQ) (ms : BitVec 32) :
    (∀ (ls : List (WorldLabel cfg numQ)) (w' : World cfg numQ), (∀ l ∈ ls, l ≠ .yield w.me) →
      (worldMachine cfg numQ).run (w.msleep ms) ls = some w' →
      TimerWakes w'.clock (w'.kernel.pool w.me) → w.now+1000*ms.toNat ≤ w'.now) ↔
    ms.toNat ≤ 2147483 := by
  rw [← napEnd_never_early_iff w.now ms]
  constructor
  · intro h d hd
    let w' : World cfg numQ := { w.msleep ms with now := w.now+d }
    have hlone : ∀ l ∈ [(.advance d : WorldLabel cfg numQ)], l ≠ .yield w.me := by
      intro l hl
      rw [List.mem_singleton.mp hl]
      nofun
    have hrun : (worldMachine cfg numQ).run (w.msleep ms) [.advance d] = some w' := rfl
    have hsl : (w'.kernel.pool w.me).state.has .sleep = true := by
      have hact : w.me = w.kernel.activeThread := rfl
      simp only [w',World.msleep,World.goTo,World.setKernel,tkMsleep,Kernel.modTcb_pool,hact,if_true]
      exact ProcState.or_sleep_has_sleep _
    have hw := (napping_run hlone hrun).wakes hsl
    have := h [.advance d] w' hlone hrun
      (timerWakes_iff.mpr ⟨hsl,by rw [hw]; exact hd⟩)
    have hnow : w'.now = w.now+d := rfl
    omega
  · intro h ls w' hl hr hwakes
    obtain ⟨hsl,hdiff⟩ := timerWakes_iff.mp hwakes
    have hle := worldRun_now_le hr
    have hnow : (w.msleep ms).now = w.now := rfl
    rw [(napping_run hl hr).wakes hsl] at hdiff
    have := h (w'.now-w.now) (by
      rw [show w.now+(w'.now-w.now) = w'.now by omega]
      exact hdiff)
    omega

end

/-- A sleep of 2147484 ms is over at once. -/
theorem worldRun_msleep_early : ¬∀ (k : Kernel gnuArm) (ms : BitVec 32) (w : World gnuArm 4),
    tkCreateKernel 0 = .ok k →
    (worldMachine gnuArm 4).run (worldInit k 0) [.msleep ms,.yield root] = some w →
    1000*ms.toNat ≤ w.now := by
  intro h
  obtain ⟨k,w,hk,hr,hn⟩ := (worldMachine gnuArm 4).exists_start (x:=tkCreateKernel 0)
    (fun w => w.now = 0) (worldInit · 0) [.msleep 2147484,.yield root] (by decide +kernel)
  have := h k 2147484 w hk hr
  rw [hn] at this
  exact absurd this (by decide)

end Tinker

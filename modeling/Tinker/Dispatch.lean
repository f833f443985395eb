import Tinker.Kernel

/-! `_tk_next_runable_thread`: the search for the thread that a yield dispatches. -/
namespace Tinker

open Kernel Outcome

variable {cfg : Config}

/-- The search of one row of `atPrio` threads, `n` cells from `idx` on, with its asserts; `last` is
the thread seen before. -/
def runableAt (k : Kernel cfg) (prio atPrio : ℕ) :
    ℕ → ℕ → Option (Thid cfg) → Except Fault (Option (Thid cfg) × Option (Thid cfg))
  | 0, _, last => .ok (none,last)
  | n+1, idx, last => do
    let t ← k.readCell prio idx
    check ((k.pool t).valid = true) .assertSchedule
    check (last ≠ some (k.pool t).thid) .assertSchedule
    if (k.pool t).state = .ready then return (some t,some (k.pool t).thid)
    else runableAt k prio atPrio n ((idx+1) % atPrio) (some (k.pool t).thid)

/-- The search of the rows `prios`; the idle thread runs where nobody is ready. -/
def runableFrom (k : Kernel cfg) : List ℕ → Option (Thid cfg) → Except Fault (Thid cfg)
  | [], _ => .ok k.idleThid
  | prio :: prios, last => do
    let (found,last) ← runableAt k prio (k.procs prio) (k.procs prio) (k.prioIdxs prio).currIdx last
    match found with
    | some t => return t
    | none => runableFrom k prios last

/-- `_tk_next_runable_thread`. -/
def tkNextRunableThread (k : Kernel cfg) : Except Fault (Thid cfg) :=
  runableFrom k (List.range cfg.maxPrioLevels) none

variable {k : Kernel cfg}

theorem runableAt_ready {prio atPrio n idx : ℕ} {last : Option (Thid cfg)} :
    Spec (runableAt k prio atPrio n idx last)
      (fun r => ∀ t, r.1 = some t → (k.pool t).state = .ready) (fun _ => True) := by
  induction n generalizing idx last with
  | zero => rintro t ⟨⟩
  | succ n ih =>
    simp only [runableAt,spec_bind,Kernel.readCell,spec_ite,spec_ok,spec_check,spec_pure]
    refine ⟨fun _ => ⟨fun _ => ⟨fun _ => ⟨fun hr => ?_,fun _ => ih⟩,fun _ => trivial⟩,
      fun _ => trivial⟩,fun _ => trivial⟩
    intro t ht
    cases ht
    exact hr

/-- The thread that is dispatched is ready, or it is the idle thread. -/
theorem tkNextRunableThread_spec : Spec (tkNextRunableThread k)
    (fun t => (k.pool t).state = .ready ∨ t = k.idleThid) (fun _ => True) := by
  unfold tkNextRunableThread
  generalize (none : Option (Thid cfg)) = last
  induction List.range cfg.maxPrioLevels generalizing last with
  | nil => exact Or.inr rfl
  | cons prio prios ih =>
    simp only [runableFrom,spec_bind]
    refine runableAt_ready.imp ?_
    rintro ⟨found,last'⟩ hr
    cases found with
    | none => exact ih last'
    | some t => exact Or.inl (hr t rfl)

end Tinker

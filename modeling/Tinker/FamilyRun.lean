import Tinker.Family

/-! Runs of creations that are not interleaved, deaths, deletes, joins and the reaping done in
`tk_yield`, from the kernel as created. -/
namespace Tinker

open Outcome

variable {cfg : Config}

/-- `creation` is the call whose constructor has yielded, with its caller; `inside` tells which
threads are in `tk_join` or `_tk_destructor`. -/
structure FamilyState (cfg : Config) where
  kernel : Kernel cfg
  creation : Option (Thid cfg × ThreadReq × Thid cfg)
  inside : Thid cfg → Bool

inductive FamilyLabel (cfg : Config)
  | createBegin (r : ThreadReq) | createEnd
  | destructor (retval : ℕ) (clk : Clock) | delete (t : Thid cfg)
  | join (t : Thid cfg) | joinWoken
  | yield (clk : Clock) (t : Thid cfg)

/-- The running thread is in its own code: it is not idle and no call of it is in progress. -/
def runsFree (s : FamilyState cfg) : Bool :=
  decide (s.kernel.activeThread ≠ s.kernel.idleThid) && !s.inside s.kernel.activeThread &&
  s.creation.all fun c => decide (c.1 ≠ s.kernel.activeThread)

def familyEnabled (s : FamilyState cfg) : FamilyLabel cfg → Bool
  | .createBegin r => runsFree s && s.creation.isNone && decide (Accepted s.kernel r)
  | .createEnd => s.creation.any fun c => decide (c.1 = s.kernel.activeThread)
  | .destructor _ _ => runsFree s
  | .delete t => runsFree s && (s.kernel.pool t).valid && decide (t ≠ s.kernel.idleThid)
  | .join _ => runsFree s
  | .joinWoken => s.inside s.kernel.activeThread &&
      decide ((s.kernel.pool s.kernel.activeThread).state = .ready)
  | .yield clk t => match tkWakeupTimedoutThreads s.kernel clk with
    | .ok k => decide ((k.pool t).state = .ready) || decide (t = k.idleThid)
    | .error _ => true

def familyNext (s : FamilyState cfg) : FamilyLabel cfg → Except Fault (FamilyState cfg)
  | .createBegin r => do
    let caller := s.kernel.activeThread
    let (k,t) ← tkCreateThreadBegin s.kernel r
    return { s with kernel := k, creation := some (caller,r,t) }
  | .createEnd => match s.creation with
    | some (_,r,t) => do
      let (k,_) ← tkCreateThreadEnd s.kernel r t
      return { s with kernel := k, creation := none }
    | none => .ok s
  | .destructor retval clk => .ok { s with
      kernel := tkDestructor s.kernel retval clk
      inside := Function.update s.inside s.kernel.activeThread true }
  | .delete t => do
    let (k,_) ← tkDeleteThread s.kernel t
    return { s with kernel := k }
  | .join t => do
    let (k,r) ← tkJoin s.kernel t
    return { s with
      kernel := k
      inside := if r = .waits then Function.update s.inside s.kernel.activeThread true
        else s.inside }
  | .joinWoken => do
    let _ ← tkJoinWoken s.kernel
    return { s with inside := Function.update s.inside s.kernel.activeThread false }
  | .yield clk t => do
    let k ← tkWakeupTimedoutThreads s.kernel clk
    return { s with kernel := k.dispatch t }

def familyMachine (cfg : Config) : Machine (FamilyState cfg) (FamilyLabel cfg) Fault where
  enabled := familyEnabled
  next := familyNext

/-- A dead thread creates nobody and does not join itself, a dead child is left to its parent,
and a thread that is its own parent dies without children. -/
def SafeStep (s : FamilyState cfg) : FamilyLabel cfg → Prop
  | .createBegin _ => (s.kernel.pool s.kernel.activeThread).valid = true ∧
      (s.kernel.pool s.kernel.activeThread).state.has .zombi = false
  | .destructor _ _ => (s.kernel.pool s.kernel.activeThread).gid ≠ some s.kernel.activeThread ∨
      (s.kernel.pool s.kernel.activeThread).noChilds = 0
  | .delete t => SafeDelete s.kernel t
  | .join t => ¬(t = s.kernel.activeThread ∧ (s.kernel.pool t).state.has .zombi = true ∧
      (s.kernel.pool t).gid = some t)
  | _ => True

instance (s : FamilyState cfg) (l : FamilyLabel cfg) : Decidable (SafeStep s l) := by
  unfold SafeStep; split <;> infer_instance

theorem familyStep_spec {s : FamilyState cfg} {l : FamilyLabel cfg} (h : FamilyInv s.kernel)
    (hc : SafeStep s l) :
    Spec (familyNext s l) (fun s' => FamilyInv s'.kernel)
      (fun e => e ≠ .assertParent ∧ e ≠ .assertNoChilds) := by
  have htable : ∀ e : Fault, e = .assertSchedule ∨ e = .outOfTable →
      e ≠ .assertParent ∧ e ≠ .assertNoChilds := by
    rintro e (rfl | rfl) <;> decide
  cases l with
  | createBegin r =>
    simp only [familyNext,spec_bind,spec_pure]
    refine (tkCreateThreadBegin_begun s.kernel r).mono (fun _ hb => h.create hb hc.1 hc.2) ?_
    rintro e ⟨⟨c,rfl⟩ | rfl | rfl,_⟩ <;> exact ⟨by rintro ⟨⟩,by rintro ⟨⟩⟩
  | createEnd =>
    obtain ⟨k,c,j⟩ := s
    cases c with
    | none => exact h
    | some c =>
      simp only [familyNext,spec_bind,spec_pure]
      exact (h.createEnd c.2.1 c.2.2).mono (fun _ h => h) fun e he => htable e (Or.inr he)
  | destructor retval clk => exact h.destructor retval clk hc
  | delete t =>
    simp only [familyNext,spec_bind,spec_pure]
    exact (h.delete hc).mono (fun _ h => h) htable
  | join t =>
    simp only [familyNext,spec_bind,spec_pure]
    exact (h.join hc).mono (fun _ h => h) fun _ => False.elim
  | joinWoken =>
    simp only [familyNext,tkJoinWoken,spec_bind,spec_check,spec_pure]
    exact ⟨fun _ => h,fun _ => by decide⟩
  | yield clk t =>
    simp only [familyNext,spec_bind,spec_pure]
    refine (spec_foldlM (I:=FamilyInv) h fun k i _ hk => (hk.sweepThread clk i).mono
      (fun _ h => h) htable).imp fun k hk => ?_
    exact SameFamily.inv (k:=k) ⟨fun _ => ⟨rfl,rfl,rfl,rfl⟩,fun _ _ h => h⟩ hk

/-! ### Whole runs -/

/-- The counter is the number of children, and a thread's parent is valid. -/
structure WellParented (k : Kernel cfg) : Prop where
  count : ∀ t, (k.pool t).valid = true → (k.pool t).noChilds =
    (Finset.univ.filter fun c => (k.pool c).valid = true ∧ (k.pool c).gid = some t ∧ c ≠ t).card
  parent : ∀ c p, (k.pool c).valid = true → (k.pool c).gid = some p → p ≠ c →
    (k.pool p).valid = true

/-- Where every step is safe, parents and children stay in step and neither assert of
`_tk_try_detach_parent` fails. -/
theorem familyRun_wellParented {clk : Clock} {k : Kernel cfg} (hk : tkCreateKernel clk = .ok k)
    {ls : List (FamilyLabel cfg)} {s : FamilyState cfg}
    (hc : (familyMachine cfg).Along SafeStep ⟨k,none,fun _ => false⟩ ls)
    (hr : (familyMachine cfg).run ⟨k,none,fun _ => false⟩ ls = some s) :
    WellParented s.kernel ∧
    ∀ l e, familyEnabled s l = true → SafeStep s l → familyNext s l = .error e →
      e ≠ .assertParent ∧ e ≠ .assertNoChilds := by
  have hboot : FamilyInv (FamilyState.kernel ⟨k,none,fun _ => false⟩) :=
    ((tkCreateKernel_spec clk).of_ok hk).family
  have hi : FamilyInv s.kernel := by
    refine (familyMachine cfg).run_invariant (I:=fun s => FamilyInv s.kernel) ?_ hboot hc hr
    intro s l s' hi hc hstep
    exact (familyStep_spec hi hc).of_ok hstep.2
  exact ⟨⟨hi.count,hi.parent⟩,fun l e _ hc hx => (familyStep_spec hi hc).of_error hx⟩

/-- The root thread joins its child, which makes a child of its own and dies; the sweep wakes
the root thread and reaps the dead one. -/
def joinSteps : List (FamilyLabel gnuArm) :=
  [.createBegin ⟨"a",1,0,true⟩,.yield 0 root,.createEnd,.join 2,.yield 0 2,
    .createBegin ⟨"b",2,0,true⟩,.yield 0 2,.createEnd,.destructor 7 0,.yield 0 3,.yield 0 root,
    .joinWoken]

theorem familyRun_wellParented_join : ∃ (k : Kernel gnuArm) (s : FamilyState gnuArm),
    (familyMachine gnuArm).run ⟨k,none,fun _ => false⟩ joinSteps = some s ∧
    (s.kernel.pool root).retval = 7 ∧ WellParented s.kernel := by
  obtain ⟨k,s,hk,hc,hr,hv⟩ := (familyMachine gnuArm).exists_along (x:=tkCreateKernel 0)
    SafeStep (fun s => (s.kernel.pool root).retval = 7) (⟨·,none,fun _ => false⟩) joinSteps
    (by decide +kernel)
  exact ⟨k,s,hr,hv,(familyRun_wellParented hk hc hr).1⟩

/-- The root thread deletes its child, and deletes it again now that it is dead. -/
def deleteTwiceSteps : List (FamilyLabel gnuArm) :=
  [.createBegin ⟨"a",1,0,true⟩,.yield 0 root,.createEnd,.delete 2,.delete 2]

/-- The dead child is buried without its parent's counter being told. -/
theorem familyRun_not_wellParented :
    ¬∀ (k : Kernel gnuArm) (ls : List (FamilyLabel gnuArm)) (s : FamilyState gnuArm),
      tkCreateKernel 0 = .ok k →
      (familyMachine gnuArm).run ⟨k,none,fun _ => false⟩ ls = some s → WellParented s.kernel := by
  intro h
  obtain ⟨k,s,hk,hr,hv,hn,hz⟩ := (familyMachine gnuArm).exists_start (x:=tkCreateKernel 0)
    (fun s => (s.kernel.pool root).valid = true ∧ (s.kernel.pool root).noChilds = 1 ∧
      (Finset.univ.filter fun c => (s.kernel.pool c).valid = true ∧
        (s.kernel.pool c).gid = some root ∧ c ≠ root).card = 0)
    (⟨·,none,fun _ => false⟩) deleteTwiceSteps (by decide +kernel)
  have := (h k _ s hk hr).count root hv
  rw [hn,hz] at this
  cases this

end Tinker

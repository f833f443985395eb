import Tinker.Moves
import Tinker.RoundRobin
import Tinker.RwlockRun

/-! The blocked writers of a read-write lock while priorities change. A writer is counted into
`bwriters_prio` under the priority it falls asleep with, and out under the one it wakes up with. -/
namespace Tinker

open Kernel Outcome

variable {cfg : Config}

/-- `pthread_setschedparam` up to its yield; the flag tells whether it yields. -/
def pthreadSetschedparam (sync : Sync cfg) (thread : Thid cfg) (schedPriority : ℤ) :
    Except Fault (Sync cfg × Bool) := do
  let (k,y) ← tkChangePrio sync.kernel thread schedPriority
  return ({ sync with kernel := k },y)

/-- A step of the lock's users, or the running one sets a priority. -/
inductive RwPrioLabel (cfg : Config)
  | call (x : RwLabel cfg)
  | setschedparam (t : Thid cfg) (p : ℤ)

def rwPrioEnabled (s : RwState cfg) : RwPrioLabel cfg → Bool
  | .call x => rwEnabled s x
  | .setschedparam _ _ => s.runs

def rwPrioNext (s : RwState cfg) : RwPrioLabel cfg → Except Fault (RwState cfg)
  | .call x => rwNext s x
  | .setschedparam t p => do
    let (sync,y) ← pthreadSetschedparam s.sync t p
    return { s with sync := sync, yielding := y }

def rwPrioMachine (cfg : Config) : Machine (RwState cfg) (RwPrioLabel cfg) Fault where
  enabled := rwPrioEnabled
  next := rwPrioNext

/-- No thread that waits in `pthread_rwlock_wrlock` gets another priority. -/
def SparesWriters (s : RwState cfg) : RwPrioLabel cfg → Prop
  | .call _ => True
  | .setschedparam t p => (s.loc t).wr = 0 ∨ p = (s.sync.kernel.pool t).prio

instance (s : RwState cfg) (x : RwPrioLabel cfg) : Decidable (SparesWriters s x) := by
  unfold SparesWriters; split <;> infer_instance

/-- The threads of priority `p` that wait in `pthread_rwlock_wrlock`. -/
def RwState.waitingAt (s : RwState cfg) (p : ℕ) : Finset (Thid cfg) :=
  {t | (s.loc t).wr = 1 ∧ (s.sync.kernel.pool t).prio = p}

/-- The table counts the waiting writers by their priorities. -/
structure WellFiled (s : RwState cfg) : Prop where
  counts : ∀ p < cfg.maxPrioLevels, s.rw.bwritersPrio p = (s.waitingAt p).card
  nonneg : ∀ p < cfg.maxPrioLevels, 0 ≤ s.rw.bwritersPrio p
  total : ∑ p ∈ Finset.range cfg.maxPrioLevels, s.rw.bwritersPrio p = s.rw.blockedWriters

section

variable {s s' : RwState cfg}

theorem RwState.writersAt_eq (s : RwState cfg) (p : ℕ) : s.writersAt p = (s.waitingAt p).card := by
  rw [RwState.writersAt,RwState.waitingAt,Finset.natCast_card_filter]
  refine Finset.sum_congr rfl fun t _ => ?_
  by_cases hp : p = (s.sync.kernel.pool t).prio
  · obtain hw | hw := (s.loc t).wr_cases <;> simp [hp,hw]
  · rw [if_neg hp,if_neg fun h => hp h.2.symm]

theorem RwInv.wellFiled (h : RwInv s) (hf : Filed s) : WellFiled s where
  counts := fun p _ => (hf p).trans (s.writersAt_eq p)
  nonneg := fun p _ => by rw [hf p,s.writersAt_eq]; exact Int.natCast_nonneg _
  total := by
    rw [h.bw,Finset.sum_congr rfl fun p _ => hf p]
    refine Finset.sum_comm.trans ?_
    refine Finset.sum_congr rfl fun t _ => ?_
    rw [Finset.sum_ite_eq' (Finset.range cfg.maxPrioLevels) _ fun _ => (s.loc t).wr,
      if_pos (Finset.mem_range.mpr (h.cond.prio t))]

/-- Priorities are all that a change of the control blocks touches. -/
structure Ranked (k k' : Kernel cfg) (t : Thid cfg) (p : ℤ) : Prop where
  active : k'.activeThread = k.activeThread
  pos : 0 ≤ p
  lt : p.toNat < cfg.maxPrioLevels
  pool : ∀ u, ∃ i, k'.pool u =
    { k.pool u with idx := i, prio := if u = t then p.toNat else (k.pool u).prio }

theorem tkChangePrio_ranked {k : Kernel cfg} {t : Thid cfg} {p : ℤ} :
    Spec (tkChangePrio k t p) (fun r => Ranked k r.1 t p) (fun _ => True) := by
  cases hk : tkChangePrio k t p with
  | error e => trivial
  | ok r =>
    obtain ⟨hp,hlt,hpool⟩ := tkChangePrio_pool.of_ok hk
    exact ⟨(tkChangePrio_moves.of_ok hk).active,hp,hlt,hpool⟩

section

variable {k : Kernel cfg} {t : Thid cfg} {p : ℤ}

theorem Ranked.state (hk : Ranked s.sync.kernel k t p) (u : Thid cfg) :
    (k.pool u).state = (s.sync.kernel.pool u).state := by
  obtain ⟨i,hi⟩ := hk.pool u
  rw [hi]

theorem Ranked.prio (hk : Ranked s.sync.kernel k t p) (u : Thid cfg) :
    (k.pool u).prio = if u = t then p.toNat else (s.sync.kernel.pool u).prio := by
  obtain ⟨i,hi⟩ := hk.pool u
  rw [hi]

theorem Ranked.syncInv (hk : Ranked s.sync.kernel k t p) (h : SyncInv s.sync) :
    SyncInv { s.sync with kernel := k } where
  lists := h.lists
  nodup := h.nodup
  mem := by
    intro r u
    obtain ⟨i,hi⟩ := hk.pool u
    change u ∈ s.sync.waiters r ↔ (k.pool u).state.has .queue = true ∧ (k.pool u).bOnId = _
    rw [hi]
    exact h.mem r u
  queue := by
    intro u
    change (k.pool u).state.has .queue = true → (k.pool u).state = .queue
    rw [hk.state u]
    exact h.queue u
  unowned := h.unowned
  alive := by
    intro u
    obtain ⟨i,hi⟩ := hk.pool u
    change (k.pool u).valid = true → (k.pool u).state.has .zombi = false
    rw [hi]
    exact h.alive u
  prio := by
    intro u
    change (k.pool u).prio < cfg.maxPrioLevels
    rw [hk.prio u]
    split
    · exact hk.lt
    · exact h.prio u

/-- A priority change leaves the lock and its threads where they are. -/
theorem RwInv.ranked (h : RwInv s) (hy : s.yielding = false) (hk : Ranked s.sync.kernel k t p)
    (y : Bool) : RwInv { s with sync := { s.sync with kernel := k }, yielding := y } where
  cond := ⟨hk.syncInv h.cond.toSyncInv,h.cond.cvOwned,h.cond.coop,h.cond.unused⟩
  running := by
    intro _
    change (k.pool k.activeThread).state = .ready
    rw [hk.state,hk.active]
    exact h.running hy
  used := h.used
  asleep := h.asleep
  releasing := h.releasing
  held := ⟨h.held.reads,h.held.writes,h.held.excl⟩
  bw := h.bw
  br := h.br

theorem Filed.ranked (h : Filed s) (hk : Ranked s.sync.kernel k t p) (y : Bool)
    (hs : SparesWriters s (.setschedparam t p)) :
    Filed { s with sync := { s.sync with kernel := k }, yielding := y } := by
  intro i
  refine (h i).trans (Finset.sum_congr rfl fun u _ => ?_)
  change _ = if i = (k.pool u).prio then (s.loc u).wr else 0
  rw [hk.prio u]
  by_cases hu : u = t
  · subst hu
    rw [if_pos rfl]
    obtain hw | hp := hs
    · rw [hw,ite_self,ite_self]
    · rw [hp,Int.toNat_natCast]
  · rw [if_neg hu]

/-- A waiting writer that gets another priority is still filed under its old one. -/
theorem Filed.misfiled (hi : RwInv s) (h : Filed s) (hk : Ranked s.sync.kernel k t p) (y : Bool)
    (hs : ¬SparesWriters s (.setschedparam t p)) :
    ¬WellFiled { s with sync := { s.sync with kernel := k }, yielding := y } := by
  intro hw
  obtain ⟨hwr,hp⟩ := not_or.mp hs
  have hpos := hk.pos
  have hne : (s.sync.kernel.pool t).prio ≠ p.toNat := by omega
  have hlt := hi.cond.prio t
  have hbefore := (hi.wellFiled h).counts _ hlt
  have hafter := hw.counts _ hlt
  have hfewer : ({ s with sync := { s.sync with kernel := k }, yielding := y } :
      RwState cfg).waitingAt (s.sync.kernel.pool t).prio ⊂
      s.waitingAt (s.sync.kernel.pool t).prio := by
    rw [Finset.ssubset_iff_of_subset]
    · refine ⟨t,?_,?_⟩
      · simp only [RwState.waitingAt,Finset.mem_filter,Finset.mem_univ,true_and,and_true]
        exact (s.loc t).wr_cases.resolve_left hwr
      · simp only [RwState.waitingAt,Finset.mem_filter,Finset.mem_univ,true_and]
        rintro ⟨_,he⟩
        exact hne (he.symm.trans ((hk.prio t).trans (if_pos rfl)))
    · intro u
      simp only [RwState.waitingAt,Finset.mem_filter,Finset.mem_univ,true_and]
      rintro ⟨hu,he⟩
      refine ⟨hu,?_⟩
      rw [hk.prio u] at he
      split at he
      · exact absurd he.symm hne
      · exact he
  have hcard := Finset.card_lt_card hfewer
  have heq : (({ s with sync := { s.sync with kernel := k }, yielding := y } :
      RwState cfg).waitingAt (s.sync.kernel.pool t).prio).card =
      (s.waitingAt (s.sync.kernel.pool t).prio).card :=
    Int.ofNat_inj.mp (hafter.symm.trans hbefore)
  omega

end

/-- The state behind a `pthread_setschedparam`. -/
theorem setschedparam_cases {t : Thid cfg} {p : ℤ}
    (hs : (rwPrioMachine cfg).Step s (.setschedparam t p) s') : s.yielding = false ∧
    ∃ k y, Ranked s.sync.kernel k t p ∧
      s' = { s with sync := { s.sync with kernel := k }, yielding := y } := by
  obtain ⟨he,hn⟩ := hs
  have he : s.runs = true := he
  simp only [RwState.runs,Bool.and_eq_true,Bool.not_eq_true'] at he
  have hspec : Spec (rwPrioNext s (.setschedparam t p)) (fun s' => ∃ k y,
      Ranked s.sync.kernel k t p ∧ s' = { s with sync := { s.sync with kernel := k }, yielding := y })
      (fun _ => True) := by
    simp only [rwPrioNext,pthreadSetschedparam,spec_bind,spec_pure]
    exact tkChangePrio_ranked.imp fun r hr => ⟨r.1,r.2,hr,rfl⟩
  exact ⟨he.1,hspec.of_ok hn⟩

end

/-- In every state of a run the table counts the waiting writers by their priorities, just when
no step of the run changes the priority of one of them. -/
theorem rwPrioRun_wellFiled {k : Kernel cfg} (hk : Seated k) {ls : List (RwPrioLabel cfg)}
    {s : RwState cfg} (hr : (rwPrioMachine cfg).run (rwInit k) ls = some s) :
    (rwPrioMachine cfg).Along (fun s _ => WellFiled s) (rwInit k) ls ∧ WellFiled s ↔
      (rwPrioMachine cfg).Along SparesWriters (rwInit k) ls := by
  refine (rwPrioMachine cfg).run_along_iff (I:=fun s => RwInv s ∧ Filed s)
    (fun s h => h.1.wellFiled h.2) ?_ ?_ ⟨rwInit_inv hk,rwInit_filed k⟩ hr
  · rintro s x s' ⟨hi,hf⟩ hc hs
    cases x with
    | call x =>
      have hstep : RwStep s x s' := (rwStep_cases hi hs.1).of_ok hs.2
      exact ⟨hstep.inv hi,hstep.filed hf⟩
    | setschedparam t p =>
      obtain ⟨hy,k',y,hk',rfl⟩ := setschedparam_cases hs
      exact ⟨hi.ranked hy hk' y,hf.ranked hk' y hc⟩
  · rintro s x s' ⟨hi,hf⟩ hc hs
    cases x with
    | call x => exact absurd trivial hc
    | setschedparam t p =>
      obtain ⟨_,k',y,hk',rfl⟩ := setschedparam_cases hs
      exact hf.misfiled hi hk' y hc

theorem twoReady_seated : Seated twoReady where
  unblocked := by decide
  alive := by unfold Alive; decide
  ready := by decide
  prio := by decide

/-- Thread 1 waits to write while thread 0 does, and thread 0 changes its own priority. -/
def ownPrioSteps : List (RwPrioLabel gnuArm) :=
  [.call .wrlock,.call (.yield 20 1),.call .wrlock,.call (.yield 20 0),.setschedparam 0 5,
    .call (.yield 20 0)]

theorem rwPrioRun_wellFiled_own : ∃ s : RwState gnuArm,
    (rwPrioMachine gnuArm).run (rwInit twoReady) ownPrioSteps = some s ∧
    s.rw.bwritersPrio 0 = 1 ∧ (s.sync.kernel.pool 0).prio = 5 ∧ WellFiled s := by
  obtain ⟨s,hr,h0,h5⟩ := (rwPrioMachine gnuArm).exists_run
    (fun s => s.rw.bwritersPrio 0 = 1 ∧ (s.sync.kernel.pool 0).prio = 5) (rwInit twoReady)
    ownPrioSteps (by decide +kernel)
  exact ⟨s,hr,h0,h5,((rwPrioRun_wellFiled twoReady_seated hr).mpr (by decide +kernel)).2⟩

/-- Thread 1 waits to write with priority 0, and wakes up with priority 5. -/
def writerPrioSteps : List (RwPrioLabel gnuArm) :=
  [.call .wrlock,.call (.yield 20 1),.call .wrlock,.call (.yield 20 0),.setschedparam 1 5,
    .call .unlock,.call (.yield 20 1),.call .resume,.call (.yield 20 0),.call .resume,
    .call (.yield 20 1),.call .resume,.call (.yield 20 1)]

/-- The table counts a waiter of priority 0 who has gone, and minus one of priority 5. -/
theorem rwPrioRun_not_wellFiled :
    ¬∀ (k : Kernel gnuArm) (ls : List (RwPrioLabel gnuArm)) (s : RwState gnuArm), Seated k →
      (rwPrioMachine gnuArm).run (rwInit k) ls = some s → WellFiled s := by
  intro h
  obtain ⟨s,hr,hn⟩ := (rwPrioMachine gnuArm).exists_run (fun s => s.rw.bwritersPrio 5 = -1)
    (rwInit twoReady) writerPrioSteps (by decide +kernel)
  have hpos := (h _ _ s twoReady_seated hr).nonneg 5 (by decide)
  omega

end Tinker

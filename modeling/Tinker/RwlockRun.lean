import Mathlib.Algebra.BigOperators.Ring.Finset
import Mathlib.Algebra.Order.BigOperators.Group.Finset
import Mathlib.Data.Fintype.Basic
import Tinker.RwlockCalls

/-! Runs of threads on one read-write lock. Its counters count the holds of the threads and the
blocked ones, over any interleaving of the yields inside the calls. -/
namespace Tinker

open Outcome Counted

variable {cfg : Config}

/-! ### The part of a call between two yields -/

/-- What a call does from place `x` on with `w` to do, and what it means for the sleepers. -/
def RwCall.Does (sync : Sync cfg) (rw : Rwlock) (x : RwLoc) (w : Option RwWant) (c : RwCall cfg) :
    Prop := c.Ok sync rw x w ∧ RwEffect sync rw x w c

section

variable {sync : Sync cfg} {rw : Rwlock} {x : RwLoc} {w : Option RwWant} {c : RwCall cfg}

/-- Two places that count the same may be taken for each other. -/
theorem RwCall.Ok.from {z : RwLoc} (hx : x.wr = z.wr ∧ x.rd = z.rd) (h : c.Ok sync rw z w) :
    c.Ok sync rw x w where
  cond := h.cond
  active := h.active
  prio := h.prio
  ready := h.ready
  coop := h.coop
  used := h.used
  asleep := h.asleep
  tallies := by
    refine ⟨?_,fun i => ?_,?_⟩
    · rw [hx.1]; exact h.tallies.bw
    · rw [hx.1]; exact h.tallies.bwp i
    · rw [hx.2]; exact h.tallies.br
  moves := h.moves

/-- The sleepers a call has found are those from before its last step. -/
theorem RwEffect.of_same {sync1 : Sync cfg} (hk : Keeps sync sync1) (hs : SameSleepers sync sync1)
    (hx : ∀ g, x ≠ .rdSignal g) (h : RwEffect sync1 rw x w c) : RwEffect sync rw x w c := by
  cases h with
  | busy h => exact .busy h
  | backsOff hx hb hw => exact .backsOff hx hb (hw.of_same hs)
  | atMutex hc hd => exact .atMutex hc hd
  | sleeps g hg hc => exact .sleeps g (Or.inr (hg.resolve_left fun hg => hx g hg.1)) hc
  | unlocks hx hc hb hp hw => exact .unlocks hx hc hb hp (hw.of_same hk hs)
  | passes hn hp hrw => exact .passes hn (fun d => (hp d).trans (hs d)) hrw

variable (h : CondInv sync) (hr : (sync.kernel.pool sync.kernel.activeThread).state = .ready)

include h hr

theorem wrLoop_does (hpos : 0 ≤ rw.readersReading) (hx : x.wr = 0 ∧ x.rd = 0) :
    Spec (wrLoop sync rw) (RwCall.Does sync rw x (some .write)) (fun _ => False) := by
  refine (wrLoop_spec h hr).imp ?_
  rintro c ⟨hc,ho⟩
  exact ⟨hc.from (z:=.wrLock) hx,.busy (hc.moves.busy hpos (Or.inr rfl) ho)⟩

theorem wrWoken_does (hpos : 0 ≤ rw.readersReading) (hx : x.wr = 1 ∧ x.rd = 0) :
    Spec (wrWoken sync rw) (RwCall.Does sync rw x (some .write)) (fun _ => False) := by
  refine (wrWoken_spec h hr).imp ?_
  rintro c ⟨hc,ho⟩
  exact ⟨hc.from (z:=.wrRelock) hx,.busy (hc.moves.busy hpos (Or.inr rfl) ho)⟩

theorem unLocked_does (hone : rw.writersWriting < 2) (hx : x.wr = 0 ∧ x.rd = 0) :
    Spec (unLocked sync rw) (RwCall.Does sync rw x (some .release)) (fun _ => False) := by
  refine (unLocked_spec h hr hone).imp ?_
  rintro c ⟨hc,hw,hb,hp,hu⟩
  exact ⟨hc.from (z:=.unLock) hx,.unlocks rfl hw hb hp hu⟩

/-- The end of `pthread_rwlock_unlock`, behind its signal or broadcast. -/
theorem unEnd_does {rc : RwErr} (hx : x.wr = 0 ∧ x.rd = 0)
    (hn : ¬x.Candidate) :
    Spec (unEnd sync rw rc) (RwCall.Does sync rw x none) (fun _ => False) := by
  have hm : Moves rw rw none none := ⟨rfl,rfl⟩
  have ht : Tallies (selfPrio sync) rw x rw .out := by
    refine ⟨?_,fun i => ?_,?_⟩
    · rw [hx.1]; rfl
    · rw [hx.1]; rfl
    · rw [hx.2]; rfl
  refine (unlockAndReturn_spec h hr (Or.inr (Or.inr ⟨rc,rfl⟩)) ht hm).imp ?_
  rintro c ⟨hc,hs,_,hrw⟩
  exact ⟨hc,.passes hn hs hrw⟩

/-- The last half of a `pthread_cond_signal` inside a call, which yields at `z` or goes on. -/
theorem signalEnd_does {d : ℕ} {z : RwLoc} {f : Sync cfg → Except Fault (RwCall cfg)}
    (hc : sync.coopMux d ≠ none) (hx : x.wr = 0 ∧ x.rd = 0) (hn : ¬x.Candidate)
    (hz : (∀ e, ¬z.Uses e) ∧ z.want = x.want ∧ z.wr = 0 ∧ z.rd = 0)
    (hf : ∀ sync1, CondInv sync1 → Keeps sync sync1 → SameSleepers sync sync1 →
      sync.waiters theMutex = [] →
      (sync1.kernel.pool sync1.kernel.activeThread).state = .ready →
      Spec (f sync1) (RwCall.Does sync rw x x.want) (fun _ => False)) :
    Spec (do let (sync,y) ← pthreadCondSignalEnd sync d
             if y then return RwCall.yieldsAt sync rw z else f sync)
      (RwCall.Does sync rw x x.want) (fun _ => False) := by
  simp only [spec_bind]
  refine (h.signalEnd hr hc).imp ?_
  rintro ⟨sync1,y⟩ ⟨hi,hu,hy⟩
  have hk := hu.only.keeps hi
  have hs : SameSleepers sync sync1 := fun d => hu.only.waiters_ne (cvMux_ne d)
  cases y with
  | false => exact hf sync1 hi hk hs (hy.mp rfl) (hu.ready h.toSyncInv hr)
  | true =>
    refine ⟨RwCall.ok_of_keeps (c:=.yieldsAt sync1 rw z) hk (by rintro ⟨⟩)
      (fun e he => absurd he (hz.1 e)) ?_ ?_,.passes hn hs rfl⟩
    · refine ⟨?_,fun i => ?_,?_⟩
      · rw [RwCall.yieldsAt,hz.2.2.1,hx.1]
      · rw [RwCall.yieldsAt,hz.2.2.1,hx.1]
      · rw [RwCall.yieldsAt,hz.2.2.2,hx.2]
    · simp only [RwCall.yieldsAt,Moves,hz.2.1,if_true,and_self]

/-- A call that has nothing left to do. -/
theorem returns_does {rc : RwErr} (hx : x.wr = 0 ∧ x.rd = 0) (hn : ¬x.Candidate) :
    (RwCall.returns sync rw rc).Does sync rw x none := by
  refine ⟨RwCall.ok_of_keeps (c:=.returns sync rw rc) (Keeps.refl h) (fun _ => hr)
    (fun d hd => hd.elim) ?_ ⟨rfl,rfl⟩,.passes hn (fun _ => rfl) rfl⟩
  refine ⟨?_,fun i => ?_,?_⟩
  · rw [hx.1]; rfl
  · rw [hx.1]; rfl
  · rw [hx.2]; rfl

theorem rdSleep_does {g : ℤ} (hx : x = .rdSignal g ∧ sync.waiters theMutex = [] ∨
    x = .rdSignalUnlock g) :
    Spec (rdSleep sync rw g) (RwCall.Does sync rw x (some .read)) (fun _ => False) := by
  have hx' : x.wr = 0 ∧ x.rd = 0 := by
    obtain ⟨rfl,_⟩ | rfl := hx <;> exact ⟨rfl,rfl⟩
  refine (rdSleep_spec h hr g).imp ?_
  rintro c ⟨hc,hl⟩
  exact ⟨hc.from (z:=.rdLock) hx',.sleeps g hx hl⟩

/-- The part of a call behind a `pthread_mutex_lock` of `mx_self`. -/
theorem lockThen_does {z : RwLoc} {f : Sync cfg → Except Fault (RwCall cfg)}
    (hz : (∀ d, ¬z.Uses d) ∧ z.want = w ∧ z.wr = x.wr ∧ z.rd = x.rd) (hx : ∀ g, x ≠ .rdSignal g)
    (hq : ∀ sync1, SameSleepers sync sync1 → RwEffect sync rw x w (.yieldsAt sync1 rw z))
    (hf : ∀ sync1, CondInv sync1 → (sync1.kernel.pool sync1.kernel.activeThread).state = .ready →
      Spec (f sync1) (RwCall.Does sync1 rw x w) (fun _ => False)) :
    Spec (do let (sync,y) ← pthreadMutexLock sync theMutex
             if y then return RwCall.yieldsAt sync rw z else f sync)
      (RwCall.Does sync rw x w) (fun _ => False) :=
  lockThen_spec h hr hz hq fun sync1 hi hk hs hr1 =>
    (hf sync1 hi hr1).imp fun _ hc => ⟨hc.1,hc.2.of_same hk hs hx⟩

theorem pthreadRwlockUnlock_does (hone : rw.writersWriting < 2) :
    Spec (pthreadRwlockUnlock sync rw) (RwCall.Does sync rw .out (some .release))
      (fun _ => False) :=
  lockThen_does (x:=.out) (z:=.unLock) h hr ⟨fun _ hd => hd,rfl,rfl,rfl⟩ (by rintro g ⟨⟩)
    (fun _ hs => .passes id hs rfl) fun _ hi hr1 => unLocked_does hi hr1 hone ⟨rfl,rfl⟩

variable (hpos : 0 ≤ rw.readersReading)

include hpos

theorem pthreadRwlockRdlock_does : Spec (pthreadRwlockRdlock sync rw)
    (RwCall.Does sync rw .out (some .read)) (fun _ => False) :=
  lockThen_does (x:=.out) (z:=.rdLock) h hr ⟨fun _ hd => hd,rfl,rfl,rfl⟩ (by rintro g ⟨⟩)
    (fun _ _ => .atMutex trivial fun _ hd => hd) fun _ hi hr1 =>
    rdLocked_effect hi hr1 hpos ⟨rfl,rfl⟩

theorem pthreadRwlockWrlock_does : Spec (pthreadRwlockWrlock sync rw)
    (RwCall.Does sync rw .out (some .write)) (fun _ => False) :=
  lockThen_does (x:=.out) (z:=.wrLock) h hr ⟨fun _ hd => hd,rfl,rfl,rfl⟩ (by rintro g ⟨⟩)
    (fun _ _ => .atMutex trivial fun _ hd => hd) fun _ hi hr1 =>
    wrLoop_does hi hr1 hpos ⟨rfl,rfl⟩

/-- Every call goes on from where it yielded. -/
theorem rwResume_does (hone : rw.writersWriting < 2) (hx : x ≠ .out)
    (hu : ∀ d, x.Uses d → sync.coopMux d ≠ none) :
    Spec (rwResume sync rw x) (RwCall.Does sync rw x x.want) (fun _ => False) := by
  cases x with
  | out => exact absurd rfl hx
  | rdLock => exact rdLocked_effect h hr hpos ⟨rfl,rfl⟩
  | rdSignal g =>
    exact signalEnd_does (x:=.rdSignal g) (z:=.rdSignalUnlock g) h hr (hu _ rfl) ⟨rfl,rfl⟩ id
      ⟨fun _ hd => hd,rfl,rfl,rfl⟩
      fun sync1 hi hk hs hw hr1 => (rdSleep_spec hi hr1 g).imp fun c hc =>
      ⟨(hc.1.after hk).from (z:=.rdLock) ⟨rfl,rfl⟩,.sleeps g (Or.inl ⟨rfl,hw⟩) hc.2⟩
  | rdSignalUnlock g => exact rdSleep_does h hr (Or.inr rfl)
  | rdWait g =>
    simp only [rwResume,waitEnd_eq h (hu _ rfl)]
    exact lockThen_does (x:=.rdWait g) (z:=.rdRelock g) h hr ⟨fun _ hd => hd,rfl,rfl,rfl⟩ (by rintro g ⟨⟩)
      (fun _ _ => .atMutex trivial fun _ hd => hd) fun _ hi hr1 =>
      rdWoken_effect hi hr1 hpos ⟨rfl,rfl⟩
  | rdRelock g => exact rdWoken_effect h hr hpos ⟨rfl,rfl⟩
  | rdUnlock => exact returns_does h hr ⟨rfl,rfl⟩ id
  | wrLock => exact wrLoop_does h hr hpos ⟨rfl,rfl⟩
  | wrWait =>
    simp only [rwResume,waitEnd_eq h (hu _ rfl)]
    exact lockThen_does (x:=.wrWait) (z:=.wrRelock) h hr ⟨fun _ hd => hd,rfl,rfl,rfl⟩ (by rintro g ⟨⟩)
      (fun _ _ => .atMutex trivial fun _ hd => hd) fun _ hi hr1 =>
      wrWoken_does hi hr1 hpos ⟨rfl,rfl⟩
  | wrRelock => exact wrWoken_does h hr hpos ⟨rfl,rfl⟩
  | wrUnlock => exact returns_does h hr ⟨rfl,rfl⟩ id
  | unLock => exact unLocked_does h hr hone ⟨rfl,rfl⟩
  | unSignal d =>
    exact signalEnd_does (x:=.unSignal d) (z:=.unSignalUnlock) h hr (hu _ rfl) ⟨rfl,rfl⟩ id
      ⟨fun _ hd => hd,rfl,rfl,rfl⟩
      fun sync1 hi hk hs _ hr1 => (unEnd_does hi hr1 ⟨rfl,rfl⟩ id).imp fun c hc =>
      ⟨hc.1.after hk,hc.2.of_same hk hs (by rintro g ⟨⟩)⟩
  | unSignalUnlock => exact unEnd_does h hr ⟨rfl,rfl⟩ id
  | unBcast => exact unEnd_does h hr ⟨rfl,rfl⟩ id
  | unUnlock rc => exact returns_does h hr ⟨rfl,rfl⟩ id

end

/-! ### Holds -/

theorem RwLoc.wr_cases (x : RwLoc) : x.wr = 0 ∨ x.wr = 1 := by
  cases x <;> first | exact Or.inl rfl | exact Or.inr rfl

/-- One value of a sum changes. -/
theorem sum_update {ι α : Type*} [Fintype ι] [DecidableEq ι] (f : ι → α → ℤ) (a : ι → α) (u : ι)
    (x : α) : ∑ t, f t (Function.update a u x t) = ∑ t, f t (a t) - f u (a u) + f u x := by
  have hrest : ∑ t ∈ Finset.univ.erase u, f t (Function.update a u x t) =
      ∑ t ∈ Finset.univ.erase u, f t (a t) :=
    Finset.sum_congr rfl fun t ht => by rw [Function.update_of_ne (Finset.ne_of_mem_erase ht)]
  rw [← Finset.add_sum_erase _ _ (Finset.mem_univ u),
    ← Finset.add_sum_erase Finset.univ (fun t => f t (a t)) (Finset.mem_univ u),hrest,
    Function.update_self]
  omega

/-- How often the threads hold the lock, for reading and for writing. -/
def RwState.reads (s : RwState cfg) : ℤ := ∑ t, ((s.holds t).rd : ℤ)
def RwState.writes (s : RwState cfg) : ℤ := ∑ t, ((s.holds t).wr : ℤ)

theorem RwState.rd_le_reads (s : RwState cfg) (t : Thid cfg) : ((s.holds t).rd : ℤ) ≤ s.reads :=
  Finset.single_le_sum (f:=fun t => ((s.holds t).rd : ℤ)) (fun _ _ => Int.natCast_nonneg _)
    (Finset.mem_univ t)

theorem RwState.wr_le_writes (s : RwState cfg) (t : Thid cfg) : ((s.holds t).wr : ℤ) ≤ s.writes :=
  Finset.single_le_sum (f:=fun t => ((s.holds t).wr : ℤ)) (fun _ _ => Int.natCast_nonneg _)
    (Finset.mem_univ t)

/-- The counters are the holds, and a writer holds the lock alone. -/
structure Held (s : RwState cfg) : Prop where
  reads : s.rw.readersReading = s.reads
  writes : s.rw.writersWriting = s.writes
  excl : s.rw.writersWriting = 0 ∨ s.rw.writersWriting = 1 ∧ s.rw.readersReading = 0

section

variable {s : RwState cfg} {w : Option RwWant} {c : RwCall cfg}

theorem Held.nonneg (h : Held s) : 0 ≤ s.rw.readersReading := by
  rw [h.reads]
  exact Finset.sum_nonneg fun _ _ => Int.natCast_nonneg _

theorem Held.lt_two (h : Held s) : s.rw.writersWriting < 2 := by
  obtain h | h := h.excl <;> omega

theorem goOn_reads (hw : c.loc.want ≠ w) : (s.goOn w c).reads =
    s.reads - (s.holds s.me).rd + ((s.holds s.me).after w).rd := by
  simp only [RwState.reads,RwState.goOn,if_neg hw]
  exact sum_update (fun _ (a : RwHolds) => (a.rd : ℤ)) s.holds s.me _

theorem goOn_writes (hw : c.loc.want ≠ w) : (s.goOn w c).writes =
    s.writes - (s.holds s.me).wr + ((s.holds s.me).after w).wr := by
  simp only [RwState.writes,RwState.goOn,if_neg hw]
  exact sum_update (fun _ (a : RwHolds) => (a.wr : ℤ)) s.holds s.me _

/-- The holds follow the counters as a call gets done. -/
theorem Held.goOn (h : Held s) (hm : Moves s.rw c.rw w c.loc.want)
    (hr : w = some .release → 0 < (s.holds s.me).rd+(s.holds s.me).wr) : Held (s.goOn w c) := by
  unfold Moves at hm
  have hrd := s.rd_le_reads s.me
  have hwr := s.wr_le_writes s.me
  have hreads := h.reads
  have hwrites := h.writes
  have hexcl := h.excl
  split at hm
  · next he =>
    have hs : (s.goOn w c).holds = s.holds := if_pos he
    refine ⟨?_,?_,?_⟩
    · exact hm.1.trans (h.reads.trans (by simp only [RwState.reads,hs]))
    · exact hm.2.trans (h.writes.trans (by simp only [RwState.writes,hs]))
    · change c.rw.writersWriting = 0 ∨ c.rw.writersWriting = 1 ∧ c.rw.readersReading = 0
      rw [hm.1,hm.2]
      exact h.excl
  · next he =>
    have hr' := goOn_reads (s:=s) he
    have hw' := goOn_writes (s:=s) he
    obtain ⟨_,hm⟩ := hm
    cases w with
    | none => exact hm.elim
    | some w =>
      cases w with
      | read =>
        simp only [RwHolds.after] at hr' hw'
        obtain ⟨h0,h1,h2⟩ := hm
        exact ⟨by change c.rw.readersReading = _; omega,by change c.rw.writersWriting = _; omega,
          Or.inl h1⟩
      | write =>
        simp only [RwHolds.after] at hr' hw'
        obtain ⟨⟨h0,h0'⟩,h1,h2⟩ := hm
        exact ⟨by change c.rw.readersReading = _; omega,by change c.rw.writersWriting = _; omega,
          Or.inr ⟨h1,h2⟩⟩
      | release =>
        have hpos := hr rfl
        obtain ⟨h1,hm⟩ := hm
        -- a thread that holds the lock for writing is the only one that holds it
        by_cases hwriter : 0 < (s.holds s.me).wr
        · have hrr : c.rw.readersReading = s.rw.readersReading := by
            obtain hm | hm | hm := hm
            · exact hm.2
            · omega
            · exact absurd hm.1.2 (by omega)
          simp only [RwHolds.after,if_pos hwriter] at hr' hw'
          exact ⟨by change c.rw.readersReading = _; omega,
            by change c.rw.writersWriting = _; omega,Or.inl h1⟩
        · have hrr : c.rw.readersReading = s.rw.readersReading-1 := by
            obtain hm | hm | hm := hm
            · exact absurd hm.1 (by omega)
            · exact hm.2.2
            · exact absurd hm.1.1 (by omega)
          simp only [RwHolds.after,if_neg hwriter] at hr' hw'
          exact ⟨by change c.rw.readersReading = _; omega,
            by change c.rw.writersWriting = _; omega,Or.inl h1⟩

end

/-! ### Runs -/

/-- Where the threads are and what they hold, in every state of a run. -/
structure RwInv (s : RwState cfg) : Prop where
  cond : CondInv s.sync
  running : s.yielding = false → (s.sync.kernel.pool s.me).state = .ready
  used : ∀ t d, (s.loc t).Uses d → s.sync.coopMux d ≠ none
  asleep : ∀ t d, t ∈ s.sync.waiters (.cvMux d) → (s.loc t).SleepsAt d
  releasing : ∀ t, (s.loc t).want = some .release → 0 < (s.holds t).rd+(s.holds t).wr
  held : Held s
  bw : s.rw.blockedWriters = ∑ t, (s.loc t).wr
  br : s.rw.blockedReaders = ∑ t, (s.loc t).rd

/-- The blocked writers of priority `i` as `bwriters_prio` counts them. -/
def RwState.writersAt (s : RwState cfg) (i : ℕ) : ℤ :=
  ∑ t, if i = (s.sync.kernel.pool t).prio then (s.loc t).wr else 0

def Filed (s : RwState cfg) : Prop := ∀ i, s.rw.bwritersPrio i = s.writersAt i

theorem rwInit_inv {k : Kernel cfg} (hk : Seated k) : RwInv (rwInit k) where
  cond := hk.condInv
  running := fun _ => hk.ready
  used := by rintro t d ⟨⟩
  asleep := by
    intro t d ht
    rw [show (rwInit k).sync.waiters (.cvMux d) = [] from hk.condInv.unused d rfl] at ht
    cases ht
  releasing := by rintro t ⟨⟩
  held := ⟨by simp [rwInit,Rwlock.init,RwState.reads],by simp [rwInit,Rwlock.init,RwState.writes],
    Or.inl rfl⟩
  bw := by simp [rwInit,Rwlock.init,RwLoc.wr]
  br := by simp [rwInit,Rwlock.init,RwLoc.rd]

theorem rwInit_filed (k : Kernel cfg) : Filed (rwInit k) := by
  intro i
  exact (Finset.sum_eq_zero fun t _ => ite_self _).symm

section

variable {s : RwState cfg} {w : Option RwWant} {c : RwCall cfg}

theorem goOn_sum (f : Thid cfg → RwLoc → ℤ) : ∑ t, f t ((s.goOn w c).loc t) =
    ∑ t, f t (s.loc t) - f s.me (s.loc s.me) + f s.me c.loc :=
  sum_update f s.loc s.me c.loc

theorem goOn_loc (t : Thid cfg) : (s.goOn w c).loc t = if t = s.me then c.loc else s.loc t :=
  Threads.goTo_loc _ _ _ _ _

/-- The running thread goes on. -/
theorem RwInv.goOn (h : RwInv s) (hy : s.yielding = false)
    (hc : c.Ok s.sync s.rw (s.loc s.me) w)
    (hr : w = some .release → 0 < (s.holds s.me).rd+(s.holds s.me).wr) : RwInv (s.goOn w c) where
  cond := hc.cond
  running := hc.ready
  used := by
    intro t d
    rw [goOn_loc]
    split
    · exact hc.used d
    · exact fun hu => hc.coop d (h.used t d hu)
  asleep := by
    intro t d ht
    rw [goOn_loc]
    obtain ht | ⟨rfl,hd⟩ := hc.asleep d t ht
    · have hne : t ≠ s.me := by
        rintro rfl
        exact h.cond.notMem (h.running hy) _ ht
      rw [if_neg hne]
      exact h.asleep t d ht
    · rw [if_pos (show s.sync.kernel.activeThread = s.me from rfl)]
      exact hd
  releasing := by
    intro t
    have hm := hc.moves
    rw [goOn_loc]
    split
    · next he =>
      subst he
      intro hw
      by_cases he : c.loc.want = w
      · rw [show (s.goOn w c).holds = s.holds from if_pos he]
        exact hr (he.symm.trans hw)
      · cases hw.symm.trans (hm.done he)
    · next hne =>
      intro hw
      have : (s.goOn w c).holds t = s.holds t := by
        simp only [RwState.goOn]
        split
        · rfl
        · exact Function.update_of_ne hne _ _
      rw [this]
      exact h.releasing t hw
  held := h.held.goOn hc.moves hr
  bw := by
    have := hc.tallies.bw
    rw [goOn_sum fun _ => RwLoc.wr,← h.bw]
    change c.rw.blockedWriters = _
    omega
  br := by
    have := hc.tallies.br
    rw [goOn_sum fun _ => RwLoc.rd,← h.br]
    change c.rw.blockedReaders = _
    omega

theorem Filed.goOn (h : Filed s) (hc : c.Ok s.sync s.rw (s.loc s.me) w) : Filed (s.goOn w c) := by
  intro i
  have hp : ∀ t, ((s.goOn w c).sync.kernel.pool t).prio = (s.sync.kernel.pool t).prio := hc.prio
  have := hc.tallies.bwp i
  simp only [RwState.writersAt,hp]
  rw [goOn_sum fun t x => if i = (s.sync.kernel.pool t).prio then x.wr else 0]
  change c.rw.bwritersPrio i = s.writersAt i - _ + _
  rw [← h i]
  simp only [selfPrio] at this
  change _ = _ - (if i = (s.sync.kernel.pool s.sync.kernel.activeThread).prio then _ else _) +
    (if i = (s.sync.kernel.pool s.sync.kernel.activeThread).prio then _ else _)
  omega

/-- What the running thread has to do in a step. -/
def RwState.wants (s : RwState cfg) : RwLabel cfg → Option RwWant
  | .rdlock => some .read
  | .wrlock => some .write
  | .unlock => some .release
  | .resume => (s.loc s.me).want
  | .yield _ _ => none

/-- What a step of the lock's users is: a call of the running thread, or a yield. -/
inductive RwStep (s : RwState cfg) (x : RwLabel cfg) : RwState cfg → Prop
  | call {c : RwCall cfg} (hy : s.yielding = false)
      (hc : c.Does s.sync s.rw (s.loc s.me) (s.wants x))
      (hr : s.wants x = some .release → 0 < (s.holds s.me).rd+(s.holds s.me).wr) :
      RwStep s x (s.goOn (s.wants x) c)
  | yield {threads : Threads cfg RwLoc} (hi : ThreadsInv threads)
      (hy : Yielded s.toThreads threads) : RwStep s x { s with toThreads := threads }

theorem rwStep_cases (h : RwInv s) {x : RwLabel cfg} (he : rwEnabled s x = true) :
    Spec (rwNext s x) (RwStep s x) (fun _ => False) := by
  have hpos := h.held.nonneg
  cases x with
  | rdlock =>
    simp only [rwEnabled,RwState.runs,Bool.and_eq_true,Bool.not_eq_true',decide_eq_true_eq] at he
    simp only [rwNext,spec_bind,spec_pure]
    refine (pthreadRwlockRdlock_does h.cond (h.running he.1) hpos).imp fun c hc => ?_
    exact .call (x:=.rdlock) he.1 (by rw [he.2]; exact hc) (by rintro ⟨⟩)
  | wrlock =>
    simp only [rwEnabled,RwState.runs,Bool.and_eq_true,Bool.not_eq_true',decide_eq_true_eq] at he
    simp only [rwNext,spec_bind,spec_pure]
    refine (pthreadRwlockWrlock_does h.cond (h.running he.1) hpos).imp fun c hc => ?_
    exact .call (x:=.wrlock) he.1 (by rw [he.2]; exact hc) (by rintro ⟨⟩)
  | unlock =>
    simp only [rwEnabled,RwState.runs,Bool.and_eq_true,Bool.not_eq_true',decide_eq_true_eq] at he
    simp only [rwNext,spec_bind,spec_pure]
    refine (pthreadRwlockUnlock_does h.cond (h.running he.1.1) h.held.lt_two).imp fun c hc => ?_
    exact .call (x:=.unlock) he.1.1 (by rw [he.1.2]; exact hc) fun _ => he.2
  | resume =>
    simp only [rwEnabled,Bool.and_eq_true,Bool.not_eq_true',decide_eq_true_eq] at he
    simp only [rwNext,spec_bind,spec_pure]
    refine (rwResume_does h.cond (h.running he.1) hpos h.held.lt_two he.2 (h.used s.me)).imp
      fun c hc => ?_
    exact .call (x:=.resume) he.1 hc (h.releasing s.me)
  | yield clk t =>
    simp only [rwNext,spec_bind,spec_pure]
    exact (ThreadsInv.yield (s:=s.toThreads) ⟨h.cond.toSyncInv,h.running⟩
      (Bool.and_eq_true_iff.mp he).2).imp fun threads ht => .yield ht.1 ht.2

theorem RwStep.inv {x : RwLabel cfg} {s' : RwState cfg} (h : RwInv s) (hs : RwStep s x s') : RwInv s' := by
  cases hs with
  | call hy hc hr => exact h.goOn hy hc.1 hr
  | yield hi hy =>
    refine ⟨⟨hi.sync,fun d => by rw [hy.mux]; exact h.cond.cvOwned d,
      fun d => by rw [hy.coopMux]; exact h.cond.coop d,fun d => ?_⟩,hi.running,
      fun t d => by rw [hy.loc,hy.coopMux]; exact h.used t d,
      fun t d => by rw [hy.loc,hy.waiters]; exact h.asleep t d,
      fun t => by rw [hy.loc]; exact h.releasing t,⟨h.held.reads,h.held.writes,h.held.excl⟩,
      by rw [hy.loc]; exact h.bw,by rw [hy.loc]; exact h.br⟩
    rw [hy.coopMux,hy.waiters]
    exact h.cond.unused d

theorem RwStep.filed {x : RwLabel cfg} {s' : RwState cfg} (h : Filed s) (hs : RwStep s x s') : Filed s' := by
  cases hs with
  | call hy hc hr => exact h.goOn hc.1
  | yield hi hy =>
    intro i
    simp only [RwState.writersAt,hy.loc,hy.prio]
    exact h i

theorem rwStep_inv (h : RwInv s) {x : RwLabel cfg} {s' : RwState cfg}
    (hs : (rwMachine cfg).Step s x s') : RwInv s' :=
  ((rwStep_cases h hs.1).of_ok hs.2).inv h

end

theorem rwRun_inv {k : Kernel cfg} (hk : Seated k) {ls : List (RwLabel cfg)} {s : RwState cfg}
    (hr : (rwMachine cfg).run (rwInit k) ls = some s) : RwInv s :=
  (rwMachine cfg).run_invariant_of_step (fun _ _ _ h hs => rwStep_inv h hs) (rwInit_inv hk) hr

/-! ### Exclusion -/

/-- The threads that hold the lock. -/
def RwState.readers (s : RwState cfg) : Finset (Thid cfg) := {t | 0 < (s.holds t).rd}
def RwState.writers (s : RwState cfg) : Finset (Thid cfg) := {t | 0 < (s.holds t).wr}

/-- `readers_reading` has room for one more. -/
def RwState.ReadsFit (s : RwState cfg) : Prop := s.reads+1 < 2^31

instance (s : RwState cfg) : Decidable s.ReadsFit := inferInstanceAs (Decidable (_ < _))

/-- Readers or one writer, counters that are `int`s, and no call that faults. -/
structure RwExcluded (s : RwState cfg) : Prop where
  writes : s.rw.writersWriting = s.writers.card
  one : s.rw.writersWriting ≤ 1
  alone : 0 < s.rw.writersWriting → s.rw.readersReading = 0
  readersReading : 0 ≤ s.rw.readersReading ∧ s.rw.readersReading < 2^31
  blockedWriters : 0 ≤ s.rw.blockedWriters ∧ s.rw.blockedWriters ≤ Fintype.card (Thid cfg)
  blockedReaders : 0 ≤ s.rw.blockedReaders ∧ s.rw.blockedReaders ≤ Fintype.card (Thid cfg)
  safe : ∀ x, rwEnabled s x = true → ∃ s', rwNext s x = .ok s'

/-- A sum of zeros and ones counts the ones. -/
theorem sum_eq_card {ι : Type*} [Fintype ι] {f : ι → ℕ} (h : ∀ t, f t ≤ 1) :
    ∑ t, (f t : ℤ) = ({t | 0 < f t} : Finset ι).card := by
  rw [Finset.natCast_card_filter]
  refine Finset.sum_congr rfl fun t _ => ?_
  have := h t
  split <;> omega

/-- A sum of zeros and ones is at most the number of its terms. -/
theorem sum_flags_bounds {ι : Type*} [Fintype ι] {f : ι → ℤ} (h : ∀ t, f t = 0 ∨ f t = 1) :
    0 ≤ ∑ t, f t ∧ ∑ t, f t ≤ Fintype.card ι := by
  constructor
  · apply Finset.sum_nonneg
    intro t _
    rcases h t with ht | ht <;> omega
  · calc ∑ t, f t ≤ ∑ _t : ι, 1 := by
          apply Finset.sum_le_sum
          intro t _
          rcases h t with ht | ht <;> omega
      _ = Fintype.card ι := by simp

theorem RwLoc.rd_cases (x : RwLoc) : x.rd = 0 ∨ x.rd = 1 := by
  cases x <;> first | exact Or.inl rfl | exact Or.inr rfl

theorem RwInv.excluded {s : RwState cfg} (h : RwInv s) (hfits : s.reads < 2^31) :
    RwExcluded s where
  writes := by
    rw [h.held.writes,RwState.writers]
    refine sum_eq_card fun t => ?_
    have := s.wr_le_writes t
    have := h.held.writes
    have := h.held.lt_two
    omega
  one := by
    have := h.held.lt_two
    omega
  alone := by
    intro hw
    obtain he | he := h.held.excl
    · omega
    · exact he.2
  readersReading := ⟨h.held.nonneg,h.held.reads ▸ hfits⟩
  blockedWriters := by
    rw [h.bw]
    exact sum_flags_bounds fun t => (s.loc t).wr_cases
  blockedReaders := by
    rw [h.br]
    exact sum_flags_bounds fun t => (s.loc t).rd_cases
  safe := by
    intro x he
    obtain ⟨s',hs,_⟩ := spec_total_iff.mp (rwStep_cases h he)
    exact ⟨s',hs⟩

theorem RwHolds.after_rd (h : RwHolds) (w : Option RwWant) : (h.after w).rd ≤ h.rd+1 := by
  unfold RwHolds.after
  split
  · omega
  · exact Nat.le_refl _
  · exact Nat.le_succ _
  · split <;> simp only <;> omega

/-- A step makes at most one hold more. -/
theorem RwStep.reads {s s' : RwState cfg} {x : RwLabel cfg} (hs : RwStep s x s') :
    s'.reads ≤ s.reads+1 := by
  cases hs with
  | yield hi hy => exact le_of_lt (Int.lt_succ s.reads)
  | @call c hy hc hr =>
    by_cases hw : c.loc.want = s.wants x
    · have hh : (s.goOn (s.wants x) c).holds = s.holds := if_pos hw
      rw [RwState.reads,hh]
      exact le_of_lt (Int.lt_succ s.reads)
    · rw [goOn_reads hw]
      have hrd := (s.holds s.me).after_rd (s.wants x)
      omega

theorem rwRun_reads {k : Kernel cfg} (hk : Seated k) {ls : List (RwLabel cfg)} {s : RwState cfg}
    (hfits : (rwMachine cfg).Along (fun s _ => s.ReadsFit) (rwInit k) ls)
    (hr : (rwMachine cfg).run (rwInit k) ls = some s) : s.reads < 2^31 := by
  have h : RwInv s ∧ s.reads < 2^31 := by
    apply (rwMachine cfg).run_invariant (I:=fun s => RwInv s ∧ s.reads < 2^31) ?_
      ⟨rwInit_inv hk,by simp [rwInit,RwState.reads]⟩ hfits hr
    intro s l s' hi hc hs
    have hstep := (rwStep_cases hi.1 hs.1).of_ok hs.2
    exact ⟨hstep.inv hi.1,lt_of_le_of_lt hstep.reads hc⟩
  exact h.2

/-- As long as `readers_reading` has room, readers or one writer hold the lock in every state of a
run, and it counts what the readers hold, which is the readers where each of them holds the lock
once. -/
theorem rwRun_excluded {k : Kernel cfg} (hk : Seated k) {ls : List (RwLabel cfg)} {s : RwState cfg}
    (hfits : (rwMachine cfg).Along (fun s _ => s.ReadsFit) (rwInit k) ls)
    (hr : (rwMachine cfg).run (rwInit k) ls = some s) : RwExcluded s ∧
    s.rw.readersReading = ∑ t, ((s.holds t).rd : ℤ) ∧
    ((∀ t, (s.holds t).rd ≤ 1) → s.rw.readersReading = s.readers.card) := by
  have hi := rwRun_inv hk hr
  exact ⟨hi.excluded (rwRun_reads hk hfits hr),hi.held.reads,
    fun h1 => hi.held.reads.trans (sum_eq_card h1)⟩

/-- Thread 1 reads, and thread 0 waits to write. -/
def readThenWriteSteps : List (RwLabel gnuArm) := [.rdlock,.yield 20 0,.wrlock,.yield 20 1]

theorem rwRun_excluded_readThenWrite : ∃ s : RwState gnuArm,
    (rwMachine gnuArm).run (rwInit sleeperFirst) readThenWriteSteps = some s ∧
    s.loc 0 = .wrWait ∧ s.rw.readersReading = 1 ∧ RwExcluded s := by
  obtain ⟨s,hr,h0,h1⟩ := (rwMachine gnuArm).exists_run
    (fun s => s.loc 0 = .wrWait ∧ s.rw.readersReading = 1) (rwInit sleeperFirst) readThenWriteSteps
    (by decide +kernel)
  exact ⟨s,hr,h0,h1,(rwRun_excluded sleeperFirst_seated (by decide +kernel) hr).1⟩

/-- A thread that locks the lock for reading twice is one reader. -/
theorem rwRun_not_readers :
    ¬∀ (k : Kernel gnuArm) (ls : List (RwLabel gnuArm)) (s : RwState gnuArm), Seated k →
      (rwMachine gnuArm).run (rwInit k) ls = some s → RwExcluded s ∧
        s.rw.readersReading = s.readers.card := by
  intro h
  obtain ⟨s,hr,h1⟩ := (rwMachine gnuArm).exists_run (fun s => s.rw.readersReading ≠ s.readers.card)
    (rwInit sleeperFirst) [.rdlock,.rdlock] (by decide +kernel)
  exact h1 (h _ _ s sleeperFirst_seated hr).2

end Tinker

import Mathlib.Algebra.BigOperators.Group.List.Basic
import Tinker.CondLists
import Tinker.Rwlock

/-! What each call on a read-write lock does between two yields: to its counters, to the sleepers
of its condition variables, and where it leaves its thread. -/
namespace Tinker

open Outcome Counted

variable {cfg : Config}

/-- The condition variable the thread at a place goes on with. -/
def RwLoc.Uses (x : RwLoc) (d : ℕ) : Prop :=
  match x with
  | .rdSignal _ => d = writersLock
  | .rdWait _ => d = readersLock
  | .wrWait => d = writersLock
  | .unSignal c => d = c
  | _ => False

/-- The condition variable a thread at a place may sleep on. -/
def RwLoc.SleepsAt (x : RwLoc) (d : ℕ) : Prop :=
  match x with
  | .rdWait _ => d = readersLock
  | .wrWait => d = writersLock
  | _ => False

/-- The thread counts in `blocked_writers`. -/
def RwLoc.wr : RwLoc → ℤ
  | .wrWait => 1
  | .wrRelock => 1
  | _ => 0

/-- The thread counts in `blocked_readers`. -/
def RwLoc.rd : RwLoc → ℤ
  | .rdWait _ => 1
  | .rdRelock _ => 1
  | _ => 0

/-- The counters of blocked threads move as a thread of priority `p` moves from `x` to `x'`. -/
structure Tallies (p : ℕ) (rw : Rwlock) (x : RwLoc) (rw' : Rwlock) (x' : RwLoc) : Prop where
  bw : rw'.blockedWriters - x'.wr = rw.blockedWriters - x.wr
  bwp : ∀ i, rw'.bwritersPrio i - (if i = p then x'.wr else 0) =
    rw.bwritersPrio i - (if i = p then x.wr else 0)
  br : rw'.blockedReaders - x'.rd = rw.blockedReaders - x.rd

theorem Tallies.trans {p : ℕ} {rw rw1 rw' : Rwlock} {x x1 x' : RwLoc}
    (h : Tallies p rw x rw1 x1) (h' : Tallies p rw1 x1 rw' x') : Tallies p rw x rw' x' :=
  ⟨h'.bw.trans h.bw,fun i => (h'.bwp i).trans (h.bwp i),h'.br.trans h.br⟩

/-- The counters of holds move as a call gets from what it wants to having done it. -/
def Moves (rw rw' : Rwlock) (w w' : Option RwWant) : Prop :=
  if w' = w then rw'.readersReading = rw.readersReading ∧ rw'.writersWriting = rw.writersWriting
  else w' = none ∧ match w with
    | none => False
    | some .read => rw.writersWriting = 0 ∧ rw'.writersWriting = 0 ∧
        rw'.readersReading = rw.readersReading+1
    | some .write => rw.free ∧ rw'.writersWriting = 1 ∧ rw'.readersReading = 0
    | some .release => rw'.writersWriting = 0 ∧
        (rw.writersWriting ≠ 0 ∧ rw'.readersReading = rw.readersReading ∨
        rw.writersWriting = 0 ∧ rw.readersReading ≠ 0 ∧
          rw'.readersReading = rw.readersReading-1 ∨
        rw.free ∧ rw'.readersReading = 0)

theorem Moves.done {rw rw' : Rwlock} {w w' : Option RwWant} (h : Moves rw rw' w w') (hw : w' ≠ w) :
    w' = none := by
  rw [Moves.eq_def,if_neg hw] at h
  exact h.1

/-- What a call of the running thread does that starts at place `x` with `w` to do. -/
structure RwCall.Ok (sync : Sync cfg) (rw : Rwlock) (x : RwLoc) (w : Option RwWant)
    (c : RwCall cfg) : Prop where
  cond : CondInv c.sync
  active : c.sync.kernel.activeThread = sync.kernel.activeThread
  prio : ∀ t, (c.sync.kernel.pool t).prio = (sync.kernel.pool t).prio
  ready : c.yields = false → (c.sync.kernel.pool c.sync.kernel.activeThread).state = .ready
  coop : ∀ d, sync.coopMux d ≠ none → c.sync.coopMux d ≠ none
  used : ∀ d, c.loc.Uses d → c.sync.coopMux d ≠ none
  asleep : ∀ d t, t ∈ c.sync.waiters (.cvMux d) →
    t ∈ sync.waiters (.cvMux d) ∨ t = sync.kernel.activeThread ∧ c.loc.SleepsAt d
  tallies : Tallies (selfPrio sync) rw x c.rw c.loc
  moves : Moves rw c.rw w c.loc.want

section

variable {sync sync' : Sync cfg} {rw rw' : Rwlock} {x x' : RwLoc} {w : Option RwWant}
  {c : RwCall cfg}

theorem Keeps.selfPrio (h : Keeps sync sync') : selfPrio sync' = selfPrio sync := by
  rw [Tinker.selfPrio,h.active,h.prio,Tinker.selfPrio]

/-- A call that goes on after others have kept the sleepers. -/
theorem RwCall.Ok.after (hk : Keeps sync sync') (h : c.Ok sync' rw x w) : c.Ok sync rw x w where
  cond := h.cond
  active := h.active.trans hk.active
  prio := fun t => (h.prio t).trans (hk.prio t)
  ready := h.ready
  coop := fun d hd => h.coop d (by rw [hk.coopMux]; exact hd)
  used := h.used
  asleep := fun d t ht => (h.asleep d t ht).imp (hk.sub d t) fun ht => ⟨ht.1.trans hk.active,ht.2⟩
  tallies := hk.selfPrio ▸ h.tallies
  moves := h.moves

/-- A call that has changed the counters of blocked threads first. -/
theorem RwCall.Ok.start (ht : Tallies (selfPrio sync) rw x rw' x')
    (hm : rw'.readersReading = rw.readersReading ∧ rw'.writersWriting = rw.writersWriting)
    (h : c.Ok sync rw' x' w) : c.Ok sync rw x w where
  cond := h.cond
  active := h.active
  prio := h.prio
  ready := h.ready
  coop := h.coop
  used := h.used
  asleep := h.asleep
  tallies := ht.trans h.tallies
  moves := by
    have := h.moves
    unfold Moves Rwlock.free at this ⊢
    rwa [hm.1,hm.2] at this

/-- A call that ends or yields where nobody sleeps. -/
theorem RwCall.ok_of_keeps (hk : Keeps sync c.sync)
    (hr : c.yields = false → (c.sync.kernel.pool c.sync.kernel.activeThread).state = .ready)
    (hu : ∀ d, c.loc.Uses d → sync.coopMux d ≠ none)
    (ht : Tallies (selfPrio sync) rw x c.rw c.loc) (hm : Moves rw c.rw w c.loc.want) :
    c.Ok sync rw x w where
  cond := hk.cond
  active := hk.active
  prio := hk.prio
  ready := hr
  coop := fun d hd => by rw [hk.coopMux]; exact hd
  used := fun d hd => by rw [hk.coopMux]; exact hu d hd
  asleep := fun d t ht => Or.inl (hk.sub d t ht)
  tallies := ht
  moves := hm

/-- A call that falls asleep. -/
theorem RwCall.ok_of_sleeps {d : ℕ} (hi : CondInv sync') (hs : SleepsOn sync sync' d)
    (hx : x'.SleepsAt d) (hu : ∀ e, x'.Uses e → e = d)
    (ht : Tallies (selfPrio sync) rw x rw' x') (hm : Moves rw rw' w x'.want) :
    (RwCall.yieldsAt sync' rw' x').Ok sync rw x w where
  cond := hi
  active := hs.active
  prio := hs.prio
  ready := by rintro ⟨⟩
  coop := by
    intro e he
    simp only [RwCall.yieldsAt,hs.coopMux,Function.update_apply]
    split
    · rintro ⟨⟩
    · exact he
  used := by
    intro e he
    simp only [RwCall.yieldsAt,hs.coopMux,hu e he,Function.update_self]
    rintro ⟨⟩
  asleep := by
    intro e t ht
    simp only [RwCall.yieldsAt] at ht ⊢
    by_cases he : e = d
    · subst he
      rw [hs.waiters,List.mem_append,List.mem_singleton] at ht
      exact ht.imp_right fun ht => ⟨ht,hx⟩
    · rw [hs.cvs e he] at ht
      exact Or.inl ht
  tallies := ht
  moves := hm

end

/-! ### What `blocked_writers_granted` is -/

/-- The value of `grantedDown` for a thread of priority `p`. -/
def downFrom (rw : Rwlock) (p : ℕ) : ℤ :=
  if rw.blockedWriters ≠ 0 then ((List.range (p+1)).reverse.map rw.bwritersPrio).sum else 0

/-- The value of `grantedUp` for a thread of priority `p`. -/
def upFrom (cfg : Config) (rw : Rwlock) (p : ℕ) (g : ℤ) : ℤ :=
  if rw.blockedWriters ≠ 0 then
    g + ((List.range' p (cfg.maxPrioLevels-p)).map rw.bwritersPrio).sum
  else 0

theorem addBwriters_eq (rw : Rwlock) (g : ℤ) {is : List ℕ} (h : ∀ i ∈ is, i < cfg.maxPrioLevels) :
    addBwriters cfg rw g is = .ok (g + (is.map rw.bwritersPrio).sum) := by
  induction is generalizing g with
  | nil => simp [addBwriters,pure,Except.pure]
  | cons i is ih =>
    have hi := ih (g + rw.bwritersPrio i) fun j hj => h j (List.mem_cons_of_mem _ hj)
    simp only [addBwriters] at hi ⊢
    simp only [List.foldlM_cons,check,if_pos (h i List.mem_cons_self),List.map_cons,List.sum_cons,
      bind,Except.bind,pure,Except.pure] at hi ⊢
    rw [hi,add_assoc]

section

variable {sync sync' : Sync cfg} {rw : Rwlock} {x : RwLoc} {w : Option RwWant}

theorem grantedDown_eq (h : CondInv sync) :
    grantedDown sync rw = .ok (downFrom rw (selfPrio sync)) := by
  have hp := h.prio sync.kernel.activeThread
  unfold grantedDown downFrom
  split
  · rw [addBwriters_eq,zero_add]
    intro i hi
    simp only [List.mem_reverse,List.mem_range,selfPrio] at hi
    omega
  · rfl

theorem grantedUp_eq (h : CondInv sync) (g : ℤ) :
    grantedUp sync rw g = .ok (upFrom cfg rw (selfPrio sync) g) := by
  have hp := h.prio sync.kernel.activeThread
  unfold grantedUp upFrom
  split
  · rw [addBwriters_eq]
    intro i hi
    simp only [List.mem_range'_1,selfPrio] at hi
    omega
  · rfl

theorem downFrom_ne {p : ℕ} (h : downFrom rw p ≠ 0) : rw.blockedWriters ≠ 0 := by
  intro hb
  exact h (if_neg fun hn => hn hb)

theorem upFrom_ne {p : ℕ} {g : ℤ} (h : upFrom cfg rw p g ≠ 0) : rw.blockedWriters ≠ 0 := by
  intro hb
  exact h (if_neg fun hn => hn hb)

/-! ### The calls -/

/-- Every sleeper of `d` has been let go, or one of them has. -/
def Wakes (s s' : Sync cfg) (d : ℕ) : Prop :=
  s.waiters (.cvMux d) = [] ∨ ∃ him ∈ s.waiters (.cvMux d), him ∉ s'.waiters (.cvMux d)

theorem WakesOne.wakes {s s' : Sync cfg} {d : ℕ} (h : WakesOne s s' d) (hi : SyncInv s) :
    Wakes s s' d := by
  obtain ⟨hn,_⟩ | ⟨pre,him,post,hb,_,ha⟩ := h
  · exact Or.inl hn
  · have hnd := hi.nodup (.cvMux d)
    rw [hb,List.nodup_middle,List.nodup_cons] at hnd
    exact Or.inr ⟨him,by rw [hb]; simp,by rw [ha]; exact hnd.1⟩

/-- The sleepers are those of before. -/
def SameSleepers (s s' : Sync cfg) : Prop :=
  ∀ d, s'.waiters (.cvMux d) = s.waiters (.cvMux d)

/-- A place behind the last yield of a call. -/
def RwLoc.Last (x : RwLoc) : Prop := x = .rdUnlock ∨ x = .wrUnlock ∨ (∃ rc, x = .unUnlock rc)

theorem unlockAndReturn_spec (h : CondInv sync)
    (hr : (sync.kernel.pool sync.kernel.activeThread).state = .ready) {z : RwLoc} (hz : z.Last)
    {rw0 : Rwlock} {rc : RwErr} (ht : Tallies (selfPrio sync) rw0 x rw .out)
    (hm : Moves rw0 rw w none) : Spec (unlockAndReturn sync rw z rc) (fun c => c.Ok sync rw0 x w ∧
      SameSleepers sync c.sync ∧ c.loc.want = none ∧ c.rw = rw) (fun _ => False) := by
  have hz' : (∀ d, ¬z.Uses d) ∧ z.want = none ∧ z.wr = 0 ∧ z.rd = 0 := by
    obtain rfl | rfl | ⟨rc,rfl⟩ := hz <;> exact ⟨fun d hd => hd,rfl,rfl,rfl⟩
  have ht' : Tallies (selfPrio sync) rw0 x rw z := by
    refine ⟨?_,fun i => ?_,?_⟩
    · rw [hz'.2.2.1]; exact ht.bw
    · rw [hz'.2.2.1]; exact ht.bwp i
    · rw [hz'.2.2.2]; exact ht.br
  simp only [unlockAndReturn,spec_bind,spec_pure]
  refine (h.unlock hr).imp ?_
  rintro ⟨sync1,y⟩ ⟨hi,hu,_⟩
  have hk := hu.only.keeps hi
  have hr1 := hu.ready h.toSyncInv hr
  have hs : SameSleepers sync sync1 := fun d => hu.only.waiters_ne (cvMux_ne d)
  cases y with
  | true =>
    refine ⟨RwCall.ok_of_keeps (c:=.yieldsAt sync1 rw z) hk (by rintro ⟨⟩)
      (fun d hd => absurd hd (hz'.1 d)) ht' ?_,hs,hz'.2.1,rfl⟩
    rw [RwCall.yieldsAt,hz'.2.1]
    exact hm
  | false =>
    exact ⟨RwCall.ok_of_keeps (c:=.returns sync1 rw rc) hk (fun _ => hr1) (fun d hd => hd.elim) ht hm,
      hs,rfl,rfl⟩

theorem rdSleep_spec (h : CondInv sync)
    (hr : (sync.kernel.pool sync.kernel.activeThread).state = .ready) (g : ℤ) :
    Spec (rdSleep sync rw g) (fun c => c.Ok sync rw .rdLock (some .read) ∧ c.loc = .rdWait g)
      (fun _ => False) := by
  simp only [rdSleep,spec_bind,spec_pure]
  refine (h.wait hr readersLock).imp ?_
  rintro sync1 ⟨hi,hs⟩
  refine ⟨RwCall.ok_of_sleeps hi hs rfl (fun e he => he) ⟨rfl,fun i => rfl,?_⟩ ?_,rfl⟩
  · simp [RwLoc.rd]
  · exact ⟨rfl,rfl⟩

/-- How a call that wants the lock comes out: it has got it, it has found it taken, or it has
backed off for a writer. -/
def RwCall.Outcome (sync : Sync cfg) (rw : Rwlock) (c : RwCall cfg) : Prop :=
  c.loc.want = none ∨ ¬rw.free ∨ rw.blockedWriters ≠ 0 ∧ Wakes sync c.sync writersLock

theorem rdLoop_spec (h : CondInv sync)
    (hr : (sync.kernel.pool sync.kernel.activeThread).state = .ready) {g : ℤ}
    (hg : g ≠ 0 → rw.blockedWriters ≠ 0) : Spec (rdLoop sync rw g)
      (fun c => c.Ok sync rw .rdLock (some .read) ∧ c.Outcome sync rw) (fun _ => False) := by
  simp only [rdLoop,spec_ite]
  refine ⟨fun hloop => ⟨fun hoff => ?_,fun hoff => ?_⟩,fun htake => ?_⟩
  · simp only [spec_bind]
    refine (h.signal hr writersLock).imp ?_
    rintro ⟨sync1,r⟩ ⟨hi,hon,hwk,hused⟩
    have hk := hon.keeps hi hwk.sub
    have hwakes : Wakes sync sync1 writersLock := hwk.wakes h.toSyncInv
    have hmoves : Moves rw rw (some .read) (some .read) := ⟨rfl,rfl⟩
    cases r with
    | done =>
      refine (rdSleep_spec hi hon.ready g).imp ?_
      rintro c ⟨hc,hl⟩
      refine ⟨hc.after hk,Or.inr (Or.inr ⟨hg hoff.1,hwakes.imp_right ?_⟩)⟩
      rintro ⟨him,hm,hn⟩
      refine ⟨him,hm,fun hm' => ?_⟩
      obtain hm' | ⟨_,hx⟩ := hc.asleep writersLock him hm'
      · exact hn hm'
      · rw [hl] at hx; cases hx
    | yields =>
      refine ⟨RwCall.ok_of_keeps (c:=.yieldsAt sync1 rw (.rdSignal g)) hk (by rintro ⟨⟩) ?_
        ⟨rfl,fun _ => rfl,rfl⟩ hmoves,Or.inr (Or.inr ⟨hg hoff.1,hwakes⟩)⟩
      rintro d rfl
      exact hused (by rintro ⟨⟩)
    | yieldsUnlock =>
      exact ⟨RwCall.ok_of_keeps (c:=.yieldsAt sync1 rw (.rdSignalUnlock g)) hk (by rintro ⟨⟩)
        (by rintro d ⟨⟩) ⟨rfl,fun _ => rfl,rfl⟩ hmoves,Or.inr (Or.inr ⟨hg hoff.1,hwakes⟩)⟩
  · refine (rdSleep_spec h hr g).imp fun c hc => ⟨hc.1,Or.inr (Or.inl fun hf => hoff ?_)⟩
    exact ⟨hloop.resolve_left fun hn => hn hf.2,hf.2,hf.1⟩
  · rw [not_or,not_not,not_not] at htake
    have ht : Tallies (selfPrio sync) rw .rdLock
        { rw with readersReading := rw.readersReading+1 } .out := ⟨rfl,fun _ => rfl,rfl⟩
    have hm : Moves rw { rw with readersReading := rw.readersReading+1 } (some .read) none :=
      ⟨rfl,htake.1,htake.1,rfl⟩
    exact (unlockAndReturn_spec h hr (Or.inl rfl) ht hm).imp fun c hc => ⟨hc.1,Or.inl hc.2.2.1⟩

theorem rdLocked_spec (h : CondInv sync)
    (hr : (sync.kernel.pool sync.kernel.activeThread).state = .ready) : Spec (rdLocked sync rw)
      (fun c => c.Ok sync rw .rdLock (some .read) ∧ c.Outcome sync rw) (fun _ => False) := by
  simp only [rdLocked,grantedDown_eq h,spec_bind,spec_ok]
  exact rdLoop_spec h hr downFrom_ne

theorem rdWoken_spec (h : CondInv sync)
    (hr : (sync.kernel.pool sync.kernel.activeThread).state = .ready) (g : ℤ) :
    Spec (rdWoken sync rw g)
      (fun c => c.Ok sync rw (.rdRelock g) (some .read) ∧ c.Outcome sync rw) (fun _ => False) := by
  simp only [rdWoken,grantedUp_eq h,spec_bind,spec_ok]
  refine (rdLoop_spec h hr upFrom_ne).imp ?_
  rintro c ⟨hc,ho⟩
  have ht : Tallies (selfPrio sync) rw (.rdRelock g)
      { rw with blockedReaders := rw.blockedReaders-1 } .rdLock :=
    ⟨rfl,fun _ => rfl,by simp [RwLoc.rd]⟩
  exact ⟨hc.start ht ⟨rfl,rfl⟩,ho⟩

theorem wrLoop_spec (h : CondInv sync)
    (hr : (sync.kernel.pool sync.kernel.activeThread).state = .ready) : Spec (wrLoop sync rw)
      (fun c => c.Ok sync rw .wrLock (some .write) ∧ (c.loc.want = none ∨ ¬rw.free))
      (fun _ => False) := by
  have hp : selfPrio sync < cfg.maxPrioLevels := h.prio sync.kernel.activeThread
  simp only [wrLoop,addBlockedWriter,spec_ite,spec_bind,spec_check,spec_pure]
  refine ⟨fun hloop => ⟨fun _ => ?_,fun hn => hn hp⟩,fun htake => ?_⟩
  · refine (h.wait hr writersLock).imp ?_
    rintro sync1 ⟨hi,hs⟩
    refine ⟨RwCall.ok_of_sleeps hi hs rfl (fun e he => he) ⟨?_,fun i => ?_,rfl⟩ ⟨rfl,rfl⟩,
      Or.inr fun hf => hloop.elim (fun hn => hn hf.1) fun hn => hn hf.2⟩
    · simp [RwLoc.wr]
    · simp only [Function.update_apply,RwLoc.wr]
      split
      · next hip => subst hip; omega
      · rfl
  · rw [not_or,not_not,not_not] at htake
    refine ⟨fun _ => ?_,fun hn => hn (by rw [htake.2]; decide)⟩
    have ht : Tallies (selfPrio sync) rw .wrLock
        { rw with writersWriting := rw.writersWriting+1 } .out := ⟨rfl,fun _ => rfl,rfl⟩
    have hm : Moves rw { rw with writersWriting := rw.writersWriting+1 } (some .write) none :=
      ⟨rfl,htake,by simp [htake.2],htake.1⟩
    exact (unlockAndReturn_spec h hr (Or.inr (Or.inl rfl)) ht hm).imp
      fun c hc => ⟨hc.1,Or.inl hc.2.2.1⟩

theorem wrWoken_spec (h : CondInv sync)
    (hr : (sync.kernel.pool sync.kernel.activeThread).state = .ready) : Spec (wrWoken sync rw)
      (fun c => c.Ok sync rw .wrRelock (some .write) ∧ (c.loc.want = none ∨ ¬rw.free))
      (fun _ => False) := by
  have hp : selfPrio sync < cfg.maxPrioLevels := h.prio sync.kernel.activeThread
  simp only [wrWoken,addBlockedWriter,spec_bind,spec_check,spec_pure]
  refine ⟨fun _ => ?_,fun hn => hn hp⟩
  refine (wrLoop_spec h hr).imp ?_
  rintro c ⟨hc,ho⟩
  have ht : Tallies (selfPrio sync) rw .wrRelock { rw with
      blockedWriters := rw.blockedWriters+(-1)
      bwritersPrio := Function.update rw.bwritersPrio (selfPrio sync)
        (rw.bwritersPrio (selfPrio sync)+(-1)) } .wrLock := by
    refine ⟨by simp only [RwLoc.wr]; omega,fun i => ?_,rfl⟩
    simp only [Function.update_apply,RwLoc.wr]
    split
    · next hip => subst hip; omega
    · rfl
  exact ⟨hc.start ht ⟨rfl,rfl⟩,ho⟩

theorem unSignal_spec (h : CondInv sync)
    (hr : (sync.kernel.pool sync.kernel.activeThread).state = .ready) (d : ℕ) {rw0 : Rwlock}
    (ht : Tallies (selfPrio sync) rw0 x rw .out) (hm : Moves rw0 rw w none) :
    Spec (unSignal sync rw d) (fun c => c.Ok sync rw0 x w ∧ c.loc.want = none ∧ c.rw = rw ∧
      WakesOne sync c.sync d ∧ ∀ e ≠ d, c.sync.waiters (.cvMux e) = sync.waiters (.cvMux e))
      (fun _ => False) := by
  simp only [unSignal,spec_bind]
  refine (h.signal hr d).imp ?_
  rintro ⟨sync1,r⟩ ⟨hi,hon,hwk,hused⟩
  have hk := hon.keeps hi hwk.sub
  cases r with
  | done =>
    refine (unlockAndReturn_spec hi hon.ready (Or.inr (Or.inr ⟨.ok,rfl⟩)) (hk.selfPrio ▸ ht) hm).imp ?_
    rintro c ⟨hc,hs,hw,hrw⟩
    refine ⟨hc.after hk,hw,hrw,?_,fun e he => (hs e).trans (hon.cvs e he)⟩
    rw [WakesOne,hs d]
    exact hwk
  | yields =>
    refine ⟨RwCall.ok_of_keeps (c:=.yieldsAt sync1 rw (.unSignal d)) hk (by rintro ⟨⟩) ?_
      ⟨ht.bw,ht.bwp,ht.br⟩ hm,rfl,rfl,
      hwk,hon.cvs⟩
    rintro e rfl
    exact hused (by rintro ⟨⟩)
  | yieldsUnlock =>
    exact ⟨RwCall.ok_of_keeps (c:=.yieldsAt sync1 rw .unSignalUnlock) hk (by rintro ⟨⟩)
      (by rintro e ⟨⟩) ⟨ht.bw,ht.bwp,ht.br⟩ hm,rfl,rfl,hwk,hon.cvs⟩

theorem unBroadcast_spec (h : CondInv sync)
    (hr : (sync.kernel.pool sync.kernel.activeThread).state = .ready) (d : ℕ) {rw0 : Rwlock}
    (ht : Tallies (selfPrio sync) rw0 x rw .out) (hm : Moves rw0 rw w none) :
    Spec (unBroadcast sync rw d) (fun c => c.Ok sync rw0 x w ∧ c.loc.want = none ∧ c.rw = rw ∧
      c.sync.waiters (.cvMux d) = [] ∧ ∀ e ≠ d, c.sync.waiters (.cvMux e) = sync.waiters (.cvMux e))
      (fun _ => False) := by
  simp only [unBroadcast,spec_bind]
  refine (h.broadcast hr d).imp ?_
  rintro ⟨sync1,y⟩ ⟨hi,hon,hnil⟩
  have hk := hon.keeps hi fun t ht => by rw [hnil] at ht; cases ht
  cases y with
  | false =>
    refine (unlockAndReturn_spec hi hon.ready (Or.inr (Or.inr ⟨.ok,rfl⟩)) (hk.selfPrio ▸ ht) hm).imp ?_
    rintro c ⟨hc,hs,hw,hrw⟩
    exact ⟨hc.after hk,hw,hrw,(hs d).trans hnil,fun e he => (hs e).trans (hon.cvs e he)⟩
  | true =>
    exact ⟨RwCall.ok_of_keeps (c:=.yieldsAt sync1 rw .unBcast) hk (by rintro ⟨⟩)
      (by rintro e ⟨⟩) ⟨ht.bw,ht.bwp,ht.br⟩ hm,rfl,rfl,hnil,hon.cvs⟩

/-- Whom a `pthread_rwlock_unlock` lets go. -/
inductive UnlockWakes (sync : Sync cfg) (rw : Rwlock) (c : RwCall cfg) : Prop
  | free (h : rw.free)
  | reader (h : rw.writersWriting = 0)
      (hw : WakesOne sync c.sync readersLock)
      (hs : c.sync.waiters (.cvMux writersLock) = sync.waiters (.cvMux writersLock))
  | writer (h : rw.writersWriting ≠ 0) (hb : rw.blockedWriters ≠ 0)
      (hw : WakesOne sync c.sync writersLock)
  | readersFirst (h : rw.writersWriting ≠ 0) (hb : rw.blockedWriters ≠ 0)
      (hd : downFrom rw (selfPrio sync) = 0) (hr : rw.blockedReaders ≠ 0)
      (hw : c.sync.waiters (.cvMux readersLock) = [])
  | readers (h : rw.writersWriting ≠ 0) (hb : rw.blockedWriters = 0)
      (hw : c.sync.waiters (.cvMux readersLock) = [])
      (hs : c.sync.waiters (.cvMux writersLock) = sync.waiters (.cvMux writersLock))

theorem unLocked_spec (h : CondInv sync)
    (hr : (sync.kernel.pool sync.kernel.activeThread).state = .ready)
    (hone : rw.writersWriting < 2) : Spec (unLocked sync rw)
      (fun c => c.Ok sync rw .unLock (some .release) ∧ c.loc.want = none ∧
        c.rw.blockedWriters = rw.blockedWriters ∧ c.rw.bwritersPrio = rw.bwritersPrio ∧
        UnlockWakes sync rw c) (fun _ => False) := by
  have ht : ∀ rr ww : ℤ, Tallies (selfPrio sync) rw .unLock
      { rw with readersReading := rr, writersWriting := ww } .out :=
    fun rr ww => ⟨rfl,fun _ => rfl,rfl⟩
  simp only [unLocked,spec_ite,spec_bind,spec_check]
  refine ⟨fun hf => ?_,fun hf => ⟨fun _ => ⟨fun hww => ?_,fun hww => ?_⟩,fun hn => hn hone⟩⟩
  · have hm : Moves rw rw (some .release) none := ⟨rfl,hf.2,Or.inr (Or.inr ⟨hf,hf.1⟩)⟩
    refine (unlockAndReturn_spec h hr (Or.inr (Or.inr ⟨.einval,rfl⟩)) (ht _ _) hm).imp ?_
    rintro c ⟨hc,_,hw,hrw⟩
    exact ⟨hc,hw,by rw [hrw],by rw [hrw],.free hf⟩
  · have hm : Moves rw { rw with writersWriting := 0 } (some .release) none :=
      ⟨rfl,rfl,Or.inl ⟨hww,rfl⟩⟩
    have hdown : grantedDown sync { rw with writersWriting := 0 } =
        .ok (downFrom rw (selfPrio sync)) := grantedDown_eq h
    refine ⟨fun hb => ?_,fun hb => ?_⟩
    · simp only [hdown,spec_ok]
      refine ⟨fun hd => ?_,fun hd => ⟨fun hbr => ?_,fun hbr => ?_⟩⟩
      · refine (unSignal_spec h hr writersLock (ht _ _) hm).imp ?_
        rintro c ⟨hc,hw,hrw,hwk,_⟩
        exact ⟨hc,hw,by rw [hrw],by rw [hrw],.writer hww hb hwk⟩
      · refine (unBroadcast_spec h hr readersLock (ht _ _) hm).imp ?_
        rintro c ⟨hc,hw,hrw,hwk,_⟩
        exact ⟨hc,hw,by rw [hrw],by rw [hrw],.readersFirst hww hb (not_not.mp hd) hbr hwk⟩
      · refine (unSignal_spec h hr writersLock (ht _ _) hm).imp ?_
        rintro c ⟨hc,hw,hrw,hwk,_⟩
        exact ⟨hc,hw,by rw [hrw],by rw [hrw],.writer hww hb hwk⟩
    · refine (unBroadcast_spec h hr readersLock (ht _ _) hm).imp ?_
      rintro c ⟨hc,hw,hrw,hwk,hs⟩
      exact ⟨hc,hw,by rw [hrw],by rw [hrw],.readers hww (not_not.mp hb) hwk (hs _ (by decide))⟩
  · have hww := not_not.mp hww
    have hrr : rw.readersReading ≠ 0 := fun hz => hf ⟨hz,hww⟩
    have hm : Moves rw { rw with readersReading := rw.readersReading-1 } (some .release) none :=
      ⟨rfl,hww,Or.inr (Or.inl ⟨hww,hrr,rfl⟩)⟩
    refine (unSignal_spec h hr readersLock (ht _ _) hm).imp ?_
    rintro c ⟨hc,hw,hrw,hwk,hs⟩
    exact ⟨hc,hw,by rw [hrw],by rw [hrw],.reader hww hwk (hs _ (by decide))⟩

/-! ### The calls between two yields -/

/-- A thread at such a place, unless asleep, takes a free lock or lets a writer go. -/
def RwLoc.Candidate : RwLoc → Prop
  | .rdLock => True
  | .rdWait _ => True
  | .rdRelock _ => True
  | .wrLock => True
  | .wrWait => True
  | .wrRelock => True
  | _ => False

/-- What a step of the running thread from place `x`, with `w` to do, means for the sleepers of a
free lock. -/
inductive RwEffect (sync : Sync cfg) (rw : Rwlock) (x : RwLoc) (w : Option RwWant)
    (c : RwCall cfg) : Prop
  | busy (h : ¬c.rw.free)
  | backsOff (hx : x.wr = 0) (hb : rw.blockedWriters ≠ 0) (hw : Wakes sync c.sync writersLock)
  | atMutex (hc : c.loc.Candidate) (hs : ∀ d, ¬c.loc.SleepsAt d)
  | sleeps (g : ℤ) (hx : x = .rdSignal g ∧ sync.waiters theMutex = [] ∨ x = .rdSignalUnlock g)
      (hc : c.loc = .rdWait g)
  | unlocks (hx : w = some .release) (hc : c.loc.want = none) (hb : c.rw.blockedWriters = rw.blockedWriters)
      (hp : c.rw.bwritersPrio = rw.bwritersPrio) (hw : UnlockWakes sync rw c)
  | passes (hx : ¬x.Candidate) (hs : SameSleepers sync c.sync) (hrw : c.rw = rw)

theorem Wakes.of_same {s1 s2 : Sync cfg} {d : ℕ} (hs : SameSleepers sync s1)
    (h : Wakes s1 s2 d) : Wakes sync s2 d := by
  unfold Wakes at h ⊢
  rwa [hs d] at h

theorem WakesOne.of_same {s1 s2 : Sync cfg} {d : ℕ} (hs : SameSleepers sync s1)
    (hp : ∀ t, (s1.kernel.pool t).prio = (sync.kernel.pool t).prio) (h : WakesOne s1 s2 d) :
    WakesOne sync s2 d := by
  unfold WakesOne at h ⊢
  simpa only [hs d,hp] using h

theorem UnlockWakes.of_same {s1 : Sync cfg} {c : RwCall cfg} (hk : Keeps sync s1)
    (hs : SameSleepers sync s1) (h : UnlockWakes s1 rw c) : UnlockWakes sync rw c := by
  cases h with
  | free h => exact .free h
  | reader h hw hc => exact .reader h (hw.of_same hs hk.prio) (hc.trans (hs _))
  | writer h hb hw => exact .writer h hb (hw.of_same hs hk.prio)
  | readersFirst h hb hd hr hw => exact .readersFirst h hb (hk.selfPrio ▸ hd) hr hw
  | readers h hb hw hc => exact .readers h hb hw (hc.trans (hs _))

/-- A call that has not given the lock back leaves it taken, or as it was. -/
theorem Moves.busy {rw' : Rwlock} (h : Moves rw rw' w x.want) (hpos : 0 ≤ rw.readersReading)
    (hw : w = some .read ∨ w = some .write) (hb : x.want = none ∨ ¬rw.free) : ¬rw'.free := by
  unfold Moves at h
  split at h
  · next he =>
    obtain hn | hb := hb
    · rw [hn] at he; subst he; obtain hw | hw := hw <;> cases hw
    · unfold Rwlock.free at hb ⊢
      rwa [h.1,h.2]
  · rintro ⟨hr,hww⟩
    obtain rfl | rfl := hw
    · have := h.2.2.2; omega
    · have := h.2.2.1; omega

/-- The part of a call behind a `pthread_mutex_lock` of `mx_self`, with the place of its yield. -/
theorem lockThen_spec (h : CondInv sync)
    (hr : (sync.kernel.pool sync.kernel.activeThread).state = .ready) {z : RwLoc}
    {f : Sync cfg → Except Fault (RwCall cfg)} {Q : RwCall cfg → Prop}
    (hz : (∀ d, ¬z.Uses d) ∧ z.want = w ∧ z.wr = x.wr ∧ z.rd = x.rd)
    (hq : ∀ sync1, SameSleepers sync sync1 → Q (.yieldsAt sync1 rw z))
    (hf : ∀ sync1, CondInv sync1 → Keeps sync sync1 → SameSleepers sync sync1 →
      (sync1.kernel.pool sync1.kernel.activeThread).state = .ready →
      Spec (f sync1) (fun c => c.Ok sync1 rw x w ∧ Q c) (fun _ => False)) :
    Spec (do let (sync,y) ← pthreadMutexLock sync theMutex
             if y then return RwCall.yieldsAt sync rw z else f sync)
      (fun c => c.Ok sync rw x w ∧ Q c) (fun _ => False) := by
  simp only [spec_bind]
  refine (h.lock hr).imp ?_
  rintro ⟨sync1,y⟩ ⟨hi,⟨rfl,ht⟩ | ⟨rfl,hb⟩⟩
  · have hk := ht.toOnly.keeps hi
    have hs : SameSleepers sync sync1 := fun d => ht.waiters_ne (cvMux_ne d)
    exact (hf sync1 hi hk hs (ht.ready hr)).imp fun c hc => ⟨hc.1.after hk,hc.2⟩
  · have hk := hb.toOnly.keeps hi
    have hs : SameSleepers sync sync1 := fun d => hb.waiters_ne (cvMux_ne d)
    refine ⟨RwCall.ok_of_keeps (c:=.yieldsAt sync1 rw z) hk (by rintro ⟨⟩)
      (fun d hd => absurd hd (hz.1 d)) ?_ ?_,hq sync1 hs⟩
    · refine ⟨?_,fun i => ?_,?_⟩
      · rw [RwCall.yieldsAt,hz.2.2.1]
      · rw [RwCall.yieldsAt,hz.2.2.1]
      · rw [RwCall.yieldsAt,hz.2.2.2]
    · simp only [RwCall.yieldsAt,Moves,hz.2.1,if_true,and_self]

/-- `pthread_cond_wait` ends with a lock. -/
theorem waitEnd_eq (h : CondInv sync) {d : ℕ} (hc : sync.coopMux d ≠ none) :
    pthreadCondWaitEnd sync d = pthreadMutexLock sync theMutex := by
  obtain ⟨r,hr⟩ := Option.ne_none_iff_exists'.mp hc
  obtain rfl := h.coop d r hr
  simp only [pthreadCondWaitEnd,hr]

/-- A call that wants to read is one of its three effects, from where it has begun. -/
theorem RwCall.Ok.reads {c : RwCall cfg} {x x' : RwLoc} (hpos : 0 ≤ rw.readersReading)
    (hc : c.Ok sync rw x' (some .read)) (ho : c.Outcome sync rw) (hx : x.wr = 0) (hx' : x'.wr = 0)
    (hrd : x.rd = x'.rd) :
    c.Ok sync rw x (some .read) ∧ RwEffect sync rw x (some .read) c := by
  have ht : Tallies (selfPrio sync) rw x rw x' := by
    refine ⟨?_,fun i => ?_,?_⟩
    · rw [hx,hx']
    · rw [hx,hx']
    · rw [hrd]
  refine ⟨hc.start ht ⟨rfl,rfl⟩,?_⟩
  obtain hn | hn | ⟨hb,hw⟩ := ho
  · exact .busy (hc.moves.busy hpos (Or.inl rfl) (Or.inl hn))
  · exact .busy (hc.moves.busy hpos (Or.inl rfl) (Or.inr hn))
  · exact .backsOff hx hb hw

section

variable (h : CondInv sync)
  (hr : (sync.kernel.pool sync.kernel.activeThread).state = .ready)
  (hpos : 0 ≤ rw.readersReading)

include h hr hpos

theorem rdLocked_effect {x : RwLoc} (hx : x.wr = 0 ∧ x.rd = 0) : Spec (rdLocked sync rw)
    (fun c => c.Ok sync rw x (some .read) ∧ RwEffect sync rw x (some .read) c) (fun _ => False) := by
  refine (rdLocked_spec h hr).imp ?_
  rintro c ⟨hc,ho⟩
  exact hc.reads hpos ho hx.1 rfl hx.2

theorem rdWoken_effect {x : RwLoc} {g : ℤ} (hx : x.wr = 0 ∧ x.rd = 1) : Spec (rdWoken sync rw g)
    (fun c => c.Ok sync rw x (some .read) ∧ RwEffect sync rw x (some .read) c) (fun _ => False) := by
  refine (rdWoken_spec h hr g).imp ?_
  rintro c ⟨hc,ho⟩
  exact hc.reads hpos ho hx.1 rfl hx.2

end

end

end Tinker

import Mathlib.Data.Finset.Card
import Tinker.RwlockPrio
import Tinker.Rows

/-! Whether `pthread_setschedparam` leaves the processor with the most important ready thread.
The dispatcher finds it as long as every row has as many cells as there are valid threads of its
priority, and distinct ones. -/
namespace Tinker

open Kernel Outcome

variable {cfg : Config}

/-- `tk_yield`. What it takes from `preemptlist` is overwritten by the thread it dispatches. -/
def tkYield (k : Kernel cfg) (clk : Clock) : Except Fault (Kernel cfg) := do
  let k ← tkWakeupTimedoutThreads k clk
  let k ← if 0 < k.npreempt then do
      check (k.npreempt < 2) .assertPreempt
      pure { k with npreempt := k.npreempt-1 }
    else pure k
  let t ← tkNextRunableThread k
  return k.dispatch t

/-- `pthread_setschedparam` with its yield. -/
def pthreadSetschedparamWhole (sync : Sync cfg) (thread : Thid cfg) (schedPriority : ℤ)
    (clk : Clock) : Except Fault (Sync cfg) := do
  let (sync,y) ← pthreadSetschedparam sync thread schedPriority
  if y then do
    let k ← tkYield sync.kernel clk
    return { sync with kernel := k }
  else return sync

/-- A ready thread is more important than the running one. -/
def Kernel.Outranked (k : Kernel cfg) : Prop := ∃ u, (k.pool u).valid = true ∧
  (k.pool u).state = .ready ∧ (k.pool u).prio < (k.pool k.activeThread).prio

instance (k : Kernel cfg) : Decidable k.Outranked := by
  unfold Kernel.Outranked; infer_instance

/-- The valid threads of one priority. -/
def atPrio (k : Kernel cfg) (p : ℕ) : Finset (Thid cfg) :=
  Finset.univ.filter fun t => (k.pool t).valid = true ∧ (k.pool t).prio = p

/-- The rows hold distinct threads, the valid ones of them of the row's priority, and as many as
there are valid threads of it. -/
structure Tallied (k : Kernel cfg) : Prop where
  prio_lt : ∀ t, (k.pool t).valid = true → (k.pool t).prio < cfg.maxPrioLevels
  nodup : ∀ p < cfg.maxPrioLevels, (row k p).Nodup
  own : ∀ p < cfg.maxPrioLevels, ∀ t ∈ row k p, (k.pool t).valid = true → (k.pool t).prio = p
  curr : ∀ p < cfg.maxPrioLevels, (k.prioIdxs p).currIdx = 0 ∨ (k.prioIdxs p).currIdx < k.procs p
  tally : ∀ p < cfg.maxPrioLevels, k.procs p = (atPrio k p).card

section

variable {k k' : Kernel cfg} {t u : Thid cfg} {p : ℕ}

@[simp] theorem mem_atPrio : t ∈ atPrio k p ↔ (k.pool t).valid = true ∧ (k.pool t).prio = p := by
  simp [atPrio]

/-- A well-formed table has as many cells as threads. -/
theorem ScheduleInv.tallied (h : ScheduleInv k ∅) : Tallied k where
  prio_lt := fun t ht => (h.placed t ht (Finset.notMem_empty t)).1.1
  nodup := h.row_nodup
  own := fun p hp t ht _ => by
    obtain ⟨i,hi,rfl⟩ := mem_row.mp ht
    exact (h.live p i ⟨hp,hi⟩).2.1
  curr := h.curr
  tally := fun p hp => by
    have hset : atPrio k p = (row k p).toFinset := by
      ext t
      rw [mem_atPrio,List.mem_toFinset,mem_row]
      constructor
      · rintro ⟨hv,rfl⟩
        obtain ⟨⟨-,hi⟩,he⟩ := h.placed t hv (Finset.notMem_empty t)
        exact ⟨_,hi,he⟩
      · rintro ⟨i,hi,rfl⟩
        exact ⟨(h.live p i ⟨hp,hi⟩).1,(h.live p i ⟨hp,hi⟩).2.1⟩
    rw [hset,List.toFinset_card_of_nodup (h.row_nodup p hp),row_length]

/-! ### The dispatcher's choice -/

/-- A row without invalid threads holds all the valid threads of its priority. -/
theorem Tallied.mem_row (h : Tallied k) (hp : p < cfg.maxPrioLevels)
    (hall : ∀ v ∈ row k p, (k.pool v).valid = true) (hu : (k.pool u).valid = true)
    (hup : (k.pool u).prio = p) : u ∈ row k p := by
  have hsub : (row k p).toFinset ⊆ atPrio k p := by
    intro v hv
    have hv := List.mem_toFinset.mp hv
    exact mem_atPrio.mpr ⟨hall v hv,h.own p hp v hv (hall v hv)⟩
  have hcard : (atPrio k p).card ≤ (row k p).toFinset.card := by
    rw [List.toFinset_card_of_nodup (h.nodup p hp),row_length,h.tally p hp]
  rw [← List.mem_toFinset,Finset.eq_of_subset_of_card_le hsub hcard]
  exact mem_atPrio.mpr ⟨hu,hup⟩

/-- The search of `n` cells stops at a ready one or has seen all of them. -/
theorem runableAt_looks {m n idx : ℕ} {last : Option (Thid cfg)} (hidx : idx < m) :
    Spec (runableAt k p m n idx last) (fun r =>
      (∀ t, r.1 = some t → (k.pool t).valid = true ∧
        ∃ e < n, k.schedule p (Ring.place m idx e) = t) ∧
      (r.1 = none → ∀ e < n, (k.pool (k.schedule p (Ring.place m idx e))).valid = true ∧
        (k.pool (k.schedule p (Ring.place m idx e))).state ≠ .ready)) (fun _ => True) := by
  induction n generalizing idx last with
  | zero => exact ⟨fun t ht => (by cases ht),fun _ e he => absurd he (Nat.not_lt_zero e)⟩
  | succ n ih =>
    have hnext : (idx+1) % m < m := Nat.mod_lt _ (Nat.zero_lt_of_lt hidx)
    simp only [runableAt,Kernel.readCell,spec_bind,spec_ite,spec_ok,spec_check,spec_pure]
    refine ⟨fun _ => ⟨fun hv => ⟨fun _ => ⟨fun hr => ?_,fun hr => (ih hnext).imp ?_⟩,
      fun _ => trivial⟩,fun _ => trivial⟩,fun _ => trivial⟩
    · refine ⟨fun t ht => ?_,fun hn => (by cases hn)⟩
      cases ht
      exact ⟨hv,0,Nat.zero_lt_succ n,by rw [Ring.place_zero hidx]⟩
    · rintro r ⟨hsome,hnone⟩
      constructor
      · intro t ht
        obtain ⟨hvt,e,he,hcell⟩ := hsome t ht
        refine ⟨hvt,e+1,Nat.succ_lt_succ he,?_⟩
        rw [← Ring.place_succ]
        exact hcell
      · intro hn e he
        cases e with
        | zero =>
          rw [Ring.place_zero hidx]
          exact ⟨hv,hr⟩
        | succ e =>
          rw [← Ring.place_succ]
          exact hnone hn e (Nat.lt_of_succ_lt_succ he)

/-- The search of a whole row. -/
theorem Tallied.runableAt_row (h : Tallied k) (hp : p < cfg.maxPrioLevels) {last : Option (Thid cfg)} :
    Spec (runableAt k p (k.procs p) (k.procs p) (k.prioIdxs p).currIdx last) (fun r =>
      (∀ t, r.1 = some t → (k.pool t).prio = p) ∧
      (r.1 = none → ∀ u ∈ row k p, (k.pool u).valid = true ∧ (k.pool u).state ≠ .ready))
      (fun _ => True) := by
  obtain h0 | hpos := Nat.eq_zero_or_pos (k.procs p)
  · have hnil : row k p = [] := List.length_eq_zero_iff.mp (by rw [row_length,h0])
    rw [h0,hnil]
    exact ⟨fun t ht => (by cases ht),fun _ u hu => (by cases hu)⟩
  · have hcurr := h.curr p hp
    have hmem : ∀ u, u ∈ row k p ↔
        ∃ e < k.procs p, k.schedule p (Ring.place (k.procs p) (k.prioIdxs p).currIdx e) = u := by
      intro u
      rw [← mem_visits,visits_eq]
      simp
    refine (runableAt_looks (by omega)).imp ?_
    rintro r ⟨hsome,hnone⟩
    constructor
    · intro t ht
      obtain ⟨hv,hcell⟩ := hsome t ht
      exact h.own p hp t ((hmem t).mpr hcell) hv
    · intro hn u hu
      obtain ⟨e,he,rfl⟩ := (hmem u).mp hu
      exact hnone hn e he

/-- The search of rows from the best to the worst ends at a thread no ready one outranks. -/
theorem Tallied.runableFrom_best (h : Tallied k) {prios : List ℕ} {last : Option (Thid cfg)}
    (hp : ∀ p ∈ prios, p < cfg.maxPrioLevels) (hs : prios.Pairwise (· < ·)) :
    Spec (runableFrom k prios last) (fun t => ∀ u, (k.pool u).valid = true →
      (k.pool u).state = .ready → (k.pool u).prio ∈ prios → (k.pool t).prio ≤ (k.pool u).prio)
      (fun _ => True) := by
  induction prios generalizing last with
  | nil => exact fun u _ _ hu => absurd hu List.not_mem_nil
  | cons p prios ih =>
    obtain ⟨hlt,hs⟩ := List.pairwise_cons.mp hs
    have hp0 := hp p List.mem_cons_self
    simp only [runableFrom,spec_bind]
    refine (h.runableAt_row hp0).imp ?_
    rintro ⟨found,last'⟩ ⟨hsome,hnone⟩
    cases found with
    | some t =>
      intro u _ _ hu
      rw [hsome t rfl]
      obtain he | hu := List.mem_cons.mp hu
      · exact he.ge
      · exact (hlt _ hu).le
    | none =>
      refine (ih (fun q hq => hp q (List.mem_cons_of_mem _ hq)) hs).imp fun t ht u hv hr hu => ?_
      obtain he | hu := List.mem_cons.mp hu
      · -- the row has been passed, so it holds all the threads of its priority
        have hpassed := hnone rfl
        have hmem := h.mem_row hp0 (fun v hv => (hpassed v hv).1) hv he
        exact absurd hr (hpassed u hmem).2
      · exact ht u hv hr hu

/-- No ready thread outranks the one that is dispatched. -/
theorem Tallied.next_best (h : Tallied k) :
    Spec (tkNextRunableThread k) (fun t => ¬(k.dispatch t).Outranked) (fun _ => True) := by
  refine (h.runableFrom_best (fun _ hp => List.mem_range.mp hp) List.pairwise_lt_range).imp ?_
  rintro t ht ⟨u,hv,hr,hlt⟩
  have hle : (k.pool t).prio ≤ (k.pool u).prio := ht u hv hr (List.mem_range.mpr (h.prio_lt u hv))
  exact absurd hlt (Nat.not_lt.mpr hle)

/-! ### The rows between the change and the dispatch -/

theorem SameTable.tallied (hs : SameTable k k') (h : Tallied k) : Tallied k' := by
  have hv := fun x => (hs.pool x).1
  have hprio := fun x => (hs.pool x).2.1
  refine ⟨?_,fun p hp => ?_,fun p hp t ht => ?_,fun p hp => ?_,fun p hp => ?_⟩
  · simpa only [hv,hprio] using h.prio_lt
  · rw [hs.row]
    exact h.nodup p hp
  · rw [hs.row] at ht
    rw [hv,hprio]
    exact h.own p hp t ht
  · simpa only [Kernel.procs,hs.prioIdxs] using h.curr p hp
  · simpa only [Kernel.procs,hs.prioIdxs,atPrio,hv,hprio] using h.tally p hp

/-- The loop that reads outside the table in its last round. -/
theorem compactRow_outside {prio n i : ℕ}
    (h : ¬(prio < cfg.maxPrioLevels ∧ i+(n+1) < cfg.maxThreadsAtPrio)) :
    Spec (compactRow prio (n+1) i k) (fun _ => False) (fun _ => True) := by
  induction n generalizing i k with
  | zero =>
    have hcell : ¬Kernel.InTable cfg prio (i+1) := h
    simp only [compactRow,Kernel.readCell,if_neg hcell]
    trivial
  | succ n ih =>
    have hrest : ¬(prio < cfg.maxPrioLevels ∧ i+1+(n+1) < cfg.maxThreadsAtPrio) := by omega
    rw [compactRow]
    simp only [Kernel.readCell,Kernel.writeCell,spec_bind,spec_ite,spec_ok]
    exact ⟨fun _ => ⟨fun _ => ih hrest,fun _ => trivial⟩,fun _ => trivial⟩

/-- Whenever the loop comes to its end, there was room for it. -/
theorem compactRow_compacts {prio n i : ℕ} : Spec (compactRow prio n i k)
    (fun k' => k' = compacted k prio n i ∧ (n = 0 ∨ i+n < cfg.maxThreadsAtPrio))
    (fun _ => True) := by
  cases n with
  | zero =>
    refine ⟨?_,Or.inl rfl⟩
    have hs : (fun p j => if p = prio ∧ i ≤ j ∧ j < i+0 then k.schedule p (j+1)
        else k.schedule p j) = k.schedule := by
      funext p j
      exact if_neg (by omega)
    simp only [compacted,lastCopy,hs]
  | succ n =>
    by_cases h : prio < cfg.maxPrioLevels ∧ i+(n+1) < cfg.maxThreadsAtPrio
    · rw [compactRow_eq h.1 _ _ _ h.2]
      exact ⟨rfl,Or.inr h.2⟩
    · exact (compactRow_outside h).imp fun _ => False.elim

/-- One thread less, and one cell less in its row, whichever it is. -/
theorem Tallied.bury (h : Tallied k) (hv : (k.pool t).valid = true) :
    Spec (bury k t) Tallied (fun _ => True) := by
  have hpt := h.prio_lt t hv
  simp only [Tinker.bury,Kernel.readCell,Kernel.readProcs,if_pos hpt,spec_bind,spec_ite,spec_ok,
    spec_check,spec_pure]
  refine ⟨fun _ => ⟨fun _ => compactRow_compacts.imp ?_,fun _ => trivial⟩,fun _ => trivial⟩
  rintro k1 ⟨rfl,-⟩
  change Tallied ((takeOut { k with procsInUse := k.procsInUse-1 } t).modTcb t
    fun b => { b with valid := false })
  generalize hk' : (takeOut { k with procsInUse := k.procsInUse-1 } t).modTcb t
    (fun b => { b with valid := false }) = k'
  have hrow : ∀ p, row k' p = row (takeOut k t) p := fun p => by rw [← hk']; rfl
  have hprio : ∀ x, (k'.pool x).prio = (k.pool x).prio := by
    intro x
    rw [← hk',Kernel.modTcb_pool]
    split
    · next he => subst he; rfl
    · rfl
  have hvalid : ∀ x, (k'.pool x).valid = true ↔ (k.pool x).valid = true ∧ x ≠ t := by
    intro x
    rw [← hk',Kernel.modTcb_pool]
    split
    · next he => simp [he]
    · next he => exact ⟨fun hx => ⟨hx,he⟩,And.left⟩
  have hprocs : ∀ p, k'.procs p = if p = (k.pool t).prio then k.procs p-1 else k.procs p :=
    fun p => by rw [← hk']; exact takeOut_procs k t p
  have hsub := row_takeOut_sublist k t
  refine ⟨fun x hx => ?_,fun p hp => ?_,fun p hp x hx hxv => ?_,fun p hp => ?_,fun p hp => ?_⟩
  · rw [hprio]
    exact h.prio_lt x ((hvalid x).mp hx).1
  · rw [hrow]
    exact (h.nodup p hp).sublist (hsub p)
  · rw [hrow] at hx
    rw [hprio]
    exact h.own p hp x ((hsub p).subset hx) ((hvalid x).mp hxv).1
  · have hcu := h.curr p hp
    have hcurr : (k'.prioIdxs p).currIdx = ((takeOut k t).prioIdxs p).currIdx := by rw [← hk']; rfl
    rw [hprocs,hcurr,takeOut_currIdx]
    by_cases he : p = (k.pool t).prio
    · by_cases hle : k.procs p-1 ≤ (k.prioIdxs p).currIdx
      · exact Or.inl (if_pos ⟨he,hle⟩)
      · rw [if_neg fun hh => hle hh.2,if_pos he]
        omega
    · rw [if_neg fun hh => he hh.1,if_neg he]
      exact hcu
  · have hset : atPrio k' p = (atPrio k p).erase t := by
      ext x
      rw [Finset.mem_erase,mem_atPrio,mem_atPrio,hvalid,hprio]
      tauto
    rw [hprocs,hset]
    split
    · next he => rw [Finset.card_erase_of_mem (mem_atPrio.mpr ⟨hv,he.symm⟩),h.tally p hp]
    · next he =>
      rw [Finset.erase_eq_of_notMem fun hm => he (mem_atPrio.mp hm).2.symm,h.tally p hp]

theorem Tallied.deleteThread (h : Tallied k) (hv : (k.pool t).valid = true) :
    Spec (tkDeleteThread k t) (fun r => Tallied r.1) (fun _ => True) := by
  simp only [tkDeleteThread,spec_ite,spec_ok,spec_bind,spec_pure]
  refine ⟨fun _ => h,fun _ => (killThread_spec k t).mono ?_ fun _ _ => trivial⟩
  rintro ⟨k1,buryIt⟩ ⟨hs,-⟩
  exact ⟨fun _ => (hs.tallied h).bury ((hs.pool t).1.trans hv),fun _ => hs.tallied h⟩

theorem Tallied.sweepThread (h : Tallied k) {clk : Clock} {i : Thid cfg} :
    Spec (sweepThread clk k i) Tallied (fun _ => True) := by
  have hm : SameTable k (k.modTcb i (timerTest (actTimeUs clk))) :=
    SameTable.modTcb k i _ fun b => by rw [timerTest_eq]; exact ⟨rfl,rfl,rfl⟩
  simp only [Tinker.sweepThread,spec_ite,spec_pure,spec_bind]
  refine ⟨fun _ => h,fun _ => ⟨fun _ => h,fun hv => ⟨fun _ => ?_,fun _ => hm.tallied h⟩⟩⟩
  refine (tkTryDetachParent_sameTable _ i false).mono ?_ fun _ _ => trivial
  rintro ⟨k1,detached⟩ ⟨hs,-⟩
  have hs := hm.trans hs
  have hv1 : (k1.pool i).valid = true := by rw [(hs.pool i).1]; simpa using hv
  exact ⟨fun _ => (hs.tallied h).deleteThread hv1,fun _ => hs.tallied h⟩

theorem Tallied.sweep (h : Tallied k) (clk : Clock) :
    Spec (tkWakeupTimedoutThreads k clk) Tallied (fun _ => True) :=
  spec_foldlM h fun _ _ _ hk => hk.sweepThread

/-- After a `tk_yield` no ready thread outranks the running one. -/
theorem Tallied.yield (h : Tallied k) (clk : Clock) :
    Spec (tkYield k clk) (fun k' => ¬k'.Outranked) (fun _ => True) := by
  simp only [tkYield,spec_bind,spec_ite,spec_check,spec_pure]
  refine (h.sweep clk).imp fun k1 h1 => ⟨fun _ => ⟨fun _ => ?_,fun _ => trivial⟩,fun _ => h1.next_best⟩
  have hs : SameTable k1 { k1 with npreempt := k1.npreempt-1 } :=
    ⟨rfl,rfl,rfl,rfl,rfl,fun _ => ⟨rfl,rfl,rfl⟩⟩
  exact (hs.tallied h1).next_best

theorem movedTo_prio (new : ℕ) (x : Thid cfg) :
    ((movedTo k t new).pool x).prio = if x = t then new else (k.pool x).prio := by
  rw [movedTo_pool]
  split <;> rfl

theorem movedTo_valid (new : ℕ) (x : Thid cfg) :
    ((movedTo k t new).pool x).valid = (k.pool x).valid := by
  rw [movedTo_pool]
  split
  · next he => rw [he]
  · rfl

/-- The thread counts at its new priority. -/
theorem atPrio_movedTo (hv : (k.pool t).valid = true) {new : ℕ} (p : ℕ) :
    atPrio (movedTo k t new) p =
      if p = new then insert t (atPrio k p) else (atPrio k p).erase t := by
  ext x
  by_cases hx : x = t
  · subst hx
    by_cases hpn : p = new
    · simp [movedTo_valid,movedTo_prio,hv,hpn]
    · simp [movedTo_valid,movedTo_prio,hpn,Ne.symm hpn]
  · by_cases hpn : p = new
    · simp [movedTo_valid,movedTo_prio,hx,hpn]
    · simp [movedTo_valid,movedTo_prio,hx,hpn]

/-- The thread is in the row of its new priority only. -/
theorem Tallied.movedTo (h : Tallied k) (ht : InPlace k t) (hv : (k.pool t).valid = true) {new : ℕ}
    (hnew : new < cfg.maxPrioLevels) (hne : (k.pool t).prio ≠ new) : Tallied (movedTo k t new) := by
  have hold := ht.1.1
  have hnd := h.nodup _ hold
  have hsub := row_takeOut_sublist k t
  have hout : t ∉ row (takeOut k t) (k.pool t).prio := by
    rw [row_takeOut ht.1.2,if_pos rfl,← ht.row_erase hnd]
    exact hnd.not_mem_erase
  have hnew' : t ∉ row k new := fun hm => hne (h.own new hnew t hm hv)
  refine ⟨fun x hx => ?_,fun p hp => ?_,fun p hp x hx hxv => ?_,fun p hp => ?_,fun p hp => ?_⟩
  · rw [movedTo_valid] at hx
    rw [movedTo_prio]
    split
    · exact hnew
    · exact h.prio_lt x hx
  · rw [row_movedTo hne]
    split
    · next he =>
      subst he
      exact List.nodup_append.mpr ⟨h.nodup p hp,List.nodup_singleton t,fun x hx y hy he =>
        hnew' (by rwa [← List.mem_singleton.mp hy,← he])⟩
    · exact (h.nodup p hp).sublist (hsub p)
  · rw [row_movedTo hne] at hx
    rw [movedTo_valid] at hxv
    rw [movedTo_prio]
    split at hx
    · next he =>
      subst he
      split
      · rfl
      · next hxt =>
        obtain hx | hx := List.mem_append.mp hx
        · exact h.own p hp x hx hxv
        · exact absurd (List.mem_singleton.mp hx) hxt
    · have hxp := h.own p hp x ((hsub p).subset hx) hxv
      rw [if_neg,hxp]
      rintro rfl
      rw [hxp] at hout
      exact hout hx
  · have hcu := h.curr p hp
    have hcurr : ((Tinker.movedTo k t new).prioIdxs p).currIdx = ((takeOut k t).prioIdxs p).currIdx := by
      rw [Tinker.movedTo,Kernel.modTcb_prioIdxs,Kernel.modStat_prioIdxs]
      split
      · next he => subst he; rfl
      · rfl
    rw [movedTo_procs hne,hcurr,takeOut_currIdx,takeOut_procs]
    by_cases he : p = new
    · subst he
      rw [if_neg fun hh => hne hh.1.symm,if_pos rfl]
      omega
    · rw [if_neg he]
      by_cases hp' : p = (k.pool t).prio
      · by_cases hle : k.procs p-1 ≤ (k.prioIdxs p).currIdx
        · exact Or.inl (if_pos ⟨hp',hle⟩)
        · rw [if_neg fun hh => hle hh.2,if_pos hp']
          omega
      · rw [if_neg fun hh => hp' hh.1,if_neg hp']
        exact hcu
  · have htally := h.tally p hp
    rw [movedTo_procs hne,takeOut_procs,atPrio_movedTo hv]
    by_cases hpn : p = new
    · subst hpn
      rw [if_pos rfl,if_pos rfl,Finset.card_insert_of_notMem fun hm => hne (mem_atPrio.mp hm).2,htally]
    · rw [if_neg hpn,if_neg hpn]
      split
      · next he => rw [Finset.card_erase_of_mem (mem_atPrio.mpr ⟨hv,he.symm⟩),htally]
      · next he => rw [Finset.erase_eq_of_notMem fun hm => he (mem_atPrio.mp hm).2.symm,htally]

/-! ### The decision -/

/-- `tk_change_prio` returns only with a legal priority and room for the move. -/
theorem InPlace.changePrio_room (ht : InPlace k t) {newPrio : ℤ} : Spec (tkChangePrio k t newPrio)
    (fun r => (0 ≤ newPrio ∧ newPrio.toNat < cfg.maxPrioLevels ∧ (k.pool t).valid = true ∧
      k.procs newPrio.toNat < cfg.maxThreadsAtPrio) ∧ ((k.pool t).prio = newPrio.toNat ∧ r = (k,false) ∨
      (k.pool t).prio ≠ newPrio.toNat ∧ k.procs (k.pool t).prio < cfg.maxThreadsAtPrio))
    (fun _ => True) := by
  have hidx := ht.1.2
  simp only [tkChangePrio,Kernel.readProcs,Kernel.writeCell,spec_bind,spec_check,spec_ite,spec_ok,
    spec_pure,if_pos ht.1.1]
  refine ⟨fun h0 => ⟨fun hlt => ⟨fun herr => ?_,fun _ => trivial⟩,fun _ => trivial⟩,fun _ => trivial⟩
  obtain ⟨hv,-,hroom⟩ := (changePrioErrors_eq_zero _ _ _ _).mp herr
  have hlegal := And.intro h0 (And.intro hlt (And.intro hv hroom))
  refine ⟨fun he => ⟨hlegal,Or.inl ⟨he,trivial⟩⟩,fun hne => compactRow_compacts.imp fun k1 h1 => ?_⟩
  have hold : k.procs (k.pool t).prio < cfg.maxThreadsAtPrio := by omega
  exact ⟨fun _ => ⟨fun _ => ⟨hlegal,Or.inr ⟨hne,hold⟩⟩,fun _ => trivial⟩,fun _ => trivial⟩

/-- What it returns and leaves then. -/
theorem InPlace.changePrio (ht : InPlace k t) {newPrio : ℤ} {y : Bool}
    (h : tkChangePrio k t newPrio = .ok (k',y)) : ∃ new : ℕ, newPrio = new ∧ new < cfg.maxPrioLevels ∧
      (k.pool t).valid = true ∧ ((k.pool t).prio = new ∧ k' = k ∧ y = false ∨
        (k.pool t).prio ≠ new ∧ k' = Tinker.movedTo k t new ∧ y = changePrioYield k t new) := by
  obtain ⟨⟨h0,hlt,hv,hroom⟩,hcase⟩ := ht.changePrio_room.of_ok h
  obtain ⟨new,rfl⟩ := Int.eq_ofNat_of_zero_le h0
  rw [Int.toNat_natCast] at hlt hroom hcase
  refine ⟨new,rfl,hlt,hv,hcase.imp (fun ⟨he,hr⟩ => ?_) fun ⟨hne,hold⟩ => ?_⟩
  · obtain ⟨rfl,rfl⟩ := Prod.mk.inj hr
    exact ⟨he,rfl,rfl⟩
  · rw [ht.changePrio_eq hold hv hlt hne hroom] at h
    obtain ⟨rfl,rfl⟩ := Prod.mk.inj (Except.ok.inj h)
    exact ⟨hne,rfl,rfl⟩

/-- Only a ready thread that is raised above a caller other than itself outranks the caller
without a yield. -/
theorem changePrioYield_of_outranked {new : ℕ} (hr : (k.pool k.activeThread).state = .ready)
    (hb : ¬k.Outranked) (hout : (Tinker.movedTo k t new).Outranked)
    (hc : ¬(t ≠ k.activeThread ∧ (k.pool t).state = .ready ∧
      new < (k.pool k.activeThread).prio)) : changePrioYield k t new = true := by
  have hactive : (Tinker.movedTo k t new).activeThread = k.activeThread := rfl
  obtain ⟨u,hv,hru,hlt⟩ := hout
  have hstate : ((Tinker.movedTo k t new).pool u).state = (k.pool u).state := by
    rw [movedTo_pool]
    split
    · next he => rw [he]
    · rfl
  rw [hstate] at hru
  rw [movedTo_valid] at hv
  rw [hactive,movedTo_prio,movedTo_prio] at hlt
  by_cases hme : k.activeThread = t
  · -- the caller has moved itself, and down
    rw [if_pos hme] at hlt
    have hut : u ≠ t := fun he => absurd hlt (by rw [if_pos he]; omega)
    rw [if_neg hut] at hlt
    have hbest : (k.pool t).prio ≤ (k.pool u).prio := by
      rw [← hme]
      exact Nat.not_lt.mp fun hlt' => hb ⟨u,hv,hru,hlt'⟩
    rw [hme] at hr
    rw [changePrioYield,if_neg (not_not_intro hr),if_pos (by omega)]
  · rw [if_neg hme] at hlt
    split at hlt
    · next he =>
      subst he
      exact absurd ⟨Ne.symm hme,hru,hlt⟩ hc
    · exact absurd ⟨u,hv,hru,hlt⟩ hb

end

/-- A change of a priority leaves no ready thread above the running one, and tells its caller to
yield where one is, just when it does not raise another ready thread above the caller. -/
theorem setschedparam_switches_iff {s s1 : Sync cfg} {t : Thid cfg} {p : ℤ} {y : Bool}
    (hs : ScheduleInv s.kernel ∅) (hv : (s.kernel.pool t).valid = true)
    (hr : (s.kernel.pool s.kernel.activeThread).state = .ready) (hb : ¬s.kernel.Outranked)
    (h : pthreadSetschedparam s t p = .ok (s1,y)) :
    ((s1.kernel.Outranked → y = true) ∧ ∀ clk s', pthreadSetschedparamWhole s t p clk = .ok s' →
      ¬s'.kernel.Outranked) ↔
    ¬(t ≠ s.kernel.activeThread ∧ (s.kernel.pool t).state = .ready ∧
      p < (s.kernel.pool s.kernel.activeThread).prio) := by
  obtain ⟨⟨k1,y'⟩,hch,he⟩ := bind_eq_ok.mp h
  obtain ⟨rfl,rfl⟩ := Prod.mk.inj (Except.ok.inj he)
  have hplace := hs.placed t hv (Finset.notMem_empty t)
  obtain ⟨new,rfl,hnew,-,hcase⟩ := InPlace.changePrio hplace hch
  have hlt : ((new : ℤ) < (s.kernel.pool s.kernel.activeThread).prio) ↔
      new < (s.kernel.pool s.kernel.activeThread).prio := Int.ofNat_lt
  rw [hlt]
  have hwhole : ∀ clk s', pthreadSetschedparamWhole s t new clk = .ok s' →
      (y' = false ∧ s'.kernel = k1) ∨ (y' = true ∧ tkYield k1 clk = .ok s'.kernel) := by
    intro clk s' hw
    rw [pthreadSetschedparamWhole,h] at hw
    cases y' with
    | false => exact Or.inl ⟨rfl,by rw [← Except.ok.inj hw]⟩
    | true =>
      have hw : (do let k ← tkYield k1 clk; return { s with kernel := k }) = .ok s' := hw
      obtain ⟨k2,hy,hk2⟩ := bind_eq_ok.mp hw
      exact Or.inr ⟨rfl,by rw [← Except.ok.inj hk2]; exact hy⟩
  constructor
  · rintro ⟨hyields,-⟩ ⟨hme,hrt,hbetter⟩
    -- the raised thread outranks the caller, which is not told
    have hle : (s.kernel.pool s.kernel.activeThread).prio ≤ (s.kernel.pool t).prio :=
      Nat.not_lt.mp fun hlt' => hb ⟨t,hv,hrt,hlt'⟩
    obtain ⟨hsame,-,-⟩ | ⟨hne,rfl,rfl⟩ := hcase
    · omega
    · have hy : changePrioYield s.kernel t new = false := by
        rw [changePrioYield,if_neg (not_not_intro hrt),if_neg (by omega)]
        exact decide_eq_false (Ne.symm hme)
      have hout : (movedTo s.kernel t new).Outranked := by
        refine ⟨t,?_,?_,?_⟩
        · rw [movedTo_pool,if_pos rfl]
          exact hv
        · rw [movedTo_pool,if_pos rfl]
          exact hrt
        · rw [movedTo_prio,movedTo_prio,if_pos rfl]
          exact (if_neg (Ne.symm hme)).symm ▸ hbetter
      rw [hyields hout] at hy
      cases hy
  · intro hc
    have hdecides : k1.Outranked → y' = true := by
      intro hout
      obtain ⟨-,rfl,rfl⟩ | ⟨-,rfl,rfl⟩ := hcase
      · exact absurd hout hb
      · exact changePrioYield_of_outranked hr hb hout hc
    have htal : Tallied k1 := by
      obtain ⟨-,rfl,-⟩ | ⟨hne,rfl,-⟩ := hcase
      · exact hs.tallied
      · exact hs.tallied.movedTo hplace hv hnew hne
    refine ⟨hdecides,fun clk s' hw => ?_⟩
    obtain ⟨hy,hk⟩ | ⟨hy,hk⟩ := hwhole clk s' hw
    · rw [hk]
      intro hout
      rw [hdecides hout] at hy
      cases hy
    · exact (htal.yield clk).of_ok hk

/-- Thread 0 sets thread 1 to a worse priority, with the idle thread below. -/
theorem setschedparam_switches_twoReady : ∃ s1 y,
    pthreadSetschedparam (Sync.init twoReady) 1 2 = .ok (s1,y) ∧
    (((s1.kernel.Outranked → y = true) ∧ ∀ clk s',
      pthreadSetschedparamWhole (Sync.init twoReady) 1 2 clk = .ok s' → ¬s'.kernel.Outranked) ↔
    ¬((1 : Thid gnuArm) ≠ twoReady.activeThread ∧ (twoReady.pool 1).state = .ready ∧
      (2 : ℤ) < (twoReady.pool twoReady.activeThread).prio)) := by
  obtain ⟨⟨s1,y⟩,h,-⟩ : ∃ r, pthreadSetschedparam (Sync.init twoReady) 1 2 = .ok r ∧ r.2 = true :=
    exists_ok (by decide +kernel)
  exact ⟨s1,y,h,setschedparam_switches_iff (s:=Sync.init twoReady) twoReady_inv (by decide)
    (by decide) (by decide) h⟩

/-- The same two threads at priority 3. -/
def behind : Kernel gnuArm :=
  { twoReady with
    pool := fun t => { twoReady.pool t with prio := if t.val < 2 then 3 else 15 }
    schedule := fun p i => if p = 3 then (if i = 1 then 1 else 0) else 2
    prioIdxs := fun p => if p = 3 then ⟨2,0⟩ else if p = 15 then ⟨1,0⟩ else ⟨0,0⟩ }

theorem behind_inv : ScheduleInv behind ∅ where
  row_le := by decide
  live := liveCells_of_rows (by decide) (by decide)
  placed := by decide
  out_valid := by decide
  in_use := by decide
  curr := by decide

/-- Thread 1 is raised above the caller and has to wait. -/
theorem setschedparam_not_switches : ¬∀ (s : Sync gnuArm) (t : Thid gnuArm) (p : ℤ),
    ScheduleInv s.kernel ∅ → (s.kernel.pool t).valid = true →
    (s.kernel.pool s.kernel.activeThread).state = .ready → ¬s.kernel.Outranked →
    ∀ clk s', pthreadSetschedparamWhole s t p clk = .ok s' → ¬s'.kernel.Outranked := by
  intro h
  obtain ⟨s',hw,hout⟩ : ∃ s', pthreadSetschedparamWhole (Sync.init behind) 1 2 0 = .ok s' ∧
      decide s'.kernel.Outranked = true := exists_ok (by decide +kernel)
  exact h (Sync.init behind) 1 2 behind_inv (by decide) (by decide) (by decide) 0 s' hw
    (of_decide_eq_true hout)

end Tinker

import Tinker.Schedule

/-! What each operation of `tk.c` leaves of the schedule table. -/
namespace Tinker

open Outcome

variable {cfg : Config}

/-! ### What the operations leave alone -/

/-- The table, the counters and the fields the table points back to are unchanged. -/
structure SameTable (k k' : Kernel cfg) : Prop where
  schedule : k'.schedule = k.schedule
  prioIdxs : k'.prioIdxs = k.prioIdxs
  procsInUse : k'.procsInUse = k.procsInUse
  activeThread : k'.activeThread = k.activeThread
  procIdx : k'.procIdx = k.procIdx
  pool : ∀ t, (k'.pool t).valid = (k.pool t).valid ∧ (k'.pool t).prio = (k.pool t).prio ∧
    (k'.pool t).idx = (k.pool t).idx

/-- Threads may leave the table, and nothing else a creation in progress relies on moves. -/
structure Shrinks (k k' : Kernel cfg) : Prop where
  procs_le : ∀ p, k'.procs p ≤ k.procs p
  prio : ∀ t, (k'.pool t).prio = (k.pool t).prio
  activeThread : k'.activeThread = k.activeThread
  procIdx : k'.procIdx = k.procIdx

theorem SameTable.refl (k : Kernel cfg) : SameTable k k :=
  ⟨rfl,rfl,rfl,rfl,rfl,fun _ => ⟨rfl,rfl,rfl⟩⟩

theorem SameTable.shrinks {k k' : Kernel cfg} (h : SameTable k k') : Shrinks k k' :=
  ⟨fun p => by simp [Kernel.procs,h.prioIdxs],fun t => (h.pool t).2.1,h.activeThread,h.procIdx⟩

theorem Shrinks.trans {a b c : Kernel cfg} (h : Shrinks a b) (h' : Shrinks b c) : Shrinks a c :=
  ⟨fun p => (h'.procs_le p).trans (h.procs_le p),fun t => (h'.prio t).trans (h.prio t),
    h'.activeThread.trans h.activeThread,h'.procIdx.trans h.procIdx⟩

theorem SameTable.trans {a b c : Kernel cfg} (h : SameTable a b) (h' : SameTable b c) :
    SameTable a c := by
  refine ⟨h'.schedule.trans h.schedule,h'.prioIdxs.trans h.prioIdxs,
    h'.procsInUse.trans h.procsInUse,h'.activeThread.trans h.activeThread,
    h'.procIdx.trans h.procIdx,fun t => ?_⟩
  obtain ⟨h1,h2,h3⟩ := h.pool t
  obtain ⟨h1',h2',h3'⟩ := h'.pool t
  exact ⟨h1'.trans h1,h2'.trans h2,h3'.trans h3⟩

theorem SameTable.modTcb (k : Kernel cfg) (t : Thid cfg) (f : Tcb cfg → Tcb cfg)
    (hf : ∀ b, (f b).valid = b.valid ∧ (f b).prio = b.prio ∧ (f b).idx = b.idx) :
    SameTable k (k.modTcb t f) := by
  refine ⟨rfl,rfl,rfl,rfl,rfl,fun u => ?_⟩
  rw [Kernel.modTcb_pool]
  split
  · next h => subst h; exact hf _
  · exact ⟨rfl,rfl,rfl⟩

theorem SameTable.inv {k k' : Kernel cfg} {out : Finset (Thid cfg)} (h : SameTable k k')
    (hi : ScheduleInv k out) : ScheduleInv k' out :=
  hi.congr h.schedule h.prioIdxs h.procsInUse h.pool

theorem SameTable.clean {k k' : Kernel cfg} {t : Thid cfg} (h : SameTable k k') :
    CleanRemoval k' t ↔ CleanRemoval k t := by
  have hv := fun t => (h.pool t).1
  have hp := fun t => (h.pool t).2.1
  have hi := fun t => (h.pool t).2.2
  simp only [CleanRemoval,Kernel.procs,h.schedule,h.prioIdxs,hv,hp,hi]

theorem detachChild_sameTable (t : Thid cfg) (k : Kernel cfg) (j : Thid cfg) :
    SameTable k (detachChild t k j) := by
  unfold detachChild
  split
  · refine (SameTable.modTcb k j (fun b => { b with gid := none }) ?_).trans
      (SameTable.modTcb _ t (fun b => { b with noChilds := b.noChilds-1 }) ?_)
    · exact fun b => ⟨rfl,rfl,rfl⟩
    · exact fun b => ⟨rfl,rfl,rfl⟩
  · exact SameTable.refl k

theorem tkDetachChildren_sameTable (k : Kernel cfg) (t : Thid cfg) :
    SameTable k (tkDetachChildren k t) := by
  unfold tkDetachChildren
  generalize List.finRange cfg.maxThreads = js
  induction js generalizing k with
  | nil => exact SameTable.refl k
  | cons j js ih => exact (detachChild_sameTable t k j).trans (ih _)

theorem tkTryDetachParent_sameTable (k : Kernel cfg) (t : Thid cfg) (force : Bool) :
    Spec (tkTryDetachParent k t force)
      (fun r => SameTable k r.1 ∧ (r.2 = true → force = true ∨ ∀ p, (k.pool t).gid = some p →
        waitsFor (k.pool p) t = true))
      (fun e => e = .assertParent ∨ e = .assertNoChilds) := by
  unfold tkTryDetachParent
  split
  · next hg => exact ⟨SameTable.refl k,fun _ => Or.inr fun p hp => by rw [hg] at hp; cases hp⟩
  · next p hg =>
    have hub : SameTable k (if waitsFor (k.pool p) t then
        k.modTcb p (unblockParent t (k.pool t).retval) else k) := by
      split
      · exact SameTable.modTcb k p _ fun b => ⟨rfl,rfl,rfl⟩
      · exact SameTable.refl k
    simp only [spec_bind,spec_check,spec_ite,spec_pure]
    refine ⟨fun _ => ⟨fun hw => ⟨fun _ => ⟨?_,fun _ => ?_⟩,fun _ => Or.inr trivial⟩,
      fun _ => ⟨hub,fun h => by cases h⟩⟩,fun _ => Or.inl trivial⟩
    · refine (hub.trans (SameTable.modTcb _ p (fun b => { b with noChilds := b.noChilds-1 })
        ?_)).trans (SameTable.modTcb _ t (fun b => { b with gid := none }) ?_)
      · exact fun b => ⟨rfl,rfl,rfl⟩
      · exact fun b => ⟨rfl,rfl,rfl⟩
    · simp only [Bool.or_eq_true] at hw
      obtain hw | hf := hw
      · refine Or.inr fun q hq => ?_
        rw [hg,Option.some.injEq] at hq
        exact hq ▸ hw
      · exact Or.inl hf

/-! ### The operations on a well-formed table -/

section

variable {k : Kernel cfg} {out : Finset (Thid cfg)}

theorem bury_spec {t : Thid cfg} (h : ScheduleInv k out) (ht : (k.pool t).valid = true)
    (hto : t ∉ out) (hc : CleanRemoval k t) :
    Spec (bury k t) (fun k' => ScheduleInv k' out ∧ Shrinks k k') (fun _ => False) := by
  obtain ⟨⟨hp,hi⟩,hs⟩ := h.placed t ht hto
  have hroom := hc.1
  have hcell : Kernel.InTable cfg (k.pool t).prio (k.pool t).idx := ⟨hp,by omega⟩
  have hrow : (k.pool t).idx+(k.procs (k.pool t).prio-(k.pool t).idx) < cfg.maxThreadsAtPrio := by
    omega
  simp only [bury,Kernel.readCell,if_pos hcell,hs,Kernel.readProcs,if_pos hp,spec_bind,spec_ok,
    spec_check,not_true_eq_false,true_implies,false_implies,and_true]
  rw [compactRow_eq hp _ _ _ hrow]
  simp only [spec_ok,spec_pure]
  have hfree : ScheduleInv ((shortenRow (compacted { k with procsInUse := k.procsInUse-1 }
      (k.pool t).prio (k.procs (k.pool t).prio-(k.pool t).idx) (k.pool t).idx)
      (k.pool t).prio).modTcb t fun b => { b with valid := false }) ((insert t out).erase t) :=
    (h.of_takeOut ht hto hc).of_free (Finset.mem_insert_self t out) rfl rfl rfl (by simp)
      fun x hx => by rw [Kernel.modTcb_pool,if_neg hx]; rfl
  rw [Finset.erase_insert hto] at hfree
  refine ⟨hfree,fun p => ?_,fun x => ?_,rfl,rfl⟩
  · have := takeOut_procs k t p
    change (takeOut k t).procs p ≤ k.procs p
    rw [this]
    split <;> omega
  · rw [Kernel.modTcb_pool]
    split
    · next he => subst he; rfl
    · rfl

/-- `tk_delete_thread` takes the thread out of the table: it was dead already, nobody is to be
told about its death, or its parent sleeps in `tk_join` for it. -/
def Buries (k : Kernel cfg) (t : Thid cfg) : Prop :=
  (k.pool t).state.has .zombi = true ∨
  match (k.pool t).gid with
  | none => True
  | some p => if p = t then 0 < (k.pool t).noChilds else waitsFor (k.pool p) t = true

instance (k : Kernel cfg) (t : Thid cfg) : Decidable (Buries k t) := by
  unfold Buries; split <;> infer_instance

theorem tkDetachChildren_pool (k : Kernel cfg) (t u : Thid cfg) :
    let b' := (tkDetachChildren k t).pool u
    b' = { k.pool u with gid := b'.gid, noChilds := b'.noChilds } ∧
    (b'.gid = (k.pool u).gid ∨
      b'.gid = none ∧ (k.pool u).gid = some t ∧ 0 < (k.pool t).noChilds) := by
  unfold tkDetachChildren
  generalize List.finRange cfg.maxThreads = js
  induction js generalizing k with
  | nil => exact ⟨rfl,Or.inl rfl⟩
  | cons j js ih =>
    rw [List.foldl_cons]
    by_cases hc : 0 < (k.pool t).noChilds ∧ (k.pool j).valid ∧ (k.pool j).gid = some t
    · obtain ⟨hs,hg⟩ := ih (detachChild t k j)
      have hstep : (detachChild t k j).pool u = { k.pool u with
          gid := if u = j then none else (k.pool u).gid
          noChilds := if u = t then (k.pool t).noChilds-1 else (k.pool u).noChilds } := by
        simp only [detachChild,if_pos hc,Kernel.modTcb_pool]
        by_cases hut : u = t
        · subst hut
          by_cases huj : u = j
          · subst huj; simp
          · simp [huj]
        · by_cases huj : u = j
          · subst huj; simp [hut]
          · simp [hut,huj]
      rw [hstep] at hs hg
      refine ⟨hs,?_⟩
      by_cases huj : u = j
      · subst huj
        rw [if_pos rfl] at hg
        right
        refine ⟨?_,hc.2.2,hc.1⟩
        rcases hg with hg | hg
        · exact hg
        · exact hg.1
      · rw [if_neg huj] at hg
        rcases hg with hg | hg
        · exact Or.inl hg
        · exact Or.inr ⟨hg.1,hg.2.1,hc.1⟩
    · have hk : detachChild t k j = k := if_neg hc
      rw [hk]
      exact ih k

/-- The thread leaves the table only where this was visible before the call. -/
theorem killThread_spec (k : Kernel cfg) (t : Thid cfg) :
    Spec (killThread k t) (fun r => SameTable k r.1 ∧ (r.2 = true → Buries k t))
      (fun e => e = .assertParent ∨ e = .assertNoChilds) := by
  unfold killThread
  rw [spec_ite]
  refine ⟨fun hz => ⟨SameTable.refl k,fun _ => Or.inl hz⟩,fun _ => ?_⟩
  have hm : SameTable k (k.modTcb t fun b => { b with state := .zombi }) :=
    SameTable.modTcb k t _ fun b => ⟨rfl,rfl,rfl⟩
  have hs := hm.trans (tkDetachChildren_sameTable _ t)
  have hp := tkDetachChildren_pool (k.modTcb t fun b => { b with state := .zombi }) t
  have ht := tkTryDetachParent_sameTable (tkDetachChildren
    (k.modTcb t fun b => { b with state := .zombi }) t) t false
  cases hr : tkTryDetachParent (tkDetachChildren
    (k.modTcb t fun b => { b with state := .zombi }) t) t false with
  | error e => exact ht.of_error hr
  | ok r =>
    refine ⟨hs.trans (ht.of_ok hr).1,fun hb => Or.inr ?_⟩
    cases hg : ((tkDetachChildren (k.modTcb t fun b => { b with state := .zombi }) t).pool t).gid with
    | none =>
      -- nobody to tell: none before, or the loop detached the thread from itself
      rcases (hp t).2 with h | ⟨_,h,hn⟩
      · rw [hg] at h
        simp only [Kernel.modTcb_pool,if_true] at h
        simp [← h]
      · simp only [Kernel.modTcb_pool,if_true] at h hn
        simp [h,hn]
    | some p =>
      have hg' : (k.pool t).gid = some p := by
        rcases (hp t).2 with h | ⟨h,_⟩
        · rw [hg] at h; simpa using h.symm
        · rw [hg] at h; cases h
      obtain hf | hw := (ht.of_ok hr).2 hb
      · cases hf
      have hw := hw p hg
      rw [(hp p).1] at hw
      simp only [hg']
      by_cases hpt : p = t
      · subst hpt
        simp [waitsFor] at hw
      · rw [if_neg hpt]
        simpa [waitsFor,hpt] using hw

theorem tkDeleteThread_spec {t : Thid cfg} (h : ScheduleInv k out) (hto : t ∉ out)
    (hc : Buries k t → CleanRemoval k t) :
    Spec (tkDeleteThread k t) (fun r => ScheduleInv r.1 out ∧ Shrinks k r.1)
      (fun e => e = .assertParent ∨ e = .assertNoChilds) := by
  unfold tkDeleteThread
  rw [spec_ite]
  refine ⟨fun _ => ⟨h,(SameTable.refl k).shrinks⟩,fun hv => ?_⟩
  have hv : (k.pool t).valid = true := by simpa using hv
  rw [spec_bind]
  refine (killThread_spec k t).imp ?_
  rintro ⟨k',buryIt⟩ ⟨hs,hb⟩
  cases buryIt with
  | false => exact ⟨hs.inv h,hs.shrinks⟩
  | true =>
    simp only [if_true,spec_bind,spec_pure]
    exact (bury_spec (hs.inv h) (by rw [(hs.pool t).1,hv]) hto (hs.clean.mpr (hc (hb rfl)))).mono
      (fun _ h' => ⟨h'.1,hs.shrinks.trans h'.2⟩) (fun _ => False.elim)

/-- The sweep takes the thread out of the table: it is dead and not running, and nobody is to be
told about its death or its parent sleeps in `tk_join` for it. -/
def Reaps (k : Kernel cfg) (i : Thid cfg) : Prop :=
  (k.pool i).state.has .zombi = true ∧ i ≠ k.activeThread ∧
  match (k.pool i).gid with
  | none => True
  | some p => waitsFor (k.pool p) i = true

instance (k : Kernel cfg) (i : Thid cfg) : Decidable (Reaps k i) := by
  unfold Reaps; split <;> infer_instance

theorem timerTest_eq (clk : Clock) (b : Tcb cfg) :
    timerTest clk b = { b with
      state := (timerTest clk b).state, wakeupEvent := (timerTest clk b).wakeupEvent } := by
  unfold timerTest; split <;> rfl

theorem timerTest_has_zombi (clk : Clock) (b : Tcb cfg) :
    (timerTest clk b).state.has .zombi = b.state.has .zombi := by
  unfold timerTest
  split
  · exact ProcState.clear_queueSleep_has_zombi _
  · rfl

theorem timerTest_has_term (clk : Clock) (b : Tcb cfg) :
    (timerTest clk b).state.has .term = b.state.has .term := by
  unfold timerTest
  split
  · exact ProcState.clear_queueSleep_has_term _
  · rfl

/-- Behind its timer test a dead thread is detached only where the sweep reaps it. -/
theorem sweepThread_detaches {i : Thid cfg} (clk : Clock)
    (hz : (k.pool i).state.has .zombi = true) (hna : i ≠ k.activeThread) :
    Spec (tkTryDetachParent (k.modTcb i (timerTest clk)) i false)
      (fun r => SameTable k r.1 ∧ (r.2 = true → Reaps k i))
      (fun e => e = .assertParent ∨ e = .assertNoChilds) := by
  have hm : SameTable k (k.modTcb i (timerTest clk)) :=
    SameTable.modTcb k i _ fun b => by rw [timerTest_eq]; exact ⟨rfl,rfl,rfl⟩
  refine (tkTryDetachParent_sameTable _ i false).imp ?_
  rintro ⟨k',detached⟩ ⟨hs,hd⟩
  refine ⟨hm.trans hs,fun ht => ⟨hz,hna,?_⟩⟩
  obtain hf | hw := hd ht
  · cases hf
  cases hg : (k.pool i).gid with
  | none => trivial
  | some p =>
    have hw := hw p (by rw [Kernel.modTcb_pool,if_pos rfl,timerTest_eq]; exact hg)
    rw [Kernel.modTcb_pool] at hw
    split at hw
    · next he =>
      subst he
      rw [waitsFor,timerTest_has_term,timerTest_eq] at hw
      exact hw
    · exact hw

theorem sweepThread_spec {i : Thid cfg} (clk : Clock) (h : ScheduleInv k out)
    (hio : i ∈ out → i = k.activeThread) (hc : Reaps k i → CleanRemoval k i) :
    Spec (sweepThread clk k i) (fun k' => ScheduleInv k' out ∧ Shrinks k k')
      (fun e => e = .assertParent ∨ e = .assertNoChilds) := by
  have hm : SameTable k (k.modTcb i (timerTest (actTimeUs clk))) :=
    SameTable.modTcb k i _ fun b => by rw [timerTest_eq]; exact ⟨rfl,rfl,rfl⟩
  have hst := (SameTable.refl k).shrinks
  simp only [sweepThread,spec_ite,spec_pure,spec_bind]
  refine ⟨fun _ => ⟨h,hst⟩,fun _ => ⟨fun _ => ⟨h,hst⟩,fun _ =>
    ⟨fun hz => ?_,fun _ => ⟨hm.inv h,hm.shrinks⟩⟩⟩⟩
  rw [Kernel.modTcb_pool,if_pos rfl,timerTest_has_zombi,Bool.and_eq_true] at hz
  have hna : i ≠ k.activeThread := of_decide_eq_true hz.2
  refine (sweepThread_detaches (actTimeUs clk) hz.1 hna).imp ?_
  rintro ⟨k',detached⟩ ⟨hs,hreap⟩
  cases detached with
  | false => exact ⟨fun hf => (by cases hf),fun _ => ⟨hs.inv h,hs.shrinks⟩⟩
  | true =>
    refine ⟨fun _ => ?_,fun hf => absurd rfl hf⟩
    exact (tkDeleteThread_spec (hs.inv h) (fun hm' => hna (hio hm'))
      fun _ => hs.clean.mpr (hc (hreap rfl))).imp fun r hr => ⟨hr.1,hs.shrinks.trans hr.2⟩

/-- A thread that is not reaped stays in the table or out of it. -/
theorem sweepThread_sameTable {i : Thid cfg} (clk : Clock)
    (hn : (k.pool i).valid = true → ¬Reaps k i) :
    Spec (sweepThread clk k i) (SameTable k)
      (fun e => e = .assertParent ∨ e = .assertNoChilds) := by
  have hm : SameTable k (k.modTcb i (timerTest (actTimeUs clk))) :=
    SameTable.modTcb k i _ fun b => by rw [timerTest_eq]; exact ⟨rfl,rfl,rfl⟩
  simp only [sweepThread,spec_ite,spec_pure,spec_bind]
  refine ⟨fun _ => SameTable.refl k,fun _ => ⟨fun _ => SameTable.refl k,fun hv =>
    ⟨fun hz => ?_,fun _ => hm⟩⟩⟩
  rw [Kernel.modTcb_pool,if_pos rfl,timerTest_has_zombi,Bool.and_eq_true] at hz
  refine (sweepThread_detaches (actTimeUs clk) hz.1 (of_decide_eq_true hz.2)).imp ?_
  rintro ⟨k',detached⟩ ⟨hs,hreap⟩
  cases detached with
  | false => exact ⟨fun hf => (by cases hf),fun _ => hs⟩
  | true => exact absurd (hreap rfl) (hn (by simpa using hv))

theorem createErrors_eq_zero (k : Kernel cfg) (r : ThreadReq) (slotIdx : ℕ) :
    createErrors k r slotIdx = 0 ↔
      k.procsInUse < cfg.maxThreads ∧ r.prio < cfg.maxPrioLevels ∧ slotIdx < cfg.maxThreadsAtPrio := by
  unfold createErrors tcMaxThreads tcMaxPrioLevels tcThreadsAtPrio
  split_ifs <;> simp <;> omega

theorem changePrioErrors_eq_zero (k : Kernel cfg) (t : Thid cfg) (newPrio : ℤ) (procs : ℕ) :
    changePrioErrors k t newPrio procs = 0 ↔
      (k.pool t).valid = true ∧ newPrio < cfg.maxPrioLevels ∧ procs < cfg.maxThreadsAtPrio := by
  unfold changePrioErrors tcTcbInvalid tcMaxPrioLevels tcThreadsAtPrio
  split_ifs <;> simp_all

theorem tkChangePrio_spec {t : Thid cfg} {newPrio : ℤ} (h : ScheduleInv k out) (hto : t ∉ out)
    (hpos : 0 ≤ newPrio) (hlt : newPrio < cfg.maxPrioLevels)
    (hc : newPrio ≠ (k.pool t).prio → CleanRemoval k t) :
    Spec (tkChangePrio k t newPrio) (fun r => ScheduleInv r.1 out)
      (fun _ => changePrioErrors k t newPrio (k.procs newPrio.toNat) ≠ 0) := by
  have hnew : newPrio.toNat < cfg.maxPrioLevels := by omega
  simp only [tkChangePrio,Kernel.readProcs,if_pos hnew,spec_bind,spec_check,spec_ok,spec_ite,
    ne_eq,changePrioErrors_eq_zero,hpos,true_implies,spec_pure,not_true_eq_false,false_implies,
    and_true]
  refine ⟨fun hok => ⟨fun _ => h,fun hne => ?_⟩,fun hn => hn⟩
  obtain ⟨hv,_,hroom⟩ := hok
  have hclean := hc (by omega)
  obtain ⟨⟨hp,hi⟩,_⟩ := h.placed t hv hto
  have hold := hclean.1
  refine ⟨fun _ => ?_,fun hn => absurd hp hn⟩
  rw [compactRow_eq hp _ _ _ (by omega),spec_ok]
  have htake := h.of_takeOut hv hto hclean
  have hprocs : (takeOut k t).procs newPrio.toNat = k.procs newPrio.toNat := by
    rw [takeOut_procs,if_neg (Ne.symm hne)]
  change Spec ((takeOut k t).writeCell newPrio.toNat ((takeOut k t).procs newPrio.toNat) t) _ _
  rw [hprocs]
  have hcell : Kernel.InTable cfg newPrio.toNat (k.procs newPrio.toNat) := ⟨hnew,hroom⟩
  rw [Kernel.writeCell,if_pos hcell,spec_ok]
  rw [← Finset.erase_insert hto]
  refine htake.of_enter (p:=newPrio.toNat) (Finset.mem_insert_self t out) hnew
    (by rw [hprocs]; exact hroom) (fun p' i => by rw [hprocs]; rfl) (fun p' => ?_) rfl
    (fun x => ?_) ?_ fun x hx => ?_
  · simp only [Kernel.modTcb_prioIdxs,Kernel.modStat_prioIdxs]
    rfl
  · rw [Kernel.modTcb_pool]
    split
    · next he => subst he; rfl
    · rfl
  · rw [Kernel.modTcb_pool,if_pos rfl]
    exact ⟨rfl,rfl⟩
  · rw [Kernel.modTcb_pool,if_neg hx]
    exact ⟨rfl,rfl⟩

/-! ### Creation -/

theorem nextFree_valid {valid : Thid cfg → Bool} {fuel : ℕ} {i t : Thid cfg}
    (h : nextFree valid fuel i = some t) : valid t = false := by
  induction fuel generalizing i with
  | zero => cases h
  | succ fuel ih =>
    simp only [nextFree] at h
    split at h
    · exact ih h
    · next hv => exact (Option.some.inj h) ▸ Bool.eq_false_iff.mpr hv

theorem valid_of_nextFree_none {valid : Thid cfg → Bool} {fuel : ℕ} {i : Thid cfg}
    (h : nextFree valid fuel i = none) (m : ℕ) (hm : m < fuel) :
    valid ⟨(i.val+1+m) % cfg.maxThreads,Nat.mod_lt _ (Nat.zero_lt_of_lt i.isLt)⟩ = true := by
  induction fuel generalizing i m with
  | zero => omega
  | succ fuel ih =>
    simp only [nextFree] at h
    split at h
    · next hv =>
      cases m with
      | zero => exact hv
      | succ m =>
        have hv := ih h m (by omega)
        have hmod : ((i.val+1) % cfg.maxThreads+1+m) % cfg.maxThreads =
            (i.val+1+(m+1)) % cfg.maxThreads := by
          rw [Nat.add_assoc,Nat.mod_add_mod,Nat.add_comm 1 m]
        simpa only [hmod] using hv
    · cases h

/-- The search visits every slot, so it ends when one is free. -/
theorem nextFree_some (valid : Thid cfg → Bool) {u : Thid cfg} (hu : valid u = false) (i : Thid cfg) :
    ∃ t, nextFree valid cfg.maxThreads i = some t := by
  by_contra hn
  have hnone : nextFree valid cfg.maxThreads i = none := by
    simpa [Option.eq_none_iff_forall_ne_some] using hn
  have hi := i.isLt
  have hu' := u.isLt
  have hm : ∃ m < cfg.maxThreads, (i.val+1+m) % cfg.maxThreads = u.val := by
    by_cases hlt : i.val < u.val
    · refine ⟨u.val-i.val-1,by omega,?_⟩
      rw [show i.val+1+(u.val-i.val-1) = u.val by omega,Nat.mod_eq_of_lt hu']
    · refine ⟨u.val+cfg.maxThreads-i.val-1,by omega,?_⟩
      rw [show i.val+1+(u.val+cfg.maxThreads-i.val-1) = u.val+cfg.maxThreads by omega,
        Nat.add_mod_right,Nat.mod_eq_of_lt hu']
  obtain ⟨m,hmlt,hmu⟩ := hm
  have := valid_of_nextFree_none hnone m hmlt
  simp [hmu,hu] at this

/-- `t` is the free slot a creation took. -/
structure Begun (k : Kernel cfg) (r : ThreadReq) (k' : Kernel cfg) (t : Thid cfg) : Prop where
  eq : k' = (allocThread k r (k.procs r.prio) t).dispatch t
  free : (k.pool t).valid = false
  inUse : k.procsInUse < cfg.maxThreads
  prio : r.prio < cfg.maxPrioLevels
  room : k.procs r.prio < cfg.maxThreadsAtPrio

/-- The requests that pass every check of `tk_create_thread`. -/
def Accepted (k : Kernel cfg) (r : ThreadReq) : Prop :=
  createErrors k r (k.procs r.prio) = 0 ∧ r.name.length < cfg.threadNameLen ∧ r.stalloc = true

instance (k : Kernel cfg) (r : ThreadReq) : Decidable (Accepted k r) := instDecidableAnd

theorem tkCreateThreadBegin_begun (k : Kernel cfg) (r : ThreadReq) :
    Spec (tkCreateThreadBegin k r) (fun s => Begun k r s.1 s.2)
      (fun e => ((∃ c, e = .exit c) ∨ e = .outOfTable ∨ e = .diverges) ∧
        (¬Accepted k r ∨ ∀ t, (k.pool t).valid = true)) := by
  by_cases hp : r.prio < cfg.maxPrioLevels
  · simp only [tkCreateThreadBegin,Kernel.readProcs,if_pos hp,spec_bind,spec_ok,spec_check]
    refine ⟨fun he => ?_,fun he => ⟨Or.inl ⟨_,rfl⟩,Or.inl fun ha => he ha.1⟩⟩
    obtain ⟨hu,_,hroom⟩ := (createErrors_eq_zero k r _).mp he
    cases hn : nextFree (fun t => (k.pool t).valid) cfg.maxThreads k.procIdx with
    | none =>
      refine ⟨Or.inr (Or.inr rfl),Or.inr fun t => ?_⟩
      by_contra ht
      obtain ⟨u,hu⟩ := nextFree_some (fun t => (k.pool t).valid) (u:=t) (by simpa using ht)
        k.procIdx
      rw [hn] at hu
      cases hu
    | some t =>
      simp only [spec_bind,spec_check,spec_pure]
      exact ⟨fun _ => ⟨fun _ => ⟨rfl,nextFree_valid hn,hu,hp,hroom⟩,
        fun hs => ⟨Or.inl ⟨_,rfl⟩,Or.inl fun ha => hs ha.2.2⟩⟩,
        fun hl => ⟨Or.inl ⟨_,rfl⟩,Or.inl fun ha => hl ha.2.1⟩⟩
  · simp only [tkCreateThreadBegin,Kernel.readProcs,if_neg hp,spec_bind,spec_error]
    exact ⟨Or.inr (Or.inl trivial),Or.inl fun ha => hp ((createErrors_eq_zero k r _).mp ha.1).2.1⟩

/-- Where the table is well formed an accepted creation finds its slot. -/
theorem tkCreateThreadBegin_spec {r : ThreadReq} (h : ScheduleInv k out) :
    Spec (tkCreateThreadBegin k r) (fun s => Begun k r s.1 s.2) (fun _ => ¬Accepted k r) := by
  refine (tkCreateThreadBegin_begun k r).mono (fun _ hb => hb) fun e he ha => ?_
  obtain hn | hall := he.2
  · exact hn ha
  · have hcard := h.card_valid
    simp only [hall,Finset.filter_true,Finset.card_univ,Fintype.card_fin] at hcard
    have := ((createErrors_eq_zero k r _).mp ha.1).1
    omega

theorem Begun.pool {r : ThreadReq} {k' : Kernel cfg} {t : Thid cfg} (h : Begun k r k' t)
    (x : Thid cfg) : k'.pool x =
      if x = k.activeThread then
        (if x = t then { newTcb t k.activeThread r (k.procs r.prio) (k.pool t).wakeuptime with
          noChilds := 1 } else { k.pool x with noChilds := (k.pool x).noChilds+1 })
      else if x = t then newTcb t k.activeThread r (k.procs r.prio) (k.pool t).wakeuptime
      else k.pool x := by
  rw [h.eq]
  simp only [Kernel.dispatch_pool,allocThread,Kernel.modTcb_pool,Kernel.modTcb_activeThread]
  split
  · next hx => subst hx; split <;> rfl
  · rfl

theorem Begun.inv {r : ThreadReq} {k' : Kernel cfg} {t : Thid cfg} (h : Begun k r k' t)
    (hi : ScheduleInv k out) : ScheduleInv k' (insert t out) ∧ k'.procIdx = t ∧
      k'.activeThread = t ∧ t ∉ out ∧ (k'.pool t).prio = r.prio ∧ k'.procs = k.procs := by
  have hs : k'.schedule = k.schedule := by rw [h.eq]; rfl
  have hst : k'.prioIdxs = k.prioIdxs := by rw [h.eq]; rfl
  have hvt : (k'.pool t).valid = true ∧ (k'.pool t).prio = r.prio := by
    rw [h.pool]
    by_cases ht : t = k.activeThread <;> simp [ht,newTcb]
  refine ⟨?_,by rw [h.eq]; rfl,by rw [h.eq]; rfl,fun hm => ?_,hvt.2,by funext p; simp [Kernel.procs,hst]⟩
  · refine hi.of_alloc h.free hs hst (by rw [h.eq]; rfl) hvt.1 fun x hx => ?_
    rw [h.pool]
    by_cases hxa : x = k.activeThread
    · rw [if_pos hxa,if_neg hx]; exact ⟨rfl,rfl,rfl⟩
    · rw [if_neg hxa,if_neg hx]; exact ⟨rfl,rfl,rfl⟩
  · have := hi.out_valid t hm
    rw [h.free] at this
    cases this

theorem tkCreateThreadEnd_spec {r : ThreadReq} {v : Thid cfg} (h : ScheduleInv k out)
    (hm : k.procIdx ∈ out) (hp : r.prio < cfg.maxPrioLevels)
    (hroom : k.procs r.prio < cfg.maxThreadsAtPrio) (hprio : (k.pool k.procIdx).prio = r.prio) :
    Spec (tkCreateThreadEnd k r v)
      (fun s => ScheduleInv s.1 (out.erase k.procIdx) ∧ s.2 = v ∧
        s.1.procs = (fun p => if p = r.prio then k.procs p+1 else k.procs p) ∧
        s.1.procIdx = k.procIdx ∧ s.1.activeThread = k.activeThread ∧
        ∀ x, s.1.pool x =
          if x = k.procIdx then { k.pool x with idx := k.procs r.prio } else k.pool x)
      (fun _ => False) := by
  have hcell : Kernel.InTable cfg r.prio (k.procs r.prio) := ⟨hp,hroom⟩
  simp only [tkCreateThreadEnd,Kernel.readProcs,if_pos hp,spec_bind,spec_ok,Kernel.writeCell,
    if_pos hcell,spec_pure]
  have hpool : ∀ x, (k.modTcb k.procIdx fun b => { b with idx := k.procs r.prio }).pool x =
      if x = k.procIdx then { k.pool x with idx := k.procs r.prio } else k.pool x := by
    intro x
    rw [Kernel.modTcb_pool]
    split
    · next he => subst he; rfl
    · rfl
  refine ⟨?_,trivial,?_,rfl,rfl,hpool⟩
  · refine h.of_enter hm hp hroom (fun p' i => rfl) ?_ rfl (fun x => ?_) ?_ fun x hx => ?_
    · intro p'
      simp only [Kernel.modStat_prioIdxs]
      rfl
    · rw [Kernel.modStat_pool,hpool]
      split <;> rfl
    · rw [Kernel.modStat_pool,hpool,if_pos rfl]
      exact ⟨hprio,rfl⟩
    · rw [Kernel.modStat_pool,hpool,if_neg hx]
      exact ⟨rfl,rfl⟩
  · funext p
    simp only [Kernel.procs,Kernel.modStat_prioIdxs]
    split
    · next he => subst he; rfl
    · rfl

theorem timerTest_idem (clk : Clock) (b : Tcb cfg) :
    timerTest clk (timerTest clk b) = timerTest clk b := by
  unfold timerTest
  split
  · simp [ProcState.clear_queueSleep_has_sleep]
  · rfl

/-- No valid thread is dead. -/
def Alive (k : Kernel cfg) : Prop :=
  ∀ t, (k.pool t).valid = true → (k.pool t).state.has .zombi = false

theorem Alive.modTcb {k : Kernel cfg} (h : Alive k) {t : Thid cfg} {f : Tcb cfg → Tcb cfg}
    (hf : (f (k.pool t)).valid = true → (f (k.pool t)).state.has .zombi = false) :
    Alive (k.modTcb t f) := by
  intro u hu
  rw [Kernel.modTcb_pool] at hu ⊢
  split
  · next he => rw [if_pos he] at hu; exact hf hu
  · next he => rw [if_neg he] at hu; exact h u hu

theorem Alive.sweep {k k' : Kernel cfg} {clk : Clock} (h : Alive k)
    (hs : SameTable k k') (hp : ∀ t, k'.pool t = k.pool t ∨ k'.pool t = timerTest clk (k.pool t)) :
    Alive k' := by
  intro t ht
  rw [(hs.pool t).1] at ht
  obtain he | he := hp t
  · rw [he]; exact h t ht
  · rw [he,timerTest_has_zombi]; exact h t ht

/-- With no dead thread in the pool the sweep is nothing but timer tests. -/
theorem tkWakeupTimedoutThreads_alive (clk : Clock) (h : Alive k) :
    Spec (tkWakeupTimedoutThreads k clk) (fun k' => SameTable k k' ∧
      ∀ t, k'.pool t = k.pool t ∨ k'.pool t = timerTest (actTimeUs clk) (k.pool t))
      (fun _ => False) := by
  refine spec_foldlM ⟨SameTable.refl k,fun t => Or.inl rfl⟩ ?_
  rintro k' i _ ⟨hs,hp⟩
  have hpool : ∀ t, (k'.modTcb i (timerTest (actTimeUs clk))).pool t = k.pool t ∨
      (k'.modTcb i (timerTest (actTimeUs clk))).pool t = timerTest (actTimeUs clk) (k.pool t) := by
    intro t
    rw [Kernel.modTcb_pool]
    split
    · next ht =>
      subst ht
      obtain ht | ht := hp t
      · exact Or.inr (by rw [ht])
      · exact Or.inr (by rw [ht,timerTest_idem])
    · exact hp t
  have hm : SameTable k (k'.modTcb i (timerTest (actTimeUs clk))) :=
    hs.trans (SameTable.modTcb k' i _ fun b => by rw [timerTest_eq]; exact ⟨rfl,rfl,rfl⟩)
  simp only [sweepThread,spec_ite,spec_pure,spec_bind]
  refine ⟨fun _ => ⟨hs,hp⟩,fun _ => ⟨fun _ => ⟨hs,hp⟩,fun hv =>
    ⟨fun hz => absurd hz ?_,fun _ => ⟨hm,hpool⟩⟩⟩⟩
  have hv : (k.pool i).valid = true := by rw [← (hs.pool i).1]; simpa using hv
  have hz : ((k'.modTcb i (timerTest (actTimeUs clk))).pool i).state.has .zombi = false := by
    obtain ht | ht := hpool i
    · rw [ht,h i hv]
    · rw [ht,timerTest_has_zombi,h i hv]
  simp only [hz,Bool.false_and,Bool.false_eq_true,not_false_iff]

/-- The sweep is done and finds the thread ready. -/
def readyAfterSweep (k : Kernel cfg) (clk : Clock) (t : Thid cfg) : Bool :=
  match tkWakeupTimedoutThreads k clk with
  | .ok k' => decide ((k'.pool t).state = .ready)
  | .error _ => true

/-- The sweep and the dispatch of a `tk_yield` without dead threads. -/
theorem Alive.yield {clk : Clock} {t : Thid cfg} (h : Alive k)
    (hr : readyAfterSweep k clk t = true) : Spec (tkWakeupTimedoutThreads k clk) (fun k' =>
      Alive k' ∧
      (∀ u, k'.pool u = k.pool u ∨ k'.pool u = timerTest (actTimeUs clk) (k.pool u)) ∧
      (k'.pool t).state = .ready) (fun _ => False) := by
  have hsw := tkWakeupTimedoutThreads_alive clk h
  unfold readyAfterSweep at hr
  cases hk : tkWakeupTimedoutThreads k clk with
  | error e => exact hsw.of_error hk
  | ok k' =>
    rw [hk] at hr
    obtain ⟨hs,hp⟩ := hsw.of_ok hk
    exact ⟨h.sweep hs hp,hp,of_decide_eq_true hr⟩

end

/-! ### The kernel as created -/

theorem clearKernel_inv : ScheduleInv (clearKernel : Kernel cfg) {root} := by
  have hv : ∀ t : Thid cfg, (clearKernel.pool t).valid = true → t = root := by
    intro t ht
    by_contra hne
    simp [clearKernel,Function.update_of_ne hne,zombiTcb] at ht
  constructor
  · intro p _; exact Nat.zero_le _
  · rintro p i ⟨_,hl⟩; exact absurd hl (Nat.not_lt_zero i)
  · intro t ht hto; exact absurd (hv t ht) (by simpa using hto)
  · intro t ht
    rw [Finset.mem_singleton.mp ht]
    simp [clearKernel]
  · simp [liveCells,Kernel.procs,clearKernel]
  · intro p _; exact Or.inl rfl

/-- What `tk_create_kernel` leaves: the root thread and the idle thread, nobody's children. -/
structure Booted (k : Kernel cfg) : Prop where
  table : ScheduleInv k ∅
  active : k.activeThread = root
  idle_ne : k.idleThid ≠ root
  valid : ∀ t, (k.pool t).valid = true ↔ t = root ∨ t = k.idleThid
  own : ∀ t, (k.pool t).valid = true →
    (k.pool t).gid = some t ∧ (k.pool t).noChilds = 0 ∧ (k.pool t).state = .ready

/-- The idle thread's creation: no thread is dead and none sleeps, so its sweep changes nothing. -/
theorem tkCreateThread_idle_spec (clk : Clock) :
    Spec (tkCreateThread (clearKernel : Kernel cfg) (idleReq cfg) clk)
      (fun s => s.2 ≠ root ∧ ScheduleInv s.1 {root} ∧ s.1.activeThread = root ∧ s.1.procs 0 = 0 ∧
        s.1.pool = Function.update (Function.update (fun _ => zombiTcb) root
          { zombiTcb with state := .ready, valid := true, noChilds := 1 }) s.2
          (newTcb s.2 root (idleReq cfg) 0 0))
      (fun _ => ¬Accepted (clearKernel : Kernel cfg) (idleReq cfg)) := by
  simp only [tkCreateThread,spec_bind]
  refine (tkCreateThreadBegin_spec clearKernel_inv).imp ?_
  rintro ⟨k1,idle⟩ hb
  have hb : Begun clearKernel (idleReq cfg) k1 idle := hb
  have hpool := hb.pool
  rw [show clearKernel.activeThread = (root : Thid cfg) from rfl] at hpool
  obtain ⟨hi1,hidx1,_,hnot,hprio1,hprocs1⟩ := hb.inv clearKernel_inv
  have hir : idle ≠ root := by simpa using hnot
  have hpool1 : k1.pool = Function.update (Function.update (fun _ => zombiTcb) root
      { zombiTcb with state := .ready, valid := true, noChilds := 1 }) idle
      (newTcb idle root (idleReq cfg) 0 0) := by
    funext t
    rw [hpool]
    by_cases hti : t = idle
    · subst hti
      rw [if_neg hir,if_pos rfl,Function.update_self]
      simp [clearKernel,Kernel.procs,Function.update_of_ne hir,zombiTcb]
    · by_cases htr : t = root
      · subst htr
        rw [if_pos rfl,if_neg hti,Function.update_of_ne hti,Function.update_self]
        simp [clearKernel,zombiTcb]
      · rw [if_neg htr,if_neg hti,Function.update_of_ne hti,Function.update_of_ne htr]
        simp [clearKernel,Function.update_of_ne htr]
  have hstate : ∀ t, (k1.pool t).valid = true ∧ (k1.pool t).state = .ready ∨
      (k1.pool t).valid = false ∧ (k1.pool t).state = .zombi := by
    intro t
    rw [hpool1]
    by_cases hti : t = idle
    · subst hti; simp [newTcb]
    · by_cases htr : t = root
      · subst htr; simp [Function.update_of_ne hti]
      · simp [Function.update_of_ne hti,Function.update_of_ne htr,zombiTcb]
  have halive : ∀ t, (k1.pool t).valid = true → (k1.pool t).state.has .zombi = false := by
    intro t ht
    obtain h | h := hstate t
    · simp [h.2]
    · simp [ht] at h
  refine (tkWakeupTimedoutThreads_alive clk halive).mono ?_ fun _ => False.elim
  rintro k2 ⟨hs,hp2⟩
  have hp2 : k2.pool = k1.pool := by
    funext t
    obtain h | h := hp2 t
    · exact h
    · rw [h,timerTest]
      obtain h | h := hstate t <;> simp [h.2,show ProcState.zombi.has .sleep = false by decide]
  have hi2 := hs.inv hi1
  have hp0 : k2.procs = fun _ => 0 := by
    funext p
    simp only [Kernel.procs,hs.prioIdxs]
    exact congrFun hprocs1 p
  have hidx2 : k2.procIdx = idle := hs.procIdx.trans hidx1
  refine (tkCreateThreadEnd_spec (k:=k2.dispatch root)
    (hi2.congr rfl rfl rfl fun _ => ⟨rfl,rfl,rfl⟩) (by simp [hidx2])
    (by have := cfg.one_lt_maxPrioLevels; simp only [idleReq]; omega)
    (by rw [Kernel.dispatch_procs,hp0]; exact cfg.maxThreadsAtPrio_pos)
    (by rw [Kernel.dispatch_pool,Kernel.dispatch_procIdx,hidx2,hp2]; exact hprio1)).mono ?_
    fun _ => False.elim
  rintro ⟨k3,v⟩ ⟨hi3,hv,hprocs3,_,hact3,hp3⟩
  have hv : v = idle := hv
  subst hv
  rw [Kernel.dispatch_procIdx,hidx2] at hi3 hp3
  refine ⟨hir,?_,hact3,?_,?_⟩
  · rwa [Finset.erase_insert (by simpa using hir)] at hi3
  · rw [hprocs3]
    have := cfg.one_lt_maxPrioLevels
    simp only [Kernel.dispatch_procs,hp0,idleReq]
    exact if_neg (by omega)
  · funext t
    rw [hp3,Kernel.dispatch_pool,hp2,hpool1]
    split
    · next he => subst he; rw [Kernel.dispatch_procs,hp0]; simp [newTcb]
    · rfl

theorem tkCreateKernel_spec (clk : Clock) :
    Spec (tkCreateKernel clk) (Booted : Kernel cfg → Prop)
      (fun _ => ¬Accepted (clearKernel : Kernel cfg) (idleReq cfg)) := by
  simp only [tkCreateKernel,spec_bind]
  refine (tkCreateThread_idle_spec clk).imp ?_
  rintro ⟨k,idle⟩ ⟨hir,hi,hact,h0,hpool⟩
  have hir : idle ≠ root := hir
  have hi : ScheduleInv k {root} := hi
  have h0 : k.procs 0 = 0 := h0
  have hpool : k.pool = _ := hpool
  have hg : (k.pool idle).gid = some root := by simp [hpool,newTcb]
  have hcell : Kernel.InTable cfg 0 0 :=
    ⟨by have := cfg.one_lt_maxPrioLevels; omega,cfg.maxThreadsAtPrio_pos⟩
  have hcur : (k.prioIdxs 0).currIdx = 0 := by
    have := hi.curr 0 hcell.1
    omega
  simp only [hg,Kernel.writeCell,if_pos hcell,spec_ok]
  have hp : (((Kernel.modTcb { k with idleThid := idle } root
      fun b => { b with noChilds := b.noChilds-1 }).modTcb idle
      fun b => { b with gid := some b.thid }).pool) =
      Function.update (Function.update (fun _ => zombiTcb) root
        { zombiTcb with state := .ready, valid := true }) idle
        { newTcb idle root (idleReq cfg) 0 0 with gid := some idle } := by
    funext t
    simp only [Kernel.modTcb_pool,hpool]
    by_cases hti : t = idle
    · subst hti; simp [hir,newTcb]
    · by_cases htr : t = root
      · subst htr; simp [hti,zombiTcb]
      · simp [hti,htr]
  have hprio : ∀ t, t ≠ idle → (k.pool t).prio = 0 ∧ (k.pool t).idx = 0 := by
    intro t ht
    rw [hpool,Function.update_of_ne ht]
    by_cases htr : t = root
    · subst htr; simp [zombiTcb]
    · simp [Function.update_of_ne htr,zombiTcb]
  constructor
  · rw [← Finset.erase_singleton root]
    refine hi.of_enter (p:=0) (Finset.mem_singleton_self root) hcell.1
      (by rw [h0]; exact hcell.2) (fun p' i => by rw [h0]; rfl) (fun p' => ?_) rfl (fun t => ?_) ?_
      fun t ht => ?_
    · simp only [Kernel.modStat_prioIdxs,h0,hcur]
      split
      · change (⟨1,(k.prioIdxs 0).currIdx⟩ : PrioStat) = _
        rw [hcur]
      · rfl
    · simp only [Kernel.modStat_pool,Kernel.modTcb_pool]
      split_ifs <;> simp_all
    · rw [h0]
      simp only [Kernel.modStat_pool,Kernel.modTcb_pool,if_neg (Ne.symm hir)]
      exact hprio root (Ne.symm hir)
    · simp only [Kernel.modStat_pool,Kernel.modTcb_pool,if_neg ht]
      split
      · next he => subst he; exact ⟨rfl,rfl⟩
      · exact ⟨rfl,rfl⟩
  · exact hact
  · exact hir
  · intro t
    rw [Kernel.modStat_pool,hp]
    change _ ↔ t = root ∨ t = idle
    by_cases hti : t = idle
    · subst hti; simp [newTcb]
    · by_cases htr : t = root
      · subst htr; simp [hti]
      · simp [hti,htr,zombiTcb]
  · intro t
    rw [Kernel.modStat_pool,hp]
    by_cases hti : t = idle
    · subst hti; simp [newTcb]
    · by_cases htr : t = root
      · subst htr; simp [hti,zombiTcb]
      · simp [hti,htr,zombiTcb]

/-! ### Kernels at work -/

/-- Nobody is blocked on an object, nobody is dead, and the running thread is ready. -/
structure Quiet (k : Kernel cfg) : Prop where
  unblocked : ∀ t, (k.pool t).state.has .queue = false
  alive : Alive k
  ready : (k.pool k.activeThread).state = .ready

/-- Five threads in the order of their priorities, the last one idle. -/
def fiveThreads : Kernel gnuArm :=
  { clearKernel with
    pool := fun t => { zombiTcb with
      thid := t
      valid := decide (t.val < 5)
      state := if t.val < 5 then .ready else .zombi
      prio := t.val }
    idleThid := 4 }

theorem fiveThreads_quiet : Quiet fiveThreads where
  unblocked := by decide
  alive := by unfold Alive; decide
  ready := by decide

/-- Thread 1 runs while thread 0 sleeps. -/
def sleeperFirst : Kernel gnuArm :=
  (fiveThreads.modTcb 0 fun b => { b with state := .sleep, wakeuptime := 10 }).dispatch 1

theorem sleeperFirst_quiet : Quiet sleeperFirst where
  unblocked := by decide
  alive := by unfold Alive; decide
  ready := by decide

/-- The priorities are those the scheduler accepts. -/
structure Seated (k : Kernel cfg) : Prop extends Quiet k where
  prio : ∀ t, (k.pool t).prio < cfg.maxPrioLevels

theorem fiveThreads_seated : Seated fiveThreads where
  toQuiet := fiveThreads_quiet
  prio := by decide

theorem sleeperFirst_seated : Seated sleeperFirst where
  toQuiet := sleeperFirst_quiet
  prio := by decide

end Tinker

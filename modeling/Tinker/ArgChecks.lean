import Tinker.Keeping
import Tinker.ScheduleOps

/-! The argument checks of `tk_change_prio` and `tk_create_thread`: which priorities the two use as
an index, what they report, and what an error leaves behind. -/
namespace Tinker

open Kernel Outcome

variable {cfg : Config}

/-- The kernel with the priorities that have been used as an index of `__tk_roundrobin_prio_idxs`
or `__tk_schedule`. -/
structure Indexed (cfg : Config) where
  kernel : Kernel cfg
  prios : List ℤ

/-- A call stops in the state it has come to. -/
abbrev Call (cfg : Config) := EStateM Fault (Indexed cfg)

/-- A statement that works on the kernel alone. -/
def onKernel (f : Kernel cfg → Except Fault (Kernel cfg)) : Call cfg PUnit :=
  update fun s => (f s.kernel).map fun k => { s with kernel := k }

/-- `__tk_roundrobin_prio_idxs[p].procs_at_prio`. -/
def procsAt (p : ℤ) : Call cfg ℕ := do
  modify fun s => { s with prios := s.prios ++ [p] }
  let s ← get
  if 0 ≤ p ∧ p < cfg.maxPrioLevels then return s.kernel.procs p.toNat else throw .outOfTable

/-- `tk_change_prio`. -/
def tkChangePrioCall (t : Thid cfg) (newPrio : ℤ) : Call cfg Bool := do
  let s ← get
  let k := s.kernel
  let procs ← procsAt newPrio
  if changePrioErrors k t newPrio procs ≠ 0 then throw (.exit (changePrioErrors k t newPrio procs))
  else
    let oldPrio := (k.pool t).prio
    let oldIdx := (k.pool t).idx
    if (oldPrio : ℤ) = newPrio then return false
    else
      let y := changePrioYield k t newPrio.toNat
      let oldProcs ← procsAt oldPrio
      onKernel (compactRow oldPrio (oldProcs-oldIdx) oldIdx)
      onKernel fun k => .ok (shortenRow k oldPrio)
      let newIdx ← procsAt newPrio
      onKernel fun k => k.writeCell newPrio.toNat newIdx t
      onKernel fun k => .ok ((k.modStat newPrio.toNat fun s =>
        { s with procsAtPrio := s.procsAtPrio+1 }).modTcb t
          fun b => { b with prio := newPrio.toNat, idx := newIdx })
      return y

/-- `tk_create_thread` up to the `tk_yield` of the constructor. -/
def tkCreateThreadBeginCall (r : ThreadReq) : Call cfg (Thid cfg) := do
  let slotIdx ← procsAt r.prio
  let s ← get
  let k := s.kernel
  if createErrors k r slotIdx ≠ 0 then throw (.exit (createErrors k r slotIdx))
  else match nextFree (fun t => (k.pool t).valid) cfg.maxThreads k.procIdx with
  | none => throw .diverges
  | some t =>
    -- the search moves `__tk_proc_idx` itself
    onKernel fun k => .ok { k with procIdx := t }
    if ¬r.name.length < cfg.threadNameLen then throw (.exit tcNameLen)
    else if r.stalloc = false then throw (.exit tcNomem)
    else
      onKernel fun k => .ok ((allocThread k r slotIdx t).dispatch t)
      return t

/-- `tk_create_thread` behind it. -/
def tkCreateThreadEndCall (r : ThreadReq) (validProcIdx : Thid cfg) : Call cfg (Thid cfg) := do
  let slotIdx ← procsAt r.prio
  onKernel fun k => .ok (k.modTcb k.procIdx fun b => { b with idx := slotIdx })
  onKernel fun k => k.writeCell r.prio slotIdx k.procIdx
  onKernel fun k => .ok (k.modStat r.prio fun s => { s with procsAtPrio := s.procsAtPrio+1 })
  return validProcIdx

/-- The whole `tk_create_thread`; `others` is what the other threads do to the kernel until the
constructor's yield returns. -/
def tkCreateThreadCall (r : ThreadReq) (others : Kernel cfg → Kernel cfg) : Call cfg (Thid cfg) := do
  let t ← tkCreateThreadBeginCall r
  onKernel fun k => .ok (others k)
  tkCreateThreadEndCall r t

section

variable {k : Kernel cfg} {s : Indexed cfg} {t : Thid cfg}

@[simp] theorem after_onKernel {f : Kernel cfg → Except Fault (Kernel cfg)}
    {Q : PUnit → Indexed cfg → Prop} {R : Fault → Indexed cfg → Prop} :
    After (onKernel f) s Q R ↔
      Spec (f s.kernel) (fun k => Q ⟨⟩ { s with kernel := k }) (fun e => R e s) := by
  rw [onKernel,after_update]
  cases f s.kernel <;> rfl

@[simp] theorem after_procsAt {p : ℤ} {Q : ℕ → Indexed cfg → Prop} {R : Fault → Indexed cfg → Prop} :
    After (procsAt p) s Q R ↔
      (0 ≤ p ∧ p < cfg.maxPrioLevels →
        Q (s.kernel.procs p.toNat) { s with prios := s.prios ++ [p] }) ∧
      (¬(0 ≤ p ∧ p < cfg.maxPrioLevels) → R .outOfTable { s with prios := s.prios ++ [p] }) := by
  simp only [procsAt,after_bind,after_modify,after_get,after_ite,after_pure,after_throw]

/-! ### These are the functions of the model -/

/-- What runs as `f` does on the kernel, as far as the outcome goes. -/
def RunsAs {A : Type} (c : Call cfg A) (f : Kernel cfg → Except Fault (Kernel cfg × A)) : Prop :=
  ∀ s, After c s (fun a s' => f s.kernel = .ok (s'.kernel,a)) (fun e _ => f s.kernel = .error e)

theorem tkChangePrioCall_runsAs (t : Thid cfg) (newPrio : ℤ) :
    RunsAs (tkChangePrioCall t newPrio) fun k => tkChangePrio k t newPrio := by
  intro s
  simp only [tkChangePrioCall,after_bind,after_get,after_procsAt,after_ite,after_throw,after_pure,
    after_onKernel,spec_ok]
  refine ⟨fun hp => ?_,fun hp => ?_⟩
  · obtain ⟨h0,hlt⟩ := hp
    have hnew : newPrio.toNat < cfg.maxPrioLevels := by omega
    refine ⟨fun herr => ?_,fun herr => ⟨fun hsame => ?_,fun hne => ⟨fun hold => ?_,fun hold => ?_⟩⟩⟩
    · simp only [tkChangePrio,Kernel.readProcs,check,if_pos h0,if_pos hnew,if_neg herr,bind,Except.bind]
    · have he : (s.kernel.pool t).prio = newPrio.toNat := by omega
      simp only [tkChangePrio,Kernel.readProcs,check,if_pos h0,if_pos hnew,if_pos (not_not.mp herr),
        if_pos he,bind,Except.bind]
      rfl
    · have he : ¬(s.kernel.pool t).prio = newPrio.toNat := by omega
      have hprio : (s.kernel.pool t).prio < cfg.maxPrioLevels := by omega
      simp only [tkChangePrio,Kernel.readProcs,check,if_pos hnew,if_pos (not_not.mp herr),
        if_neg he,if_pos hprio,Int.toNat_natCast,h0,hlt,and_self,true_implies,not_true_eq_false,
        false_implies,and_true,bind,Except.bind]
      cases compactRow (s.kernel.pool t).prio
        (s.kernel.procs (s.kernel.pool t).prio-(s.kernel.pool t).idx) (s.kernel.pool t).idx
        s.kernel with
      | error e => rfl
      | ok k =>
        simp only [spec_ok]
        cases (shortenRow k (s.kernel.pool t).prio).writeCell newPrio.toNat
          ((shortenRow k (s.kernel.pool t).prio).procs newPrio.toNat) t <;> rfl
    · have he : ¬(s.kernel.pool t).prio = newPrio.toNat := by omega
      have hprio : ¬(s.kernel.pool t).prio < cfg.maxPrioLevels := by omega
      simp only [tkChangePrio,Kernel.readProcs,check,if_pos h0,if_pos hnew,if_pos (not_not.mp herr),
        if_neg he,if_neg hprio,bind,Except.bind]
  · by_cases h0 : 0 ≤ newPrio
    · have hnew : ¬newPrio.toNat < cfg.maxPrioLevels := by omega
      simp only [tkChangePrio,Kernel.readProcs,check,if_pos h0,if_neg hnew]
      rfl
    · simp only [tkChangePrio,check,if_neg h0]
      rfl

theorem tkCreateThreadBeginCall_runsAs (r : ThreadReq) :
    RunsAs (tkCreateThreadBeginCall r) fun k : Kernel cfg => tkCreateThreadBegin k r := by
  intro s
  simp only [tkCreateThreadBeginCall,after_bind,after_get,after_procsAt,after_ite,after_throw]
  refine ⟨fun hp => ?_,fun hp => ?_⟩
  · have hr : r.prio < cfg.maxPrioLevels := by omega
    rw [Int.toNat_natCast,tkCreateThreadBegin,Kernel.readProcs,if_pos hr]
    generalize s.kernel.procs r.prio = slotIdx
    refine ⟨fun herr => ?_,fun herr => ?_⟩
    · simp only [check,if_neg herr,bind,Except.bind]
    · have herr := not_not.mp herr
      cases nextFree (fun t => (s.kernel.pool t).valid) cfg.maxThreads s.kernel.procIdx with
      | none =>
        simp only [check,if_pos herr,bind,Except.bind]
        rfl
      | some t =>
        simp only [after_bind,after_onKernel,spec_ok,after_ite,after_throw,after_pure]
        simp only [check,if_pos herr,bind,Except.bind]
        refine ⟨fun hn => ?_,fun hn => ⟨fun hst => ?_,fun hst => ?_⟩⟩
        · rw [if_neg hn]
        · rw [if_pos (not_not.mp hn),hst]
          rfl
        · rw [if_pos (not_not.mp hn),if_pos (Bool.eq_true_of_not_eq_false hst)]
          rfl
  · have hr : ¬r.prio < cfg.maxPrioLevels := by omega
    simp only [tkCreateThreadBegin,Kernel.readProcs,if_neg hr]
    rfl

theorem tkCreateThreadEndCall_runsAs (r : ThreadReq) (t : Thid cfg) :
    RunsAs (tkCreateThreadEndCall r t) fun k => tkCreateThreadEnd k r t := by
  intro s
  simp only [tkCreateThreadEndCall,after_bind,after_procsAt,after_onKernel,spec_ok,after_pure]
  refine ⟨fun hp => ?_,fun hp => ?_⟩
  · have hr : r.prio < cfg.maxPrioLevels := by omega
    simp only [tkCreateThreadEnd,Kernel.readProcs,if_pos hr,Int.toNat_natCast,bind,Except.bind]
    generalize s.kernel.modTcb s.kernel.procIdx (fun b => { b with idx := s.kernel.procs r.prio }) = k
    cases k.writeCell r.prio (s.kernel.procs r.prio) k.procIdx <;> rfl
  · have hr : ¬r.prio < cfg.maxPrioLevels := by omega
    simp only [tkCreateThreadEnd,Kernel.readProcs,if_neg hr]
    rfl

/-! ### What is promised -/

/-- A priority of the scheduler. -/
def LegalPrio (cfg : Config) (p : ℤ) : Prop := 0 ≤ p ∧ p < cfg.maxPrioLevels

/-- Only priorities of the scheduler have been used as an index. -/
def Indexed.Legal (s : Indexed cfg) : Prop := ∀ p ∈ s.prios, LegalPrio cfg p

/-- The error is one the call reports. -/
def Reported (e : Fault) : Prop := ∃ c, e = .exit c

/-- The move would put more threads in the row than there is room for. -/
def Overfills (k : Kernel cfg) (t : Thid cfg) (newPrio : ℤ) : Prop :=
  ((k.pool t).prio : ℤ) ≠ newPrio ∧ cfg.maxThreadsAtPrio < k.procs newPrio.toNat+1

/-- `tk_change_prio` as its checks are to make it. -/
structure ChangeGuarded (k : Kernel cfg) (t : Thid cfg) (newPrio : ℤ) : Prop where
  indexes : After (tkChangePrioCall t newPrio) ⟨k,[]⟩ (fun _ s => s.Legal) (fun _ s => s.Legal)
  reports : After (tkChangePrioCall t newPrio) ⟨k,[]⟩
    (fun _ _ => ¬((k.pool t).valid = false ∨ ¬LegalPrio cfg newPrio ∨ Overfills k t newPrio))
    (fun e _ => Reported e ↔
      (k.pool t).valid = false ∨ ¬LegalPrio cfg newPrio ∨ Overfills k t newPrio)
  same : (k.pool t).valid = true → ((k.pool t).prio : ℤ) = newPrio →
    After (tkChangePrioCall t newPrio) ⟨k,[]⟩ (fun y s => y = false ∧ s.kernel = k) (fun _ _ => False)
  untouched : After (tkChangePrioCall t newPrio) ⟨k,[]⟩ (fun _ _ => True)
    (fun e s => Reported e → s.kernel = k)

/-- `tk_create_thread` likewise, whatever the others do while its constructor yields. -/
structure CreateGuarded (k : Kernel cfg) (r : ThreadReq) : Prop where
  indexes : ∀ others, After (tkCreateThreadCall r others) ⟨k,[]⟩ (fun _ s => s.Legal)
    (fun _ s => s.Legal)
  untouched : ∀ others, After (tkCreateThreadCall r others) ⟨k,[]⟩ (fun _ _ => True)
    (fun e s => Reported e → s.kernel = k)

/-- The priority is one of the scheduler's, so is the one the thread moves from, and the thread is
not set to the priority of its own full row. -/
structure ChangeArgs (k : Kernel cfg) (t : Thid cfg) (newPrio : ℤ) : Prop where
  legal : LegalPrio cfg newPrio
  room : (k.pool t).valid = true → ((k.pool t).prio : ℤ) = newPrio →
    k.procs newPrio.toNat < cfg.maxThreadsAtPrio
  old : (k.pool t).valid = true → ((k.pool t).prio : ℤ) ≠ newPrio →
    k.procs newPrio.toNat < cfg.maxThreadsAtPrio → (k.pool t).prio < cfg.maxPrioLevels

/-- The priority is one of the scheduler's, and a request that is refused for its name or for want
of a stack has not moved `__tk_proc_idx`. -/
structure CreateArgs (k : Kernel cfg) (r : ThreadReq) : Prop where
  legal : LegalPrio cfg r.prio
  granted : createErrors k r (k.procs r.prio) = 0 → ∀ t,
    nextFree (fun t => (k.pool t).valid) cfg.maxThreads k.procIdx = some t → t ≠ k.procIdx →
    r.name.length < cfg.threadNameLen ∧ r.stalloc = true

/-! ### The ways the calls go -/

variable {newPrio : ℤ}

theorem changePrio_illegal (h : ¬LegalPrio cfg newPrio) :
    (tkChangePrioCall t newPrio).run ⟨k,[]⟩ = .error .outOfTable ⟨k,[newPrio]⟩ := by
  rw [run_eq_error]
  simp only [tkChangePrioCall,after_bind,after_get,after_procsAt]
  exact ⟨fun hp => absurd hp h,fun _ => ⟨trivial,rfl⟩⟩

theorem changePrio_refused (h : LegalPrio cfg newPrio)
    (he : changePrioErrors k t newPrio (k.procs newPrio.toNat) ≠ 0) :
    (tkChangePrioCall t newPrio).run ⟨k,[]⟩ =
      .error (.exit (changePrioErrors k t newPrio (k.procs newPrio.toNat))) ⟨k,[newPrio]⟩ := by
  rw [run_eq_error]
  simp only [tkChangePrioCall,after_bind,after_get,after_procsAt,after_ite,after_throw]
  exact ⟨fun _ => ⟨fun _ => ⟨trivial,rfl⟩,fun hn => absurd he hn⟩,fun hp => absurd h hp⟩

theorem changePrio_same (h : LegalPrio cfg newPrio)
    (he : changePrioErrors k t newPrio (k.procs newPrio.toNat) = 0)
    (hs : ((k.pool t).prio : ℤ) = newPrio) :
    (tkChangePrioCall t newPrio).run ⟨k,[]⟩ = .ok false ⟨k,[newPrio]⟩ := by
  rw [run_eq_ok]
  simp only [tkChangePrioCall,after_bind,after_get,after_procsAt,after_ite,after_throw,after_pure]
  exact ⟨fun _ => ⟨fun hn => absurd he hn,fun _ => ⟨fun _ => ⟨trivial,rfl⟩,fun hn => absurd hs hn⟩⟩,
    fun hp => absurd h hp⟩

theorem changePrio_lost (h : LegalPrio cfg newPrio)
    (he : changePrioErrors k t newPrio (k.procs newPrio.toNat) = 0)
    (hs : ((k.pool t).prio : ℤ) ≠ newPrio) (ho : ¬(k.pool t).prio < cfg.maxPrioLevels) :
    (tkChangePrioCall t newPrio).run ⟨k,[]⟩ = .error .outOfTable ⟨k,[newPrio,(k.pool t).prio]⟩ := by
  rw [run_eq_error]
  simp only [tkChangePrioCall,after_bind,after_get,after_procsAt,after_ite,after_throw,after_pure]
  exact ⟨fun _ => ⟨fun hn => absurd he hn,fun _ => ⟨fun hn => absurd hn hs,fun _ =>
    ⟨fun hp => absurd hp (by omega),fun _ => ⟨trivial,rfl⟩⟩⟩⟩,fun hp => absurd h hp⟩

theorem compactRow_fault {prio n i : ℕ} :
    Spec (compactRow prio n i k) (fun _ => True) (fun e => e = .outOfTable) := by
  induction n generalizing i k with
  | zero => trivial
  | succ n ih =>
    simp only [compactRow,Kernel.readCell,Kernel.writeCell,spec_bind,spec_ite,spec_ok]
    exact ⟨fun _ => ⟨fun _ => ih,fun _ => rfl⟩,fun _ => rfl⟩

/-- A move uses the two priorities, and where it stops it is not an error of the arguments. -/
theorem changePrio_moves (h : LegalPrio cfg newPrio)
    (he : changePrioErrors k t newPrio (k.procs newPrio.toNat) = 0)
    (hs : ((k.pool t).prio : ℤ) ≠ newPrio) (ho : (k.pool t).prio < cfg.maxPrioLevels) :
    After (tkChangePrioCall t newPrio) ⟨k,[]⟩ (fun _ s => s.Legal)
      (fun e s => e = .outOfTable ∧ s.Legal) := by
  have hold : LegalPrio cfg (k.pool t).prio := by
    unfold LegalPrio
    omega
  have hone : Indexed.Legal ⟨k,[newPrio,(k.pool t).prio]⟩ := by
    intro p hp
    simp only [List.mem_cons,List.not_mem_nil,or_false] at hp
    obtain rfl | rfl := hp
    · exact h
    · exact hold
  have hboth : ∀ k' : Kernel cfg, Indexed.Legal ⟨k',[newPrio,(k.pool t).prio,newPrio]⟩ := by
    intro k' p hp
    simp only [List.mem_cons,List.not_mem_nil,or_false] at hp
    obtain rfl | rfl | rfl := hp
    · exact h
    · exact hold
    · exact h
  simp only [tkChangePrioCall,after_bind,after_get,after_procsAt,after_ite,after_throw,after_pure,
    after_onKernel,spec_ok]
  refine ⟨fun _ => ⟨fun hn => absurd he hn,fun _ => ⟨fun hn => absurd hn hs,fun _ =>
    ⟨fun _ => ?_,fun hp => absurd hold hp⟩⟩⟩,fun hp => absurd h hp⟩
  refine compactRow_fault.mono (fun k1 _ => ⟨fun _ => ?_,fun hp => absurd h hp⟩) fun e hf => ⟨hf,hone⟩
  simp only [Kernel.writeCell,spec_ite,spec_ok]
  exact ⟨fun _ => hboth _,fun _ => ⟨rfl,hboth _⟩⟩

/-! ### The checks are right just when the arguments meet the conditions -/

theorem changePrioErrors_iff (h : LegalPrio cfg newPrio) :
    changePrioErrors k t newPrio (k.procs newPrio.toNat) ≠ 0 ↔
      (k.pool t).valid = false ∨ ¬k.procs newPrio.toNat < cfg.maxThreadsAtPrio := by
  rw [Ne,changePrioErrors_eq_zero]
  have := h.2
  cases (k.pool t).valid <;> simp_all

theorem changeGuarded_iff : ChangeGuarded k t newPrio ↔ ChangeArgs k t newPrio := by
  constructor
  · intro hg
    have hlegal : LegalPrio cfg newPrio := by
      by_contra h
      have hi := hg.indexes
      rw [after_of_error (changePrio_illegal h)] at hi
      exact h (hi newPrio (List.mem_singleton_self _))
    refine ⟨hlegal,fun hv hs => ?_,fun hv hs hroom => ?_⟩
    · -- a full row is reported although nothing moves
      by_contra hfull
      have hsame := hg.same hv hs
      rw [after_of_error (changePrio_refused hlegal ((changePrioErrors_iff hlegal).mpr (Or.inr hfull)))]
        at hsame
      exact hsame
    · by_contra ho
      have he : changePrioErrors k t newPrio (k.procs newPrio.toNat) = 0 :=
        (changePrioErrors_eq_zero _ _ _ _).mpr ⟨hv,hlegal.2,hroom⟩
      have hi := hg.indexes
      rw [after_of_error (changePrio_lost hlegal he hs ho)] at hi
      have := (hi (k.pool t).prio (List.mem_cons_of_mem _ (List.mem_singleton_self _))).2
      omega
  · rintro ⟨hlegal,hsame,hold⟩
    have hone : Indexed.Legal ⟨k,[newPrio]⟩ := by
      intro p hp
      rw [List.mem_singleton.mp hp]
      exact hlegal
    by_cases he : changePrioErrors k t newPrio (k.procs newPrio.toNat) = 0
    · obtain ⟨hv,-,hroom⟩ := (changePrioErrors_eq_zero _ _ _ _).mp he
      have hfine : ¬((k.pool t).valid = false ∨ ¬LegalPrio cfg newPrio ∨ Overfills k t newPrio) := by
        rintro (hv' | hl | ⟨-,hover⟩)
        · rw [hv] at hv'
          cases hv'
        · exact hl hlegal
        · omega
      by_cases hs : ((k.pool t).prio : ℤ) = newPrio
      · have hrun := changePrio_same hlegal he hs
        refine ⟨?_,?_,fun _ _ => ?_,?_⟩
        · exact (after_of_ok hrun).mpr hone
        · exact (after_of_ok hrun).mpr hfine
        · exact (after_of_ok hrun).mpr ⟨rfl,rfl⟩
        · exact (after_of_ok hrun).mpr trivial
      · have hmoves := changePrio_moves hlegal he hs (hold hv hs hroom)
        have hunreported : ∀ e (s : Indexed cfg), e = .outOfTable ∧ s.Legal → ¬Reported e := by
          rintro e s ⟨rfl,-⟩ ⟨c,hc⟩
          cases hc
        refine ⟨?_,?_,fun _ hn => absurd hn hs,?_⟩
        · exact hmoves.mono (fun _ _ h => h) fun _ _ h => h.2
        · exact hmoves.mono (fun _ _ _ => hfine) fun e s h =>
            ⟨fun hr => absurd hr (hunreported e s h),fun hb => absurd hb hfine⟩
        · exact hmoves.mono (fun _ _ _ => trivial) fun e s h hr => absurd hr (hunreported e s h)
    · have hrun := changePrio_refused hlegal he
      have hbad := (changePrioErrors_iff hlegal).mp he
      refine ⟨?_,?_,fun hv hs => ?_,?_⟩
      · exact (after_of_error hrun).mpr hone
      · refine (after_of_error hrun).mpr ⟨fun _ => ?_,fun _ => ⟨_,rfl⟩⟩
        by_cases hv : (k.pool t).valid = false
        · exact Or.inl hv
        · have hfull := hbad.resolve_left hv
          have hv : (k.pool t).valid = true := by simpa using hv
          exact Or.inr (Or.inr ⟨fun hs => hfull (hsame hv hs),by omega⟩)
      · have hfull := hbad.resolve_left (by rw [hv]; nofun)
        exact absurd (hsame hv hs) hfull
      · exact (after_of_error hrun).mpr fun _ => rfl

section

variable {r : ThreadReq} {others : Kernel cfg → Kernel cfg}

theorem createThread_illegal (h : ¬LegalPrio cfg r.prio) :
    (tkCreateThreadCall r others).run ⟨k,[]⟩ = .error .outOfTable ⟨k,[(r.prio : ℤ)]⟩ := by
  rw [run_eq_error]
  simp only [tkCreateThreadCall,tkCreateThreadBeginCall,after_bind,after_procsAt]
  exact ⟨fun hp => absurd hp h,fun _ => ⟨trivial,rfl⟩⟩

/-- Behind its checks the call uses the one priority, and reports only what it finds wrong in the
name and the stack, with `__tk_proc_idx` at the slot it has found. -/
theorem createThread_checked (h : LegalPrio cfg r.prio) :
    After (tkCreateThreadCall r others) ⟨k,[]⟩ (fun _ s => s.Legal) (fun e s => s.Legal ∧
      (Reported e → s.kernel = k ∨ createErrors k r (k.procs r.prio) = 0 ∧
        ¬(r.name.length < cfg.threadNameLen ∧ r.stalloc = true) ∧
        ∃ t, nextFree (fun t => (k.pool t).valid) cfg.maxThreads k.procIdx = some t ∧
          s.kernel = { k with procIdx := t })) := by
  have hone : ∀ k' : Kernel cfg, Indexed.Legal ⟨k',[(r.prio : ℤ)]⟩ := by
    intro k' p hp
    rw [List.mem_singleton.mp hp]
    exact h
  have htwo : ∀ k' : Kernel cfg, Indexed.Legal ⟨k',[(r.prio : ℤ),r.prio]⟩ := by
    intro k' p hp
    simp only [List.mem_cons,List.not_mem_nil,or_false,or_self] at hp
    rw [hp]
    exact h
  simp only [tkCreateThreadCall,tkCreateThreadBeginCall,after_bind,after_get,after_procsAt,after_ite,
    after_throw,Int.toNat_natCast]
  refine ⟨fun _ => ⟨fun _ => ⟨hone k,fun _ => Or.inl trivial⟩,fun he => ?_⟩,fun hp => absurd h hp⟩
  have he := not_not.mp he
  cases hf : nextFree (fun t => (k.pool t).valid) cfg.maxThreads k.procIdx with
  | none => exact ⟨hone k,fun _ => Or.inl rfl⟩
  | some t =>
    simp only [after_bind,after_onKernel,spec_ok,after_ite,after_throw,after_pure,
      tkCreateThreadEndCall,after_procsAt]
    refine ⟨fun hn => ⟨hone _,fun _ => ?_⟩,fun hn => ⟨fun hst => ⟨hone _,fun _ => ?_⟩,fun _ =>
      ⟨fun _ => ?_,fun hp => absurd h hp⟩⟩⟩
    · exact Or.inr ⟨he,fun hok => hn hok.1,t,rfl,rfl⟩
    · exact Or.inr ⟨he,fun hok => (by rw [hst] at hok; cases hok.2),t,rfl,rfl⟩
    · simp only [Kernel.writeCell,spec_ite,spec_ok]
      refine ⟨fun _ => htwo _,fun _ => ⟨htwo _,?_⟩⟩
      rintro ⟨c,hc⟩
      cases hc

/-- A request that is refused for its name or for want of a stack. -/
theorem createThread_refused (h : LegalPrio cfg r.prio)
    (he : createErrors k r (k.procs r.prio) = 0) {t : Thid cfg}
    (hf : nextFree (fun t => (k.pool t).valid) cfg.maxThreads k.procIdx = some t)
    (hn : ¬(r.name.length < cfg.threadNameLen ∧ r.stalloc = true)) :
    After (tkCreateThreadCall r others) ⟨k,[]⟩ (fun _ _ => False)
      (fun e s => Reported e ∧ s.kernel = { k with procIdx := t }) := by
  simp only [tkCreateThreadCall,tkCreateThreadBeginCall,after_bind,after_get,after_procsAt,after_ite,
    after_throw,Int.toNat_natCast]
  refine ⟨fun _ => ⟨fun hne => absurd he hne,fun _ => ?_⟩,fun hp => absurd h hp⟩
  rw [hf]
  simp only [after_bind,after_onKernel,spec_ok,after_ite,after_throw]
  refine ⟨fun _ => ⟨⟨_,rfl⟩,trivial⟩,fun hlen => ⟨fun _ => ⟨⟨_,rfl⟩,trivial⟩,fun hst => ?_⟩⟩
  exact absurd ⟨not_not.mp hlen,by simpa using hst⟩ hn

theorem createGuarded_iff : CreateGuarded k r ↔ CreateArgs k r := by
  constructor
  · intro hg
    have hlegal : LegalPrio cfg r.prio := by
      by_contra h
      have hi := hg.indexes id
      rw [after_of_error (createThread_illegal h)] at hi
      exact h (hi r.prio (List.mem_singleton_self _))
    refine ⟨hlegal,fun he t hf hne => ?_⟩
    by_contra hn
    have hmoved : After (tkCreateThreadCall r id) _ _ _ := createThread_refused hlegal he hf hn
    obtain ⟨e,s,⟨hr,hk⟩,hs⟩ := hmoved.error_meets (hg.untouched id)
    exact hne (congrArg Kernel.procIdx (hk.symm.trans (hs hr)))
  · rintro ⟨hlegal,hgranted⟩
    refine ⟨fun others => ?_,fun others => ?_⟩
    · exact (createThread_checked hlegal).mono (fun _ _ h => h) fun _ _ h => h.1
    · refine (createThread_checked hlegal).mono (fun _ _ _ => trivial) fun e s h hr => ?_
      obtain hk | ⟨he,hn,t,hf,hk⟩ := h.2 hr
      · exact hk
      · have hsame : t = k.procIdx := by
          by_contra hne
          exact hn (hgranted he t hf hne)
        rw [hk,hsame]

end

end

/-- The checks of the two calls guard the tables, report what they should and leave everything as
it is just when the arguments meet their conditions. -/
theorem argChecks_guard_iff (k : Kernel cfg) (t : Thid cfg) (newPrio : ℤ) (r : ThreadReq) :
    (ChangeGuarded k t newPrio ↔ ChangeArgs k t newPrio) ∧ (CreateGuarded k r ↔ CreateArgs k r) :=
  ⟨changeGuarded_iff,createGuarded_iff⟩

/-- A negative priority passes the check and is an index outside the table. -/
theorem argChecks_not_guard : ¬∀ (k : Kernel gnuArm) (t : Thid gnuArm) (newPrio : ℤ) (r : ThreadReq),
    ChangeGuarded k t newPrio ∧ CreateGuarded k r := by
  intro h
  have hi := (h fiveThreads 0 (-1) (idleReq gnuArm)).1.indexes
  rw [after_of_error (changePrio_illegal fun hl => absurd hl.1 (by decide))] at hi
  exact absurd (hi (-1) (List.mem_singleton_self _)).1 (by decide)

end Tinker

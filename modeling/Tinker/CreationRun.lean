import Tinker.ScheduleOps

/-! Interleaved creations. The constructor yields before the caller of `tk_create_thread` has
entered the new thread, so another thread may be dispatched there and create in its turn. -/
namespace Tinker

open Outcome

variable {cfg : Config}

/-- `pending` holds the calls whose constructor has yielded, by caller and with the local
`valid_proc_idx`; `returned` the calls that have ended, with their result. -/
structure CreateState (cfg : Config) where
  kernel : Kernel cfg
  pending : Thid cfg → Option (ThreadReq × Thid cfg)
  returned : List (ThreadReq × Thid cfg)

inductive CreateLabel (cfg : Config)
  | create (r : ThreadReq) | finish | msleep (timeMs : BitVec 32) (clk : Clock)
  | yield (clk : Clock) (t : Thid cfg)

/-- The dispatcher finds the thread in the table. -/
def Entered (k : Kernel cfg) (t : Thid cfg) : Prop :=
  (k.pool t).valid = true ∧ (k.pool t).idx < k.procs (k.pool t).prio ∧
  k.schedule (k.pool t).prio (k.pool t).idx = t

instance (k : Kernel cfg) (t : Thid cfg) : Decidable (Entered k t) := instDecidableAnd

/-- The dispatcher may choose the thread once the sweep is done. -/
def dispatchable (k : Kernel cfg) (clk : Clock) (t : Thid cfg) : Bool :=
  match tkWakeupTimedoutThreads k clk with
  | .ok k' => decide (Entered k' t) && decide ((k'.pool t).state = .ready)
  | .error _ => true

/-- A call is made by a thread that runs its own code; a thread with a call pending ends it
as soon as it is dispatched. -/
def createEnabled (s : CreateState cfg) : CreateLabel cfg → Bool
  | .create r => (s.pending s.kernel.activeThread).isNone &&
      decide (Entered s.kernel s.kernel.activeThread) && decide (Accepted s.kernel r)
  | .finish => (s.pending s.kernel.activeThread).isSome
  | .msleep _ _ => (s.pending s.kernel.activeThread).isNone
  | .yield clk t => (s.pending s.kernel.activeThread).isNone && dispatchable s.kernel clk t

def createNext (s : CreateState cfg) : CreateLabel cfg → Except Fault (CreateState cfg)
  | .create r => do
    let caller := s.kernel.activeThread
    let (k,t) ← tkCreateThreadBegin s.kernel r
    return { s with kernel := k, pending := Function.update s.pending caller (some (r,t)) }
  | .finish => match s.pending s.kernel.activeThread with
    | none => .ok s
    | some (r,t) => do
      let (k,id) ← tkCreateThreadEnd s.kernel r t
      return ⟨k,Function.update s.pending s.kernel.activeThread none,(r,id) :: s.returned⟩
  | .msleep timeMs clk => .ok { s with kernel := tkMsleep s.kernel timeMs clk }
  | .yield clk t => do
    let k ← tkWakeupTimedoutThreads s.kernel clk
    return { s with kernel := k.dispatch t }

def createMachine (cfg : Config) : Machine (CreateState cfg) (CreateLabel cfg) Fault where
  enabled := createEnabled
  next := createNext

/-- The call that ends finds its own thread in `__tk_proc_idx`. -/
def OwnProcIdx (s : CreateState cfg) : CreateLabel cfg → Prop
  | .finish => ∀ r t, s.pending s.kernel.activeThread = some (r,t) → s.kernel.procIdx = t
  | _ => True

instance (s : CreateState cfg) (l : CreateLabel cfg) : Decidable (OwnProcIdx s l) :=
  match l with
  | .finish => match h : s.pending s.kernel.activeThread with
    | none => isTrue fun r t hp => by rw [h] at hp; cases hp
    | some (r,t) => decidable_of_iff (s.kernel.procIdx = t)
        ⟨fun ht r' t' hp => by rw [h] at hp; cases hp; exact ht,fun hp => hp r t h⟩
  | .create _ => isTrue trivial
  | .msleep _ _ => isTrue trivial
  | .yield _ _ => isTrue trivial

structure CreateInv (s : CreateState cfg) (out : Finset (Thid cfg)) : Prop where
  table : ScheduleInv s.kernel out
  alive : Alive s.kernel
  pending_out : ∀ c r t, s.pending c = some (r,t) → t ∈ out
  out_pending : ∀ t ∈ out, ∃ c r, s.pending c = some (r,t)
  pending_inj : ∀ c c' r r' t, s.pending c = some (r,t) → s.pending c' = some (r',t) → c = c'
  pending_prio : ∀ c r t, s.pending c = some (r,t) →
    (s.kernel.pool t).prio = r.prio ∧ r.prio < cfg.maxPrioLevels
  -- nobody has touched the table since the latest creation began
  latest_room : ∀ c r, s.pending c = some (r,s.kernel.procIdx) →
    s.kernel.procs r.prio < cfg.maxThreadsAtPrio
  nodup : (s.returned.map Prod.snd).Nodup
  done : ∀ r t, (r,t) ∈ s.returned → (s.kernel.pool t).valid = true ∧ t ∉ out ∧
    (s.kernel.pool t).prio = r.prio

/-- A step that leaves the table and the bookkeeping alone. -/
theorem CreateInv.congr {s : CreateState cfg} {out : Finset (Thid cfg)} {k : Kernel cfg}
    (h : CreateInv s out) (ht : ScheduleInv k out) (hs : k.prioIdxs = s.kernel.prioIdxs)
    (hi : k.procIdx = s.kernel.procIdx)
    (hp : ∀ t, (k.pool t).valid = (s.kernel.pool t).valid ∧
      (k.pool t).prio = (s.kernel.pool t).prio ∧
      (k.pool t).state.has .zombi = (s.kernel.pool t).state.has .zombi) :
    CreateInv { s with kernel := k } out where
  table := ht
  alive := fun t hv => by
    rw [(hp t).1] at hv
    rw [(hp t).2.2,h.alive t hv]
  pending_out := h.pending_out
  out_pending := h.out_pending
  pending_inj := h.pending_inj
  pending_prio := fun c r t hc => by
    simp only [(hp t).2.1]
    exact h.pending_prio c r t hc
  latest_room := fun c r hc => by
    simp only [Kernel.procs,hs]
    exact h.latest_room c r (by simpa only [hi] using hc)
  nodup := h.nodup
  done := fun r t hm => by
    simp only [(hp t).1,(hp t).2.1]
    exact h.done r t hm

theorem CreateInv.create {s : CreateState cfg} {out : Finset (Thid cfg)} (h : CreateInv s out)
    {r : ThreadReq} {k : Kernel cfg} {t : Thid cfg} (hb : Begun s.kernel r k t)
    (hfree : s.pending s.kernel.activeThread = none) :
    CreateInv { s with
      kernel := k
      pending := Function.update s.pending s.kernel.activeThread (some (r,t)) } (insert t out) := by
  obtain ⟨hi,hidx,_,hto,hprio,hprocs⟩ := hb.inv h.table
  have hne : ∀ {c r' t'}, s.pending c = some (r',t') → t' ≠ t := by
    rintro c r' t' hc rfl
    exact hto (h.pending_out c r' t' hc)
  have hold : ∀ x, x ≠ t → (k.pool x).valid = (s.kernel.pool x).valid ∧
      (k.pool x).prio = (s.kernel.pool x).prio ∧ (k.pool x).state = (s.kernel.pool x).state := by
    intro x hx
    rw [hb.pool]
    simp only [if_neg hx]
    split <;> exact ⟨rfl,rfl,rfl⟩
  have hcase : ∀ {c p}, Function.update s.pending s.kernel.activeThread (some (r,t)) c = some p →
      c = s.kernel.activeThread ∧ p = (r,t) ∨ c ≠ s.kernel.activeThread ∧ s.pending c = some p := by
    intro c p hc
    by_cases hca : c = s.kernel.activeThread
    · subst hca
      rw [Function.update_self,Option.some.injEq] at hc
      exact Or.inl ⟨rfl,hc.symm⟩
    · rw [Function.update_of_ne hca] at hc
      exact Or.inr ⟨hca,hc⟩
  constructor
  · exact hi
  · intro x hv
    by_cases hx : x = t
    · subst hx
      simp only [hb.pool]
      split <;> simp [newTcb]
    · simp only [(hold x hx).1,(hold x hx).2.2] at hv ⊢
      exact h.alive x hv
  · intro c r' t' hc
    obtain ⟨_,hp⟩ | ⟨_,hp⟩ := hcase hc
    · cases hp; exact Finset.mem_insert_self t out
    · exact Finset.mem_insert_of_mem (h.pending_out c r' t' hp)
  · intro x hx
    obtain rfl | hx := Finset.mem_insert.mp hx
    · exact ⟨s.kernel.activeThread,r,Function.update_self ..⟩
    · obtain ⟨c,r',hc⟩ := h.out_pending x hx
      refine ⟨c,r',?_⟩
      have hca : c ≠ s.kernel.activeThread := by rintro rfl; rw [hfree] at hc; cases hc
      simpa only [Function.update_of_ne hca] using hc
  · intro c c' r1 r2 x hc hc'
    obtain ⟨hca,hp⟩ | ⟨_,hp⟩ := hcase hc <;> obtain ⟨hca',hp'⟩ | ⟨_,hp'⟩ := hcase hc'
    · exact hca.trans hca'.symm
    · cases hp; exact absurd rfl (hne hp')
    · cases hp'; exact absurd rfl (hne hp)
    · exact h.pending_inj c c' r1 r2 x hp hp'
  · intro c r' t' hc
    obtain ⟨_,hp⟩ | ⟨_,hp⟩ := hcase hc
    · cases hp; exact ⟨hprio,hb.prio⟩
    · simp only [(hold t' (hne hp)).2.1]
      exact h.pending_prio c r' t' hp
  · intro c r' hc
    simp only [hidx] at hc
    obtain ⟨_,hp⟩ | ⟨_,hp⟩ := hcase hc
    · cases hp
      simp only [hprocs]
      exact hb.room
    · exact absurd rfl (hne hp)
  · exact h.nodup
  · intro r' t' hm
    obtain ⟨hv,ho,hp⟩ := h.done r' t' hm
    have hx : t' ≠ t := by
      rintro rfl
      rw [hb.free] at hv
      cases hv
    refine ⟨(hold t' hx).1.trans hv,?_,(hold t' hx).2.1.trans hp⟩
    simp [hx,ho]

theorem CreateInv.finish {s : CreateState cfg} {out : Finset (Thid cfg)} (h : CreateInv s out)
    {r : ThreadReq} {t : Thid cfg} (hp : s.pending s.kernel.activeThread = some (r,t))
    (ht : s.kernel.procIdx = t) :
    Spec (tkCreateThreadEnd s.kernel r t)
      (fun x => CreateInv ⟨x.1,Function.update s.pending s.kernel.activeThread none,
        (r,x.2) :: s.returned⟩ (out.erase t)) (fun _ => False) := by
  subst ht
  obtain ⟨hprio,hlev⟩ := h.pending_prio _ _ _ hp
  have hto := h.pending_out _ _ _ hp
  refine (tkCreateThreadEnd_spec h.table hto hlev (h.latest_room _ _ hp) hprio).mono ?_
    fun _ => False.elim
  rintro ⟨k,v⟩ ⟨hi,hv,_,hidx,hact,hpool⟩
  have hv : v = s.kernel.procIdx := hv
  subst hv
  have hold : ∀ x, (k.pool x).valid = (s.kernel.pool x).valid ∧
      (k.pool x).prio = (s.kernel.pool x).prio ∧ (k.pool x).state = (s.kernel.pool x).state := by
    intro x
    simp only at hpool
    rw [hpool]
    split <;> exact ⟨rfl,rfl,rfl⟩
  have hcase : ∀ {c p}, Function.update s.pending s.kernel.activeThread none c = some p →
      c ≠ s.kernel.activeThread ∧ s.pending c = some p := by
    intro c p hc
    by_cases hca : c = s.kernel.activeThread
    · rw [hca,Function.update_self] at hc; cases hc
    · rw [Function.update_of_ne hca] at hc; exact ⟨hca,hc⟩
  have hne : ∀ {c r' t'}, c ≠ s.kernel.activeThread → s.pending c = some (r',t') →
      t' ≠ s.kernel.procIdx := by
    rintro c r' t' hca hc rfl
    exact hca (h.pending_inj _ _ _ _ _ hc hp)
  constructor
  · exact hi
  · intro x hx
    simp only [(hold x).1,(hold x).2.2] at hx ⊢
    exact h.alive x hx
  · intro c r' t' hc
    obtain ⟨hca,hc⟩ := hcase hc
    exact Finset.mem_erase.mpr ⟨hne hca hc,h.pending_out c r' t' hc⟩
  · intro x hx
    obtain ⟨hxt,hx⟩ := Finset.mem_erase.mp hx
    obtain ⟨c,r',hc⟩ := h.out_pending x hx
    refine ⟨c,r',?_⟩
    have hca : c ≠ s.kernel.activeThread := by
      rintro rfl
      rw [hp] at hc
      cases hc
      exact hxt rfl
    simpa only [Function.update_of_ne hca] using hc
  · intro c c' r1 r2 x hc hc'
    exact h.pending_inj c c' r1 r2 x (hcase hc).2 (hcase hc').2
  · intro c r' t' hc
    simp only [(hold t').2.1]
    exact h.pending_prio c r' t' (hcase hc).2
  · intro c r' hc
    obtain ⟨hca,hc⟩ := hcase hc
    exact absurd hidx (hne hca hc)
  · refine List.nodup_cons.mpr ⟨fun hm => ?_,h.nodup⟩
    obtain ⟨⟨r',t'⟩,hm,rfl⟩ := List.mem_map.mp hm
    exact (h.done r' _ hm).2.1 hto
  · intro r' t' hm
    obtain he | hm := List.mem_cons.mp hm
    · cases he
      simp only [(hold s.kernel.procIdx).1,(hold s.kernel.procIdx).2.1]
      exact ⟨h.table.out_valid _ hto,Finset.notMem_erase _ _,hprio⟩
    · obtain ⟨hv,ho,hpr⟩ := h.done r' t' hm
      simp only [(hold t').1,(hold t').2.1]
      exact ⟨hv,fun hx => ho (Finset.mem_of_mem_erase hx),hpr⟩

theorem createStep_spec {s : CreateState cfg} {l : CreateLabel cfg} {out : Finset (Thid cfg)}
    (h : CreateInv s out) (he : createEnabled s l = true) (hc : OwnProcIdx s l) :
    Spec (createNext s l) (fun s' => ∃ out', CreateInv s' out') (fun _ => False) := by
  cases l with
  | create r =>
    simp only [createEnabled,Bool.and_eq_true,Option.isNone_iff_eq_none,decide_eq_true_eq] at he
    obtain ⟨⟨hp,_⟩,ha⟩ := he
    simp only [createNext,spec_bind,spec_pure]
    refine (tkCreateThreadBegin_spec h.table).mono ?_ fun _ hn => absurd ha hn
    rintro ⟨k,t⟩ hb
    exact ⟨_,h.create hb hp⟩
  | finish =>
    obtain ⟨⟨r,t⟩,hp⟩ := Option.isSome_iff_exists.mp he
    simp only [createNext,hp,spec_bind,spec_pure]
    exact (h.finish hp (hc r t hp)).imp fun x hx => ⟨_,hx⟩
  | msleep timeMs clk =>
    refine ⟨out,h.congr (h.table.congr rfl rfl rfl fun t => ?_) rfl rfl fun t => ?_⟩
    · simp only [tkMsleep,Kernel.modTcb_pool]
      split
      · next he => subst he; exact ⟨rfl,rfl,rfl⟩
      · exact ⟨rfl,rfl,rfl⟩
    · simp only [tkMsleep,Kernel.modTcb_pool]
      split
      · next he => subst he; exact ⟨rfl,rfl,ProcState.or_sleep_has_zombi _⟩
      · exact ⟨rfl,rfl,rfl⟩
  | yield clk t =>
    simp only [createNext,spec_bind,spec_pure]
    refine (tkWakeupTimedoutThreads_alive clk h.alive).imp ?_
    rintro k ⟨hs,hp⟩
    refine ⟨out,h.congr ((hs.inv h.table).congr rfl rfl rfl fun _ => ⟨rfl,rfl,rfl⟩) hs.prioIdxs
      hs.procIdx fun x => ⟨(hs.pool x).1,(hs.pool x).2.1,?_⟩⟩
    rw [Kernel.dispatch_pool]
    obtain hx | hx := hp x
    · rw [hx]
    · rw [hx,timerTest_has_zombi]

/-! ### Whole runs -/

/-- Each returned id is valid and in the schedule once, in the row its caller asked for; the ids
are distinct and so are the live cells. -/
structure WellCreated (s : CreateState cfg) : Prop where
  distinct : (s.returned.map Prod.snd).Nodup
  entered : ∀ r t, (r,t) ∈ s.returned → (s.kernel.pool t).valid = true ∧
    ∃ i, LiveCell s.kernel r.prio i ∧ s.kernel.schedule r.prio i = t
  cells : ∀ p i p' i', LiveCell s.kernel p i → LiveCell s.kernel p' i' →
    s.kernel.schedule p i = s.kernel.schedule p' i' → p = p' ∧ i = i'

theorem CreateInv.wellCreated {s : CreateState cfg} {out : Finset (Thid cfg)}
    (h : CreateInv s out) : WellCreated s where
  distinct := h.nodup
  entered := by
    intro r t hm
    obtain ⟨hv,ho,hp⟩ := h.done r t hm
    obtain ⟨hl,hs⟩ := h.table.placed t hv ho
    rw [hp] at hl hs
    exact ⟨hv,_,hl,hs⟩
  cells := by
    intro p i p' i' hl hl' he
    obtain ⟨_,hp,hi,_⟩ := h.table.live p i hl
    obtain ⟨_,hp',hi',_⟩ := h.table.live p' i' hl'
    rw [he] at hp hi
    exact ⟨hp.symm.trans hp',hi.symm.trans hi'⟩

/-- Where every call that ends finds its own thread in `__tk_proc_idx`, interleaved creations
do not disturb each other, and none of them leaves the table. -/
theorem createRun_wellCreated {k : Kernel cfg} (hk : ScheduleInv k ∅)
    (ha : Alive k)
    {ls : List (CreateLabel cfg)} {s : CreateState cfg}
    (hc : (createMachine cfg).Along OwnProcIdx ⟨k,fun _ => none,[]⟩ ls)
    (hr : (createMachine cfg).run ⟨k,fun _ => none,[]⟩ ls = some s) :
    WellCreated s ∧
    ∀ l, createEnabled s l = true → OwnProcIdx s l → ∃ s', createNext s l = .ok s' := by
  have hinit : ∃ out, CreateInv ⟨k,fun _ => none,[]⟩ out := by
    refine ⟨∅,hk,ha,?_,?_,?_,?_,?_,List.nodup_nil,?_⟩
    · rintro c r t ⟨⟩
    · intro t ht; cases ht
    · rintro c c' r r' t ⟨⟩
    · rintro c r t ⟨⟩
    · rintro c r ⟨⟩
    · intro r t hm; cases hm
  obtain ⟨out,hi⟩ : ∃ out, CreateInv s out := by
    refine (createMachine cfg).run_invariant (I:=fun s => ∃ out, CreateInv s out) ?_ hinit hc hr
    rintro s l s' ⟨out,hi⟩ hc hstep
    exact (createStep_spec hi hstep.1 hc).of_ok hstep.2
  refine ⟨hi.wellCreated,fun l he hc => ?_⟩
  obtain ⟨s',hs,_⟩ := spec_total_iff.mp (createStep_spec hi he hc)
  exact ⟨s',hs⟩

theorem Booted.alive {k : Kernel cfg} (h : Booted k) : Alive k := by
  intro t ht
  simp [(h.own t ht).2.2]

/-- The root thread makes one thread, sleeps while that one makes another, and wakes up. -/
def inTurnSteps : List (CreateLabel gnuArm) :=
  [.create ⟨"h",0,0,true⟩,.yield 0 root,.finish,.msleep 5 0,.yield 0 2,
    .create ⟨"x",1,0,true⟩,.yield 0 2,.finish,.yield 5000 root]

theorem createRun_wellCreated_inTurn : ∃ (k : Kernel gnuArm) (s : CreateState gnuArm),
    (createMachine gnuArm).run ⟨k,fun _ => none,[]⟩ inTurnSteps = some s ∧
    s.returned.map Prod.snd = [3,2] ∧ WellCreated s := by
  obtain ⟨k,s,hk,hc,hr,hl⟩ := (createMachine gnuArm).exists_along (x:=tkCreateKernel 0)
    OwnProcIdx (fun s => s.returned.map Prod.snd = [3,2]) (⟨·,fun _ => none,[]⟩) inTurnSteps
    (by decide +kernel)
  have hb := (tkCreateKernel_spec 0).of_ok hk
  exact ⟨k,s,hr,hl,(createRun_wellCreated hb.table hb.alive hc hr).1⟩

/-- The root thread wakes up inside the other thread's creation and makes a thread of its own. -/
def nestedSteps : List (CreateLabel gnuArm) :=
  [.create ⟨"h",0,0,true⟩,.yield 0 root,.finish,.msleep 5 0,.yield 0 2,
    .create ⟨"x",1,0,true⟩,.yield 5000 root,.create ⟨"y",2,0,true⟩,.yield 5000 root,.finish,
    .msleep 5 5000,.yield 5000 2,.finish]

/-- The outer call returns thread 3 but enters thread 4, which is in the schedule already. -/
theorem createRun_not_wellCreated :
    ¬∀ (k : Kernel gnuArm) (ls : List (CreateLabel gnuArm)) (s : CreateState gnuArm),
      tkCreateKernel 0 = .ok k → (createMachine gnuArm).run ⟨k,fun _ => none,[]⟩ ls = some s →
      (∀ c, s.pending c = none) → WellCreated s := by
  intro h
  obtain ⟨k,s,hk,hr,hn,hl,he⟩ := (createMachine gnuArm).exists_start (x:=tkCreateKernel 0)
    (fun s => (∀ c, (s.pending c).isNone = true) ∧ (LiveCell s.kernel 1 0 ∧ LiveCell s.kernel 2 0) ∧
      s.kernel.schedule 1 0 = s.kernel.schedule 2 0)
    (⟨·,fun _ => none,[]⟩) nestedSteps (by decide +kernel)
  simp only [Option.isNone_iff_eq_none] at hn
  exact absurd ((h k _ s hk hr hn).cells 1 0 2 0 hl.1 hl.2 he).1 (by decide)

end Tinker

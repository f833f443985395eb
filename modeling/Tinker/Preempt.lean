import Tinker.DeadRun

/-! The interrupt side of `tk_itcny.c` and the list of threads to preempt for of `tk_switch.c`.
A call from an interrupt comes between any two steps of the threads and does not yield; the next
`tk_yield` is to find the thread it readied in the list. -/
namespace Tinker

open Kernel Outcome

variable {cfg : Config} {numQ : ℕ}

/-- The whole kernel with `preemptlist`, its indices and `__tk_thread_to_run`; `npreempt` is the
kernel's. `added` and `consumed` only record what `tk_preemplist` was given, and which entry and
which thread a `tk_yield` took. -/
structure Preempted (cfg : Config) (numQ : ℕ) extends World cfg numQ where
  inpreempt : ℕ
  outpreempt : ℕ
  preemptlist : ℕ → ℤ
  threadToRun : ℤ
  added : List ℤ
  consumed : List (ℤ × Thid cfg)

inductive PreemptLabel (cfg : Config) (numQ : ℕ)
  | thread (l : WorldLabel cfg numQ) | smVny (qid : Fin numQ) | qSendNy (qid : Fin numQ) (m : Msg)
  | yield

namespace Preempted

def setWorld (s : Preempted cfg numQ) (w : World cfg numQ) : Preempted cfg numQ :=
  { s with toWorld := w }

/-- `tk_preemplist`. -/
def tkPreemplist (s : Preempted cfg numQ) (thid : ℤ) : Preempted cfg numQ :=
  { s with
    kernel := { s.kernel with npreempt := s.kernel.npreempt+1 }
    preemptlist := Function.update s.preemptlist s.inpreempt thid
    inpreempt := (s.inpreempt+1) % cfg.maxThreads
    added := s.added ++ [thid] }

/-- `_unlock_stage_ny` on the object in slot `qid`. The FIFO branch lists the address of the
control block, not the thread's id. -/
def unlockStageNy (addr : Thid cfg → ℤ) (s : Preempted cfg numQ) (qid : Fin numQ) (q : Itc cfg) :
    Except Fault (Preempted cfg numQ) :=
  if q.token < 0 then
    if q.flags &&& prior ≠ 0 then do
      match ← bestBlocked s.kernel q with
      | none => return s.setWorld (s.toWorld.putItc qid (some q))
      | some (i,t) =>
        let w := (s.setKernel (readyByItc s.kernel t)).putItc qid (some (itcRemoveBlocked q i))
        return s.setWorld w
    else do
      let (him,q) ← popBlocked s.kernel q.token.natAbs q
      let s := s.setWorld ((s.setKernel (readyByItc s.kernel him)).putItc qid (some q))
      return s.tkPreemplist (addr him)
  else .ok (s.setWorld (s.toWorld.putItc qid (some { q with token := toInt32 (q.token+1) })))

/-- `sm_v_ny`. -/
def smVny (addr : Thid cfg → ℤ) (s : Preempted cfg numQ) (qid : Fin numQ) :
    Except Fault (Preempted cfg numQ) := do
  match ← s.store.slot qid with
  | none => return s
  | some o =>
    if o.bType ≠ .sem then return s
    else s.unlockStageNy addr qid o.toItc

/-- `q_send_ny`. -/
def qSendNy (addr : Thid cfg → ℤ) (s : Preempted cfg numQ) (qid : Fin numQ) (m : Msg) :
    Except Fault (Preempted cfg numQ) := do
  match ← s.store.slot qid with
  | none => return s
  | some o =>
    if o.bType ≠ .sQueue then return s
    else if 0 < o.token ∧ ¬o.token < toInt32 o.sizeofQ then return s
    else
      let s ← s.unlockStageNy addr qid { o.toItc with
        q := Function.update o.q o.minIdx m
        minIdx := (o.minIdx+1) % o.sizeofQ }
      let _ ← s.store.sendEnd s.kernel qid
      return s

/-- `tk_yield`. The entry it takes out of the list is assigned to `__tk_thread_to_run`, and then
the next runable thread is. -/
def tkYield (s : Preempted cfg numQ) : Except Fault (Preempted cfg numQ) := do
  let k ← tkWakeupTimedoutThreads s.kernel s.clock
  let s := s.setWorld (s.setKernel k)
  let entry := s.preemptlist s.outpreempt
  let s ← if 0 < s.kernel.npreempt then do
      check (s.kernel.npreempt < 2) .assertPreempt
      pure { s with
        kernel := { s.kernel with npreempt := s.kernel.npreempt-1 }
        threadToRun := entry
        outpreempt := (s.outpreempt+1) % cfg.maxThreads }
    else pure s
  let t ← tkNextRunableThread s.kernel
  return { s with
    kernel := s.kernel.dispatch t
    yielding := false
    threadToRun := (t.val : ℤ)
    consumed := if 0 < k.npreempt then s.consumed ++ [(entry,t)] else s.consumed }

end Preempted

def preemptEnabled (s : Preempted cfg numQ) : PreemptLabel cfg numQ → Bool
  | .thread (.yield _) => false
  | .thread l => worldEnabled s.toWorld l
  | .smVny _ => true
  | .qSendNy _ _ => true
  | .yield => s.yielding || s.runs

def preemptNext (addr : Thid cfg → ℤ) (s : Preempted cfg numQ) :
    PreemptLabel cfg numQ → Except Fault (Preempted cfg numQ)
  | .thread l => do
    let w ← worldNext s.toWorld l
    return s.setWorld w
  | .smVny qid => s.smVny addr qid
  | .qSendNy qid m => s.qSendNy addr qid m
  | .yield => s.tkYield

/-- The machine on a target where the control block of `t` is at `addr t`. -/
def preemptMachine (cfg : Config) (numQ : ℕ) (addr : Thid cfg → ℤ) :
    Machine (Preempted cfg numQ) (PreemptLabel cfg numQ) Fault where
  enabled := preemptEnabled
  next := preemptNext addr

def preemptInit (k : Kernel cfg) (i : Fin numQ) : Preempted cfg numQ where
  toWorld := worldInit k i
  inpreempt := 0
  outpreempt := 0
  preemptlist := fun _ => 0
  threadToRun := 0
  added := []
  consumed := []

/-- The entries from `outpreempt` on. -/
def Preempted.entries (s : Preempted cfg numQ) : List ℤ :=
  (List.range s.kernel.npreempt).map fun i => s.preemptlist ((s.outpreempt+i) % cfg.maxThreads)

/-- The list names valid threads, its counter and indices agree, its entries go out in the order
they came in and to the threads they name, and the assert of `tk_yield` holds. -/
structure WellListed (s : Preempted cfg numQ) : Prop where
  thids : ∀ e ∈ s.entries, ∃ t : Thid cfg, e = (t.val : ℤ) ∧ (s.kernel.pool t).valid = true
  count : (s.outpreempt+s.kernel.npreempt) % cfg.maxThreads = s.inpreempt
  order : s.added = s.consumed.map Prod.fst ++ s.entries
  served : ∀ p ∈ s.consumed, p.1 = (p.2.val : ℤ)
  assert : s.kernel.npreempt < 2

/-- `tk_preemplist` is called when the object is FIFO and has threads to serve. -/
def Itc.Lists (q : Itc cfg) : Prop := q.token < 0 ∧ q.flags &&& prior = 0

instance (q : Itc cfg) : Decidable q.Lists := instDecidableAnd

/-- No call from an interrupt finds a thread to serve on a FIFO object. -/
def NothingListed (s : Preempted cfg numQ) : PreemptLabel cfg numQ → Prop
  | .smVny qid => ∀ o ∈ s.store.array qid, o.bType = .sem → ¬o.toItc.Lists
  | .qSendNy qid _ => ∀ o ∈ s.store.array qid, o.bType = .sQueue → ¬o.toItc.Lists
  | _ => True

instance (s : Preempted cfg numQ) (l : PreemptLabel cfg numQ) : Decidable (NothingListed s l) := by
  cases l <;> unfold NothingListed <;> infer_instance

section

variable {addr : Thid cfg → ℤ} {s s' : Preempted cfg numQ} {l : PreemptLabel cfg numQ}

/-- Without entries the list is in order. -/
theorem WellListed.of_empty (hn : s.kernel.npreempt = 0) (hi : s.inpreempt = s.outpreempt)
    (ho : s.outpreempt < cfg.maxThreads) (ha : s.added = []) (hc : s.consumed = []) :
    WellListed s := by
  have he : s.entries = [] := by rw [Preempted.entries,hn]; rfl
  refine ⟨?_,?_,?_,?_,?_⟩
  · rw [he]; nofun
  · rw [hn,hi,Nat.add_zero,Nat.mod_eq_of_lt ho]
  · rw [ha,hc,he]; rfl
  · rw [hc]; nofun
  · rw [hn]; decide

/-- Nothing has ever been listed. -/
structure NeverListed (s : Preempted cfg numQ) : Prop where
  npreempt : s.kernel.npreempt = 0
  inIdx : s.inpreempt = 0
  outIdx : s.outpreempt = 0
  added : s.added = []
  consumed : s.consumed = []

theorem NeverListed.wellListed (h : NeverListed s) : WellListed s :=
  WellListed.of_empty h.npreempt (h.inIdx.trans h.outIdx.symm)
    (by rw [h.outIdx]; exact Nat.lt_of_succ_lt cfg.one_lt_maxThreads) h.added h.consumed

/-- The steps that leave the list alone. -/
structure SameList (s s' : Preempted cfg numQ) : Prop where
  npreempt : s'.kernel.npreempt = s.kernel.npreempt
  inIdx : s'.inpreempt = s.inpreempt
  outIdx : s'.outpreempt = s.outpreempt
  added : s'.added = s.added
  consumed : s'.consumed = s.consumed

theorem SameList.neverListed (h : SameList s s') (hn : NeverListed s) : NeverListed s' :=
  ⟨h.npreempt.trans hn.npreempt,h.inIdx.trans hn.inIdx,h.outIdx.trans hn.outIdx,
    h.added.trans hn.added,h.consumed.trans hn.consumed⟩

theorem World.Does.npreempt {w w' : World cfg numQ} {l : WorldLabel cfg numQ} (h : w.Does l w') :
    w'.kernel.npreempt = w.kernel.npreempt := by
  by_cases hl : ∃ r, l = .create r
  · obtain ⟨r,rfl⟩ := hl
    cases h with
    | syncs hs => cases hs
    | creates hr hk =>
      have hb := (tkCreateThreadBegin_begun _ _).of_ok hk
      have hn := congrArg Kernel.npreempt hb.eq
      exact hn
  · by_cases hy : ∃ t, l = .yield t
    · obtain ⟨t,rfl⟩ := hy
      obtain ⟨k,hk,_,rfl⟩ := h.sweeps
      exact hk.npreempt
    · exact (h.moves (fun r hr => hl ⟨r,hr⟩) fun t ht => hy ⟨t,ht⟩).npreempt

/-- What `_unlock_stage_ny` does to the list: one entry where it finds a FIFO waiter, else nothing. -/
theorem unlockStageNy_spec {qid : Fin numQ} {q : Itc cfg} :
    Spec (s.unlockStageNy addr qid q) (fun s' => (¬q.Lists ∧ SameList s s') ∨
      q.Lists ∧ ∃ s1 t, SameList s s1 ∧ s1.preemptlist = s.preemptlist ∧
        s' = s1.tkPreemplist (addr t)) (fun _ => True) := by
  have hput : ∀ (k : Kernel cfg) (q' : Itc cfg), k.npreempt = s.kernel.npreempt →
      SameList s (s.setWorld ((s.setKernel k).putItc qid (some q'))) :=
    fun k q' hk => ⟨hk,rfl,rfl,rfl,rfl⟩
  unfold Preempted.unlockStageNy
  simp only [spec_ite,spec_bind,spec_ok,spec_pure]
  refine ⟨fun ht => ⟨fun hp => ?_,fun hp => ?_⟩,fun ht => ?_⟩
  · have hn : ¬q.Lists := fun h => hp h.2
    cases bestBlocked s.kernel q with
    | error e => trivial
    | ok best =>
      cases best with
      | none => exact Or.inl ⟨hn,hput s.kernel q rfl⟩
      | some p => exact Or.inl ⟨hn,hput (readyByItc s.kernel p.2) _ rfl⟩
  · cases popBlocked s.kernel q.token.natAbs q with
    | error e => trivial
    | ok p =>
      exact Or.inr ⟨⟨ht,not_not.mp hp⟩,_,p.1,hput (readyByItc s.kernel p.1) p.2 rfl,rfl,rfl⟩
  · exact Or.inl ⟨fun h => ht h.1,hput s.kernel _ rfl⟩

/-- Whether a call from an interrupt on the object in a slot, of the kind the call is for, lists a
thread. -/
theorem NeverListed.unlock (hn : NeverListed s) {qid : Fin numQ} {q : Itc cfg} :
    Spec (s.unlockStageNy addr qid q)
      (fun s' => (¬q.Lists → NeverListed s') ∧ (q.Lists → ∃ t, addr t ∈ s'.entries))
      (fun _ => True) := by
  refine unlockStageNy_spec.imp ?_
  rintro s' (⟨hl,hs⟩ | ⟨hl,s1,t,hs,hlist,rfl⟩)
  · exact ⟨fun _ => hs.neverListed hn,fun h => absurd h hl⟩
  · refine ⟨fun h => absurd hl h,fun _ => ⟨t,?_⟩⟩
    have h1 := hs.neverListed hn
    simp [Preempted.entries,Preempted.tkPreemplist,h1.npreempt,h1.inIdx,h1.outIdx]

theorem NeverListed.smVny (hn : NeverListed s) {qid : Fin numQ} : Spec (s.smVny addr qid)
    (fun s' => (NothingListed s (.smVny qid) → NeverListed s') ∧
      (¬NothingListed s (.smVny qid) → ∃ t, addr t ∈ s'.entries)) (fun _ => True) := by
  unfold Preempted.smVny
  cases hs : s.store.slot qid with
  | error e => trivial
  | ok slot =>
    have ho := ItcStore.slot_ok hs
    cases slot with
    | none => exact ⟨fun _ => hn,fun h => absurd (fun o hm => by rw [ho] at hm; cases hm) h⟩
    | some o =>
      have hiff : NothingListed s (.smVny qid) ↔ (o.bType = .sem → ¬o.toItc.Lists) := by
        simp [NothingListed,ho]
      simp only [spec_bind,spec_ok,spec_ite,spec_pure,hiff]
      refine ⟨fun hb => ⟨fun _ => hn,fun h => absurd (fun hb' => absurd hb' hb) h⟩,fun hb => ?_⟩
      refine hn.unlock.imp fun s' hs' => ⟨fun h => hs'.1 (h (not_not.mp hb)),fun h => hs'.2 ?_⟩
      by_contra hl
      exact h fun _ => hl

theorem NeverListed.qSendNy (hn : NeverListed s) {qid : Fin numQ} {m : Msg} :
    Spec (s.qSendNy addr qid m)
    (fun s' => (NothingListed s (.qSendNy qid m) → NeverListed s') ∧
      (¬NothingListed s (.qSendNy qid m) → ∃ t, addr t ∈ s'.entries)) (fun _ => True) := by
  unfold Preempted.qSendNy
  cases hs : s.store.slot qid with
  | error e => trivial
  | ok slot =>
    have ho := ItcStore.slot_ok hs
    cases slot with
    | none => exact ⟨fun _ => hn,fun h => absurd (fun o hm => by rw [ho] at hm; cases hm) h⟩
    | some o =>
      have hiff : NothingListed s (.qSendNy qid m) ↔ (o.bType = .sQueue → ¬o.toItc.Lists) := by
        simp [NothingListed,ho]
      simp only [spec_bind,spec_ok,spec_ite,spec_pure,hiff]
      refine ⟨fun hb => ⟨fun _ => hn,fun h => absurd (fun hb' => absurd hb' hb) h⟩,fun hb =>
        ⟨fun hf => ⟨fun _ => hn,fun h => absurd (fun _ hl => ?_) h⟩,fun _ => ?_⟩⟩
      · exact absurd hl.1 (by omega)
      · refine hn.unlock.imp fun s' hs' => ?_
        cases s'.store.sendEnd s'.kernel qid with
        | error e => trivial
        | ok e =>
          refine ⟨fun h => hs'.1 (h (not_not.mp hb)),fun h => hs'.2 ?_⟩
          by_contra hl
          exact h fun _ => hl

/-- A yield finds nothing in an empty list. -/
theorem NeverListed.tkYield (hn : NeverListed s) : Spec s.tkYield NeverListed (fun _ => True) := by
  unfold Preempted.tkYield
  simp only [spec_bind]
  refine tkWakeupTimedoutThreads_moves.imp fun k hk => ?_
  have hk0 : k.npreempt = 0 := hk.npreempt.trans hn.npreempt
  have hnone : ¬0 < (s.setWorld (s.setKernel k)).kernel.npreempt := by
    show ¬0 < k.npreempt
    omega
  rw [if_neg hnone,pure_bind,spec_bind]
  cases tkNextRunableThread (s.setWorld (s.setKernel k)).kernel with
  | error e => trivial
  | ok t =>
    refine ⟨hk0,hn.inIdx,hn.outIdx,hn.added,?_⟩
    simp only [hk0,lt_irrefl,if_false]
    exact hn.consumed

/-- A step lists a thread exactly where the condition is not met, and then by its address. -/
theorem NeverListed.step (hn : NeverListed s) (h : (preemptMachine cfg numQ addr).Step s l s') :
    (NothingListed s l → NeverListed s') ∧ (¬NothingListed s l → ∃ t, addr t ∈ s'.entries) := by
  obtain ⟨he,hx⟩ := h
  cases l with
  | thread l =>
    refine ⟨fun _ => ?_,fun h => absurd trivial h⟩
    have hx : (do let w ← worldNext s.toWorld l; return s.setWorld w) = .ok s' := hx
    cases hw : worldNext s.toWorld l with
    | error e => rw [hw] at hx; cases hx
    | ok w =>
      rw [hw] at hx
      cases hx
      have hl : worldEnabled s.toWorld l = true := by
        cases l with
        | yield t => cases he
        | _ => exact he
      have hd : s.toWorld.Does l w := worldStep_does ⟨hl,hw⟩
      exact ⟨hd.npreempt.trans hn.npreempt,hn.inIdx,hn.outIdx,hn.added,hn.consumed⟩
  | smVny qid => exact hn.smVny.of_ok hx
  | qSendNy qid m => exact hn.qSendNy.of_ok hx
  | yield => exact ⟨fun _ => hn.tkYield.of_ok hx,fun h => absurd trivial h⟩

end

/-! ### Whole runs -/

/-- The list is in order all along a run exactly where nothing is ever listed in it, as no address
of a control block is a thread's id. -/
theorem preemptRun_wellListed {addr : Thid cfg → ℤ} (haddr : ∀ t u : Thid cfg, addr t ≠ (u.val : ℤ))
    {clk : Clock} {k : Kernel cfg} (hk : tkCreateKernel clk = .ok k) {i : Fin numQ}
    {ls : List (PreemptLabel cfg numQ)} {s : Preempted cfg numQ}
    (hr : (preemptMachine cfg numQ addr).run (preemptInit k i) ls = some s) :
    (∀ pre s', pre <+: ls → (preemptMachine cfg numQ addr).run (preemptInit k i) pre = some s' →
      WellListed s') ↔ (preemptMachine cfg numQ addr).Along NothingListed (preemptInit k i) ls := by
  have hn : NeverListed (preemptInit k i) :=
    ⟨tkCreateKernel_npreempt.of_ok hk,rfl,rfl,rfl,rfl⟩
  generalize preemptInit k i = s0 at hr hn
  induction ls generalizing s0 with
  | nil =>
    refine ⟨fun _ => trivial,fun _ pre s' hpre hrun => ?_⟩
    rw [List.prefix_nil.mp hpre] at hrun
    cases hrun
    exact hn.wellListed
  | cons l ls ih =>
    obtain ⟨m,hm,hrest⟩ := (Machine.run_cons _).mp hr
    have huniq : ∀ {m'}, (preemptMachine cfg numQ addr).Step s0 l m' → m' = m := fun hm' =>
      Except.ok.inj (hm'.2.symm.trans hm.2)
    constructor
    · intro hall
      have hc : NothingListed s0 l := by
        by_contra hc
        obtain ⟨t,ht⟩ := (hn.step hm).2 hc
        have hw := hall [l] m ⟨ls,rfl⟩ ((Machine.run_cons _).mpr ⟨m,hm,rfl⟩)
        obtain ⟨u,hu,_⟩ := hw.thids _ ht
        exact haddr t u hu
      refine ⟨hc,fun m' hm' => ?_⟩
      rw [huniq hm']
      refine (ih m hrest ((hn.step hm).1 hc)).mp fun pre s' hpre hrun => ?_
      exact hall (l :: pre) s' (List.cons_prefix_cons.mpr ⟨rfl,hpre⟩)
        ((Machine.run_cons _).mpr ⟨m,hm,hrun⟩)
    · rintro ⟨hc,hal⟩ pre s' hpre hrun
      cases pre with
      | nil => cases hrun; exact hn.wellListed
      | cons l' pre =>
        obtain ⟨rfl,htail⟩ := List.cons_prefix_cons.mp hpre
        obtain ⟨m',hm',hrun⟩ := (Machine.run_cons _).mp hrun
        rw [huniq hm'] at hrun
        exact (ih m hrest ((hn.step hm).1 hc)).mpr (hal m hm) pre s' htail hrun

/-- A pool of control blocks of 128 bytes in the memory of a board. -/
def poolAddr (t : Thid gnuArm) : ℤ := 0x20000000+128*t.val

theorem poolAddr_ne (t u : Thid gnuArm) : poolAddr t ≠ (u.val : ℤ) := by
  have := u.isLt
  have : gnuArm.maxThreads = 10 := rfl
  unfold poolAddr
  omega

/-- An interrupt gives a token before the root thread takes it and yields. -/
def giveFirstSteps : List (PreemptLabel gnuArm 4) :=
  [.thread (.createItc (.sem 0 fifo) true),.smVny 0,.thread (.take .sem 0 fifo 0 0),.yield]

theorem preemptRun_wellListed_give : ∃ (k : Kernel gnuArm) (s : Preempted gnuArm 4),
    (preemptMachine gnuArm 4 poolAddr).run (preemptInit k 0) giveFirstSteps = some s ∧
    ∀ pre s', pre <+: giveFirstSteps →
      (preemptMachine gnuArm 4 poolAddr).run (preemptInit k 0) pre = some s' → WellListed s' := by
  obtain ⟨k,s,hk,hc,hr,-⟩ := (preemptMachine gnuArm 4 poolAddr).exists_along (x:=tkCreateKernel 0)
    NothingListed (fun _ => True) (preemptInit · 0) giveFirstSteps (by decide +kernel)
  exact ⟨k,s,hr,(preemptRun_wellListed poolAddr_ne hk hr).mpr hc⟩

/-- Two threads wait, and interrupts give a token to each before anybody yields. -/
def giveTwiceSteps : List (PreemptLabel gnuArm 4) :=
  [.thread (.createItc (.sem 0 fifo) true),.thread (.create ⟨"a",1,0,true⟩),.yield,
    .thread .resume,.thread (.take .sem 0 fifo 0 0),.yield,.thread (.take .sem 0 fifo 0 0),.yield,
    .smVny 0,.smVny 0]

/-- The list holds two addresses, and the next yield fails its assert. -/
theorem preemptRun_not_wellListed :
    ¬∀ (k : Kernel gnuArm) (ls : List (PreemptLabel gnuArm 4)) (s : Preempted gnuArm 4),
      tkCreateKernel 0 = .ok k →
      (preemptMachine gnuArm 4 poolAddr).run (preemptInit k 0) ls = some s → WellListed s := by
  intro h
  obtain ⟨k,s,hk,hr,hn,-,-⟩ := (preemptMachine gnuArm 4 poolAddr).exists_start
    (x:=tkCreateKernel 0) (fun s => s.kernel.npreempt = 2 ∧
      s.entries = [0x20000000,0x20000100] ∧ s.tkYield.toOption.isNone = true)
    (preemptInit · 0) giveTwiceSteps (by decide +kernel)
  have := (h k _ s hk hr).assert
  omega

end Tinker

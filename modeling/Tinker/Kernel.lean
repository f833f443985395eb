import Tinker.Outcome
import Tinker.Types

/-! The scheduler of `tk.c` and the timer sweep of `tk_switch.c`.
Every access to `__tk_schedule` and to `__tk_roundrobin_prio_idxs` goes through a
bounds check, so an index outside the table is a fault and not a default value. -/
namespace Tinker

variable {cfg : Config}

/-- `stat_t`, one per priority. -/
structure PrioStat where
  procsAtPrio : ℕ
  currIdx : ℕ
  deriving DecidableEq

/-- The global variables of `tk.c`. -/
structure Kernel (cfg : Config) where
  pool : Pool cfg
  schedule : ℕ → ℕ → Thid cfg
  prioIdxs : ℕ → PrioStat
  activeThread : Thid cfg
  procsInUse : ℕ
  procIdx : Thid cfg
  idleThid : Thid cfg
  npreempt : ℕ

/-- A value that an update does not set was there before. -/
theorem of_update_eq {α β : Type} [DecidableEq α] {f : α → β} {a b : α} {x y : β}
    (h : Function.update f a x b = y) (hx : x ≠ y) : f b = y := by
  by_cases hb : b = a
  · subst hb
    rw [Function.update_self] at h
    exact absurd h hx
  · rwa [Function.update_of_ne hb] at h

namespace Kernel

def modTcb (k : Kernel cfg) (t : Thid cfg) (f : Tcb cfg → Tcb cfg) : Kernel cfg :=
  { k with pool := Function.update k.pool t (f (k.pool t)) }

def modStat (k : Kernel cfg) (p : ℕ) (f : PrioStat → PrioStat) : Kernel cfg :=
  { k with prioIdxs := Function.update k.prioIdxs p (f (k.prioIdxs p)) }

/-- The processor goes to `t`. -/
def dispatch (k : Kernel cfg) (t : Thid cfg) : Kernel cfg := { k with activeThread := t }

/-- The number of live cells of a row. -/
def procs (k : Kernel cfg) (p : ℕ) : ℕ := (k.prioIdxs p).procsAtPrio

def readProcs (k : Kernel cfg) (p : ℕ) : Except Fault ℕ :=
  if p < cfg.maxPrioLevels then .ok (k.procs p) else .error .outOfTable

def InTable (cfg : Config) (p i : ℕ) : Prop := p < cfg.maxPrioLevels ∧ i < cfg.maxThreadsAtPrio

instance (p i : ℕ) : Decidable (InTable cfg p i) := instDecidableAnd

def readCell (k : Kernel cfg) (p i : ℕ) : Except Fault (Thid cfg) :=
  if InTable cfg p i then .ok (k.schedule p i) else .error .outOfTable

def writeCell (k : Kernel cfg) (p i : ℕ) (t : Thid cfg) : Except Fault (Kernel cfg) :=
  if InTable cfg p i then
    .ok { k with schedule := fun p' i' => if p' = p ∧ i' = i then t else k.schedule p' i' }
  else .error .outOfTable

@[simp] theorem modTcb_pool (k : Kernel cfg) (t u : Thid cfg) (f : Tcb cfg → Tcb cfg) :
    (k.modTcb t f).pool u = if u = t then f (k.pool t) else k.pool u := by
  simp [modTcb,Function.update_apply]
@[simp] theorem modTcb_schedule (k : Kernel cfg) (t : Thid cfg) (f : Tcb cfg → Tcb cfg) :
    (k.modTcb t f).schedule = k.schedule := rfl
@[simp] theorem modTcb_prioIdxs (k : Kernel cfg) (t : Thid cfg) (f : Tcb cfg → Tcb cfg) :
    (k.modTcb t f).prioIdxs = k.prioIdxs := rfl
@[simp] theorem modTcb_procs (k : Kernel cfg) (t : Thid cfg) (f : Tcb cfg → Tcb cfg) (p : ℕ) :
    (k.modTcb t f).procs p = k.procs p := rfl
@[simp] theorem modTcb_activeThread (k : Kernel cfg) (t : Thid cfg) (f : Tcb cfg → Tcb cfg) :
    (k.modTcb t f).activeThread = k.activeThread := rfl
@[simp] theorem modTcb_procsInUse (k : Kernel cfg) (t : Thid cfg) (f : Tcb cfg → Tcb cfg) :
    (k.modTcb t f).procsInUse = k.procsInUse := rfl
@[simp] theorem modTcb_procIdx (k : Kernel cfg) (t : Thid cfg) (f : Tcb cfg → Tcb cfg) :
    (k.modTcb t f).procIdx = k.procIdx := rfl
@[simp] theorem modTcb_npreempt (k : Kernel cfg) (t : Thid cfg) (f : Tcb cfg → Tcb cfg) :
    (k.modTcb t f).npreempt = k.npreempt := rfl
@[simp] theorem dispatch_pool (k : Kernel cfg) (t : Thid cfg) : (k.dispatch t).pool = k.pool := rfl
@[simp] theorem dispatch_schedule (k : Kernel cfg) (t : Thid cfg) :
    (k.dispatch t).schedule = k.schedule := rfl
@[simp] theorem dispatch_prioIdxs (k : Kernel cfg) (t : Thid cfg) :
    (k.dispatch t).prioIdxs = k.prioIdxs := rfl
@[simp] theorem dispatch_procs (k : Kernel cfg) (t : Thid cfg) (p : ℕ) :
    (k.dispatch t).procs p = k.procs p := rfl
@[simp] theorem dispatch_procsInUse (k : Kernel cfg) (t : Thid cfg) :
    (k.dispatch t).procsInUse = k.procsInUse := rfl
@[simp] theorem dispatch_procIdx (k : Kernel cfg) (t : Thid cfg) :
    (k.dispatch t).procIdx = k.procIdx := rfl
@[simp] theorem dispatch_activeThread (k : Kernel cfg) (t : Thid cfg) :
    (k.dispatch t).activeThread = t := rfl
@[simp] theorem modStat_pool (k : Kernel cfg) (p : ℕ) (f : PrioStat → PrioStat) :
    (k.modStat p f).pool = k.pool := rfl
@[simp] theorem modStat_schedule (k : Kernel cfg) (p : ℕ) (f : PrioStat → PrioStat) :
    (k.modStat p f).schedule = k.schedule := rfl
@[simp] theorem modStat_procsInUse (k : Kernel cfg) (p : ℕ) (f : PrioStat → PrioStat) :
    (k.modStat p f).procsInUse = k.procsInUse := rfl
@[simp] theorem modStat_activeThread (k : Kernel cfg) (p : ℕ) (f : PrioStat → PrioStat) :
    (k.modStat p f).activeThread = k.activeThread := rfl
@[simp] theorem modStat_procIdx (k : Kernel cfg) (p : ℕ) (f : PrioStat → PrioStat) :
    (k.modStat p f).procIdx = k.procIdx := rfl
@[simp] theorem modStat_prioIdxs (k : Kernel cfg) (p q : ℕ) (f : PrioStat → PrioStat) :
    (k.modStat p f).prioIdxs q = if q = p then f (k.prioIdxs p) else k.prioIdxs q := by
  simp [modStat,Function.update_apply]

end Kernel

open Kernel Outcome

/-- The trap codes `tk_exit` is called with. -/
def tcMaxThreads : ℕ := 0x8001
def tcMaxPrioLevels : ℕ := 0x8004
def tcThreadsAtPrio : ℕ := 0x8040
def tcNameLen : ℕ := 0x8100
def tcNomem : ℕ := 0x8200
def tcTcbInvalid : ℕ := 0x8400

/-- The arguments of `tk_create_thread`; `stalloc` tells whether the stack is granted. -/
structure ThreadReq where
  name : String
  prio : ℕ
  inpar : ℕ
  stalloc : Bool

/-- The do-while search for a free slot, `fuel` slots at most. -/
def nextFree (valid : Thid cfg → Bool) : ℕ → Thid cfg → Option (Thid cfg)
  | 0, _ => none
  | fuel+1, i =>
    let j : Thid cfg := ⟨(i.val+1) % cfg.maxThreads,Nat.mod_lt _ (Nat.zero_lt_of_lt i.isLt)⟩
    if valid j then nextFree valid fuel j else some j

/-- A control block as `tk_create_thread` fills it in. -/
def newTcb (t parent : Thid cfg) (r : ThreadReq) (slotIdx : ℕ) (wakeuptime : Clock) : Tcb cfg where
  thid := t
  gid := some parent
  noChilds := 0
  valid := true
  state := .ready
  bOnId := ⟨.sched,.null⟩
  wakeuptime := wakeuptime
  wakeupEvent := .none
  retval := r.inpar
  prio := r.prio
  idx := slotIdx

/-- The checks of `tk_create_thread` that end in `tk_exit(error)`. -/
def createErrors (k : Kernel cfg) (r : ThreadReq) (slotIdx : ℕ) : ℕ :=
  (if cfg.maxThreads ≤ k.procsInUse then tcMaxThreads else 0) |||
  (if cfg.maxPrioLevels ≤ r.prio then tcMaxPrioLevels else 0) |||
  (if cfg.maxThreadsAtPrio ≤ slotIdx then tcThreadsAtPrio else 0)

/-- Slot `t` is filled in, charged to the running thread and counted. -/
def allocThread (k : Kernel cfg) (r : ThreadReq) (slotIdx : ℕ) (t : Thid cfg) : Kernel cfg :=
  let k := { k with procIdx := t }
  let k := k.modTcb t fun b => newTcb t k.activeThread r slotIdx b.wakeuptime
  let k := k.modTcb k.activeThread fun b => { b with noChilds := b.noChilds+1 }
  { k with procsInUse := k.procsInUse+1 }

/-- `tk_create_thread` up to the `tk_yield` of the constructor, which runs on the new thread
and may dispatch any other; the result carries the local `valid_proc_idx`. -/
def tkCreateThreadBegin (k : Kernel cfg) (r : ThreadReq) :
    Except Fault (Kernel cfg × Thid cfg) := do
  let slotIdx ← k.readProcs r.prio
  check (createErrors k r slotIdx = 0) (.exit (createErrors k r slotIdx))
  match nextFree (fun t => (k.pool t).valid) cfg.maxThreads k.procIdx with
  | none => .error .diverges
  | some t =>
    check (r.name.length < cfg.threadNameLen) (.exit tcNameLen)
    check (r.stalloc = true) (.exit tcNomem)
    return ((allocThread k r slotIdx t).dispatch t,t)

/-- `tk_create_thread` after the constructor has given the processor back. The slot is
entered for `__tk_proc_idx` as it is now; `validProcIdx` is what the call returns. -/
def tkCreateThreadEnd (k : Kernel cfg) (r : ThreadReq) (validProcIdx : Thid cfg) :
    Except Fault (Kernel cfg × Thid cfg) := do
  let slotIdx ← k.readProcs r.prio
  let k := k.modTcb k.procIdx fun b => { b with idx := slotIdx }
  let k ← k.writeCell r.prio slotIdx k.procIdx
  let k := k.modStat r.prio fun s => { s with procsAtPrio := s.procsAtPrio+1 }
  return (k,validProcIdx)

/-- The compaction loop of `tk_delete_thread` and `tk_change_prio`, `n` rounds from
cell `i` on. The last round copies the cell one past the live part of the row. -/
def compactRow (prio : ℕ) : ℕ → ℕ → Kernel cfg → Except Fault (Kernel cfg)
  | 0, _, k => .ok k
  | n+1, i, k => do
    let x ← k.readCell prio (i+1)
    let k ← k.writeCell prio i x
    compactRow prio n (i+1) (k.modTcb x fun b => { b with idx := i })

/-- A row gets one thread shorter and its round-robin index stays inside. -/
def shortenRow (k : Kernel cfg) (prio : ℕ) : Kernel cfg :=
  k.modStat prio fun s =>
    ⟨s.procsAtPrio-1,if s.procsAtPrio-1 ≤ s.currIdx then 0 else s.currIdx⟩

/-- One round of the loop in `_tk_detach_children`. -/
def detachChild (t : Thid cfg) (k : Kernel cfg) (j : Thid cfg) : Kernel cfg :=
  if 0 < (k.pool t).noChilds ∧ (k.pool j).valid ∧ (k.pool j).gid = some t then
    (k.modTcb j fun b => { b with gid := none }).modTcb t
      fun b => { b with noChilds := b.noChilds-1 }
  else k

/-- `_tk_detach_children`: the loop ends early once the counter reaches zero. -/
def tkDetachChildren (k : Kernel cfg) (t : Thid cfg) : Kernel cfg :=
  (List.finRange cfg.maxThreads).foldl (detachChild t) k

/-- The parent sleeps in `tk_join` for this very child. -/
def waitsFor (p : Tcb cfg) (t : Thid cfg) : Bool :=
  p.state.has .term && decide (p.bOnId.entity = .tcb t)

/-- The parent's control block once it has been told about the child's death. -/
def unblockParent (t : Thid cfg) (retval : ℕ) (p : Tcb cfg) : Tcb cfg :=
  let state := p.state &&& ~~~ProcState.term
  { p with
    state := state
    wakeupEvent := .childDeath
    bOnId := if state = .ready then ⟨.sched,.null⟩ else ⟨.sched,.tcb t⟩
    retval := retval }

/-- `_tk_try_detach_parent`. -/
def tkTryDetachParent (k : Kernel cfg) (t : Thid cfg) (force : Bool) :
    Except Fault (Kernel cfg × Bool) :=
  match (k.pool t).gid with
  | none => .ok (k,true)
  | some p => do
    check ((k.pool p).valid = true) .assertParent
    let unblock := waitsFor (k.pool p) t
    let k := if unblock then k.modTcb p (unblockParent t (k.pool t).retval) else k
    if unblock || force then
      let k := k.modTcb p fun b => { b with noChilds := b.noChilds-1 }
      check (0 ≤ (k.pool p).noChilds) .assertNoChilds
      return (k.modTcb t fun b => { b with gid := none },true)
    else return (k,false)

/-- The part of `tk_delete_thread` that takes the thread out of the schedule. -/
def bury (k : Kernel cfg) (t : Thid cfg) : Except Fault (Kernel cfg) := do
  let prio := (k.pool t).prio
  let idx := (k.pool t).idx
  let x ← k.readCell prio idx
  check (x = t) .assertSchedule
  let procs ← k.readProcs prio
  let k := { k with procsInUse := k.procsInUse-1 }
  let k ← compactRow prio (procs-idx) idx k
  return (shortenRow k prio).modTcb t fun b => { b with valid := false }

/-- The first half of `tk_delete_thread`: a living thread dies here, and the flag is `bury_it`. -/
def killThread (k : Kernel cfg) (t : Thid cfg) : Except Fault (Kernel cfg × Bool) :=
  if (k.pool t).state.has .zombi then .ok (k,true)
  else tkTryDetachParent (tkDetachChildren (k.modTcb t fun b => { b with state := .zombi }) t) t false

/-- `tk_delete_thread`; the flag is `TK_OK`. -/
def tkDeleteThread (k : Kernel cfg) (t : Thid cfg) : Except Fault (Kernel cfg × Bool) :=
  if (k.pool t).valid = false then .ok (k,false)
  else do
    let (k,buryIt) ← killThread k t
    if buryIt then
      let k ← bury k t
      return (k,true)
    else return (k,true)

/-- The checks of `tk_change_prio`. A negative priority passes the upper bound and is
then used as an index. -/
def changePrioErrors (k : Kernel cfg) (t : Thid cfg) (newPrio : ℤ) (procs : ℕ) : ℕ :=
  (if (k.pool t).valid = false then tcTcbInvalid else 0) |||
  (if (cfg.maxPrioLevels : ℤ) ≤ newPrio then tcMaxPrioLevels else 0) |||
  (if cfg.maxThreadsAtPrio ≤ procs then tcThreadsAtPrio else 0)

/-- Whether the caller should yield after the move. -/
def changePrioYield (k : Kernel cfg) (t : Thid cfg) (newPrio : ℕ) : Bool :=
  if (k.pool t).state ≠ .ready then false
  else if (k.pool t).prio < newPrio then true
  else decide (k.activeThread = t)

/-- `tk_change_prio`; the flag is the `y` it returns. -/
def tkChangePrio (k : Kernel cfg) (t : Thid cfg) (newPrio : ℤ) :
    Except Fault (Kernel cfg × Bool) := do
  check (0 ≤ newPrio) .outOfTable
  let new := newPrio.toNat
  let procs ← k.readProcs new
  check (changePrioErrors k t newPrio procs = 0) (.exit (changePrioErrors k t newPrio procs))
  let oldPrio := (k.pool t).prio
  let oldIdx := (k.pool t).idx
  if oldPrio = new then return (k,false)
  let y := changePrioYield k t new
  let oldProcs ← k.readProcs oldPrio
  let k ← compactRow oldPrio (oldProcs-oldIdx) oldIdx k
  let k := shortenRow k oldPrio
  let newIdx ← k.readProcs new
  let k ← k.writeCell new newIdx t
  let k := k.modStat new fun s => { s with procsAtPrio := s.procsAtPrio+1 }
  return (k.modTcb t fun b => { b with prio := new, idx := newIdx },y)

/-- `tk_msleep` up to its yield, in the 32-bit arithmetic of the targets. -/
def tkMsleep (k : Kernel cfg) (timeMs : BitVec 32) (clk : Clock) : Kernel cfg :=
  k.modTcb k.activeThread fun b =>
    { b with wakeuptime := actTimeUs clk + timeMs * 1000, state := b.state ||| .sleep }

/-- `_tk_destructor` up to its first yield: the thread dies and then sleeps for ever. -/
def tkDestructor (k : Kernel cfg) (retval : ℕ) (clk : Clock) : Kernel cfg :=
  let t := k.activeThread
  let k := k.modTcb t fun b => { b with state := .zombi, retval := retval }
  tkMsleep (tkDetachChildren k t) 1000 clk

/-- How `tk_join` ends or where it goes to sleep. -/
inductive JoinResult
  | einval | esrch | ok (value : ℕ) | waits
  deriving DecidableEq

/-- `tk_join` up to its yield. -/
def tkJoin (k : Kernel cfg) (t : Thid cfg) : Except Fault (Kernel cfg × JoinResult) := do
  if (k.pool t).gid ≠ some k.activeThread then return (k,.einval)
  if (k.pool t).valid = false then return (k,.esrch)
  if (k.pool t).state.has .zombi then
    let (k',_) ← tkTryDetachParent k t true
    return (k',.ok (k.pool t).retval)
  else
    return (k.modTcb k.activeThread fun b =>
      { b with bOnId := ⟨.sched,.tcb t⟩, state := b.state ||| .term },.waits)

/-- `tk_join` after its yield. -/
def tkJoinWoken (k : Kernel cfg) : Except Fault JoinResult := do
  check ((k.pool k.activeThread).wakeupEvent = .childDeath) .assertChildDeath
  return .ok (k.pool k.activeThread).retval

/-- One round of `_tk_wakeup_timedout_threads`: the timer test, then the reaping. -/
def sweepThread (clk : Clock) (k : Kernel cfg) (i : Thid cfg) : Except Fault (Kernel cfg) := do
  if 0 < k.npreempt then return k
  if (k.pool i).valid = false then return k
  let k := k.modTcb i (timerTest (actTimeUs clk))
  if (k.pool i).state.has .zombi && decide (i ≠ k.activeThread) then
    let (k,detached) ← tkTryDetachParent k i false
    if detached then
      let (k,_) ← tkDeleteThread k i
      return k
    else return k
  else return k

/-- `_tk_wakeup_timedout_threads`. -/
def tkWakeupTimedoutThreads (k : Kernel cfg) (clk : Clock) : Except Fault (Kernel cfg) :=
  (List.finRange cfg.maxThreads).foldlM (sweepThread clk) k

/-- `tk_create_thread` where the constructor's `tk_yield` dispatches the caller again. -/
def tkCreateThread (k : Kernel cfg) (r : ThreadReq) (clk : Clock) :
    Except Fault (Kernel cfg × Thid cfg) := do
  let caller := k.activeThread
  let (k,t) ← tkCreateThreadBegin k r
  let k ← tkWakeupTimedoutThreads k clk
  tkCreateThreadEnd (k.dispatch caller) r t

def zombiTcb : Tcb cfg where
  thid := root
  gid := some root
  noChilds := 0
  valid := false
  state := .zombi
  bOnId := ⟨.sched,.null⟩
  wakeuptime := 0
  wakeupEvent := .none
  retval := 0
  prio := 0
  idx := 0

/-- The pool and the tables as the first loops of `tk_create_kernel` leave them; the
priority and index of the root thread keep the zero of static storage. -/
def clearKernel : Kernel cfg where
  pool := Function.update (fun _ => zombiTcb) root { zombiTcb with state := .ready, valid := true }
  schedule := fun _ _ => root
  prioIdxs := fun _ => ⟨0,0⟩
  activeThread := root
  procsInUse := 1
  procIdx := root
  idleThid := root
  npreempt := 0

def idleReq (cfg : Config) : ThreadReq := ⟨"idle",cfg.maxPrioLevels-1,0,true⟩

/-- `tk_create_kernel`. -/
def tkCreateKernel (clk : Clock) : Except Fault (Kernel cfg) := do
  let (k,idle) ← tkCreateThread clearKernel (idleReq cfg) clk
  let k := { k with idleThid := idle }
  match (k.pool idle).gid with
  | none => .error .assertParent
  | some g =>
    let k := k.modTcb g fun b => { b with noChilds := b.noChilds-1 }
    let k := k.modTcb idle fun b => { b with gid := some b.thid }
    let k := k.modStat 0 fun s => { s with procsAtPrio := 1 }
    k.writeCell 0 0 root

end Tinker

import Tinker.JoinRun
import Tinker.Owned
import Tinker.StallocRun
import Tinker.WorldTable

/-! The stacks of the threads. `tk_create_thread` takes one from the allocator below and
`tk_delete_thread` gives it back when the thread is buried; the sweep deletes dead threads. Each
call is the kernel's own with what it does to the stacks. -/
namespace Tinker

open Kernel Outcome Memory Owned

variable {cfg : Config} {numQ : ℕ}

/-- The memory for stacks, and `stack_begin` of each slot; 0 is `NULL`. -/
structure StackMem (cfg : Config) where
  mem : PoolState
  stackBegin : Thid cfg → ℕ

/-- Where a call stops: in the kernel or in the allocator. -/
inductive StackFault
  | kernel (e : Fault) | pool (e : PoolFault)

/-- The arguments of `tk_create_thread`. -/
structure StackReq where
  name : String
  prio : ℕ
  inpar : ℕ
  stackSize : ℕ

/-- The same with a stack granted. -/
def StackReq.granted (r : StackReq) : ThreadReq := ⟨r.name,r.prio,r.inpar,true⟩

namespace StackMem

/-- What a stack is marked up with: `memset` of all but the last 8 bytes, in 16 bit. -/
def markup (t : Thid cfg) (stackSize : ℕ) : List Byte :=
  List.replicate ((stackSize+(2^(8*stsizeT)-8)) % 2^(8*stsizeT)) (BitVec.ofNat 8 t.val)

/-- `stalloc` of a stack for slot `t`, and its markup. -/
def alloc (m : StackMem cfg) (t : Thid cfg) (stackSize : ℕ) :
    Except StackFault (StackMem cfg) := do
  let (p,pool) ← (stalloc m.mem.pool stackSize).mapError .pool
  check (p ≠ 0) (.kernel (.exit tcNomem))
  let mem : PoolState := ⟨pool,Function.update m.mem.held p (some (peek pool.mem p stackSize))⟩
  let mem ← (poolNext stsizeT mem (.write p 0 (markup t stackSize))).mapError .pool
  return ⟨mem,Function.update m.stackBegin t p⟩

/-- `stalloc_free` of the stack of slot `t`. -/
def free (m : StackMem cfg) (t : Thid cfg) : Except StackFault (StackMem cfg) := do
  let mem ← (poolNext stsizeT m.mem (.free (m.stackBegin t))).mapError .pool
  return { m with mem := mem }

/-- Thread `t` writes to its stack. -/
def push (m : StackMem cfg) (t : Thid cfg) (off : ℕ) (bytes : List Byte) :
    Except StackFault (StackMem cfg) := do
  let mem ← (poolNext stsizeT m.mem (.write (m.stackBegin t) off bytes)).mapError .pool
  return { m with mem := mem }

end StackMem

/-- `tk_create_thread` up to the yield of the constructor. -/
def createThreadStack (k : Kernel cfg) (m : StackMem cfg) (r : StackReq) :
    Except StackFault (Kernel cfg × StackMem cfg × Thid cfg) := do
  let slotIdx ← (k.readProcs r.prio).mapError .kernel
  check (createErrors k r.granted slotIdx = 0) (.kernel (.exit (createErrors k r.granted slotIdx)))
  match nextFree (fun t => (k.pool t).valid) cfg.maxThreads k.procIdx with
  | none => .error (.kernel .diverges)
  | some t =>
    check (r.name.length < cfg.threadNameLen) (.kernel (.exit tcNameLen))
    let m ← m.alloc t r.stackSize
    return ((allocThread k r.granted slotIdx t).dispatch t,m,t)

/-- `tk_delete_thread`; the flag is `TK_OK`. -/
def deleteThreadStack (k : Kernel cfg) (m : StackMem cfg) (t : Thid cfg) :
    Except StackFault (Kernel cfg × StackMem cfg × Bool) :=
  if (k.pool t).valid = false then .ok (k,m,false)
  else do
    let (k,buryIt) ← (killThread k t).mapError .kernel
    if buryIt then
      let k ← (bury k t).mapError .kernel
      let m ← m.free t
      return (k,m,true)
    else return (k,m,true)

/-- One round of `_tk_wakeup_timedout_threads`. -/
def sweepThreadStack (clk : Clock) (s : Kernel cfg × StackMem cfg) (i : Thid cfg) :
    Except StackFault (Kernel cfg × StackMem cfg) := do
  let (k,m) := s
  if 0 < k.npreempt then return (k,m)
  if (k.pool i).valid = false then return (k,m)
  let k := k.modTcb i (timerTest (actTimeUs clk))
  if (k.pool i).state.has .zombi && decide (i ≠ k.activeThread) then
    let (k,detached) ← (tkTryDetachParent k i false).mapError .kernel
    if detached then
      let (k,m,_) ← deleteThreadStack k m i
      return (k,m)
    else return (k,m)
  else return (k,m)

/-- The whole kernel with the memory of its stacks. -/
structure StackWorld (cfg : Config) (numQ : ℕ) extends World cfg numQ where
  stk : StackMem cfg

inductive StackLabel (cfg : Config) (numQ : ℕ)
  | call (l : WorldLabel cfg numQ)
  | create (r : StackReq) | delete (t : Thid cfg) | yield (t : Thid cfg)
  | push (off : ℕ) (bytes : List Byte)

/-- The calls that take stacks or give them back. -/
def WorldLabel.onStacks : WorldLabel cfg numQ → Bool
  | .create _ | .delete _ | .yield _ => true
  | _ => false

/-- Sizes are a `stsize_t`, and a thread writes inside its own stack. -/
def stackEnabled (w : StackWorld cfg numQ) : StackLabel cfg numQ → Bool
  | .call l => worldEnabled w.toWorld l && !l.onStacks
  | .create r => w.runs && decide (r.stackSize < 2^(8*stsizeT))
  | .delete _ => w.runs
  | .yield t => worldEnabled w.toWorld (.yield t)
  | .push off bytes =>
    (w.stk.mem.held (w.stk.stackBegin w.me)).any fun d => off+bytes.length ≤ d.length

def stackNext (w : StackWorld cfg numQ) :
    StackLabel cfg numQ → Except StackFault (StackWorld cfg numQ)
  | .call l => do
    let w' ← (worldNext w.toWorld l).mapError .kernel
    return { w with toWorld := w' }
  | .create r => do
    let (k,m,t) ← createThreadStack w.kernel w.stk r
    return ⟨w.created r.granted k t,m⟩
  | .delete t => do
    let (k,m,_) ← deleteThreadStack w.kernel w.stk t
    return ⟨w.setKernel k,m⟩
  | .yield t => do
    let (k,m) ← (List.finRange cfg.maxThreads).foldlM (sweepThreadStack w.clock) (w.kernel,w.stk)
    return ⟨{ w.setKernel (k.dispatch t) with yielding := false },m⟩
  | .push off bytes => do
    let m ← w.stk.push w.me off bytes
    return { w with stk := m }

def stackMachine (cfg : Config) (numQ : ℕ) :
    Machine (StackWorld cfg numQ) (StackLabel cfg numQ) StackFault where
  enabled := stackEnabled
  next := stackNext

/-- The kernel as created, on a fresh pool of `size` bytes from `pool` on. The one stack that is
there is the idle thread's; the root thread runs on the stack the program came with. -/
def stackInit (clk : Clock) (i : Fin numQ) (mem : MemPool) (pool size minimumStackSize : ℕ) :
    Except StackFault (StackWorld cfg numQ) := do
  let k ← (tkCreateKernel clk).mapError .kernel
  let m ← StackMem.alloc ⟨poolInit stsizeT pool size mem,fun _ => 0⟩ k.idleThid minimumStackSize
  return ⟨worldInit k i,m⟩

/-! ### The kernel below -/

section

variable {k : Kernel cfg} {m : StackMem cfg} {t : Thid cfg} {clk : Clock}

/-- A creation is the kernel's, with a stack for the slot it takes. -/
theorem createThreadStack_kernel {r : StackReq} : Spec (createThreadStack k m r)
    (fun s => tkCreateThreadBegin k r.granted = .ok (s.1,s.2.2) ∧
      m.alloc s.2.2 r.stackSize = .ok s.2.1) (fun _ => True) := by
  simp only [createThreadStack,spec_bind,spec_mapError,spec_check]
  rw [tkCreateThreadBegin,show r.granted.prio = r.prio from rfl,show r.granted.name = r.name from rfl]
  cases k.readProcs r.prio with
  | error e => trivial
  | ok slotIdx =>
    rw [ok_bind,spec_ok]
    refine ⟨fun he => ?_,fun _ => trivial⟩
    rw [check_of he]
    cases nextFree (fun t => (k.pool t).valid) cfg.maxThreads k.procIdx with
    | none => trivial
    | some t =>
      simp only [spec_bind,spec_check]
      refine ⟨fun hl => ?_,fun _ => trivial⟩
      rw [check_of hl]
      cases ha : m.alloc t r.stackSize with
      | error e => trivial
      | ok m' => exact ⟨rfl,ha⟩

/-- A deletion is the kernel's. -/
theorem deleteThreadStack_kernel : Spec (deleteThreadStack k m t)
    (fun s => tkDeleteThread k t = .ok (s.1,s.2.2)) (fun _ => True) := by
  unfold deleteThreadStack tkDeleteThread
  by_cases hv : (k.pool t).valid = false
  · rw [if_pos hv,if_pos hv]
    exact rfl
  · rw [if_neg hv,if_neg hv]
    simp only [spec_bind,spec_mapError]
    cases killThread k t with
    | error e => trivial
    | ok s =>
      obtain ⟨k1,buryIt⟩ := s
      rw [ok_bind,spec_ok]
      cases buryIt with
      | false => exact rfl
      | true =>
        simp only [if_true,spec_bind,spec_mapError]
        cases bury k1 t with
        | error e => trivial
        | ok k2 =>
          rw [spec_ok]
          exact spec_of_forall fun m => rfl

/-- A round of the sweep is the kernel's. -/
theorem sweepThreadStack_kernel {i : Thid cfg} : Spec (sweepThreadStack clk (k,m) i)
    (fun s => sweepThread clk k i = .ok s.1) (fun _ => True) := by
  simp only [sweepThreadStack,spec_ite,spec_pure,spec_bind,spec_mapError]
  unfold sweepThread
  refine ⟨fun hn => if_pos hn,fun hn => ?_⟩
  rw [if_neg hn]
  refine ⟨fun hv => if_pos hv,fun hv => ?_⟩
  rw [if_neg hv]
  refine ⟨fun hz => ?_,fun hz => if_neg hz⟩
  rw [if_pos hz]
  cases hd : tkTryDetachParent (k.modTcb i (timerTest (actTimeUs clk))) i false with
  | error e => trivial
  | ok r =>
    obtain ⟨k1,detached⟩ := r
    cases detached with
    | false => exact ⟨fun hdet => (by cases hdet),fun _ => rfl⟩
    | true =>
      refine ⟨fun _ => deleteThreadStack_kernel.imp fun s hs => ?_,fun hdet => absurd rfl hdet⟩
      simp only [ok_bind,if_true,hs]
      rfl

theorem sweepStack_kernel {is : List (Thid cfg)} : Spec (is.foldlM (sweepThreadStack clk) (k,m))
    (fun s => is.foldlM (sweepThread clk) k = .ok s.1) (fun _ => True) := by
  induction is generalizing k m with
  | nil => exact rfl
  | cons i is ih =>
    rw [List.foldlM_cons,spec_bind]
    refine sweepThreadStack_kernel.imp ?_
    rintro ⟨k1,m1⟩ hs
    rw [List.foldlM_cons,hs]
    exact ih

/-- What a step is in the kernel without its stacks; a thread that writes to its own does nothing
there. -/
def StackLabel.below : StackLabel cfg numQ → WorldLabel cfg numQ
  | .call l => l
  | .create r => .create r.granted
  | .delete t => .delete t
  | .yield t => .yield t
  | .push _ _ => .advance 0

theorem stackStep_world {w w' : StackWorld cfg numQ} {l : StackLabel cfg numQ}
    (h : (stackMachine cfg numQ).Step w l w') :
    (worldMachine cfg numQ).Step w.toWorld l.below w'.toWorld := by
  obtain ⟨he,hn⟩ := h
  suffices hs : Spec (stackNext w l) (fun w' => worldNext w.toWorld l.below = .ok w'.toWorld)
      (fun _ => True) by
    refine ⟨?_,hs.of_ok hn⟩
    cases l with
    | call l => exact ((Bool.and_eq_true _ _).mp he).1
    | create r => exact ((Bool.and_eq_true _ _).mp he).1
    | delete t => exact he
    | yield t => exact he
    | push off bytes => rfl
  cases l with
  | call l =>
    simp only [stackNext,spec_bind,spec_mapError,spec_pure,StackLabel.below]
    cases worldNext w.toWorld l with
    | error e => trivial
    | ok w' => exact rfl
  | create r =>
    simp only [stackNext,spec_bind,spec_pure]
    refine createThreadStack_kernel.imp fun s hs => ?_
    show w.toWorld.create r.granted = _
    rw [World.create,hs.1]
    rfl
  | delete t =>
    simp only [stackNext,spec_bind,spec_pure]
    refine deleteThreadStack_kernel.imp fun s hs => ?_
    show w.toWorld.delete t = _
    rw [World.delete,hs]
    rfl
  | yield t =>
    simp only [stackNext,spec_bind,spec_pure]
    refine sweepStack_kernel.imp fun s hs => ?_
    show w.toWorld.yield t = _
    rw [World.yield,tkWakeupTimedoutThreads,hs]
    rfl
  | push off bytes =>
    simp only [stackNext,spec_bind,spec_pure]
    exact spec_of_forall fun _ => rfl

theorem stackRun_world {w w' : StackWorld cfg numQ} {ls : List (StackLabel cfg numQ)}
    (hr : (stackMachine cfg numQ).run w ls = some w') :
    (worldMachine cfg numQ).run w.toWorld (ls.map StackLabel.below) = some w'.toWorld := by
  induction ls generalizing w with
  | nil =>
    simp only [Machine.run,Option.some.injEq] at hr
    rw [hr]
    rfl
  | cons l ls ih =>
    obtain ⟨m,hm,hr⟩ := (Machine.run_cons _).mp hr
    exact (Machine.run_cons _).mpr ⟨m.toWorld,stackStep_world hm,ih hr⟩

end

end Tinker

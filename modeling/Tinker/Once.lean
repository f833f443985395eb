import Tinker.Itc
import Tinker.Machine
import Tinker.ScheduleOps

/-! `pthread_once`. The routine runs between two critical sections of one semaphore, so a thread may
call while another is in it. What threads do otherwise, with the switches among them, may leave any
kernel behind: nobody else has the semaphore. -/
namespace Tinker

open Kernel Outcome

variable {cfg : Config}

/-- `pthread_once_t`. -/
structure OnceControl where
  done : ℤ
  started : ℤ
  deriving DecidableEq

def pthreadOnceInit : OnceControl := ⟨0,-1⟩

/-- Where a call of `pthread_once` on the control at `c` is: behind the yield of the first `sm_p` or
`sm_v`, in its routine, or behind the yield of the second `sm_p` or `sm_v`. -/
inductive OnceFrame
  | locking (c : ℕ) (markIdx : Option ℕ) | unlocked (c : ℕ) (need2run : Bool)
  | routine (c : ℕ)
  | relocking (c : ℕ) (markIdx : Option ℕ) | reunlocked (c : ℕ)
  deriving DecidableEq

/-- `frames` are the calls a thread is in, the innermost first. `starts` counts the runs of a
routine, `completed` tells that one has returned, and `ret` records each call that has returned 0,
with what `completed` was then. -/
structure OnceState (cfg : Config) where
  kernel : Kernel cfg
  semOnce : Itc cfg
  control : ℕ → OnceControl
  frames : Thid cfg → List OnceFrame
  yielding : Bool
  starts : ℕ → ℕ
  completed : ℕ → Bool
  ret : List (ℕ × Bool)

inductive OnceLabel (cfg : Config)
  | once (c : Option ℕ) (clk : Clock) | initReturn (clk : Clock) | resume (clk : Clock)
  | other (k : Kernel cfg)

namespace OnceState

def me (s : OnceState cfg) : Thid cfg := s.kernel.activeThread

/-- The running thread is in its own code or in a routine. -/
def runs (s : OnceState cfg) : Bool :=
  !s.yielding && match s.frames s.me with
    | [] => true
    | .routine _ :: _ => true
    | _ => false

def push (s : OnceState cfg) (f : OnceFrame) : OnceState cfg :=
  { s with frames := Function.update s.frames s.me (f :: s.frames s.me) }

def pop (s : OnceState cfg) : OnceState cfg :=
  { s with frames := Function.update s.frames s.me (s.frames s.me).tail }

/-- The running thread yields inside a call. -/
def suspend (s : OnceState cfg) (f : OnceFrame) : OnceState cfg :=
  { s.push f with yielding := true }

/-- A call returns 0. -/
def return0 (s : OnceState cfg) (c : ℕ) : OnceState cfg :=
  { s with ret := s.ret ++ [(c,s.completed c)] }

/-- `sm_v` with its assert. -/
def semV (s : OnceState cfg) : Except Fault (OnceState cfg × Bool) := do
  let (k,o,yields,rc) ← smV s.kernel (some s.semOnce)
  check (rc = .ok) .assertSem
  return ({ s with kernel := k, semOnce := o.getD s.semOnce },yields)

/-- `pthread_once` behind the first critical section. -/
def runRoutine (s : OnceState cfg) (c : ℕ) (need2run : Bool) : OnceState cfg :=
  if need2run then { s.push (.routine c) with starts := Function.update s.starts c (s.starts c+1) }
  else s.return0 c

/-- The first critical section, behind its `sm_p`. -/
def section1 (s : OnceState cfg) (c : ℕ) : Except Fault (OnceState cfg) := do
  let o := s.control c
  let need2run := decide (o.started < 0)
  let o := if need2run then { o with started := o.started+1 } else o
  let (s,yields) ← { s with control := Function.update s.control c o }.semV
  return if yields then s.suspend (.unlocked c need2run) else s.runRoutine c need2run

/-- The second one. -/
def section2 (s : OnceState cfg) (c : ℕ) : Except Fault (OnceState cfg) := do
  let o := { s.control c with done := 1 }
  let (s,yields) ← { s with control := Function.update s.control c o }.semV
  return if yields then s.suspend (.reunlocked c) else s.return0 c

/-- `sm_p` with its assert; its caller goes on with `f` at once, or in `frame` behind the yield. -/
def semP (s : OnceState cfg) (clk : Clock) (frame : Option ℕ → OnceFrame)
    (f : OnceState cfg → Except Fault (OnceState cfg)) : Except Fault (OnceState cfg) :=
  match smP s.kernel (some s.semOnce) 0 1000 clk with
  | (k,o,.waits markIdx) =>
    .ok ({ s with kernel := k, semOnce := o.getD s.semOnce }.suspend (frame markIdx))
  | (k,o,.ret rc) => do
    check (rc = .ok) .assertSem
    f { s with kernel := k, semOnce := o.getD s.semOnce }

/-- `sm_p` behind its yield. -/
def semPWoken (s : OnceState cfg) (markIdx : Option ℕ) : Except Fault (OnceState cfg) :=
  match markIdx with
  | none => .ok s
  | some markIdx => do
    let (k,q,rc) ← lockStageWoken s.kernel s.semOnce markIdx
    check (rc = .ok) .assertSem
    return { s with kernel := k, semOnce := q }

end OnceState

def onceEnabled (s : OnceState cfg) : OnceLabel cfg → Bool
  | .once _ _ => s.runs
  | .initReturn _ => !s.yielding && match s.frames s.me with
    | .routine _ :: _ => true
    | _ => false
  | .resume _ => !s.yielding && !s.runs
  | .other _ => s.yielding || s.runs

def onceNext (s : OnceState cfg) : OnceLabel cfg → Except Fault (OnceState cfg)
  -- EINVAL
  | .once none _ => .ok s
  | .once (some c) clk => s.semP clk (.locking c) (·.section1 c)
  | .initReturn clk => match s.frames s.me with
    | .routine c :: _ =>
      { s.pop with completed := Function.update s.completed c true }.semP clk (.relocking c)
        (·.section2 c)
    | _ => .ok s
  | .resume _ => match s.frames s.me with
    | .locking c markIdx :: _ => do
      let s ← s.pop.semPWoken markIdx
      s.section1 c
    | .unlocked c need2run :: _ => .ok (s.pop.runRoutine c need2run)
    | .relocking c markIdx :: _ => do
      let s ← s.pop.semPWoken markIdx
      s.section2 c
    | .reunlocked c :: _ => .ok (s.pop.return0 c)
    | _ => .ok s
  | .other k => .ok { s with kernel := k, yielding := false }

def onceMachine (cfg : Config) : Machine (OnceState cfg) (OnceLabel cfg) Fault where
  enabled := onceEnabled
  next := onceNext

/-- `tk_pthread_sched` has made the semaphore, and the controls are as `PTHREAD_ONCE_INIT` has
them. -/
def onceInit (k : Kernel cfg) : OnceState cfg where
  kernel := k
  semOnce := smCreate 1 0
  control := fun _ => pthreadOnceInit
  frames := fun _ => []
  yielding := false
  starts := fun _ => 0
  completed := fun _ => false
  ret := []

/-- A control has not been started, is being run, or is done. -/
structure OnceState.Stage (s : OnceState cfg) (c : ℕ) : Prop where
  started : (s.control c).started = -1 ∧ s.starts c = 0 ∨
    (s.control c).started = 0 ∧ s.starts c = 1
  done : s.completed c = true ↔ (s.control c).done ≠ 0

/-- The semaphore is free whenever threads switch, so nobody is ever behind one of its yields. -/
structure OnceInv (s : OnceState cfg) : Prop where
  token : s.semOnce.token = 1
  bType : s.semOnce.bType = .sem
  awake : s.yielding = false
  routines : ∀ t, ∀ f ∈ s.frames t, ∃ c, f = .routine c ∧ s.starts c = 1
  stage : ∀ c, s.Stage c
  called : ∀ e ∈ s.ret, s.starts e.1 = 1

theorem onceInit_inv (k : Kernel cfg) : OnceInv (onceInit k) where
  token := rfl
  bType := rfl
  awake := rfl
  routines := fun t f hf => by cases hf
  stage := fun c => ⟨Or.inl ⟨rfl,rfl⟩,by simp [onceInit,pthreadOnceInit]⟩
  called := fun e he => by cases he

/-- Nobody calls `pthread_once` on a control whose routine is running. -/
def NotRunning (s : OnceState cfg) : OnceLabel cfg → Prop
  | .once (some c) _ => (s.control c).started < 0 ∨ (s.control c).done ≠ 0
  | _ => True

/-- All calls that have returned 0 found the routine completed. -/
def OnceState.Waited (s : OnceState cfg) : Prop := ∀ e ∈ s.ret, e.2 = true

section

variable {s : OnceState cfg}

theorem smP_free (k : Kernel cfg) {q : Itc cfg} (ht : q.token = 1) (hb : q.bType = .sem)
    (timeout clk : Clock) :
    smP k (some q) 0 timeout clk = (k,some { q with token := 0 },.ret .ok) := by
  have hsem : ¬q.bType ≠ .sem := fun hn => hn hb
  simp only [smP,if_neg hsem,lockStage,ht]
  rfl

theorem smV_taken (k : Kernel cfg) {q : Itc cfg} (ht : q.token = 0) (hb : q.bType = .sem) :
    smV k (some q) = .ok (k,some { q with token := 1 },false,.ok) := by
  have hsem : ¬q.bType ≠ .sem := fun hn => hn hb
  have h1 : toInt32 (0+1) = 1 := by decide
  simp only [smV,if_neg hsem,unlockStage,ht,lt_irrefl,if_false,h1]
  rfl

/-- A critical section in which only the control at `c` changes. -/
theorem semV_eq {s : OnceState cfg} (ht : s.semOnce.token = 0) (hb : s.semOnce.bType = .sem) :
    s.semV = .ok ({ s with semOnce := { s.semOnce with token := 1 } },false) := by
  simp only [OnceState.semV,smV_taken s.kernel ht hb]
  rfl

/-- The first critical section, from a free semaphore to a free semaphore. -/
theorem OnceInv.once (h : OnceInv s) (c : ℕ) (clk : Clock) :
    onceNext s (.once (some c) clk) = .ok ((
      { s with
        semOnce := { s.semOnce with token := 1 }
        control := Function.update s.control c (if decide ((s.control c).started < 0) = true
          then { s.control c with started := (s.control c).started+1 } else s.control c) } :
      OnceState cfg).runRoutine c (decide ((s.control c).started < 0))) := by
  simp only [onceNext,OnceState.semP,smP_free s.kernel h.token h.bType,check,Option.getD_some,
    OnceState.section1]
  rw [semV_eq]
  · rfl
  · rfl
  · exact h.bType

/-- The second. -/
theorem OnceInv.initReturn (h : OnceInv s) {c : ℕ} {fs : List OnceFrame}
    (hf : s.frames s.me = .routine c :: fs) (clk : Clock) :
    onceNext s (.initReturn clk) = .ok ((
      { s.pop with
        semOnce := { s.semOnce with token := 1 }
        completed := Function.update s.completed c true
        control := Function.update s.control c { s.control c with done := 1 } } :
      OnceState cfg).return0 c) := by
  simp only [onceNext,hf,OnceState.semP,OnceState.pop,smP_free s.kernel h.token h.bType,check,
    Option.getD_some,OnceState.section2]
  rw [semV_eq]
  · rfl
  · rfl
  · exact h.bType

/-- The control at `c` and its counters change, the others do not. -/
theorem OnceInv.update (h : OnceInv s) {c : ℕ} {o : OnceControl} {starts : ℕ → ℕ}
    {completed : ℕ → Bool} {frames : Thid cfg → List OnceFrame} {ret : List (ℕ × Bool)}
    (hf : ∀ t, ∀ f ∈ frames t, ∃ d, f = .routine d ∧ starts d = 1)
    (hs : ∀ d, d ≠ c → starts d = s.starts d ∧ completed d = s.completed d)
    (hc : OnceState.Stage { s with
      control := Function.update s.control c o, starts := starts, completed := completed } c)
    (hret : ∀ e ∈ ret, starts e.1 = 1) :
    OnceInv { s with
      semOnce := { s.semOnce with token := 1 }
      control := Function.update s.control c o
      frames := frames
      starts := starts
      completed := completed
      ret := ret } where
  token := rfl
  bType := h.bType
  awake := h.awake
  routines := hf
  stage := fun d => by
    by_cases hd : d = c
    · subst hd
      exact ⟨hc.started,hc.done⟩
    · have hst := h.stage d
      refine ⟨?_,?_⟩
      · simp only [Function.update_of_ne hd,(hs d hd).1]
        exact hst.started
      · simp only [Function.update_of_ne hd,(hs d hd).2]
        exact hst.done
  called := hret

/-- What a call does on a control that has been started before, and on a new one. -/
theorem OnceInv.once_spec (h : OnceInv s) (c : ℕ) (clk : Clock) :
    ∃ s', onceNext s (.once (some c) clk) = .ok s' ∧ OnceInv s' ∧
      (s'.Waited ↔ s.Waited ∧ NotRunning s (.once (some c) clk)) := by
  refine ⟨_,h.once c clk,?_⟩
  obtain ⟨hst,hdone⟩ := h.stage c
  by_cases hneg : (s.control c).started < 0
  · have hfresh : (s.control c).started = -1 ∧ s.starts c = 0 := hst.resolve_right (by omega)
    have hold : ∀ d, s.starts d = 1 → Function.update s.starts c (s.starts c+1) d = 1 := by
      intro d hd
      rw [Function.update_of_ne (by rintro rfl; omega),hd]
    have hnew : Function.update s.starts c (s.starts c+1) c = 1 := by
      rw [Function.update_self,hfresh.2]
    simp only [decide_eq_true hneg,if_true,OnceState.runRoutine,OnceState.push]
    refine ⟨h.update (fun t f hf => ?_) (fun d hd => ⟨Function.update_of_ne hd _ _,rfl⟩) ?_
      (fun e he => hold _ (h.called e he)),⟨fun hw => ⟨hw,Or.inl hneg⟩,And.left⟩⟩
    · have hsame : f ∈ s.frames t → ∃ d, f = .routine d ∧
          Function.update s.starts c (s.starts c+1) d = 1 := fun hm =>
        (h.routines t f hm).imp fun d hd => ⟨hd.1,hold d hd.2⟩
      rw [Function.update_apply] at hf
      split at hf
      · next ht =>
        subst ht
        obtain rfl | hf := List.mem_cons.mp hf
        · exact ⟨c,rfl,hnew⟩
        · exact hsame hf
      · exact hsame hf
    · refine ⟨Or.inr ?_,?_⟩
      · simp only [Function.update_self,hfresh.1,hfresh.2]
        decide
      · simp only [Function.update_self]
        exact hdone
  · have hrun : (s.control c).started = 0 ∧ s.starts c = 1 := hst.resolve_left (by omega)
    simp only [decide_eq_false hneg,if_false,OnceState.runRoutine,OnceState.return0,
      Bool.false_eq_true]
    refine ⟨h.update h.routines (fun d _ => ⟨rfl,rfl⟩) ⟨?_,?_⟩ ?_,?_⟩
    · simp only [Function.update_self]
      exact hst
    · simp only [Function.update_self]
      exact hdone
    · intro e he
      obtain he | he := List.mem_append.mp he
      · exact h.called e he
      · obtain rfl := List.mem_singleton.mp he
        exact hrun.2
    · simp only [OnceState.Waited,List.forall_mem_append,List.forall_mem_singleton,NotRunning]
      exact and_congr_right fun _ => hdone.trans ⟨Or.inr,fun hn => hn.resolve_left hneg⟩

theorem OnceInv.initReturn_spec (h : OnceInv s) {c : ℕ} {fs : List OnceFrame}
    (hf : s.frames s.me = .routine c :: fs) (clk : Clock) :
    ∃ s', onceNext s (.initReturn clk) = .ok s' ∧ OnceInv s' ∧ (s'.Waited ↔ s.Waited) := by
  refine ⟨_,h.initReturn hf clk,?_⟩
  obtain ⟨d,hd,hstarts⟩ := h.routines s.me (.routine c) (by rw [hf]; exact List.mem_cons_self)
  obtain rfl := OnceFrame.routine.inj hd
  have hrun : (s.control c).started = 0 := by
    have := (h.stage c).started
    omega
  simp only [OnceState.pop,OnceState.return0,Function.update_self]
  refine ⟨h.update (fun t f hm => ?_) (fun d hd => ⟨rfl,Function.update_of_ne hd _ _⟩) ⟨?_,?_⟩
    fun e he => ?_,?_⟩
  · rw [Function.update_apply] at hm
    split at hm
    · next ht =>
      subst ht
      exact h.routines _ f (List.mem_of_mem_tail hm)
    · exact h.routines t f hm
  · simp only [Function.update_self]
    exact Or.inr ⟨hrun,hstarts⟩
  · simp only [Function.update_self]
    decide
  · obtain he | he := List.mem_append.mp he
    · exact h.called e he
    · obtain rfl := List.mem_singleton.mp he
      exact hstarts
  · simp only [OnceState.Waited,List.forall_mem_append,List.forall_mem_singleton,and_true]

/-- A step goes through, and loses the property just when it calls while the routine is running. -/
theorem onceStep_spec {l : OnceLabel cfg} (h : OnceInv s) (he : onceEnabled s l = true) :
    ∃ s', onceNext s l = .ok s' ∧ OnceInv s' ∧ (s'.Waited ↔ s.Waited ∧ NotRunning s l) := by
  cases l with
  | once c clk =>
    cases c with
    | none => exact ⟨s,rfl,h,(and_iff_left trivial).symm⟩
    | some c => exact h.once_spec c clk
  | initReturn clk =>
    simp only [onceEnabled,Bool.and_eq_true] at he
    obtain ⟨-,hr⟩ := he
    split at hr
    · next c fs hf =>
      obtain ⟨s',hn,hi,hw⟩ := h.initReturn_spec hf clk
      exact ⟨s',hn,hi,hw.trans (and_iff_left trivial).symm⟩
    · cases hr
  | resume clk =>
    -- all frames are routines, so the running thread is behind no yield
    have hruns : s.runs = true := by
      have hr := h.routines s.me
      rw [OnceState.runs,h.awake]
      cases hf : s.frames s.me with
      | nil => rfl
      | cons f fs =>
        obtain ⟨c,rfl,-⟩ := hr f (by rw [hf]; exact List.mem_cons_self)
        rfl
    simp [onceEnabled,hruns] at he
  | other k => exact ⟨_,rfl,⟨h.token,h.bType,rfl,h.routines,
      fun c => ⟨(h.stage c).started,(h.stage c).done⟩,h.called⟩,
      (and_iff_left trivial).symm⟩

/-- The routine is started once, every call that returns 0 has waited for it, and no assert
fails. -/
structure WellOnced (s : OnceState cfg) : Prop where
  once : ∀ c, s.starts c ≤ 1
  started : ∀ e ∈ s.ret, s.starts e.1 = 1
  after : s.Waited
  safe : ∀ l, onceEnabled s l = true → ∃ s', onceNext s l = .ok s'

theorem OnceInv.wellOnced_iff (h : OnceInv s) : WellOnced s ↔ s.Waited := by
  refine ⟨WellOnced.after,fun hw => ⟨fun c => ?_,h.called,hw,fun l he => ?_⟩⟩
  · have := (h.stage c).started
    omega
  · obtain ⟨s',hn,-⟩ := onceStep_spec h he
    exact ⟨s',hn⟩

theorem onceRun_waited {ls : List (OnceLabel cfg)} {s' : OnceState cfg} (h : OnceInv s)
    (hr : (onceMachine cfg).run s ls = some s') :
    OnceInv s' ∧ (s'.Waited ↔ s.Waited ∧ (onceMachine cfg).Along NotRunning s ls) := by
  induction ls generalizing s with
  | nil =>
    simp only [Machine.run,Option.some.injEq] at hr
    subst hr
    exact ⟨h,(and_iff_left trivial).symm⟩
  | cons l ls ih =>
    obtain ⟨m,hm,hr⟩ := (onceMachine cfg).run_cons.mp hr
    obtain ⟨m',hn,hi,hw⟩ := onceStep_spec h hm.1
    obtain rfl := Except.ok.inj (hn.symm.trans hm.2)
    obtain ⟨hi',hw'⟩ := ih hi hr
    refine ⟨hi',hw'.trans ?_⟩
    have halong : (onceMachine cfg).Along NotRunning s (l :: ls) ↔
        NotRunning s l ∧ (onceMachine cfg).Along NotRunning m' ls :=
      and_congr_right fun _ => ⟨fun ha => ha m' hm,fun ha x hx => by
        obtain rfl := Except.ok.inj (hm.2.symm.trans hx.2)
        exact ha⟩
    rw [hw,halong,and_assoc]

/-- A run of calls keeps the promise of `pthread_once` just when nobody calls while the routine is
running. -/
theorem onceRun_wellOnced {k : Kernel cfg} {ls : List (OnceLabel cfg)}
    (hr : (onceMachine cfg).run (onceInit k) ls = some s) :
    WellOnced s ↔ (onceMachine cfg).Along NotRunning (onceInit k) ls := by
  obtain ⟨hi,hw⟩ := onceRun_waited (onceInit_inv k) hr
  rw [hi.wellOnced_iff,hw]
  exact and_iff_right fun e he => by cases he

end

/-- Thread 0 is in the routine when thread 1 calls, and returns from it afterwards. -/
def earlyOnceSteps : List (OnceLabel gnuArm) :=
  [.once (some 0) 0,.other (fiveThreads.dispatch 1),.once (some 0) 10,
    .other (fiveThreads.dispatch 0),.initReturn 20]

theorem onceRun_wellOnced_early : ∃ s, (onceMachine gnuArm).run (onceInit fiveThreads) earlyOnceSteps =
    some s ∧ (WellOnced s ↔ (onceMachine gnuArm).Along NotRunning (onceInit fiveThreads)
      earlyOnceSteps) := by
  obtain ⟨s,hr⟩ := Option.isSome_iff_exists.mp (show ((onceMachine gnuArm).run
    (onceInit fiveThreads) earlyOnceSteps).isSome = true by decide +kernel)
  exact ⟨s,hr,onceRun_wellOnced hr⟩

theorem onceRun_not_wellOnced : ¬∀ (ls : List (OnceLabel gnuArm)) (s : OnceState gnuArm),
    (onceMachine gnuArm).run (onceInit fiveThreads) ls = some s → WellOnced s := by
  intro h
  obtain ⟨s,hr,he⟩ := (onceMachine gnuArm).exists_run (fun s => (0,false) ∈ s.ret)
    (onceInit fiveThreads) earlyOnceSteps (by decide +kernel)
  cases (h earlyOnceSteps s hr).after _ he

end Tinker

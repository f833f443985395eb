import Tinker.RwlockRules

/-! The admission of readers over whole runs, which remember the lock at every decision of a reader's
call. -/
namespace Tinker

open Outcome

variable {cfg : Config}

/-- The moments at which one call of `pthread_rwlock_rdlock` has decided, the latest wake-up first. -/
structure Decisions (cfg : Config) where
  first : Moment cfg
  wakes : List (Moment cfg)

structure Decisions.Sound (d : Decisions cfg) : Prop where
  first : d.first.Sound
  wakes : ∀ m ∈ d.wakes, m.Sound

/-- A lock is taken without a wait. -/
def takesAtOnce (x : Except Fault (Sync cfg × Bool)) : Bool := x.toOption.any fun r => !r.2

namespace RwState

def moment (s : RwState cfg) : Moment cfg := ⟨s.sync,s.rw⟩

/-- The step comes to the first check of `pthread_rwlock_rdlock`. -/
def checks (s : RwState cfg) : RwLabel cfg → Bool
  | .rdlock => takesAtOnce (pthreadMutexLock s.sync theMutex)
  | .resume => decide (s.loc s.me = .rdLock)
  | _ => false

/-- The step comes to the check behind a wait. -/
def rechecks (s : RwState cfg) : RwLabel cfg → Bool
  | .resume =>
    match s.loc s.me with
    | .rdWait _ => takesAtOnce (pthreadCondWaitEnd s.sync readersLock)
    | .rdRelock _ => true
    | _ => false
  | _ => false

end RwState

/-- The users of a lock, and the decisions of the last read call of each. -/
structure RwTrail (cfg : Config) extends RwState cfg where
  decided : Thid cfg → Option (Decisions cfg)

namespace RwTrail

/-- The decisions with the one of this step. -/
def decide (x : RwTrail cfg) (l : RwLabel cfg) : Thid cfg → Option (Decisions cfg) :=
  if x.checks l then Function.update x.decided x.me (some ⟨x.moment,[]⟩)
  else if x.rechecks l then
    Function.update x.decided x.me ((x.decided x.me).map fun d => ⟨d.first,x.moment :: d.wakes⟩)
  else x.decided

def next (x : RwTrail cfg) (l : RwPrioLabel cfg) : Except Fault (RwTrail cfg) := do
  let s ← rwPrioNext x.toRwState l
  match l with
  | .call l => return ⟨s,x.decide l⟩
  | .setschedparam _ _ => return ⟨s,x.decided⟩

end RwTrail

def trailMachine (cfg : Config) : Machine (RwTrail cfg) (RwPrioLabel cfg) Fault where
  enabled x := rwPrioEnabled x.toRwState
  next := RwTrail.next

def trailInit (k : Kernel cfg) : RwTrail cfg := ⟨rwInit k,fun _ => none⟩

/-- The waiting writers are filed, and every waiting reader has the count of its decisions. -/
structure TrailInv (x : RwTrail cfg) : Prop where
  rw : RwInv x.toRwState
  filed : Filed x.toRwState
  counts : ∀ t g, (x.loc t).granted = some g → ∃ d, x.decided t = some d ∧ d.Sound ∧
    rdGranted d.first d.wakes = .ok g

section

variable {x x' : RwTrail cfg} {s s' : RwState cfg} {l : RwLabel cfg}

theorem TrailInv.sound (h : TrailInv x) : x.moment.Sound := h.rw.sound h.filed

theorem RwLoc.granted_want {z : RwLoc} {g : ℤ} (h : z.granted = some g) : z.want = some .read := by
  cases z <;> first | rfl | cases h

/-- A step moves the running thread only, and one that does not want to read brings no count. -/
theorem RwStep.loc (h : RwStep s l s') : (∀ t ≠ s.me, s'.loc t = s.loc t) ∧
    (s.wants l ≠ some .read → ∀ g, (s'.loc s.me).granted = some g →
      (s.loc s.me).granted = some g) := by
  cases h with
  | @call c hy hc hr =>
    refine ⟨fun t ht => by rw [goOn_loc,if_neg ht],fun hw g hg => ?_⟩
    rw [goOn_loc,if_pos rfl] at hg
    have hread := RwLoc.granted_want hg
    have hne : c.loc.want ≠ s.wants l := fun he => hw (he.symm.trans hread)
    rw [hc.1.moves.done hne] at hread
    cases hread
  | yield hi hy => exact ⟨fun t _ => congrFun hy.loc t,fun _ g hg => (congrArg RwLoc.granted
      (congrFun hy.loc s.me)).symm.trans hg⟩

/-- What follows a lock of `mx_self`, which does not change the priority of its caller. -/
theorem lockThen_granted {sync : Sync cfg} {rw : Rwlock} (h : CondInv sync)
    (hr : (sync.kernel.pool sync.kernel.activeThread).state = .ready) {z : RwLoc}
    {f : Sync cfg → Except Fault (RwCall cfg)} {Q : RwCall cfg → Prop}
    (hq : takesAtOnce (pthreadMutexLock sync theMutex) = false → ∀ sync1, Q (.yieldsAt sync1 rw z))
    (hf : takesAtOnce (pthreadMutexLock sync theMutex) = true → ∀ sync1,
      selfPrio sync1 = selfPrio sync → Spec (f sync1) Q (fun _ => True)) :
    Spec (do let (sync,y) ← pthreadMutexLock sync theMutex
             if y then return RwCall.yieldsAt sync rw z else f sync) Q (fun _ => True) := by
  have hlock := h.lock hr
  cases he : pthreadMutexLock sync theMutex with
  | error e => trivial
  | ok p =>
    rw [he] at hq hf hlock
    obtain ⟨sync1,y⟩ := p
    obtain ⟨hi,⟨rfl,ht⟩ | ⟨rfl,-⟩⟩ := hlock
    · exact hf rfl sync1 (ht.toOnly.keeps hi).selfPrio
    · exact hq rfl sync1

/-- What a step does to the reader that takes it: it decides by the moments of its call, or keeps
its count. -/
def RwTrail.Goes (x : RwTrail cfg) (l : RwLabel cfg) (rw' : Rwlock) (z : RwLoc) : Prop :=
  if x.checks l = true ∨ x.rechecks l = true then
    ∃ d g, x.decide l x.me = some d ∧ lastMoment d.first d.wakes = x.moment ∧ d.Sound ∧
      rdGranted d.first d.wakes = .ok g ∧ Follows x.rw g rw' z
  else ∀ g, z.granted = some g → (x.loc x.me).granted = some g

theorem TrailInv.locked (h : TrailInv x) (hc : x.checks l = true) {sync1 : Sync cfg}
    (hp : selfPrio sync1 = selfPrio x.sync) :
    Spec (rdLocked sync1 x.rw) (fun c => x.Goes l c.rw c.loc) (fun _ => True) := by
  obtain ⟨g,hg,-,-⟩ := rdGranted_spec h.sound (List.forall_mem_nil Moment.Sound)
  have hloop : rdLocked sync1 x.rw = _ := rdLocked_eq (m:=x.moment) hp
  rw [hloop,hg]
  refine (rdLoop_follows sync1 x.rw g).imp fun c hf => ?_
  rw [RwTrail.Goes,if_pos (Or.inl hc)]
  refine ⟨⟨x.moment,[]⟩,g,?_,rfl,⟨h.sound,by rintro _ ⟨⟩⟩,hg,hf⟩
  rw [RwTrail.decide,if_pos hc,Function.update_self]

theorem TrailInv.woken (h : TrailInv x) (hn : x.checks l = false) (hc : x.rechecks l = true)
    {g : ℤ} (hg : (x.loc x.me).granted = some g) {sync1 : Sync cfg}
    (hp : selfPrio sync1 = selfPrio x.sync) :
    Spec (rdWoken sync1 x.rw g) (fun c => x.Goes l c.rw c.loc) (fun _ => True) := by
  obtain ⟨d,hd,hsound,hgd⟩ := h.counts _ _ hg
  have hall : ∀ m ∈ x.moment :: d.wakes, m.Sound := by
    intro m hm
    rcases List.mem_cons.mp hm with rfl | hm
    · exact h.sound
    · exact hsound.wakes m hm
  obtain ⟨g',hg',-,-⟩ := rdGranted_spec hsound.first hall
  have hloop : rdWoken sync1 x.rw g = _ := rdWoken_eq (m:=x.moment) hgd hp
  rw [hloop,hg']
  refine (rdLoop_follows sync1 _ g').imp fun c hf => ?_
  rw [RwTrail.Goes,if_pos (Or.inr hc)]
  refine ⟨⟨d.first,x.moment :: d.wakes⟩,g',?_,rfl,⟨hsound.first,hall⟩,hg',hf.waits,hf.takes⟩
  rw [RwTrail.decide,if_neg (by rw [hn]; exact Bool.false_ne_true),if_pos hc,Function.update_self,hd]
  rfl

/-- A step that decides nothing. -/
theorem RwTrail.goes_of_not (hc : x.checks l = false) (hw : x.rechecks l = false) {rw' : Rwlock}
    {z : RwLoc} (hz : ∀ g, z.granted = some g → (x.loc x.me).granted = some g) :
    x.Goes l rw' z := by
  rw [RwTrail.Goes,hc,hw,if_neg (by decide)]
  exact hz

theorem TrailInv.rdlock (h : TrailInv x) (hy : x.yielding = false) :
    Spec (pthreadRwlockRdlock x.sync x.rw) (fun c => x.Goes .rdlock c.rw c.loc) (fun _ => True) :=
  lockThen_granted h.rw.cond (h.rw.running hy)
    (fun hwait _ => RwTrail.goes_of_not (l:=.rdlock) hwait rfl (by rintro _ ⟨⟩))
    fun htake _ hp => h.locked (l:=.rdlock) htake hp

theorem TrailInv.resume (h : TrailInv x) (hy : x.yielding = false)
    (hread : (x.loc x.me).want = some .read) :
    Spec (rwResume x.sync x.rw (x.loc x.me)) (fun c => x.Goes .resume c.rw c.loc)
      (fun _ => True) := by
  have hkeeps : ∀ z, x.loc x.me = z → (∀ g, z ≠ .rdWait g) → (∀ g, z ≠ .rdRelock g) →
      z ≠ .rdLock → ∀ c : RwCall cfg, (∀ g, c.loc.granted = some g → z.granted = some g) →
      x.Goes .resume c.rw c.loc := by
    intro z hz hwait hrelock hlock c hg
    refine RwTrail.goes_of_not ?_ ?_ (by rw [hz]; exact hg)
    · simp only [RwState.checks,hz,decide_eq_false_iff_not]
      exact hlock
    · simp only [RwState.rechecks,hz]
  cases hz : x.loc x.me with
  | rdLock => exact h.locked (by simp only [RwState.checks,hz,decide_true]) rfl
  | rdSignal g =>
    have hgo := hkeeps _ hz (by rintro _ ⟨⟩) (by rintro _ ⟨⟩) (by rintro ⟨⟩)
    simp only [rwResume,spec_bind]
    refine spec_of_forall ?_
    rintro ⟨sync1,y⟩
    cases y with
    | false =>
      exact (rdSleep_granted sync1 x.rw g).imp fun c hc => hgo c (by rw [hc.1]; exact fun _ h => h)
    | true => exact hgo _ fun _ h => h
  | rdSignalUnlock g =>
    have hgo := hkeeps _ hz (by rintro _ ⟨⟩) (by rintro _ ⟨⟩) (by rintro ⟨⟩)
    exact (rdSleep_granted x.sync x.rw g).imp fun c hc => hgo c (by rw [hc.1]; exact fun _ h => h)
  | rdWait g =>
    have hchecks : x.checks .resume = false := by simp only [RwState.checks,hz]; rfl
    have hrechecks : x.rechecks .resume = takesAtOnce (pthreadCondWaitEnd x.sync readersLock) := by
      simp only [RwState.rechecks,hz]
    have hend := waitEnd_eq h.rw.cond (h.rw.used x.me readersLock (by rw [hz]; exact rfl))
    rw [hend] at hrechecks
    rw [rwResume,hend]
    refine lockThen_granted (z:=.rdRelock g) (f:=fun sync => rdWoken sync x.rw g) h.rw.cond
      (h.rw.running hy) (fun hwait sync1 => ?_) fun htake sync1 hp => ?_
    · exact RwTrail.goes_of_not hchecks (hrechecks.trans hwait) (by rw [hz]; exact fun _ h => h)
    · exact h.woken hchecks (hrechecks.trans htake) (by rw [hz]; rfl) hp
  | rdRelock g =>
    exact h.woken (by simp only [RwState.checks,hz]; rfl) (by simp only [RwState.rechecks,hz])
      (by rw [hz]; rfl) rfl
  | _ =>
    rw [hz] at hread
    cases hread

theorem of_not_yielding (h : (!s.yielding) = true) : s.yielding = false := by
  rwa [Bool.not_eq_true'] at h

theorem TrailInv.goes (h : TrailInv x) (hs : (rwMachine cfg).Step x.toRwState l s') :
    x.Goes l s'.rw (s'.loc x.me) := by
  have hloc : ∀ (w : Option RwWant) (c : RwCall cfg), x.Goes l c.rw c.loc →
      x.Goes l (x.goOn w c).rw ((x.goOn w c).loc x.me) := by
    intro w c hc
    rwa [goOn_loc,if_pos rfl]
  have hstep : RwStep x.toRwState l s' := (rwStep_cases h.rw hs.1).of_ok hs.2
  have hother := hstep.loc.2
  obtain ⟨he,hn⟩ := hs
  cases l with
  | rdlock =>
    have hrun := (Bool.and_eq_true_iff.mp he).1
    obtain ⟨c,hc,hn⟩ := bind_eq_ok.mp hn
    cases hn
    exact hloc _ c ((h.rdlock (of_not_yielding hrun)).of_ok hc)
  | resume =>
    have hrun := (Bool.and_eq_true_iff.mp he).1
    by_cases hread : (x.loc x.me).want = some .read
    · obtain ⟨c,hc,hn⟩ := bind_eq_ok.mp hn
      cases hn
      exact hloc _ c ((h.resume (of_not_yielding hrun) hread).of_ok hc)
    · refine RwTrail.goes_of_not ?_ ?_ (hother hread)
      · simp only [RwState.checks,decide_eq_false_iff_not]
        exact fun hz => hread (by rw [hz]; rfl)
      · simp only [RwState.rechecks]
        split
        · next hz => exact absurd (by rw [hz]; rfl) hread
        · next hz => exact absurd (by rw [hz]; rfl) hread
        · rfl
  | wrlock => exact RwTrail.goes_of_not rfl rfl (hother (by rintro ⟨⟩))
  | unlock => exact RwTrail.goes_of_not rfl rfl (hother (by rintro ⟨⟩))
  | yield clk t => exact RwTrail.goes_of_not rfl rfl (hother (by rintro ⟨⟩))

theorem RwTrail.decide_of_ne {t : Thid cfg} (ht : t ≠ x.me) : x.decide l t = x.decided t := by
  unfold RwTrail.decide
  split_ifs
  · exact Function.update_of_ne ht _ _
  · exact Function.update_of_ne ht _ _
  · rfl

theorem TrailInv.call (h : TrailInv x) (hs : (rwMachine cfg).Step x.toRwState l s') :
    TrailInv ⟨s',x.decide l⟩ := by
  have hstep : RwStep x.toRwState l s' := (rwStep_cases h.rw hs.1).of_ok hs.2
  have hgoes := h.goes hs
  refine ⟨hstep.inv h.rw,hstep.filed h.filed,fun t g hg => ?_⟩
  by_cases ht : t = x.me
  · rw [ht] at hg ⊢
    unfold RwTrail.Goes at hgoes
    split at hgoes
    · obtain ⟨d,g',hd,-,hsound,hgd,hf⟩ := hgoes
      refine ⟨d,hd,hsound,?_⟩
      have hgg : (s'.loc x.me).granted = some g := hg
      by_cases hw : rdWaits x.rw g'
      · rw [(hf.waits hw).1] at hgg
        rw [hgd,Option.some.inj hgg]
      · rw [(hf.takes hw).1] at hgg
        cases hgg
    · next hnot =>
      obtain ⟨hc,hr⟩ := not_or.mp hnot
      change ∃ d, x.decide l x.me = some d ∧ _
      rw [RwTrail.decide,if_neg hc,if_neg hr]
      exact h.counts _ _ (hgoes g hg)
  · have hg' : (x.loc t).granted = some g := (congrArg RwLoc.granted (hstep.loc.1 t ht)).symm.trans hg
    change ∃ d, x.decide l t = some d ∧ _
    rw [RwTrail.decide_of_ne ht]
    exact h.counts t g hg'

theorem TrailInv.step {l : RwPrioLabel cfg} (h : TrailInv x) (hc : SparesWriters x.toRwState l)
    (hs : (trailMachine cfg).Step x l x') : TrailInv x' := by
  obtain ⟨he,hn⟩ := hs
  obtain ⟨s',hnext,hx⟩ := bind_eq_ok.mp hn
  cases l with
  | call l =>
    cases hx
    exact h.call ⟨he,hnext⟩
  | setschedparam t p =>
    cases hx
    have hstep : (rwPrioMachine cfg).Step x.toRwState (.setschedparam t p) s' := ⟨he,hnext⟩
    obtain ⟨hy,k',y,hk',rfl⟩ := setschedparam_cases hstep
    exact ⟨h.rw.ranked hy hk' y,h.filed.ranked hk' y hc,h.counts⟩

end

theorem trailInit_inv {k : Kernel cfg} (hk : Seated k) : TrailInv (trailInit k) :=
  ⟨rwInit_inv hk,rwInit_filed k,by rintro _ _ ⟨⟩⟩

/-- The reader has got the lock in the step. -/
def GetsIn (s s' : RwState cfg) : Prop := s'.rw.readersReading = s.rw.readersReading+1

/-- A step decides by the count of the call's decisions, the last of them its own; it follows the
rule just when they keep it. -/
structure Ruled (x : RwTrail cfg) (l : RwLabel cfg) (s' : RwState cfg) (d : Decisions cfg) :
    Prop where
  decided : x.decide l x.me = some d
  now : lastMoment d.first d.wakes = x.moment
  counted : ∃ g, rdGranted d.first d.wakes = .ok g ∧ (GetsIn x.toRwState s' ↔ ¬rdWaits x.rw g)
  due : x.moment.Due ↔ x.rw.writersWriting ≠ 0 ∨
    ∃ t, (x.loc t).wr = 1 ∧ (x.sync.kernel.pool t).prio ≤ selfPrio x.sync
  rule : (GetsIn x.toRwState s' ↔ ¬x.moment.Due) ↔ RuleKept d.first d.wakes

/-- Whenever a reader comes to a check, the call goes on, and it is let in by the count that the
moments of its call add up to. -/
theorem trailRun_ruled {k : Kernel cfg} (hk : Seated k) {ls : List (RwPrioLabel cfg)}
    {x : RwTrail cfg} {l : RwLabel cfg}
    (hc : (trailMachine cfg).Along (fun x l => SparesWriters x.toRwState l) (trailInit k) ls)
    (hr : (trailMachine cfg).run (trailInit k) ls = some x) (he : rwEnabled x.toRwState l = true)
    (hd : x.checks l = true ∨ x.rechecks l = true) :
    ∃ s' d, rwNext x.toRwState l = .ok s' ∧ Ruled x l s' d := by
  have hi : TrailInv x := (trailMachine cfg).run_invariant (fun _ _ _ h hc hs => h.step hc hs)
    (trailInit_inv hk) hc hr
  obtain ⟨s',hn,-⟩ := spec_total_iff.mp (rwStep_cases hi.rw he)
  have hgoes := hi.goes ⟨he,hn⟩
  rw [RwTrail.Goes,if_pos hd] at hgoes
  obtain ⟨d,g,hdec,hnow,hsound,hg,hf⟩ := hgoes
  have hin : GetsIn x.toRwState s' ↔ ¬rdWaits x.rw g := by
    constructor
    · intro hin hw
      have hsame := (hf.waits hw).2
      unfold GetsIn at hin
      omega
    · exact fun hw => (hf.takes hw).2
  refine ⟨s',d,hn,hdec,hnow,⟨g,hg,hin⟩,or_congr Iff.rfl (hi.rw.outranked_iff hi.filed),?_⟩
  rw [hin,not_iff_not,← rdWaits_iff_due_iff hsound.first hsound.wakes hg,hnow]
  exact Iff.rfl

/-- Thread 3 waits to read while thread 0 writes, and is woken when it is alone. -/
def readerAloneSteps : List (RwPrioLabel gnuArm) :=
  [.call .wrlock,.call (.yield 20 3),.call .rdlock,.call (.yield 20 0),.call .unlock,
    .call (.yield 20 3)]

theorem trailRun_ruled_alone : ∃ (x : RwTrail gnuArm) (s' : RwState gnuArm) (d : Decisions gnuArm),
    (trailMachine gnuArm).run (trailInit fiveThreads) readerAloneSteps = some x ∧
    rwNext x.toRwState .resume = .ok s' ∧ d.wakes.length = 1 ∧ RuleKept d.first d.wakes ∧
    Ruled x .resume s' d := by
  obtain ⟨x,hr,he,hd,hkept⟩ := (trailMachine gnuArm).exists_run
    (fun x => rwEnabled x.toRwState .resume = true ∧
      (x.checks .resume = true ∨ x.rechecks .resume = true) ∧
      (x.decide .resume x.me).any (fun d =>
        Decidable.decide (d.wakes.length = 1 ∧ RuleKept d.first d.wakes)) = true)
    (trailInit fiveThreads) readerAloneSteps (by decide +kernel)
  obtain ⟨s',d,hn,hruled⟩ := trailRun_ruled fiveThreads_seated (by decide +kernel) hr he hd
  rw [hruled.decided] at hkept
  obtain ⟨hlen,hrule⟩ := of_decide_eq_true hkept
  exact ⟨x,s',d,hr,hn,hlen,hrule,hruled⟩

end Tinker

import Tinker.RwlockRun

/-! Who is woken when a read-write lock is given back. A thread that falls asleep leaves the lock
taken, or somebody awake who will take it or let a writer go, except along three paths. -/
namespace Tinker

open Outcome Counted

variable {cfg : Config}

/-- The thread counts as blocked in `pthread_rwlock_rdlock` or `pthread_rwlock_wrlock`. -/
def RwLoc.Blocked (x : RwLoc) : Prop := x.rd = 1 ∨ x.wr = 1

/-- The loop test of a blocked thread of priority `p` lets it go on. -/
def RwLoc.Passes (cfg : Config) (rw : Rwlock) (p : ℕ) : RwLoc → Prop
  | .rdWait g => rw.writersWriting = 0 ∧ upFrom cfg rw p g = 0
  | .rdRelock g => rw.writersWriting = 0 ∧ upFrom cfg rw p g = 0
  | .wrWait => rw.free
  | .wrRelock => rw.free
  | _ => False

/-- The thread sleeps on neither condition variable. -/
def RwState.Awake (s : RwState cfg) (t : Thid cfg) : Prop :=
  t ∉ s.sync.waiters (.cvMux readersLock) ∧ t ∉ s.sync.waiters (.cvMux writersLock)

def RwState.Passes (s : RwState cfg) (rw : Rwlock) (t : Thid cfg) : Prop :=
  (s.loc t).Passes cfg rw (s.sync.kernel.pool t).prio

/-- The counters once the lock has been given back. -/
def Rwlock.freed (rw : Rwlock) : Rwlock := { rw with readersReading := 0, writersWriting := 0 }

/-- With this step the last hold of the lock is given back. -/
def RwState.Frees (s : RwState cfg) (x : RwLabel cfg) : Prop :=
  (s.rw.writersWriting ≠ 0 ∨ s.rw.readersReading = 1) ∧ match x with
    | .unlock => (s.sync.mux theMutex).owner = .null
    | .resume => s.loc s.me = .unLock
    | _ => False

/-- `pthread_rwlock_unlock` lets readers go although there are blocked writers. -/
def RwState.SkipsWriters (s : RwState cfg) : Prop :=
  s.rw.blockedWriters ≠ 0 ∧ (s.rw.writersWriting = 0 ∨
    downFrom s.rw (selfPrio s.sync) = 0 ∧ s.rw.blockedReaders ≠ 0)

/-- The readers it lets go: all sleepers when a writer gives the lock back, otherwise the first one
of the numerically smallest priority. -/
def RwState.LetsGo (s : RwState cfg) (t : Thid cfg) : Prop :=
  s.rw.writersWriting ≠ 0 ∧ t ∈ s.sync.waiters (.cvMux readersLock) ∨
  s.rw.writersWriting = 0 ∧ (s.sync.waiters (.cvMux readersLock)).argmin
    (fun t => (s.sync.kernel.pool t).prio) = some t

/-- A reader that has backed off for a writer falls asleep behind the yields of its own signal,
where `ts` are blocked on `mx_self`. -/
def RwLoc.Late (ts : List (Thid cfg)) : RwLoc → Prop
  | .rdSignal _ => ts = []
  | .rdSignalUnlock _ => True
  | _ => False

def RwState.SleepsLate (s : RwState cfg) : Prop :=
  s.yielding = false ∧ (s.loc s.me).Late (s.sync.waiters theMutex)

/-- A step that leaves nobody behind: where blocked writers are skipped, somebody else is awake or
let go who passes its loop test, and where a reader falls asleep late, the lock is taken or somebody
is awake who will look at it. -/
def Serves (s : RwState cfg) (x : RwLabel cfg) : Prop :=
  (s.Frees x → s.SkipsWriters → ∃ t, s.Passes s.rw.freed t ∧ (s.Awake t ∨ s.LetsGo t)) ∧
  (s.SleepsLate → ¬s.rw.free ∨ ∃ t, (s.loc t).Candidate ∧ s.Awake t)

/-- When the lock becomes free with threads blocked, one of them that passes its loop test has been
let go. -/
def LeavesServed (s : RwState cfg) (x : RwLabel cfg) : Prop :=
  ∀ s', (rwMachine cfg).Step s x s' → ¬s.rw.free → s'.rw.free → (∃ t, (s'.loc t).Blocked) →
    ∃ t, s'.Passes s'.rw t ∧ s'.Awake t

/-- The lock is free, threads sleep on it, and no other thread is in a call on it. -/
def RwState.Stranded (s : RwState cfg) : Prop :=
  s.rw.free ∧ (∃ t, ¬s.Awake t) ∧ ∀ t, s.loc t = .out ∨ ¬s.Awake t

/-- Where the lock is free and threads sleep on it, somebody else will look at it. -/
def Attended (s : RwState cfg) : Prop :=
  s.rw.free → (∃ t, ¬s.Awake t) → ∃ t, (s.loc t).Candidate ∧ s.Awake t

/-! ### Blocked threads -/

/-- The thread is blocked, and it is condition variable `d` that it sleeps on or has slept on. -/
def RwLoc.On (x : RwLoc) (d : ℕ) : Prop := d = readersLock ∧ x.rd = 1 ∨ d = writersLock ∧ x.wr = 1

theorem RwLoc.SleepsAt.on {x : RwLoc} {d : ℕ} (h : x.SleepsAt d) : x.On d := by
  cases x with
  | rdWait g => exact Or.inl ⟨h,rfl⟩
  | wrWait => exact Or.inr ⟨h,rfl⟩
  | _ => exact h.elim

theorem RwLoc.On.eq_of_sleepsAt {x : RwLoc} {d e : ℕ} (h : x.On d) (hs : x.SleepsAt e) : e = d := by
  cases x with
  | rdWait g =>
    obtain ⟨rfl,_⟩ | ⟨_,hw⟩ := h
    · exact hs
    · cases hw
  | wrWait =>
    obtain ⟨_,hr⟩ | ⟨rfl,_⟩ := h
    · cases hr
    · exact hs
  | _ => exact hs.elim

theorem RwLoc.On.candidate {x : RwLoc} {d : ℕ} (h : x.On d) : x.Candidate := by
  cases x with
  | rdWait g => trivial
  | rdRelock g => trivial
  | wrWait => trivial
  | wrRelock => trivial
  | _ => obtain ⟨_,h⟩ | ⟨_,h⟩ := h <;> cases h

theorem RwLoc.Passes.candidate {x : RwLoc} {rw : Rwlock} {p : ℕ} (h : x.Passes cfg rw p) :
    x.Candidate := by
  cases x with
  | rdWait g => trivial
  | rdRelock g => trivial
  | wrWait => trivial
  | wrRelock => trivial
  | _ => exact h.elim

theorem RwLoc.passes_of_wr {x : RwLoc} {rw : Rwlock} (p : ℕ) (hx : x.wr = 1) (hf : rw.free) :
    x.Passes cfg rw p := by
  cases x with
  | wrWait => exact hf
  | wrRelock => exact hf
  | _ => cases hx

theorem RwLoc.passes_of_rd {x : RwLoc} {rw : Rwlock} (p : ℕ) (hx : x.rd = 1) (hf : rw.free)
    (hb : rw.blockedWriters = 0) : x.Passes cfg rw p := by
  have hup : ∀ g, upFrom cfg rw p g = 0 := fun g => if_neg fun hn => hn hb
  cases x with
  | rdWait g => exact ⟨hf.2,hup g⟩
  | rdRelock g => exact ⟨hf.2,hup g⟩
  | _ => cases hx

/-- The loop tests look at the blocked writers only, apart from the holds. -/
theorem RwLoc.Passes.congr {x : RwLoc} {rw rw' : Rwlock} {p : ℕ} (h : x.Passes cfg rw.freed p)
    (hf : rw'.free) (hb : rw'.blockedWriters = rw.blockedWriters)
    (hp : rw'.bwritersPrio = rw.bwritersPrio) : x.Passes cfg rw' p := by
  have hup : ∀ g, upFrom cfg rw' p g = upFrom cfg rw.freed p g := fun g => by
    rw [upFrom,hb,hp]
    rfl
  cases x with
  | rdWait g => exact ⟨hf.2,(hup g).trans h.2⟩
  | rdRelock g => exact ⟨hf.2,(hup g).trans h.2⟩
  | wrWait => exact hf
  | wrRelock => exact hf
  | _ => exact h.elim

theorem RwLoc.Candidate.want_ne {x : RwLoc} (h : x.Candidate) :
    x.want ≠ none ∧ x.want ≠ some .release := by
  cases x with
  | rdLock => exact ⟨by rintro ⟨⟩,by rintro ⟨⟩⟩
  | rdWait g => exact ⟨by rintro ⟨⟩,by rintro ⟨⟩⟩
  | rdRelock g => exact ⟨by rintro ⟨⟩,by rintro ⟨⟩⟩
  | wrLock => exact ⟨by rintro ⟨⟩,by rintro ⟨⟩⟩
  | wrWait => exact ⟨by rintro ⟨⟩,by rintro ⟨⟩⟩
  | wrRelock => exact ⟨by rintro ⟨⟩,by rintro ⟨⟩⟩
  | _ => exact h.elim

section

variable {s : RwState cfg} {w : Option RwWant} {c : RwCall cfg}

theorem RwInv.sleepsAt (h : RwInv s) {t : Thid cfg} (ht : ¬s.Awake t) :
    ∃ d, t ∈ s.sync.waiters (.cvMux d) ∧ (s.loc t).SleepsAt d := by
  by_contra hn
  exact ht ⟨fun hr => hn ⟨_,hr,h.asleep t _ hr⟩,fun hw => hn ⟨_,hw,h.asleep t _ hw⟩⟩

theorem RwInv.awake_of_on (h : RwInv s) {t : Thid cfg} {d : ℕ} (ho : (s.loc t).On d)
    (hn : t ∉ s.sync.waiters (.cvMux d)) : s.Awake t := by
  refine ⟨fun hr => hn ?_,fun hw => hn ?_⟩
  · exact ho.eq_of_sleepsAt (h.asleep t _ hr) ▸ hr
  · exact ho.eq_of_sleepsAt (h.asleep t _ hw) ▸ hw

/-- The running thread puts nobody else to sleep. -/
theorem goOn_awake (hc : c.Ok s.sync s.rw (s.loc s.me) w) {t : Thid cfg} (ht : t ≠ s.me)
    (ha : s.Awake t) : (s.goOn w c).Awake t :=
  ⟨fun hr => ha.1 ((hc.asleep _ t hr).resolve_right fun he => ht he.1),
    fun hw => ha.2 ((hc.asleep _ t hw).resolve_right fun he => ht he.1)⟩

theorem goOn_awake_me (h : RwInv s) (hy : s.yielding = false)
    (hc : c.Ok s.sync s.rw (s.loc s.me) w) (hs : ∀ d, ¬c.loc.SleepsAt d) :
    (s.goOn w c).Awake s.me := by
  have hn : ∀ d, s.me ∉ (s.goOn w c).sync.waiters (.cvMux d) := by
    intro d hm
    obtain hm | ⟨_,hx⟩ := hc.asleep d _ hm
    · exact h.cond.notMem (h.running hy) _ hm
    · exact hs d hx
  exact ⟨hn _,hn _⟩

/-- Where one of those blocked on `d` is let go, if any of them sleeps, one of them is awake. -/
theorem RwInv.woken (h : RwInv s) (hy : s.yielding = false)
    (hc : c.Ok s.sync s.rw (s.loc s.me) w) (hi : RwInv (s.goOn w c)) {d : ℕ}
    (hw : Wakes s.sync c.sync d) {t : Thid cfg} (ht : t ≠ s.me) (ho : (s.loc t).On d) :
    ∃ u, u ≠ s.me ∧ (s.loc u).On d ∧ (s.goOn w c).Awake u := by
  have hloc : ∀ u, u ≠ s.me → (s.goOn w c).loc u = s.loc u := fun u hu => by
    rw [goOn_loc,if_neg hu]
  obtain hnil | ⟨him,hm,hgone⟩ := hw
  · refine ⟨t,ht,ho,hi.awake_of_on (d:=d) (by rw [hloc t ht]; exact ho) fun hm => ?_⟩
    obtain hm | ⟨he,_⟩ := hc.asleep d t hm
    · rw [hnil] at hm
      cases hm
    · exact ht he
  · have hne : him ≠ s.me := by
      rintro rfl
      exact h.cond.notMem (h.running hy) _ hm
    have ho := (h.asleep him d hm).on
    exact ⟨him,hne,ho,hi.awake_of_on (d:=d) (by rw [hloc him hne]; exact ho) hgone⟩

/-- Some writer is blocked. -/
theorem RwInv.writer (h : RwInv s) (hb : s.rw.blockedWriters ≠ 0) : ∃ t, (s.loc t).wr = 1 := by
  by_contra hn
  rw [h.bw] at hb
  refine hb (Finset.sum_eq_zero fun t _ => ?_)
  exact (s.loc t).wr_cases.resolve_right fun ht => hn ⟨t,ht⟩

theorem RwInv.no_writer (h : RwInv s) (hb : s.rw.blockedWriters = 0) (t : Thid cfg) :
    (s.loc t).wr = 0 := by
  have hpos : ∀ u ∈ Finset.univ, 0 ≤ (s.loc u).wr := fun u _ => by
    obtain hu | hu := (s.loc u).wr_cases <;> omega
  rw [h.bw] at hb
  exact (Finset.sum_eq_zero_iff_of_nonneg hpos).mp hb t (Finset.mem_univ t)

/-! ### The lock becomes free -/

/-- Only a call that gives the last hold back leaves the lock free. -/
theorem Moves.frees {rw rw' : Rwlock} {w' : Option RwWant} (h : Moves rw rw' w w')
    (hpos : 0 ≤ rw.readersReading) (hn : ¬rw.free) (hf : rw'.free) :
    w = some .release ∧ w' = none ∧ (rw.writersWriting ≠ 0 ∨ rw.readersReading = 1) := by
  obtain ⟨hfr,hfw⟩ := hf
  unfold Moves at h
  split at h
  · exact absurd ⟨h.1.symm.trans hfr,h.2.symm.trans hfw⟩ hn
  · obtain ⟨hw',h⟩ := h
    cases w with
    | none => exact h.elim
    | some w =>
      cases w with
      | read =>
        have := h.2.2
        omega
      | write =>
        have := h.2.1
        omega
      | release =>
        refine ⟨rfl,hw',?_⟩
        obtain ⟨_,⟨hw,_⟩ | ⟨_,_,hr⟩ | ⟨hf,_⟩⟩ := h
        · exact Or.inl hw
        · exact Or.inr (by omega)
        · exact absurd hf hn

theorem not_candidate {x : RwLabel cfg} (he : rwEnabled s x = true)
    (hw : s.wants x = some .release) : ¬(s.loc s.me).Candidate := by
  cases x with
  | rdlock => cases hw
  | wrlock => cases hw
  | unlock =>
    simp only [rwEnabled,RwState.runs,Bool.and_eq_true,decide_eq_true_eq] at he
    rw [he.1.2]
    exact id
  | resume => exact fun hx => hx.want_ne.2 hw
  | yield clk t => cases hw

/-- An unlock that finds the mutex taken changes no counter. -/
theorem RwInv.unlock_waits (h : RwInv s) (hy : s.yielding = false)
    (ho : (s.sync.mux theMutex).owner ≠ .null) :
    Spec (rwNext s .unlock) (fun s' => s'.rw = s.rw) (fun _ => False) := by
  simp only [rwNext,pthreadRwlockUnlock,spec_bind,spec_pure]
  refine (h.cond.lock (h.running hy)).imp ?_
  rintro ⟨sync,y⟩ ⟨_,⟨rfl,ht⟩ | ⟨rfl,_⟩⟩
  · exact absurd ht.free ho
  · rfl

theorem RwInv.frees (h : RwInv s) (hy : s.yielding = false) {x : RwLabel cfg} {s' : RwState cfg}
    (hs : (rwMachine cfg).Step s x s') (hn : ¬s.rw.free) (hf : s'.rw.free)
    (hw : s.wants x = some .release) (hl : s.rw.writersWriting ≠ 0 ∨ s.rw.readersReading = 1) :
    s.Frees x := by
  refine ⟨hl,?_⟩
  cases x with
  | rdlock => cases hw
  | wrlock => cases hw
  | unlock =>
    by_contra ho
    rw [(h.unlock_waits hy ho).of_ok hs.2] at hf
    exact hn hf
  | resume =>
    change s.loc s.me = .unLock
    change (s.loc s.me).want = _ at hw
    cases hx : s.loc s.me with
    | unLock => rfl
    | _ => rw [hx] at hw; cases hw
  | yield clk t => cases hw

/-- Where no writer is blocked, letting a reader go is enough. -/
theorem RwInv.served_reader (hi : RwInv (s.goOn w c)) (hf : c.rw.free)
    (hb : c.rw.blockedWriters = 0) (hwant : c.loc.want = none)
    (hwoken : ∀ t, t ≠ s.me → (s.loc t).On readersLock →
      ∃ u, u ≠ s.me ∧ (s.loc u).On readersLock ∧ (s.goOn w c).Awake u)
    {t : Thid cfg} (ht : ((s.goOn w c).loc t).Blocked) :
    ∃ u, (s.goOn w c).Passes c.rw u ∧ (s.goOn w c).Awake u := by
  have hrd : ((s.goOn w c).loc t).rd = 1 := by
    refine ht.resolve_right fun hw => ?_
    rw [hi.no_writer hb t] at hw
    cases hw
  rw [goOn_loc] at hrd
  have hne : t ≠ s.me := by
    rintro rfl
    rw [if_pos rfl] at hrd
    exact (RwLoc.On.candidate (Or.inl ⟨rfl,hrd⟩)).want_ne.1 hwant
  rw [if_neg hne] at hrd
  obtain ⟨u,hu,ho,ha⟩ := hwoken t hne (Or.inl ⟨rfl,hrd⟩)
  refine ⟨u,?_,ha⟩
  rw [RwState.Passes,goOn_loc,if_neg hu]
  obtain ⟨_,ho⟩ | ⟨hd,_⟩ := ho
  · exact RwLoc.passes_of_rd _ ho hf hb
  · cases hd

/-- Some writer is blocked, and all those that slept or one of them have been let go. -/
theorem RwInv.served_writer (h : RwInv s) (hy : s.yielding = false)
    (hc : c.Ok s.sync s.rw (s.loc s.me) w) (hi : RwInv (s.goOn w c))
    (hb : s.rw.blockedWriters ≠ 0) (hx : (s.loc s.me).wr = 0)
    (hw : Wakes s.sync c.sync writersLock) :
    ∃ u, ((s.goOn w c).loc u).wr = 1 ∧ (s.goOn w c).Awake u := by
  obtain ⟨t,ht⟩ := h.writer hb
  have hne : t ≠ s.me := by
    rintro rfl
    rw [hx] at ht
    cases ht
  obtain ⟨u,hu,ho,ha⟩ := h.woken hy hc hi hw hne (Or.inr ⟨rfl,ht⟩)
  refine ⟨u,?_,ha⟩
  rw [goOn_loc,if_neg hu]
  obtain ⟨hd,_⟩ | ⟨_,ho⟩ := ho
  · cases hd
  · exact ho

/-- A thread that passes and is awake or let go serves, where blocked writers are skipped. -/
theorem RwInv.served_skipping (h : RwInv s) (hc : c.Ok s.sync s.rw (s.loc s.me) w)
    (hi : RwInv (s.goOn w c)) (hx : ¬(s.loc s.me).Candidate) (hf : c.rw.free)
    (hb : c.rw.blockedWriters = s.rw.blockedWriters)
    (hp : c.rw.bwritersPrio = s.rw.bwritersPrio)
    (hgo : ∀ t, s.LetsGo t → t ∈ s.sync.waiters (.cvMux readersLock) ∧
      t ∉ c.sync.waiters (.cvMux readersLock))
    (ht : ∃ t, s.Passes s.rw.freed t ∧ (s.Awake t ∨ s.LetsGo t)) :
    ∃ u, (s.goOn w c).Passes c.rw u ∧ (s.goOn w c).Awake u := by
  obtain ⟨t,hpass,ht⟩ := ht
  have hne : t ≠ s.me := by
    rintro rfl
    exact hx hpass.candidate
  have hloc : (s.goOn w c).loc t = s.loc t := by rw [goOn_loc,if_neg hne]
  refine ⟨t,?_,?_⟩
  · rw [RwState.Passes,hloc,show ((s.goOn w c).sync.kernel.pool t).prio = _ from hc.prio t]
    exact hpass.congr hf hb hp
  · obtain ha | hl := ht
    · exact goOn_awake hc hne ha
    · obtain ⟨hm,hgone⟩ := hgo t hl
      exact hi.awake_of_on (d:=readersLock) (by rw [hloc]; exact (h.asleep t _ hm).on) hgone

theorem WakesOne.lets_go {sync1 : Sync cfg} (h : RwInv s) (hz : s.rw.writersWriting = 0)
    (hw : WakesOne s.sync sync1 readersLock) {t : Thid cfg} (ht : s.LetsGo t) :
    t ∈ s.sync.waiters (.cvMux readersLock) ∧ t ∉ sync1.waiters (.cvMux readersLock) := by
  have ht := (ht.resolve_left fun hn => hn.1 hz).2
  obtain ⟨hnil,_⟩ | ⟨pre,him,post,hb,hl,ha⟩ := hw
  · rw [hnil] at ht
    cases ht
  · have hnd := h.cond.nodup (.cvMux readersLock)
    rw [hb,List.nodup_middle,List.nodup_cons] at hnd
    rw [hb,hl.argmin_eq,Option.some.injEq] at ht
    subst ht
    exact ⟨by rw [hb]; simp,by rw [ha]; exact hnd.1⟩

theorem Wakes.of_nil {s1 s2 : Sync cfg} {d : ℕ} (h : s2.waiters (.cvMux d) = []) :
    Wakes s1 s2 d := by
  by_cases hn : s1.waiters (.cvMux d) = []
  · exact Or.inl hn
  · obtain ⟨t,ht⟩ := List.exists_mem_of_ne_nil _ hn
    exact Or.inr ⟨t,ht,by rw [h]; rintro ⟨⟩⟩

/-- The unlock that leaves the lock free. -/
theorem RwInv.unlocks (h : RwInv s) (hy : s.yielding = false)
    (hc : c.Ok s.sync s.rw (s.loc s.me) w) (hi : RwInv (s.goOn w c))
    (hx : ¬(s.loc s.me).Candidate) (hn : ¬s.rw.free) (hf : c.rw.free)
    (hwant : c.loc.want = none) (hb : c.rw.blockedWriters = s.rw.blockedWriters)
    (hp : c.rw.bwritersPrio = s.rw.bwritersPrio) (hu : UnlockWakes s.sync s.rw c)
    (hserve : s.SkipsWriters → ∃ t, s.Passes s.rw.freed t ∧ (s.Awake t ∨ s.LetsGo t))
    {t : Thid cfg} (ht : ((s.goOn w c).loc t).Blocked) :
    ∃ u, (s.goOn w c).Passes c.rw u ∧ (s.goOn w c).Awake u := by
  have hwr : (s.loc s.me).wr = 0 := (s.loc s.me).wr_cases.resolve_right fun hw =>
    hx (RwLoc.On.candidate (Or.inr ⟨rfl,hw⟩))
  cases hu with
  | free h0 => exact absurd h0 hn
  | reader hz hone _ =>
    by_cases hbw : s.rw.blockedWriters = 0
    · exact hi.served_reader hf (hb.trans hbw) hwant
        (fun t hne ho => h.woken hy hc hi (hone.wakes h.cond.toSyncInv) hne ho) ht
    · exact h.served_skipping hc hi hx hf hb hp (fun t => hone.lets_go h hz)
        (hserve ⟨hbw,Or.inl hz⟩)
  | writer _ hbw hone =>
    obtain ⟨u,hu,ha⟩ := h.served_writer hy hc hi hbw hwr (hone.wakes h.cond.toSyncInv)
    exact ⟨u,RwLoc.passes_of_wr _ hu hf,ha⟩
  | readersFirst hww hbw hd hr hnil =>
    refine h.served_skipping hc hi hx hf hb hp (fun t hl => ?_) (hserve ⟨hbw,Or.inr ⟨hd,hr⟩⟩)
    exact ⟨(hl.resolve_right fun hn => hww hn.1).2,by rw [hnil]; rintro ⟨⟩⟩
  | readers _ hbw hnil _ =>
    exact hi.served_reader hf (hb.trans hbw) hwant
      (fun t hne ho => h.woken hy hc hi (.of_nil hnil) hne ho) ht

/-- A step that serves leaves a free lock to somebody who passes. -/
theorem RwInv.leavesServed {x : RwLabel cfg} (h : RwInv s) (hs : Serves s x) :
    LeavesServed s x := by
  rintro s' hstep hn hf ⟨t,ht⟩
  obtain ⟨hy,⟨hok,heff⟩,hr⟩ | ⟨_,_⟩ := (rwStep_cases h hstep.1).of_ok hstep.2
  · rename_i c
    have hi := h.goOn hy hok hr
    obtain ⟨hw,hwant,hl⟩ := hok.moves.frees h.held.nonneg hn hf
    have hx := not_candidate hstep.1 hw
    cases heff with
    | busy hb => exact absurd hf hb
    | backsOff hx hb hwk =>
      obtain ⟨u,hu,ha⟩ := h.served_writer hy hok hi hb hx hwk
      exact ⟨u,RwLoc.passes_of_wr _ hu hf,ha⟩
    | atMutex hc _ => exact absurd hwant hc.want_ne.1
    | sleeps g _ hc =>
      rw [hc] at hwant
      cases hwant
    | unlocks _ _ hb hp hu =>
      exact h.unlocks hy hok hi hx hn hf hwant hb hp hu (hs.1 (h.frees hy hstep hn hf hw hl)) ht
    | passes _ _ hrw => exact absurd (hrw ▸ hf) hn
  · exact absurd hf hn

theorem Attended.goOn (h : RwInv s) (ha : Attended s) (hy : s.yielding = false)
    {x : RwLabel cfg} (hs : Serves s x) (hc : c.Does s.sync s.rw (s.loc s.me) w) (hi : RwInv (s.goOn w c))
    (hr : w = some .release → 0 < (s.holds s.me).rd+(s.holds s.me).wr) (hn : s.rw.free) :
    Attended (s.goOn w c) := by
  intro hf ⟨t,ht⟩
  have hstays : ∀ u, (s.loc u).Candidate → ¬(s.loc s.me).Candidate → s.Awake u →
      ∃ u, ((s.goOn w c).loc u).Candidate ∧ (s.goOn w c).Awake u := fun u hu hx ha => by
    have hne : u ≠ s.me := by
      rintro rfl
      exact hx hu
    exact ⟨u,by rw [goOn_loc,if_neg hne]; exact hu,goOn_awake hc.1 hne ha⟩
  obtain ⟨hok,heff⟩ := hc
  cases heff with
  | busy hb => exact absurd hf hb
  | backsOff hx hb hw =>
    obtain ⟨u,hu,ha⟩ := h.served_writer hy hok hi hb hx hw
    exact ⟨u,RwLoc.On.candidate (Or.inr ⟨rfl,hu⟩),ha⟩
  | atMutex hcand hd =>
    exact ⟨s.me,by rw [goOn_loc,if_pos rfl]; exact hcand,goOn_awake_me h hy hok hd⟩
  | sleeps g hx hc =>
    have hlate : s.SleepsLate ∧ ¬(s.loc s.me).Candidate := by
      unfold RwState.SleepsLate
      obtain ⟨hx,hnil⟩ | hx := hx
      · rw [hx]
        exact ⟨⟨hy,hnil⟩,id⟩
      · rw [hx]
        exact ⟨⟨hy,trivial⟩,id⟩
    obtain hb | ⟨u,hu,ha⟩ := hs.2 hlate.1
    · exact absurd hn hb
    · exact hstays u hu hlate.2 ha
  | unlocks hw _ _ _ _ =>
    have hpos := hr hw
    have hrd := s.rd_le_reads s.me
    have hwr := s.wr_le_writes s.me
    have := h.held.reads
    have := h.held.writes
    obtain ⟨_,_⟩ := hn
    omega
  | passes hx hsame hrw =>
    have hasleep : ¬s.Awake t := by
      unfold RwState.Awake at ht ⊢
      rwa [← hsame readersLock,← hsame writersLock]
    obtain ⟨u,hu,hawake⟩ := ha hn ⟨t,hasleep⟩
    exact hstays u hu hx hawake

/-- A step that serves leaves somebody awake to look at a free lock. -/
theorem Attended.step {x : RwLabel cfg} {s' : RwState cfg} (h : RwInv s) (ha : Attended s)
    (hs : Serves s x) (hstep : (rwMachine cfg).Step s x s') : Attended s' := by
  have hi := rwStep_inv h hstep
  have hserved := h.leavesServed hs s' hstep
  by_cases hn : s.rw.free
  · cases (rwStep_cases h hstep.1).of_ok hstep.2 with
    | call hy hc hr => exact ha.goOn h hy hs hc hi hr hn
    | yield _ hy =>
      intro hf ⟨t,ht⟩
      unfold RwState.Awake at ht ⊢
      simp only [hy.waiters,hy.loc] at ht ⊢
      exact ha hn ⟨t,ht⟩
  · intro hf ⟨t,ht⟩
    obtain ⟨d,_,hd⟩ := hi.sleepsAt ht
    have hb : (s'.loc t).Blocked := hd.on.imp And.right And.right
    obtain ⟨u,hu,hawake⟩ := hserved hn hf ⟨t,hb⟩
    exact ⟨u,hu.candidate,hawake⟩

end

/-! ### Runs -/

/-- In a run whose steps all serve, a lock that becomes free leaves one of the blocked threads let
go, and no state strands anybody. -/
theorem rwRun_strandsNobody {k : Kernel cfg} (hk : Seated k) {ls : List (RwLabel cfg)}
    {s : RwState cfg} (hr : (rwMachine cfg).run (rwInit k) ls = some s)
    (hc : (rwMachine cfg).Along Serves (rwInit k) ls) :
    (rwMachine cfg).Along LeavesServed (rwInit k) ls ∧ ¬s.Stranded := by
  have hinit : RwInv (rwInit k) ∧ Attended (rwInit k) := by
    refine ⟨rwInit_inv hk,fun _ ⟨t,ht⟩ => ?_⟩
    obtain ⟨d,_,hd⟩ := (rwInit_inv hk).sleepsAt ht
    exact hd.elim
  have hstep : ∀ (s : RwState cfg) x s', RwInv s ∧ Attended s → Serves s x →
      (rwMachine cfg).Step s x s' → RwInv s' ∧ Attended s' := fun s x s' hi hs hstep =>
    ⟨rwStep_inv hi.1 hstep,hi.2.step hi.1 hs hstep⟩
  refine ⟨(rwMachine cfg).along_of_invariant hstep (fun s x hi hs => hi.1.leavesServed hs) hinit hc,?_⟩
  rintro ⟨hf,hasleep,hidle⟩
  obtain ⟨t,ht,ha⟩ := ((rwMachine cfg).run_invariant hstep hinit hc hr).2 hf hasleep
  obtain hout | hn := hidle t
  · rw [hout] at ht
    exact ht.elim
  · exact hn ha

section

variable (s : RwState cfg) (x : RwLabel cfg) (t : Thid cfg)

instance : Decidable (s.Awake t) := instDecidableAnd

instance (rw : Rwlock) (p : ℕ) (l : RwLoc) : Decidable (l.Passes cfg rw p) :=
  match l with
  | .rdWait _ => instDecidableAnd
  | .rdRelock _ => instDecidableAnd
  | .wrWait => instDecidableAnd
  | .wrRelock => instDecidableAnd
  | .out => instDecidableFalse
  | .rdLock => instDecidableFalse
  | .rdSignal _ => instDecidableFalse
  | .rdSignalUnlock _ => instDecidableFalse
  | .rdUnlock => instDecidableFalse
  | .wrLock => instDecidableFalse
  | .wrUnlock => instDecidableFalse
  | .unLock => instDecidableFalse
  | .unSignal _ => instDecidableFalse
  | .unSignalUnlock => instDecidableFalse
  | .unBcast => instDecidableFalse
  | .unUnlock _ => instDecidableFalse

instance (l : RwLoc) : Decidable l.Candidate :=
  decidable_of_iff (l.rd = 1 ∨ l.wr = 1 ∨ l = .rdLock ∨ l = .wrLock) <| by
    cases l <;> simp [RwLoc.Candidate,RwLoc.rd,RwLoc.wr]

instance (rw : Rwlock) : Decidable (s.Passes rw t) :=
  inferInstanceAs (Decidable ((s.loc t).Passes cfg rw (s.sync.kernel.pool t).prio))

instance : Decidable s.SkipsWriters := instDecidableAnd

instance : Decidable (s.LetsGo t) := instDecidableOr

instance : Decidable (s.Frees x) :=
  match x with
  | .rdlock => inferInstanceAs (Decidable (_ ∧ False))
  | .wrlock => inferInstanceAs (Decidable (_ ∧ False))
  | .unlock => inferInstanceAs (Decidable (_ ∧ (s.sync.mux theMutex).owner = .null))
  | .resume => inferInstanceAs (Decidable (_ ∧ s.loc s.me = .unLock))
  | .yield _ _ => inferInstanceAs (Decidable (_ ∧ False))

instance (ts : List (Thid cfg)) (l : RwLoc) : Decidable (l.Late ts) :=
  match l with
  | .rdSignal _ => inferInstanceAs (Decidable (ts = []))
  | .rdSignalUnlock _ => instDecidableTrue
  | .out => instDecidableFalse
  | .rdLock => instDecidableFalse
  | .rdWait _ => instDecidableFalse
  | .rdRelock _ => instDecidableFalse
  | .rdUnlock => instDecidableFalse
  | .wrLock => instDecidableFalse
  | .wrWait => instDecidableFalse
  | .wrRelock => instDecidableFalse
  | .wrUnlock => instDecidableFalse
  | .unLock => instDecidableFalse
  | .unSignal _ => instDecidableFalse
  | .unSignalUnlock => instDecidableFalse
  | .unBcast => instDecidableFalse
  | .unUnlock _ => instDecidableFalse

instance : Decidable s.SleepsLate := instDecidableAnd

instance : Decidable (Serves s x) := instDecidableAnd

instance : Decidable s.Stranded := instDecidableAnd

end

/-- Thread 1 waits for thread 0 to write, and thread 0 gives the lock back. -/
def writerHandsOnSteps : List (RwLabel gnuArm) :=
  [.wrlock,.yield 20 1,.wrlock,.yield 20 0,.unlock]

theorem rwRun_strandsNobody_handsOn : ∃ s : RwState gnuArm,
    (rwMachine gnuArm).run (rwInit fiveThreads) writerHandsOnSteps = some s ∧
    s.rw.free ∧ (s.loc 1).Blocked ∧
    (rwMachine gnuArm).Along LeavesServed (rwInit fiveThreads) writerHandsOnSteps ∧ ¬s.Stranded := by
  obtain ⟨s,hr,hf,hb⟩ := (rwMachine gnuArm).exists_run (fun s => s.rw.free ∧ (s.loc 1).wr = 1)
    (rwInit fiveThreads) writerHandsOnSteps (by decide +kernel)
  exact ⟨s,hr,hf,Or.inr hb,rwRun_strandsNobody fiveThreads_seated hr (by decide +kernel)⟩

/-- Thread 1 reads, thread 0 waits to write, and thread 1 gives the lock back: nobody signals
`writers_lock`. -/
theorem rwRun_not_strandsNobody :
    ¬∀ (k : Kernel gnuArm) (ls : List (RwLabel gnuArm)) (s : RwState gnuArm), Seated k →
      (rwMachine gnuArm).run (rwInit k) ls = some s →
      (rwMachine gnuArm).Along LeavesServed (rwInit k) ls ∧ ¬s.Stranded := by
  intro h
  obtain ⟨s,hr,hs⟩ := (rwMachine gnuArm).exists_run RwState.Stranded (rwInit sleeperFirst)
    (readThenWriteSteps ++ [.unlock]) (by decide +kernel)
  exact (h _ _ s sleeperFirst_seated hr).2 hs

end Tinker

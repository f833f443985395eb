import Mathlib.Algebra.Order.BigOperators.Group.List
import Tinker.RwlockPrio

/-! The admission of readers. `pthread_rwlock_rdlock` computes `blocked_writers_granted` on its
first check from the caller's priority downwards, and after every wake-up from it upwards, on top
of what it was. -/
namespace Tinker

open Outcome

variable {cfg : Config}

/-- The threads and the lock at a time when the running thread decides whether to wait. -/
structure Moment (cfg : Config) where
  sync : Sync cfg
  rw : Rwlock

namespace Moment

def prio (m : Moment cfg) : ℕ := selfPrio m.sync

/-- The table counts blocked writers, `blocked_writers` is their number, and the caller has a legal
priority. -/
structure Sound (m : Moment cfg) : Prop where
  prio_lt : m.prio < cfg.maxPrioLevels
  nonneg : ∀ p < cfg.maxPrioLevels, 0 ≤ m.rw.bwritersPrio p
  total : ∑ p ∈ Finset.range cfg.maxPrioLevels, m.rw.bwritersPrio p = m.rw.blockedWriters

/-- A writer of the caller's priority or a better one is blocked. -/
def Outranked (m : Moment cfg) : Prop := ∃ p ≤ m.prio, 0 < m.rw.bwritersPrio p

/-- A writer of the caller's priority or a worse one is blocked. -/
def Followed (m : Moment cfg) : Prop := ∃ p ≥ m.prio, p < cfg.maxPrioLevels ∧ 0 < m.rw.bwritersPrio p

/-- The rule: a reader is to wait while a writer writes or outranks it. -/
def Due (m : Moment cfg) : Prop := m.rw.writersWriting ≠ 0 ∨ m.Outranked

instance (m : Moment cfg) : Decidable m.Outranked :=
  inferInstanceAs (Decidable (∃ p ≤ m.prio, 0 < m.rw.bwritersPrio p))

instance (m : Moment cfg) : Decidable m.Followed :=
  decidable_of_iff (∃ p < cfg.maxPrioLevels, m.prio ≤ p ∧ 0 < m.rw.bwritersPrio p)
    ⟨fun ⟨p,hlt,hle,hb⟩ => ⟨p,hle,hlt,hb⟩,fun ⟨p,hle,hlt,hb⟩ => ⟨p,hlt,hle,hb⟩⟩

instance (m : Moment cfg) : Decidable m.Due := instDecidableOr

end Moment

/-- `blocked_writers_granted` at the last of the decisions of one call, the latest wake-up first. -/
def rdGranted (first : Moment cfg) : List (Moment cfg) → Except Fault ℤ
  | [] => grantedDown first.sync first.rw
  | m :: older => do
    let g ← rdGranted first older
    grantedUp m.sync m.rw g

/-- The moment of the last decision. -/
def lastMoment (first : Moment cfg) : List (Moment cfg) → Moment cfg
  | [] => first
  | m :: _ => m

/-- The test of the loop of `pthread_rwlock_rdlock`. -/
def rdWaits (rw : Rwlock) (g : ℤ) : Prop := rw.writersWriting ≠ 0 ∨ g ≠ 0

/-- The first decision of a call, for whatever reaches `mx_self` at the same priority. -/
theorem rdLocked_eq {m : Moment cfg} {sync : Sync cfg} (hp : selfPrio sync = m.prio) :
    rdLocked sync m.rw = (do
      let g ← rdGranted m []
      rdLoop sync m.rw g) := by
  simp only [rdLocked,rdGranted,grantedDown,hp]
  rfl

/-- Every wake-up adds a decision to those of the call. -/
theorem rdWoken_eq {first m : Moment cfg} {older : List (Moment cfg)} {g : ℤ} {sync : Sync cfg}
    (h : rdGranted first older = .ok g) (hp : selfPrio sync = m.prio) :
    rdWoken sync m.rw g = (do
      let g ← rdGranted first (m :: older)
      rdLoop sync { m.rw with blockedReaders := m.rw.blockedReaders-1 } g) := by
  simp only [rdWoken,rdGranted,h,grantedUp,hp]
  rfl

/-- `blocked_writers_granted` of a reader that waits. -/
def RwLoc.granted : RwLoc → Option ℤ
  | .rdSignal g => some g
  | .rdSignalUnlock g => some g
  | .rdWait g => some g
  | .rdRelock g => some g
  | _ => none

/-- The reader is let in just when the test of the loop fails, and keeps its count otherwise. -/
structure Follows (rw : Rwlock) (g : ℤ) (rw' : Rwlock) (x' : RwLoc) : Prop where
  waits : rdWaits rw g → x'.granted = some g ∧ rw'.readersReading = rw.readersReading
  takes : ¬rdWaits rw g → x'.granted = none ∧ rw'.readersReading = rw.readersReading+1

theorem rdSleep_granted (sync : Sync cfg) (rw : Rwlock) (g : ℤ) : Spec (rdSleep sync rw g)
    (fun c => c.loc.granted = some g ∧ c.rw.readersReading = rw.readersReading) (fun _ => True) := by
  simp only [rdSleep,spec_bind,spec_pure]
  exact spec_of_forall fun _ => ⟨rfl,rfl⟩

theorem rdTake_granted (sync : Sync cfg) (rw : Rwlock) : Spec (rdTake sync rw)
    (fun c => c.loc.granted = none ∧ c.rw.readersReading = rw.readersReading+1) (fun _ => True) := by
  simp only [rdTake,unlockAndReturn,spec_bind,spec_pure]
  refine spec_of_forall ?_
  rintro ⟨s,y⟩
  cases y with
  | false => exact ⟨rfl,rfl⟩
  | true => exact ⟨rfl,rfl⟩

theorem rdLoop_follows (sync : Sync cfg) (rw : Rwlock) (g : ℤ) :
    Spec (rdLoop sync rw g) (fun c => Follows rw g c.rw c.loc) (fun _ => True) := by
  by_cases hw : rdWaits rw g
  · have hwaits : Spec (rdLoop sync rw g)
        (fun c => c.loc.granted = some g ∧ c.rw.readersReading = rw.readersReading)
        (fun _ => True) := by
      have htest : rw.writersWriting ≠ 0 ∨ g ≠ 0 := hw
      rw [rdLoop,if_pos htest,spec_ite]
      refine ⟨fun _ => ?_,fun _ => rdSleep_granted sync rw g⟩
      rw [spec_bind]
      refine spec_of_forall ?_
      rintro ⟨s,r⟩
      cases r with
      | done => exact rdSleep_granted s rw g
      | yields => exact ⟨rfl,rfl⟩
      | yieldsUnlock => exact ⟨rfl,rfl⟩
    exact hwaits.imp fun c hc => ⟨fun _ => hc,fun hn => absurd hw hn⟩
  · have htest : ¬(rw.writersWriting ≠ 0 ∨ g ≠ 0) := hw
    rw [rdLoop,if_neg htest]
    exact (rdTake_granted sync rw).imp fun c hc => ⟨fun hp => absurd hp hw,fun _ => hc⟩

/-- Some writer was granted the lock at an earlier decision and the count has not been cleared
since: what `blocked_writers_granted` tells, said of the lock's states. -/
def CarriedOver (first : Moment cfg) : List (Moment cfg) → Prop
  | [] => first.Outranked
  | m :: older => m.Followed ∨ m.Outranked ∧ CarriedOver first older

/-- The decision is the first one, or a writer writes, or nobody is blocked, or a writer outranks
the caller and the count is not zero for another reason. -/
def RuleKept (first : Moment cfg) : List (Moment cfg) → Prop
  | [] => True
  | m :: older => m.rw.writersWriting ≠ 0 ∨ m.rw.blockedWriters = 0 ∨
      m.Outranked ∧ (m.Followed ∨ CarriedOver first older)

instance decidableCarriedOver (first : Moment cfg) :
    (ms : List (Moment cfg)) → Decidable (CarriedOver first ms)
  | [] => inferInstanceAs (Decidable first.Outranked)
  | m :: older =>
    have := decidableCarriedOver first older
    inferInstanceAs (Decidable (m.Followed ∨ m.Outranked ∧ CarriedOver first older))

instance decidableRuleKept (first : Moment cfg) : (ms : List (Moment cfg)) → Decidable (RuleKept first ms)
  | [] => isTrue trivial
  | m :: older => inferInstanceAs (Decidable (m.rw.writersWriting ≠ 0 ∨ m.rw.blockedWriters = 0 ∨
      m.Outranked ∧ (m.Followed ∨ CarriedOver first older)))

section

variable {m first : Moment cfg} {older : List (Moment cfg)}

/-- A sum of counts is positive just when one of them is. -/
theorem sum_map_pos {f : ℕ → ℤ} {is : List ℕ} (h : ∀ i ∈ is, 0 ≤ f i) :
    0 ≤ (is.map f).sum ∧ ((is.map f).sum ≠ 0 ↔ ∃ i ∈ is, 0 < f i) := by
  induction is with
  | nil => simp
  | cons i is ih =>
    obtain ⟨hnn,hiff⟩ := ih fun j hj => h j (List.mem_cons_of_mem _ hj)
    have hi := h i List.mem_cons_self
    rw [List.map_cons,List.sum_cons]
    refine ⟨by omega,?_⟩
    simp only [List.mem_cons,exists_eq_or_imp,← hiff]
    omega

/-- A blocked writer is counted in `blocked_writers`. -/
theorem Moment.Sound.blocked (h : m.Sound) {p : ℕ} (hp : p < cfg.maxPrioLevels)
    (hb : 0 < m.rw.bwritersPrio p) : m.rw.blockedWriters ≠ 0 := by
  have hle := Finset.single_le_sum (f:=m.rw.bwritersPrio)
    (fun i hi => h.nonneg i (Finset.mem_range.mp hi)) (Finset.mem_range.mpr hp)
  rw [h.total] at hle
  omega

/-- Whoever is blocked outranks the caller or does not. -/
theorem Moment.Sound.blocked_iff (h : m.Sound) :
    m.rw.blockedWriters ≠ 0 ↔ m.Outranked ∨ m.Followed := by
  constructor
  · intro hb
    rw [← h.total] at hb
    obtain ⟨p,hp,hne⟩ := Finset.exists_ne_zero_of_sum_ne_zero hb
    have hlt := Finset.mem_range.mp hp
    have hpos : 0 < m.rw.bwritersPrio p := lt_of_le_of_ne (h.nonneg p hlt) (Ne.symm hne)
    obtain hle | hge := Nat.le_total p m.prio
    · exact Or.inl ⟨p,hle,hpos⟩
    · exact Or.inr ⟨p,hge,hlt,hpos⟩
  · rintro (⟨p,hp,hb⟩ | ⟨p,_,hlt,hb⟩)
    · exact h.blocked (Nat.lt_of_le_of_lt hp h.prio_lt) hb
    · exact h.blocked hlt hb

/-- On the first check the count is zero just when nobody outranks the caller. -/
theorem Moment.Sound.grantedDown (h : m.Sound) :
    ∃ g, grantedDown m.sync m.rw = .ok g ∧ 0 ≤ g ∧ (g ≠ 0 ↔ m.Outranked) := by
  have hlt := h.prio_lt
  unfold Tinker.grantedDown
  split
  · have hmem : ∀ i ∈ (List.range (selfPrio m.sync+1)).reverse, i < cfg.maxPrioLevels := by
      intro i hi
      simp only [List.mem_reverse,List.mem_range] at hi
      have : selfPrio m.sync = m.prio := rfl
      omega
    obtain ⟨hnn,hiff⟩ := sum_map_pos (f:=m.rw.bwritersPrio) fun i hi => h.nonneg i (hmem i hi)
    refine ⟨_,addBwriters_eq m.rw 0 hmem,by omega,?_⟩
    rw [zero_add,hiff]
    simp only [List.mem_reverse,List.mem_range,Nat.lt_succ_iff]
    exact Iff.rfl
  · next hb =>
    refine ⟨0,rfl,le_refl 0,iff_of_false (fun hn => hn rfl) fun ho => ?_⟩
    exact hb (h.blocked_iff.mpr (Or.inl ho))

/-- After a wake-up it is what it was, where only better writers are blocked. -/
theorem Moment.Sound.grantedUp (h : m.Sound) {g : ℤ} (hg : 0 ≤ g) :
    ∃ g', grantedUp m.sync m.rw g = .ok g' ∧ 0 ≤ g' ∧
      (g' ≠ 0 ↔ m.Followed ∨ m.Outranked ∧ g ≠ 0) := by
  have hlt := h.prio_lt
  unfold Tinker.grantedUp
  split
  · next hb =>
    have hmem : ∀ i ∈ List.range' (selfPrio m.sync) (cfg.maxPrioLevels-selfPrio m.sync),
        m.prio ≤ i ∧ i < cfg.maxPrioLevels := by
      intro i hi
      rw [List.mem_range'_1] at hi
      have : selfPrio m.sync = m.prio := rfl
      omega
    obtain ⟨hnn,hiff⟩ := sum_map_pos (f:=m.rw.bwritersPrio) fun i hi => h.nonneg i (hmem i hi).2
    refine ⟨_,addBwriters_eq m.rw g fun i hi => (hmem i hi).2,by omega,?_⟩
    have hfol : (∃ i ∈ List.range' (selfPrio m.sync) (cfg.maxPrioLevels-selfPrio m.sync),
        0 < m.rw.bwritersPrio i) ↔ m.Followed := by
      constructor
      · rintro ⟨i,hi,hp⟩
        exact ⟨i,(hmem i hi).1,(hmem i hi).2,hp⟩
      · rintro ⟨i,hle,hi,hp⟩
        refine ⟨i,List.mem_range'_1.mpr ⟨hle,?_⟩,hp⟩
        have : selfPrio m.sync = m.prio := rfl
        omega
    rw [hfol] at hiff
    have hor := h.blocked_iff.mp hb
    constructor
    · intro hne
      by_cases hf : m.Followed
      · exact Or.inl hf
      · have hz : ¬(List.map m.rw.bwritersPrio (List.range' (selfPrio m.sync)
            (cfg.maxPrioLevels-selfPrio m.sync))).sum ≠ 0 := fun hs => hf (hiff.mp hs)
        exact Or.inr ⟨hor.resolve_right hf,by omega⟩
    · rintro (hf | ⟨_,hne⟩)
      · have := hiff.mpr hf
        omega
      · omega
  · next hb =>
    refine ⟨0,rfl,le_refl 0,iff_of_false (fun hn => hn rfl) fun ho => hb (h.blocked_iff.mpr ?_)⟩
    exact ho.elim Or.inr fun ho => Or.inl ho.1

/-- The count at any decision of a call, by the wake-ups before it. -/
theorem rdGranted_spec (hf : first.Sound) (ho : ∀ m ∈ older, m.Sound) :
    ∃ g, rdGranted first older = .ok g ∧ 0 ≤ g ∧ (g ≠ 0 ↔ CarriedOver first older) := by
  induction older with
  | nil => exact hf.grantedDown
  | cons m older ih =>
    obtain ⟨g,hg,hnn,hiff⟩ := ih fun m' hm => ho m' (List.mem_cons_of_mem _ hm)
    obtain ⟨g',hg',hnn',hiff'⟩ := (ho m List.mem_cons_self).grantedUp hnn
    refine ⟨g',?_,hnn',?_⟩
    · rw [rdGranted,hg]
      exact hg'
    · rw [hiff',hiff]
      exact Iff.rfl

/-- The test of the loop is the rule just when one of these holds. -/
theorem rdWaits_iff_due_iff {wakes : List (Moment cfg)} {g : ℤ} (hf : first.Sound)
    (ho : ∀ m ∈ wakes, m.Sound) (hg : rdGranted first wakes = .ok g) :
    (rdWaits (lastMoment first wakes).rw g ↔ (lastMoment first wakes).Due) ↔
      RuleKept first wakes := by
  obtain ⟨g',hg',hnn,hiff⟩ := rdGranted_spec hf ho
  obtain rfl : g' = g := Except.ok.inj (hg'.symm.trans hg)
  simp only [rdWaits,Moment.Due,hiff]
  cases wakes with
  | nil => exact iff_of_true Iff.rfl trivial
  | cons m older =>
    have hb := (ho m List.mem_cons_self).blocked_iff
    simp only [lastMoment,CarriedOver,RuleKept]
    by_cases hw : m.rw.writersWriting = 0
    · simp only [hw,ne_eq,not_true_eq_false,false_or]
      by_cases hout : m.Outranked
      · have hne : ¬m.rw.blockedWriters = 0 := hb.mpr (Or.inl hout)
        simp only [hout,hne,true_and,iff_true,false_or]
      · have hfol : m.rw.blockedWriters = 0 ↔ ¬m.Followed :=
          ⟨fun hz hf => hb.mpr (Or.inr hf) hz,fun hn => by_contra fun hz => (hb.mp hz).elim hout hn⟩
        simp only [hout,hfol,false_and,or_false,iff_false]
    · exact iff_of_true (iff_of_true (Or.inl hw) (Or.inl hw)) (Or.inl hw)

/-- Each decision of `pthread_rwlock_rdlock` follows the rule just when one of these holds. -/
theorem rdlock_decides_iff {wakes : List (Moment cfg)} (hf : first.Sound) (ho : ∀ m ∈ wakes, m.Sound) :
    (∃ g, rdGranted first wakes = .ok g ∧
      (rdWaits (lastMoment first wakes).rw g ↔ (lastMoment first wakes).Due)) ↔
    RuleKept first wakes := by
  obtain ⟨g,hg,-,-⟩ := rdGranted_spec hf ho
  rw [← rdWaits_iff_due_iff hf ho hg]
  constructor
  · rintro ⟨g',hg',h⟩
    rwa [Except.ok.inj (hg'.symm.trans hg)] at h
  · exact fun h => ⟨g,hg,h⟩

end

/-- In every state of threads that use one lock the table counts the waiting writers. -/
theorem RwInv.sound {s : RwState cfg} (h : RwInv s) (hf : Filed s) : Moment.Sound ⟨s.sync,s.rw⟩ where
  prio_lt := h.cond.prio s.sync.kernel.activeThread
  nonneg := (h.wellFiled hf).nonneg
  total := (h.wellFiled hf).total

theorem RwInv.outranked_iff {s : RwState cfg} (h : RwInv s) (hf : Filed s) :
    Moment.Outranked ⟨s.sync,s.rw⟩ ↔
      ∃ t, (s.loc t).wr = 1 ∧ (s.sync.kernel.pool t).prio ≤ selfPrio s.sync := by
  have hpos : ∀ p < cfg.maxPrioLevels, 0 < s.rw.bwritersPrio p ↔
      ∃ t, (s.loc t).wr = 1 ∧ (s.sync.kernel.pool t).prio = p := by
    intro p hp
    rw [(h.wellFiled hf).counts p hp,Int.natCast_pos,Finset.card_pos]
    simp only [Finset.Nonempty,RwState.waitingAt,Finset.mem_filter,Finset.mem_univ,true_and]
  have hlt : selfPrio s.sync < cfg.maxPrioLevels := h.cond.prio s.sync.kernel.activeThread
  constructor
  · rintro ⟨p,hp,hb⟩
    have hp' : p ≤ selfPrio s.sync := hp
    obtain ⟨t,ht,rfl⟩ := (hpos p (by omega)).mp hb
    exact ⟨t,ht,hp'⟩
  · rintro ⟨t,ht,hp⟩
    exact ⟨_,hp,(hpos _ (h.cond.prio t)).mpr ⟨t,ht,rfl⟩⟩

/-- Thread 3 first finds a writer at work, and then one of its own priority blocked. -/
def ownPrioFirst : Moment gnuArm :=
  ⟨Sync.init (fiveThreads.dispatch 3),{ Rwlock.init with writersWriting := 1 }⟩

def ownPrioWake : Moment gnuArm :=
  ⟨Sync.init (fiveThreads.dispatch 3),
    { Rwlock.init with blockedWriters := 1, bwritersPrio := fun p => if p = 3 then 1 else 0 }⟩

theorem rdlock_decides_ownPrio : ∃ g, rdGranted ownPrioFirst [ownPrioWake] = .ok g ∧
    (rdWaits ownPrioWake.rw g ↔ ownPrioWake.Due) := by
  have hf : ownPrioFirst.Sound := ⟨by decide,by decide,by decide⟩
  have ho : ∀ m ∈ [ownPrioWake], m.Sound := by
    intro m hm
    rw [List.mem_singleton.mp hm]
    exact ⟨by decide,by decide,by decide⟩
  exact (rdlock_decides_iff hf ho).mpr (by decide)

/-- Thread 3 waits to read while thread 0 writes, then thread 2 waits to write, and thread 0
unlocks. -/
def readerFirstSteps : List (RwLabel gnuArm) :=
  [.wrlock,.yield 20 3,.rdlock,.yield 20 2,.wrlock,.yield 20 0,.unlock,.yield 20 3]

/-- The reader gets the lock before the blocked writer, whose priority is better. -/
theorem rwRun_not_due :
    ¬∀ (k : Kernel gnuArm) (ls : List (RwLabel gnuArm)) (s s' : RwState gnuArm), Seated k →
      (rwMachine gnuArm).run (rwInit k) ls = some s → (s.loc s.me).want = some .read →
      (rwMachine gnuArm).Step s .resume s' → s'.rw.readersReading = s.rw.readersReading+1 →
      ¬Moment.Due ⟨s.sync,s.rw⟩ := by
  intro h
  obtain ⟨s,hr,hw,he,hd,hn⟩ := (rwMachine gnuArm).exists_run
    (fun s => (s.loc s.me).want = some .read ∧ rwEnabled s .resume = true ∧
      Moment.Due ⟨s.sync,s.rw⟩ ∧ (rwNext s .resume).toOption.any
        (fun s' => decide (s'.rw.readersReading = s.rw.readersReading+1)) = true)
    (rwInit fiveThreads) readerFirstSteps (by decide +kernel)
  obtain ⟨s',hs,hrd⟩ := exists_ok hn
  exact h _ _ s s' fiveThreads_seated hr hw ⟨he,hs⟩ (of_decide_eq_true hrd) hd

end Tinker

import Mathlib.Data.Finset.Card
import Mathlib.Data.Fintype.Basic
import Tinker.SemaphoreRun

/-! The counting semaphore without timeouts: what the token counts, and whom `sm_v` readies. -/
namespace Tinker

open Outcome Ring

variable {cfg : Config}

/-- The call waits for ever or not at all. -/
def Untimed : SemLabel cfg → Prop
  | .smP _ timeout _ => timeout = 0
  | _ => True

instance decidableUntimed : (x : SemLabel cfg) → Decidable (Untimed x)
  | .smP _ timeout _ => BitVec.decEq timeout 0
  | .smV => isTrue trivial
  | .resume => isTrue trivial
  | .yield _ _ => isTrue trivial

def isPost : SemLabel cfg → Bool
  | .smV => true
  | _ => false

/-- The threads behind the yield of `sm_p`. -/
def waiters (s : SemState cfg) : Finset (Thid cfg) :=
  Finset.univ.filter fun t => s.loc t = .inP none

structure CountInv (count : ℕ) (s : SemState cfg) : Prop where
  untimed : ∀ t m, s.loc t ≠ .inP (some m)
  token : s.itc.token = count + s.posts - s.taken
  taken : s.taken = s.oks + (waiters s).card

theorem waiters_update_of_notMem {s s' : SemState cfg} {t : Thid cfg} {x : SemLoc}
    (hl : s'.loc = Function.update s.loc t x) (hx : x ≠ .inP none) (ht : s.loc t ≠ .inP none) :
    waiters s' = waiters s := by
  ext u
  simp only [waiters,Finset.mem_filter,Finset.mem_univ,true_and,hl]
  by_cases hut : u = t
  · subst hut; simp [hx,ht]
  · rw [Function.update_of_ne hut]

theorem card_waiters_enter {s s' : SemState cfg} {t : Thid cfg}
    (hl : s'.loc = Function.update s.loc t (.inP none)) (ht : s.loc t ≠ .inP none) :
    (waiters s').card = (waiters s).card+1 := by
  have h : waiters s' = insert t (waiters s) := by
    ext u
    simp only [waiters,Finset.mem_filter,Finset.mem_univ,true_and,Finset.mem_insert,hl]
    by_cases hut : u = t
    · subst hut; simp
    · simp [hut]
  rw [h,Finset.card_insert_of_notMem (by simp [waiters,ht])]

theorem card_waiters_leave {s s' : SemState cfg} {t : Thid cfg}
    (hl : s'.loc = Function.update s.loc t .user) (ht : s.loc t = .inP none) :
    (waiters s').card+1 = (waiters s).card := by
  refine (card_waiters_enter (s:=s') (t:=t) ?_ ?_).symm
  · rw [hl,Function.update_idem,← ht,Function.update_eq_self]
  · rw [hl,Function.update_self]; rintro ⟨⟩

section

variable {count : ℕ} {s : SemState cfg} {l : List (Thid cfg)}

/-- Without timeouts everybody in the ring is blocked there. -/
theorem CountInv.blocked (hc : CountInv count s) (h : SemInv s l) {t : Thid cfg} (ht : t ∈ l) :
    (s.kernel.pool t).state = .queue ∧ s.loc t = .inP none := by
  obtain h | ⟨⟨m,hm⟩,_⟩ := h.waiting.entry t ht
  · exact h
  · exact absurd hm (hc.untimed t m)

theorem CountInv.length_le (hc : CountInv count s) (h : SemInv s l) :
    l.length ≤ (waiters s).card := by
  rw [← List.toFinset_card_of_nodup h.waiting.nodup]
  refine Finset.card_le_card fun t ht => ?_
  rw [List.mem_toFinset] at ht
  simpa [waiters] using (hc.blocked h ht).2

theorem CountInv.token_le (hc : CountInv count s) : s.itc.token ≤ count + s.posts := by
  have := hc.token
  omega

/-- `sm_v` on a negative token readies the head of the ring. -/
theorem CountInv.smV (hc : CountInv count s) (h : SemInv s l) (he : s.runs = true)
    (ho : s.itc.token+1 < 2^31) : Spec (semNext s .smV) (fun s' => CountInv count s' ∧
      ∃ l', SemInv s' l' ∧ s'.posts = s.posts+1 ∧ (l = [] ∧ l' = [] ∨
        ∃ t, l = t :: l' ∧ s'.kernel = readyByItc s.kernel t)) (fun _ => False) := by
  have hu : s.loc s.kernel.activeThread = .user := by
    simpa using (Bool.and_eq_true_iff.mp he).2
  refine (h.smV he ho).imp ?_
  rintro s' ⟨hp,ht,ho,⟨rfl,htok,hk,hl,hi⟩ | ⟨pre,him,post,rfl,hk,htok,hl,hpre,hi⟩⟩
  · refine ⟨⟨by rw [hl]; exact hc.untimed,?_,?_⟩,[],hi,hp,Or.inl ⟨rfl,rfl⟩⟩
    · have := hc.token
      rw [htok,hp,ht]
      push_cast
      omega
    · rw [ht,ho,hc.taken]
      simp only [waiters,hl]
  · have hnil : pre = [] := by
      refine List.eq_nil_iff_forall_not_mem.mpr fun t hm => ?_
      have := hpre t hm
      rw [(hc.blocked h (List.mem_append_left _ hm)).1] at this
      simp at this
    subst hnil
    refine ⟨⟨?_,?_,?_⟩,post,hi,hp,Or.inr ⟨him,rfl,hk⟩⟩
    · intro t m ht
      rw [hl] at ht
      exact hc.untimed t m (of_update_eq ht (by rintro ⟨⟩))
    · have hlen := h.queued.length
      have htk := hc.token
      simp only [List.nil_append,List.length_cons] at hlen
      rw [htok,hp,ht]
      push_cast
      omega
    · rw [ht,ho,hc.taken,waiters_update_of_notMem hl (by rintro ⟨⟩) (by rw [hu]; rintro ⟨⟩)]

theorem countStep_spec {x : SemLabel cfg} (hc : CountInv count s) (h : SemInv s l)
    (he : semEnabled s x = true) (hu : Untimed x)
    (ho : isPost x = true → count + s.posts + 1 < 2^31) :
    Spec (semNext s x) (fun s' => CountInv count s' ∧ (∃ l', SemInv s' l') ∧
      s'.posts = s.posts + (if isPost x then 1 else 0)) (fun _ => False) := by
  cases x with
  | smP flags timeout clk =>
    have hu' : s.loc s.kernel.activeThread = .user := by
      simpa using (Bool.and_eq_true_iff.mp he).2
    refine (h.smP he).imp ?_
    rintro s' (⟨hk,hl,hp,hi,hcase⟩ | ⟨m,hl,hm,hp,_,hi,htok,ht,hoks⟩)
    · have hw : waiters s' = waiters s := by simp only [waiters,hl]
      refine ⟨⟨by rw [hl]; exact hc.untimed,?_,?_⟩,⟨_,hi⟩,hp⟩
      · have := hc.token
        obtain ⟨_,hq,ht,_⟩ | ⟨_,hq,ht,_⟩ := hcase
        · rw [hq,hp,ht]; push_cast; omega
        · rw [hq,hp,ht]; exact this
      · have := hc.taken
        rw [hw]
        obtain ⟨_,_,ht,hoks⟩ | ⟨_,_,ht,hoks,_⟩ := hcase <;> omega
    · have hm : m = none := Option.isNone_iff_eq_none.mp (hm.mpr hu)
      subst hm
      have hcard := card_waiters_enter hl (by rw [hu']; rintro ⟨⟩)
      refine ⟨⟨?_,?_,?_⟩,⟨_,hi⟩,hp⟩
      · intro t m ht
        rw [hl] at ht
        exact hc.untimed t m (of_update_eq ht (by rintro ⟨⟩))
      · have := hc.token
        rw [htok,hp,ht]; push_cast; omega
      · have := hc.taken
        omega
  | smV =>
    have := hc.token_le
    have hlt := ho rfl
    refine (hc.smV h he (by omega)).imp ?_
    rintro s' ⟨hc',l',hi,hp,_⟩
    exact ⟨hc',⟨l',hi⟩,hp⟩
  | resume =>
    have hown : OwnEntry s .resume := by
      simp only [OwnEntry]
      split
      · next m hm => exact absurd hm (hc.untimed _ m)
      · trivial
    refine (h.resume he hown).imp ?_
    rintro s' ⟨l',hi,hp,ht,hsame⟩
    obtain ⟨_,hq,_,hl,hoks⟩ := hsame (hc.untimed _)
    refine ⟨⟨?_,by rw [hq,hp,ht]; exact hc.token,?_⟩,⟨l',hi⟩,hp⟩
    · intro t m ht
      rw [hl] at ht
      exact hc.untimed t m (of_update_eq ht (by rintro ⟨⟩))
    · have := hc.taken
      by_cases hn : s.loc s.kernel.activeThread = .inP none
      · have := card_waiters_leave hl hn
        rw [if_pos hn] at hoks
        omega
      · rw [if_neg hn] at hoks
        rw [ht,hoks,waiters_update_of_notMem hl (by rintro ⟨⟩) hn]
        exact hc.taken
  | yield clk t =>
    refine (h.yield he).imp ?_
    rintro s' ⟨hi,hq,hl,hp,ht,hoks⟩
    refine ⟨⟨by rw [hl]; exact hc.untimed,by rw [hq,hp,ht]; exact hc.token,?_⟩,⟨l,hi⟩,hp⟩
    rw [ht,hoks,hc.taken]
    simp only [waiters,hl]

end

/-- The run lemma: the invariants hold at the end, and `posts` is the number of `sm_v` calls. -/
theorem countRun_inv {count : ℕ} {ls : List (SemLabel cfg)} {s s' : SemState cfg}
    {l : List (Thid cfg)} (hc : CountInv count s) (h : SemInv s l) (hu : ∀ x ∈ ls, Untimed x)
    (hn : count + s.posts + ls.countP isPost < 2^31) (hr : (semMachine cfg).run s ls = some s') :
    CountInv count s' ∧ (∃ l', SemInv s' l') ∧ s'.posts = s.posts + ls.countP isPost := by
  induction ls generalizing s l with
  | nil =>
    simp only [Machine.run,Option.some.injEq] at hr
    subst hr
    exact ⟨hc,⟨l,h⟩,rfl⟩
  | cons x ls ih =>
    obtain ⟨m,hstep,hr⟩ := (semMachine cfg).run_cons.mp hr
    rw [List.countP_cons] at hn ⊢
    obtain ⟨hc',⟨l',hi⟩,hp⟩ := (countStep_spec hc h hstep.1 (hu x List.mem_cons_self)
      (fun hx => by rw [if_pos hx] at hn; omega)).of_ok hstep.2
    obtain ⟨hc'',hi',hp'⟩ := ih hc' hi (fun y hy => hu y (List.mem_cons_of_mem x hy))
      (by rw [hp]; omega) hr
    exact ⟨hc'',hi',by rw [hp',hp]; omega⟩

/-- The token and the ring of an untimed semaphore, and what the next call does to them. -/
structure WellCounted (count : ℕ) (s : SemState cfg) : Prop where
  token : s.itc.token = count + s.posts - s.taken
  oks_le : s.oks ≤ count + s.posts
  ring : ∃ l : List (Thid cfg), s.itc.idxs.map s.itc.blockedProcs = l.map some ∧
    l.length = (-s.itc.token).toNat ∧ l.length < cfg.maxBlockedOnQ ∧
    (∀ t, t ∈ l ↔ (s.kernel.pool t).state.has .queue = true) ∧
    l.Pairwise fun t u => s.arrival t < s.arrival u
  /-- `sm_v` readies the one that has waited longest and nobody else leaves. -/
  post : ∀ s' l, s.itc.idxs.map s.itc.blockedProcs = List.map some l → s.itc.token < 0 →
    (semMachine cfg).Step s .smV s' → ∃ t rest, l = t :: rest ∧
      s'.itc.idxs.map s'.itc.blockedProcs = rest.map some ∧ s'.kernel = readyByItc s.kernel t
  /-- A call that does not fit leaves the object alone. -/
  full : ∀ s' flags timeout clk, flags &&& nowait = 0 → s.itc.token ≤ 0 →
    cfg.maxBlockedOnQ ≤ (-s.itc.token).toNat+1 →
    (semMachine cfg).Step s (.smP flags timeout clk) s' → s'.itc = s.itc ∧ s'.kernel = s.kernel ∧
      s'.ret s.kernel.activeThread = some .blockLimit
  /-- Every call comes back, as far as its post fits an `int`. -/
  returns : ∀ x, semEnabled s x = true → Untimed x →
    (isPost x = true → count + s.posts + 1 < 2^31) → ∃ s', semNext s x = .ok s'

theorem CountInv.wellCounted {count : ℕ} {s : SemState cfg} {l : List (Thid cfg)}
    (hc : CountInv count s) (h : SemInv s l) : WellCounted count s where
  token := hc.token
  oks_le := by
    have h1 := hc.token
    have h2 := hc.taken
    have h3 := hc.length_le h
    have h4 := h.queued.length
    omega
  ring := by
    refine ⟨l,h.queued.holds.map_walk,h.queued.length,h.queued.holds.room,fun t => ⟨fun ht => ?_,
      h.waiting.queued t⟩,h.order⟩
    rw [(hc.blocked h ht).1]
    decide
  post := by
    intro s' l' hl htok hstep
    obtain rfl : l' = l := by
      have := hl.symm.trans h.queued.holds.map_walk
      exact List.map_injective_iff.mpr (Option.some_injective _) this
    obtain ⟨_,rest,hi,_,⟨hnil,_⟩ | ⟨t,hcons,hk⟩⟩ :=
      (hc.smV h hstep.1 (by omega)).of_ok hstep.2
    · exact absurd hnil (h.queued.token_neg.mp htok)
    · exact ⟨t,rest,hcons,hi.queued.holds.map_walk,hk⟩
  full := by
    intro s' flags timeout clk hf htok hroom hstep
    have hlen := h.queued.length
    obtain ⟨hk,_,_,_,⟨ht,_⟩ | ⟨ht,hq,_,_,hfull⟩⟩ | ⟨_,_,_,_,hfit,_⟩ :=
      (h.smP hstep.1).of_ok hstep.2
    · omega
    · exact ⟨hq,hk,(hfull hf).2⟩
    · omega
  returns := by
    intro x he hu ho
    obtain ⟨s',hs',-⟩ := spec_total_iff.mp (countStep_spec hc h he hu ho)
    exact ⟨s',hs'⟩

/-- Every run of untimed calls whose posts fit an `int` keeps count. -/
theorem semRun_wellCounted {k : Kernel cfg} {count : ℕ} {flags : IpcFlags} (hk : Quiet k)
    (hf : flags &&& prior = 0) {ls : List (SemLabel cfg)} {s : SemState cfg}
    (hu : ∀ x ∈ ls, Untimed x) (hn : count + ls.countP isPost < 2^31)
    (hr : (semMachine cfg).run (semInit k count flags) ls = some s) :
    s.posts = ls.countP isPost ∧ WellCounted count s := by
  have hc : CountInv count (semInit k count flags) := by
    refine ⟨by rintro t m ⟨⟩,?_,?_⟩
    · have : toInt32 count = count := toInt32_of_range (by omega) (by omega)
      simp [semInit,smCreate,this]
    · simp [semInit,waiters]
  obtain ⟨hc',⟨l,hi⟩,hp⟩ := countRun_inv hc (semInit_inv hk hf (by omega)) hu
    (by simpa [semInit] using hn) hr
  exact ⟨by simpa [semInit] using hp,hc'.wellCounted hi⟩

/-- Two threads wait, and a third one posts twice. -/
def postSteps : List (SemLabel gnuArm) :=
  [.smP fifo 0 0,.yield 0 1,.smP fifo 0 0,.yield 0 2,.smP nowait 0 0,.smV,.yield 0 0,.resume]

theorem semRun_wellCounted_post : ∃ s : SemState gnuArm,
    (semMachine gnuArm).run (semInit fiveThreads 0 fifo) postSteps = some s ∧ s.oks = 1 ∧
    s.posts = postSteps.countP isPost ∧ WellCounted 0 s := by
  obtain ⟨s,hr,ho⟩ := (semMachine gnuArm).exists_run (fun s => s.oks = 1)
    (semInit fiveThreads 0 fifo) postSteps (by decide +kernel)
  exact ⟨s,hr,ho,semRun_wellCounted fiveThreads_quiet (by decide) (by decide) (by decide) hr⟩

end Tinker

import Mathlib.Data.Finset.Card
import Tinker.PriorRing
import Tinker.SemaphoreCount

/-! The token of a semaphore as a number. Here the ring counts by its indices alone, whoever is in
it, so the waits may be timed and the semaphore FIFO or PRIOR. -/
namespace Tinker

open Outcome Ring

variable {cfg : Config}

/-- `len` cells of the ring are taken, and a negative token counts them. -/
structure Itc.Counts (q : Itc cfg) (len : ℕ) : Prop where
  out_lt : q.outIdx < cfg.maxBlockedOnQ
  room : len < cfg.maxBlockedOnQ
  inn : q.inIdx = place cfg.maxBlockedOnQ q.outIdx len
  token : len = (-q.token).toNat

section

variable {k k' : Kernel cfg} {q q' : Itc cfg} {len : ℕ}

theorem Itc.Queued.counts {l : List (Thid cfg)} (h : q.Queued l) : q.Counts l.length :=
  ⟨h.holds.out_lt,h.holds.room,h.holds.inn_eq,h.length⟩

theorem Itc.Counts.idxs (h : q.Counts len) : q.idxs.length = len := by
  have hw := walk_place h.room q.outIdx cfg.maxBlockedOnQ 0 (Nat.zero_le _) h.room.le
  rw [place_zero h.out_lt,← h.inn] at hw
  rw [Itc.idxs,hw]
  simp

/-- A call that queues up takes one cell more. -/
theorem Itc.Counts.push (h : q.Counts len) (ht : q.token ≤ 0)
    (hr : q.token.natAbs < cfg.maxBlockedOnQ-1) (cells : ℕ → Option (Thid cfg)) :
    Itc.Counts { q with
      token := q.token-1
      blockedProcs := cells
      inIdx := succ cfg.maxBlockedOnQ q.inIdx } (len+1) := by
  have hlen := h.token
  refine ⟨h.out_lt,by omega,?_,by simp only; omega⟩
  simp only [h.inn,succ_place]

/-- The front cell is left. -/
theorem Itc.Counts.pop (h : q.Counts (len+1)) : Itc.Counts { q with
    outIdx := succ cfg.maxBlockedOnQ q.outIdx, token := q.token+1 } len := by
  have hlen := h.token
  refine ⟨place_lt cfg.maxBlockedOnQ_pos _ _,Nat.lt_of_succ_lt h.room,?_,by simp only; omega⟩
  simp only [h.inn,place_succ]

/-- `_itc_removeBlocked` takes one cell out, wherever the index points. -/
theorem Itc.Counts.remove (h : q.Counts (len+1)) (idx : ℕ) : (itcRemoveBlocked q idx).Counts len := by
  have hlen := h.token
  have hlt := Nat.lt_of_succ_lt h.room
  have hpred : pred cfg.maxBlockedOnQ q.inIdx = place cfg.maxBlockedOnQ q.outIdx len := by
    rw [h.inn,pred_place cfg.maxBlockedOnQ_pos]
  have htok : len = (-(q.token+1)).toNat := by omega
  simp only [itcRemoveBlocked]
  split
  · refine ⟨place_lt cfg.maxBlockedOnQ_pos _ _,hlt,?_,htok⟩
    simp only [h.inn,place_succ]
  · split
    · exact ⟨h.out_lt,hlt,hpred,htok⟩
    · exact ⟨h.out_lt,hlt,hpred,htok⟩

theorem itcRemoveBlocked_token (q : Itc cfg) (idx : ℕ) :
    (itcRemoveBlocked q idx).token = q.token+1 := by
  simp only [itcRemoveBlocked]
  split
  · rfl
  · split <;> rfl

theorem itcRemoveBlocked_bType (q : Itc cfg) (idx : ℕ) :
    (itcRemoveBlocked q idx).bType = q.bType := by
  simp only [itcRemoveBlocked]
  split
  · rfl
  · split <;> rfl

/-- Cells are given back: from `q` to `q'` the ring is `len-len'` cells shorter, and the token has
grown as much. -/
structure Itc.Frees (q q' : Itc cfg) (len len' : ℕ) : Prop where
  counts : q'.Counts len'
  le : len' ≤ len
  token : q'.token = q.token+(len-len' : ℕ)
  bType : q'.bType = q.bType

theorem Itc.Frees.refl (h : q.Counts len) : q.Frees q len len := ⟨h,le_rfl,by simp,rfl⟩

theorem Itc.Frees.trans {q'' : Itc cfg} {len' len'' : ℕ} (h : q.Frees q' len len')
    (h' : q'.Frees q'' len' len'') : q.Frees q'' len len'' := by
  have h1 := h.token
  have h2 := h'.token
  have h3 := h.le
  have h4 := h'.le
  exact ⟨h'.counts,h4.trans h3,by omega,h'.bType.trans h.bType⟩

theorem Itc.Counts.removes (h : q.Counts (len+1)) (idx : ℕ) :
    q.Frees (itcRemoveBlocked q idx) (len+1) len :=
  ⟨h.remove idx,Nat.le_succ len,by rw [itcRemoveBlocked_token]; omega,itcRemoveBlocked_bType q idx⟩

/-- A negative token means a cell that is taken. -/
theorem Itc.Counts.succ_of_neg (h : q.Counts len) (ht : q.token < 0) : ∃ n, len = n+1 := by
  have := h.token
  exact ⟨len-1,by omega⟩

/-- The FIFO branch passes over the front of the ring. -/
def Itc.Passes (k : Kernel cfg) (q : Itc cfg) : Prop :=
  q.token+1 < 0 ∧ ∃ t, q.blockedProcs q.outIdx = some t ∧ (k.pool t).state.has .queue = false

theorem Itc.Counts.popBlocked {fuel : ℕ} (h : q.Counts (len+1)) : Spec (popBlocked k fuel q)
    (fun r => ∃ len' ≤ len, q.Frees r.2 (len+1) len' ∧ (¬q.Passes k → len' = len))
    (fun _ => True) := by
  induction fuel generalizing q len with
  | zero => trivial
  | succ fuel ih =>
    have hpop : q.Frees { q with
        outIdx := succ cfg.maxBlockedOnQ q.outIdx, token := q.token+1 } (len+1) len :=
      ⟨h.pop,Nat.le_succ len,by simp only; omega,rfl⟩
    simp only [Tinker.popBlocked,spec_bind,spec_ite,spec_pure,Itc.proc]
    cases hcell : q.blockedProcs q.outIdx with
    | none => trivial
    | some him =>
      refine ⟨fun hgo => ?_,fun _ => ⟨len,le_rfl,hpop,fun _ => rfl⟩⟩
      obtain ⟨n,rfl⟩ := h.pop.succ_of_neg hgo.2
      refine (ih h.pop).imp ?_
      rintro r ⟨len',hle,hf,-⟩
      exact ⟨len',by omega,hpop.trans hf,fun hn => absurd ⟨hgo.2,him,hcell,hgo.1⟩ hn⟩

/-- The search of a ring that is not empty finds a thread. -/
theorem Itc.Counts.bestBlocked (h : q.Counts (len+1)) : Spec (bestBlocked k q)
    (fun b => b.isSome = true) (fun _ => True) := by
  have hstays : ∀ is : List ℕ, ∀ b : Option (ℕ × Thid cfg), b.isSome = true →
      Spec (is.foldlM (bestRound k q) b) (fun b => b.isSome = true) (fun _ => True) := by
    intro is b hb
    refine spec_foldlM hb fun b i _ hb => ?_
    obtain ⟨⟨j,u⟩,rfl⟩ := Option.isSome_iff_exists.mp hb
    simp only [bestRound,spec_bind,spec_pure]
    refine spec_of_forall fun t => ?_
    split <;> rfl
  have hidx := h.idxs
  rw [bestBlocked_eq]
  cases hi : q.idxs with
  | nil =>
    rw [hi] at hidx
    cases hidx
  | cons i is =>
    rw [List.foldlM_cons,spec_bind]
    simp only [bestRound,spec_bind,spec_pure]
    exact spec_of_forall fun t => hstays is _ rfl

/-- `unlock_stage` gives back a token, or it finds a waiter to ready. -/
theorem Itc.Counts.unlockStage (h : q.Counts len) : Spec (unlockStage k q) (fun r =>
    (0 ≤ q.token ∧ r = (k,{ q with token := toInt32 (q.token+1) },false)) ∨
    ∃ him len', len' < len ∧ r.1 = readyByItc k him ∧ q.Frees r.2.1 len len' ∧ r.2.2 = true ∧
      (¬(q.flags &&& prior = 0 ∧ q.Passes k) → len'+1 = len)) (fun _ => True) := by
  simp only [Tinker.unlockStage,spec_ite,spec_bind,spec_pure]
  refine ⟨fun hneg => ?_,fun hpos => Or.inl ⟨by omega,rfl⟩⟩
  obtain ⟨n,rfl⟩ := h.succ_of_neg hneg
  refine ⟨fun _ => (h.bestBlocked).imp fun b hb => ?_,fun hfifo => h.popBlocked.imp ?_⟩
  · obtain ⟨⟨i,t⟩,rfl⟩ := Option.isSome_iff_exists.mp hb
    exact Or.inr ⟨t,n,Nat.lt_succ_self n,rfl,h.removes i,rfl,fun _ => rfl⟩
  · rintro ⟨him,q'⟩ ⟨len',hle,hf,hfirst⟩
    refine Or.inr ⟨him,len',Nat.lt_succ_of_le hle,rfl,hf,trivial,fun hn => ?_⟩
    rw [hfirst fun hp => hn ⟨not_not.mp hfifo,hp⟩]

/-- At most `m` control blocks are told of a timeout by another thread. -/
structure Dropping (k k' : Kernel cfg) (m : ℕ) : Prop where
  few : ∃ D : Finset (Thid cfg), D.card ≤ m ∧ ∀ t ∉ D, k'.pool t = k.pool t
  pool : ∀ t, k'.pool t = k.pool t ∨ k'.pool t = { k.pool t with wakeupEvent := .itc2 }
  active : k'.activeThread = k.activeThread

theorem Dropping.refl (k : Kernel cfg) : Dropping k k 0 :=
  ⟨⟨∅,le_rfl,fun _ _ => rfl⟩,fun _ => Or.inl rfl,rfl⟩

theorem Dropping.trans {k'' : Kernel cfg} {m n : ℕ} (h : Dropping k k' m) (h' : Dropping k' k'' n) :
    Dropping k k'' (m+n) where
  few := by
    obtain ⟨D,hD,hp⟩ := h.few
    obtain ⟨D',hD',hp'⟩ := h'.few
    refine ⟨D ∪ D',(Finset.card_union_le D D').trans (Nat.add_le_add hD hD'),fun t ht => ?_⟩
    rw [Finset.notMem_union] at ht
    rw [hp' t ht.2,hp t ht.1]
  pool := fun t => by
    obtain he' | he' := h'.pool t
    · rw [he']
      exact h.pool t
    · obtain he | he := h.pool t
      · exact Or.inr (by rw [he',he])
      · exact Or.inr (by rw [he',he])
  active := h'.active.trans h.active

theorem Dropping.mono {m n : ℕ} (h : Dropping k k' m) (hn : m ≤ n) : Dropping k k' n := by
  obtain ⟨D,hD,hp⟩ := h.few
  exact ⟨⟨D,hD.trans hn,hp⟩,h.pool,h.active⟩

theorem Dropping.one (k : Kernel cfg) (t : Thid cfg) :
    Dropping k (k.modTcb t fun b => { b with wakeupEvent := .itc2 }) 1 where
  few := by
    refine ⟨{t},le_rfl,fun u hu => ?_⟩
    rw [Kernel.modTcb_pool,if_neg fun he => hu (Finset.mem_singleton.mpr he)]
  pool := fun u => by
    rw [Kernel.modTcb_pool]
    split
    · next he => exact Or.inr (by rw [he])
    · exact Or.inl rfl
  active := rfl

/-- The clean-up loop frees a cell for each thread it tells. -/
theorem Itc.Counts.dropTimedOut {fuel markIdx : ℕ} (h : q.Counts (len+1)) :
    Spec (dropTimedOut fuel markIdx k q) (fun r => ∃ len', q.Frees r.2 (len+1) len' ∧
      Dropping k r.1 (len+1-len')) (fun _ => True) := by
  induction fuel generalizing k q markIdx len with
  | zero => trivial
  | succ fuel ih =>
    simp only [Tinker.dropTimedOut,spec_bind]
    refine spec_of_forall fun t => ?_
    -- one round, whether it finds a timed out thread or not
    generalize hround : (if (k.pool t).state = .ready ∧ (k.pool t).wakeupEvent = .timer then
        (k.modTcb t fun b => { b with wakeupEvent := .itc2 },itcRemoveBlocked q markIdx)
      else (k,q)) = round
    obtain ⟨k1,q1⟩ := round
    have hone : ∃ len1, q.Frees q1 (len+1) len1 ∧ Dropping k k1 (len+1-len1) := by
      split at hround
      · obtain ⟨rfl,rfl⟩ := Prod.mk.inj hround
        exact ⟨len,h.removes markIdx,(Dropping.one k t).mono (by omega)⟩
      · obtain ⟨rfl,rfl⟩ := Prod.mk.inj hround
        exact ⟨len+1,Itc.Frees.refl h,(Dropping.refl k).mono (Nat.zero_le _)⟩
    obtain ⟨len1,hf1,hd1⟩ := hone
    simp only [spec_ite,spec_pure]
    refine ⟨fun _ => ⟨len1,hf1,hd1⟩,fun _ => ⟨fun hgo => ?_,fun _ => ⟨len1,hf1,hd1⟩⟩⟩
    obtain ⟨n,rfl⟩ := hf1.counts.succ_of_neg hgo.1
    refine (ih hf1.counts).imp ?_
    rintro r ⟨len2,hf2,hd2⟩
    have := hf1.le
    have := hf2.le
    exact ⟨len2,hf1.trans hf2,(hd1.trans hd2).mono (by omega)⟩

/-- A thread that has timed out frees a cell for itself, if any is taken, and may free others. -/
theorem Itc.Counts.lockStageWoken {markIdx : ℕ} (h : q.Counts len) :
    Spec (lockStageWoken k q markIdx) (fun r =>
      (k.pool k.activeThread).wakeupEvent ≠ .timer ∧ r.1 = k ∧ r.2.1 = q ∨
      (k.pool k.activeThread).wakeupEvent = .timer ∧
      ∃ len', q.Frees r.2.1 len len' ∧ Dropping k r.1 (len-1-len') ∧ (len = 0 ∨ len' < len))
      (fun _ => True) := by
  unfold Tinker.lockStageWoken
  split
  · next hev =>
    simp only [spec_ite,spec_ok,spec_bind,spec_pure]
    refine ⟨fun hpos => Or.inr ⟨hev,?_⟩,fun hneg => ?_⟩
    · have h0 : len = 0 := by
        have := h.token
        omega
      exact ⟨len,Itc.Frees.refl h,(Dropping.refl k).mono (Nat.zero_le _),Or.inl h0⟩
    · obtain ⟨n,rfl⟩ := h.succ_of_neg (by omega)
      have hfirst := h.removes (pred cfg.maxBlockedOnQ markIdx)
      refine ⟨fun _ => Or.inr ⟨hev,n,hfirst,(Dropping.refl k).mono (Nat.zero_le _),
        Or.inr (Nat.lt_succ_self n)⟩,fun hneg1 => ?_⟩
      obtain ⟨m,rfl⟩ := hfirst.counts.succ_of_neg (by omega)
      refine hfirst.counts.dropTimedOut.imp ?_
      rintro ⟨k',q'⟩ ⟨len',hf,hd⟩
      have := hf.le
      exact Or.inr ⟨hev,len',hfirst.trans hf,hd.mono (by omega),Or.inr (by omega)⟩
  · next he => exact Or.inl ⟨by simp [he],rfl,rfl⟩
  · next he _ => exact Or.inl ⟨he,rfl,rfl⟩

end

/-! ### Runs -/

/-- The users of a semaphore; `withdrawn` counts the cells of the ring that have been freed for
waits that had timed out. -/
structure TokenState (cfg : Config) where
  sem : SemState cfg
  withdrawn : ℕ

/-- The cells a step frees for waits that have timed out. An `sm_v` that finds waiters frees one
for the wait it ends. -/
def withdraws (s s' : SemState cfg) : SemLabel cfg → ℕ
  | .smV => if s.itc.token < 0 then s.itc.idxs.length-s'.itc.idxs.length-1 else 0
  | .resume => s.itc.idxs.length-s'.itc.idxs.length
  | _ => 0

def tokenNext (s : TokenState cfg) (x : SemLabel cfg) : Except Fault (TokenState cfg) := do
  let s' ← semNext s.sem x
  return ⟨s',s.withdrawn+withdraws s.sem s' x⟩

def tokenMachine (cfg : Config) : Machine (TokenState cfg) (SemLabel cfg) Fault where
  enabled s := semEnabled s.sem
  next := tokenNext

def tokenInit (k : Kernel cfg) (count : ℕ) (flags : IpcFlags) : TokenState cfg :=
  ⟨semInit k count flags,0⟩

/-- No `sm_v` is made while the token is `INT_MAX`. -/
def FitsInt (s : TokenState cfg) (x : SemLabel cfg) : Prop :=
  x = .smV → s.sem.itc.token+1 < 2^31

/-- The thread is inside `sm_p`. -/
def SemLoc.inside : SemLoc → Bool
  | .inP _ => true
  | _ => false

/-- The token is the number it stands for, an `int`, and negative only while somebody is inside
`sm_p` and the ring of those who are blocked is not empty. -/
structure TokenExact (count : ℕ) (s : TokenState cfg) : Prop where
  exact : s.sem.itc.token = count+s.sem.posts-s.sem.taken+s.withdrawn
  int : -(cfg.maxBlockedOnQ : ℤ) < s.sem.itc.token ∧ s.sem.itc.token < 2^31
  nobody : (∀ t, (s.sem.loc t).inside = false) → 0 ≤ s.sem.itc.token
  waiter : s.sem.itc.token < 0 → s.sem.itc.inIdx ≠ s.sem.itc.outIdx

/-- The threads inside `sm_p` whose cell of the ring has not been freed for them. -/
def unserved (s : SemState cfg) : Finset (Thid cfg) :=
  Finset.univ.filter fun t => (s.loc t).inside = true ∧
    ((s.kernel.pool t).state.has .queue = true ∨ (s.kernel.pool t).wakeupEvent = .timer)

structure TokenInv (count : ℕ) (s : TokenState cfg) (len : ℕ) : Prop where
  counts : s.sem.itc.Counts len
  sem : s.sem.itc.bType = .sem
  token_lt : s.sem.itc.token < 2^31
  exact : s.sem.itc.token = count+s.sem.posts-s.sem.taken+s.withdrawn
  waiting : len ≤ (unserved s.sem).card
  untimed : ∀ t, s.sem.loc t = .inP none → (s.sem.kernel.pool t).state.has .sleep = false ∧
    (s.sem.kernel.pool t).wakeupEvent ≠ .timer
  alive : Alive s.sem.kernel
  running : s.sem.yielding = false → (s.sem.kernel.pool s.sem.kernel.activeThread).state = .ready

section

variable {count len : ℕ} {s : TokenState cfg} {s' : SemState cfg}

@[simp] theorem mem_unserved {s : SemState cfg} {t : Thid cfg} : t ∈ unserved s ↔
    (s.loc t).inside = true ∧
    ((s.kernel.pool t).state.has .queue = true ∨ (s.kernel.pool t).wakeupEvent = .timer) := by
  simp [unserved]

theorem TokenInv.tokenExact (h : TokenInv count s len) : TokenExact count s where
  exact := h.exact
  int := by
    have h1 := h.counts.token
    have h2 := h.counts.room
    have h3 := h.token_lt
    omega
  nobody := fun hn => by
    have hnone : unserved s.sem = ∅ := by
      refine Finset.eq_empty_of_forall_notMem fun t ht => ?_
      rw [mem_unserved,hn t] at ht
      cases ht.1
    have hw := h.waiting
    rw [hnone,Finset.card_empty] at hw
    have := h.counts.token
    omega
  waiter := fun ht he => by
    obtain ⟨n,rfl⟩ := h.counts.succ_of_neg ht
    have hinn := h.counts.inn
    have hout : place cfg.maxBlockedOnQ s.sem.itc.outIdx 0 = s.sem.itc.outIdx :=
      place_zero h.counts.out_lt
    rw [he] at hinn
    exact absurd (place_inj cfg.maxBlockedOnQ_pos h.counts.room (hout.trans hinn))
      (Nat.succ_ne_zero n).symm

/-- Whoever has been told of a timeout by another thread, or has left `sm_p`, is served. -/
theorem card_unserved {s s' : SemState cfg} {D : Finset (Thid cfg)}
    (h : ∀ t ∉ D, t ∈ unserved s → t ∈ unserved s') :
    (unserved s).card ≤ (unserved s').card+D.card := by
  have hsub : unserved s \ D ⊆ unserved s' := by
    intro t ht
    rw [Finset.mem_sdiff] at ht
    exact h t ht.2 ht.1
  calc (unserved s).card ≤ (unserved s \ D).card+D.card := Finset.card_le_card_sdiff_add_card
    _ ≤ (unserved s').card+D.card := Nat.add_le_add_right (Finset.card_le_card hsub) _

theorem TokenInv.user (he : s.sem.runs = true) :
    s.sem.yielding = false ∧ s.sem.loc s.sem.kernel.activeThread = .user := by
  simpa [SemState.runs] using he

/-- A call of `sm_p` that ends at once changes the token at most. -/
theorem TokenInv.ends (h : TokenInv count s len) (hs : s'.kernel = s.sem.kernel)
    (hl : s'.loc = s.sem.loc) (hy : s'.yielding = s.sem.yielding) (hc : s'.itc.Counts len)
    (hb : s'.itc.bType = .sem) (ht : s'.itc.token < 2^31)
    (he : s'.itc.token = count+s'.posts-s'.taken+s.withdrawn) :
    TokenInv count ⟨s',s.withdrawn⟩ len := by
  have hw : unserved s' = unserved s.sem := by
    simp only [unserved,hs,hl]
  refine ⟨hc,hb,ht,he,?_,?_,?_,?_⟩
  · rw [hw]
    exact h.waiting
  · simpa only [hs,hl] using h.untimed
  · simpa only [hs] using h.alive
  · simpa only [hs,hy] using h.running

/-- A call of `sm_p` that queues up. -/
theorem TokenInv.queues (h : TokenInv count s len) (he : s.sem.runs = true) (timeout clk : Clock)
    {m : Option ℕ} (hm : m = none → timeout = 0)
    (hk : s'.kernel = s.sem.kernel.modTcb s.sem.kernel.activeThread (goToSleep timeout clk))
    (hl : s'.loc = Function.update s.sem.loc s.sem.kernel.activeThread (.inP m))
    (hy : s'.yielding = true) (hc : s'.itc.Counts (len+1)) (hb : s'.itc.bType = .sem)
    (ht : s'.itc.token < 2^31) (hexact : s'.itc.token = count+s'.posts-s'.taken+s.withdrawn) :
    TokenInv count ⟨s',s.withdrawn⟩ (len+1) := by
  obtain ⟨hy0,hloc⟩ := TokenInv.user he
  have hrun := h.running hy0
  have hpool : ∀ t, s'.kernel.pool t = if t = s.sem.kernel.activeThread
      then goToSleep timeout clk (s.sem.kernel.pool t) else s.sem.kernel.pool t := by
    intro t
    rw [hk,Kernel.modTcb_pool]
    split
    · next he => rw [he]
    · rfl
  refine ⟨hc,hb,ht,hexact,?_,fun t htl => ?_,?_,fun hyf => ?_⟩
  · have hnot : s.sem.kernel.activeThread ∉ unserved s.sem := by
      rw [mem_unserved,hloc]
      exact fun hn => absurd hn.1 (by decide)
    have hsub : insert s.sem.kernel.activeThread (unserved s.sem) ⊆ unserved s' := by
      intro t htm
      rw [mem_unserved,hl,hpool]
      obtain rfl | htm := Finset.mem_insert.mp htm
      · rw [Function.update_self,if_pos rfl,goToSleep_state timeout clk hrun]
        refine ⟨rfl,Or.inl ?_⟩
        split <;> simp
      · have hne : t ≠ s.sem.kernel.activeThread := fun he => hnot (he ▸ htm)
        rw [Function.update_of_ne hne,if_neg hne]
        exact mem_unserved.mp htm
    have hcard := Finset.card_le_card hsub
    rw [Finset.card_insert_of_notMem hnot] at hcard
    exact (Nat.succ_le_succ h.waiting).trans hcard
  · rw [hpool]
    rw [hl] at htl
    split
    · next he =>
      subst he
      rw [Function.update_self] at htl
      have h0 := hm (SemLoc.inP.inj htl)
      rw [goToSleep_state timeout clk hrun,if_pos h0,goToSleep,if_pos h0]
      exact ⟨ProcState.queue_has_sleep,by simp⟩
    · next he =>
      rw [Function.update_of_ne he] at htl
      exact h.untimed t htl
  · rw [hk]
    refine h.alive.modTcb fun _ => ?_
    rw [goToSleep_state timeout clk hrun]
    split <;> decide
  · rw [hy] at hyf
    cases hyf

theorem TokenInv.smP (h : TokenInv count s len) (he : s.sem.runs = true) {flags : IpcFlags}
    {timeout clk : Clock} : Spec (semNext s.sem (.smP flags timeout clk)) (fun s' =>
      ∃ len', TokenInv count ⟨s',s.withdrawn⟩ len') (fun _ => True) := by
  obtain ⟨hy,hloc⟩ := TokenInv.user he
  have hrun := h.running hy
  have hexact := h.exact
  have hlt := h.token_lt
  have hlen := h.counts.token
  have hsem : ¬s.sem.itc.bType ≠ .sem := not_not_intro h.sem
  have hstay : Function.update s.sem.loc s.sem.kernel.activeThread .user = s.sem.loc :=
    Function.update_eq_self_iff.mpr hloc.symm
  simp only [semNext,Tinker.smP,if_neg hsem]
  by_cases hns : s.sem.itc.token ≤ 0 ∧ flags &&& nowait ≠ 0
  · simp only [if_pos hns]
    exact ⟨len,h.ends rfl hstay rfl h.counts h.sem hlt hexact⟩
  · simp only [if_neg hns,lockStage]
    by_cases ht : 0 < s.sem.itc.token
    · simp only [if_pos ht]
      refine ⟨len,h.ends rfl hstay rfl ⟨h.counts.out_lt,h.counts.room,h.counts.inn,?_⟩ h.sem ?_ ?_⟩
      · simp only [SemState.endP,Option.getD_some]
        omega
      · simp only [SemState.endP,Option.getD_some]
        omega
      · simp only [SemState.endP,Option.getD_some,if_true]
        push_cast
        omega
    · by_cases hr : s.sem.itc.token.natAbs < cfg.maxBlockedOnQ-1
      · simp only [if_neg ht,if_pos hr]
        refine ⟨len+1,h.queues he timeout clk (fun hm => ?_) rfl rfl rfl
          (h.counts.push (by omega) hr _) h.sem ?_ ?_⟩
        · by_contra h0
          rw [if_neg h0] at hm
          cases hm
        · simp only [Option.getD_some]
          omega
        · simp only [Option.getD_some]
          push_cast
          omega
      · simp only [if_neg ht,if_neg hr]
        exact ⟨len,h.ends rfl hstay rfl h.counts h.sem hlt hexact⟩

/-- `sm_v` readies a waiter. -/
theorem TokenInv.serves {len' : ℕ} {him : Thid cfg} (h : TokenInv count s len)
    (he : s.sem.runs = true) (hlt : len' < len) (hfree : s.sem.itc.Frees s'.itc len len')
    (hk : s'.kernel = readyByItc s.sem.kernel him)
    (hl : s'.loc = Function.update s.sem.loc s.sem.kernel.activeThread .inV)
    (hy : s'.yielding = true) (hp : s'.posts = s.sem.posts+1) (ht : s'.taken = s.sem.taken) :
    TokenInv count ⟨s',s.withdrawn+withdraws s.sem s' .smV⟩ len' := by
  obtain ⟨-,hloc⟩ := TokenInv.user he
  have hexact := h.exact
  have htok := hfree.token
  have hlen := h.counts.token
  have hlen' := hfree.counts.token
  have hpool : ∀ t ≠ him, s'.kernel.pool t = s.sem.kernel.pool t := fun t hne => by
    rw [hk,readyByItc,Kernel.modTcb_pool,if_neg hne]
  have hlt31 : s'.itc.token < 2^31 := by omega
  refine ⟨hfree.counts,hfree.bType.trans h.sem,hlt31,?_,?_,fun t htl => ?_,?_,fun hyf => ?_⟩
  · rw [withdraws,if_pos (by omega),h.counts.idxs,hfree.counts.idxs]
    push_cast [hp,ht]
    omega
  · have hcard : (unserved s.sem).card ≤ (unserved s').card+Finset.card {him} := by
      refine card_unserved fun t hne hm => ?_
      rw [Finset.mem_singleton] at hne
      rw [mem_unserved] at hm ⊢
      rw [hpool t hne,hl,Function.update_of_ne]
      · exact hm
      · rintro rfl
        rw [hloc] at hm
        cases hm.1
    have hw := h.waiting
    rw [Finset.card_singleton] at hcard
    exact Nat.le_of_lt_succ (hlt.trans_le (hw.trans hcard))
  · have hold : s.sem.loc t = .inP none := by
      rw [hl] at htl
      exact of_update_eq htl (by rintro ⟨⟩)
    by_cases hhim : t = him
    · subst hhim
      rw [hk,readyByItc,Kernel.modTcb_pool,if_pos rfl]
      exact ⟨ProcState.clear_queueSleepTerm_has_sleep _,by simp⟩
    · rw [hpool t hhim]
      exact h.untimed t hold
  · rw [hk]
    exact h.alive.readyByItc him
  · rw [hy] at hyf
    cases hyf

/-- `sm_v`. -/
theorem TokenInv.smV (h : TokenInv count s len) (he : s.sem.runs = true)
    (hf : s.sem.itc.token+1 < 2^31) : Spec (semNext s.sem .smV) (fun s' =>
      ∃ len', TokenInv count ⟨s',s.withdrawn+withdraws s.sem s' .smV⟩ len') (fun _ => True) := by
  obtain ⟨hy,hloc⟩ := TokenInv.user he
  have hrun := h.running hy
  have hexact := h.exact
  have hlen := h.counts.token
  have hsem : ¬s.sem.itc.bType ≠ .sem := not_not_intro h.sem
  simp only [semNext,Tinker.smV,if_neg hsem,spec_bind]
  refine h.counts.unlockStage.imp ?_
  rintro ⟨k,q,yields⟩ (⟨hpos,hr⟩ | ⟨him,len',hlt,hk,hfree,hyields,-⟩)
  · obtain ⟨rfl,rfl,rfl⟩ : k = s.sem.kernel ∧
        q = { s.sem.itc with token := toInt32 (s.sem.itc.token+1) } ∧ yields = false := by
      simpa using hr
    have htok : toInt32 (s.sem.itc.token+1) = s.sem.itc.token+1 := toInt32_of_range (by omega) hf
    have hnone : ∀ s', withdraws s.sem s' .smV = 0 := fun s' => if_neg (by omega)
    refine ⟨len,?_⟩
    rw [hnone]
    refine h.ends rfl rfl rfl ⟨h.counts.out_lt,h.counts.room,h.counts.inn,?_⟩ h.sem ?_ ?_
    · simp only [Option.getD_some,htok]
      omega
    · simpa only [Option.getD_some,htok] using hf
    · simp only [Option.getD_some,htok]
      push_cast
      omega
  · obtain ⟨rfl,rfl⟩ : k = readyByItc s.sem.kernel him ∧ yields = true := ⟨hk,hyields⟩
    exact ⟨len',h.serves he hlt hfree rfl rfl rfl rfl rfl⟩

/-- A call ends after its yield, and the cells it frees are those of waits that had timed out. -/
theorem TokenInv.leaves {len' : ℕ} (h : TokenInv count s len) (hy : s.sem.yielding = false)
    (hfree : s.sem.itc.Frees s'.itc len len') (hpool : ∀ t, s'.kernel.pool t = s.sem.kernel.pool t ∨
      s'.kernel.pool t = { s.sem.kernel.pool t with wakeupEvent := .itc2 })
    (hact : s'.kernel.activeThread = s.sem.kernel.activeThread)
    (hl : s'.loc = Function.update s.sem.loc s.sem.kernel.activeThread .user)
    (hp : s'.posts = s.sem.posts) (ht : s'.taken = s.sem.taken)
    (hw : len' ≤ (unserved s').card) :
    TokenInv count ⟨s',s.withdrawn+withdraws s.sem s' .resume⟩ len' := by
  have hexact := h.exact
  have htok := hfree.token
  have hlen := h.counts.token
  have hlen' := hfree.counts.token
  have hle := hfree.le
  have hlt := h.token_lt
  have hlt' : s'.itc.token < 2^31 := by omega
  have hsame : ∀ t, (s'.kernel.pool t).valid = (s.sem.kernel.pool t).valid ∧
      (s'.kernel.pool t).state = (s.sem.kernel.pool t).state := fun t => by
    obtain he | he := hpool t
    · rw [he]
      exact ⟨rfl,rfl⟩
    · rw [he]
      exact ⟨rfl,rfl⟩
  refine ⟨hfree.counts,hfree.bType.trans h.sem,hlt',?_,hw,fun t htl => ?_,fun t hv => ?_,fun _ => ?_⟩
  · rw [withdraws,h.counts.idxs,hfree.counts.idxs]
    push_cast [hp,ht]
    omega
  · have hold : s.sem.loc t = .inP none := by
      rw [hl] at htl
      exact of_update_eq htl (by rintro ⟨⟩)
    rw [(hsame t).2]
    refine ⟨(h.untimed t hold).1,?_⟩
    obtain he | he := hpool t
    · rw [he]
      exact (h.untimed t hold).2
    · rw [he]
      exact fun hx => by cases hx
  · rw [(hsame t).1] at hv
    rw [(hsame t).2]
    exact h.alive t hv
  · rw [hact,(hsame _).2]
    exact h.running hy

/-- The ring stays as it is when the thread that leaves has been served. -/
theorem TokenInv.served (h : TokenInv count s len) (hy : s.sem.yielding = false)
    (hk : s'.kernel = s.sem.kernel) (hq : s'.itc = s.sem.itc)
    (hl : s'.loc = Function.update s.sem.loc s.sem.kernel.activeThread .user)
    (hp : s'.posts = s.sem.posts) (ht : s'.taken = s.sem.taken)
    (hev : (s.sem.loc s.sem.kernel.activeThread).inside = true →
      (s.sem.kernel.pool s.sem.kernel.activeThread).wakeupEvent ≠ .timer) :
    TokenInv count ⟨s',s.withdrawn+withdraws s.sem s' .resume⟩ len := by
  have hrun := h.running hy
  have hfree : s.sem.itc.Frees s'.itc len len := by
    rw [hq]
    exact Itc.Frees.refl h.counts
  refine h.leaves hy hfree (fun t => Or.inl (by rw [hk])) (by rw [hk]) hl hp ht
    (h.waiting.trans (Finset.card_le_card fun t hm => ?_))
  rw [mem_unserved] at hm ⊢
  have hne : t ≠ s.sem.kernel.activeThread := by
    rintro rfl
    rw [hrun] at hm
    obtain ⟨hin,hq | ht⟩ := hm
    · cases hq
    · exact hev hin ht
  rwa [hk,hl,Function.update_of_ne hne]

/-- What follows a yield of `sm_p` or `sm_v`. -/
theorem TokenInv.resume (h : TokenInv count s len) (hy : s.sem.yielding = false) :
    Spec (semNext s.sem .resume) (fun s' =>
      ∃ len', TokenInv count ⟨s',s.withdrawn+withdraws s.sem s' .resume⟩ len') (fun _ => True) := by
  have hstay : s.sem.loc s.sem.kernel.activeThread = .user →
      s.sem.loc = Function.update s.sem.loc s.sem.kernel.activeThread .user :=
    fun hu => (Function.update_eq_self_iff.mpr hu.symm).symm
  simp only [semNext]
  cases hloc : s.sem.loc s.sem.kernel.activeThread with
  | user => exact ⟨len,h.served hy rfl rfl (hstay hloc) rfl rfl (by rw [hloc]; exact fun h => by cases h)⟩
  | inV => exact ⟨len,h.served hy rfl rfl rfl rfl rfl (by rw [hloc]; exact fun h => by cases h)⟩
  | inP m =>
    cases m with
    | none => exact ⟨len,h.served hy rfl rfl rfl rfl rfl fun _ => (h.untimed _ hloc).2⟩
    | some markIdx =>
      simp only [spec_bind,spec_pure]
      refine (h.counts.lockStageWoken).imp ?_
      rintro ⟨k,q,e⟩ (⟨hev,hk,hq⟩ | ⟨-,len',hfree,hdrop,hlt⟩)
      · have hk : k = s.sem.kernel := hk
        subst hk
        exact ⟨len,h.served hy rfl hq rfl rfl rfl fun _ => hev⟩
      · have hact : k.activeThread = s.sem.kernel.activeThread := hdrop.active
        refine ⟨len',h.leaves hy hfree hdrop.pool hdrop.active ?_ rfl rfl ?_⟩
        · simp only [SemState.endP,hact]
        · obtain ⟨D,hD,hkeep⟩ := hdrop.few
          -- the thread that leaves, and those it has told of their timeouts
          have hcard : (unserved s.sem).card ≤
              (unserved (SemState.endP { s.sem with kernel := k, itc := q } e)).card+
                (insert s.sem.kernel.activeThread D).card := by
            refine card_unserved fun t hne hm => ?_
            rw [Finset.mem_insert,not_or] at hne
            rw [mem_unserved] at hm ⊢
            simp only [SemState.endP,hact,Function.update_of_ne hne.1]
            rwa [hkeep t hne.2]
          have hins := Finset.card_insert_le s.sem.kernel.activeThread D
          have hw := h.waiting
          have hle := hfree.le
          simp only [SemState.endP] at hcard ⊢
          omega

/-- The sweep and the dispatch. -/
theorem TokenInv.yield (h : TokenInv count s len) {clk : Clock} {t : Thid cfg}
    (hr : readyAfterSweep s.sem.kernel clk t = true) :
    Spec (semNext s.sem (.yield clk t)) (fun s' =>
      TokenInv count ⟨s',s.withdrawn⟩ len) (fun _ => True) := by
  simp only [semNext,spec_bind,spec_pure]
  refine (h.alive.yield hr).mono ?_ fun _ _ => trivial
  rintro k ⟨halive,hp,hready⟩
  have hnext : ∀ u, (s.sem.kernel.pool u).state.has .queue = true ∨
      (s.sem.kernel.pool u).wakeupEvent = .timer →
      (k.pool u).state.has .queue = true ∨ (k.pool u).wakeupEvent = .timer := by
    intro u hu
    obtain he | he := hp u
    · rwa [he]
    · rw [he,timerTest]
      split
      · exact Or.inr rfl
      · exact hu
  refine ⟨h.counts,h.sem,h.token_lt,h.exact,?_,fun u hl => ?_,halive,fun _ => hready⟩
  · refine h.waiting.trans (Finset.card_le_card fun u hm => ?_)
    rw [mem_unserved] at hm ⊢
    exact ⟨hm.1,hnext u hm.2⟩
  · obtain he | he := hp u
    · simp only [Kernel.dispatch,he]
      exact h.untimed u hl
    · simp only [Kernel.dispatch,he,timerTest,(h.untimed u hl).1,Bool.false_and]
      exact h.untimed u hl

/-- The step gives up a wait that has timed out and still has its cell: its own thread does, or an
`sm_v` that finds it in front of others. -/
def GivesUp (s : SemState cfg) : SemLabel cfg → Prop
  | .resume => (s.kernel.pool s.kernel.activeThread).wakeupEvent = .timer ∧ s.itc.token < 0
  | .smV => s.itc.flags &&& prior = 0 ∧ s.itc.Passes s.kernel
  | _ => False

theorem TokenInv.withdraws_eq_zero (h : TokenInv count s len) {x : SemLabel cfg}
    (hg : ¬GivesUp s.sem x) : Spec (semNext s.sem x) (fun s' => withdraws s.sem s' x = 0)
    (fun _ => True) := by
  have hsem : ¬s.sem.itc.bType ≠ .sem := not_not_intro h.sem
  cases x with
  | smP flags timeout clk => exact spec_of_forall fun s' => rfl
  | yield clk t => exact spec_of_forall fun s' => rfl
  | smV =>
    simp only [semNext,Tinker.smV,if_neg hsem,spec_bind]
    refine h.counts.unlockStage.imp ?_
    rintro ⟨k,q,yields⟩ (⟨hpos,-⟩ | ⟨him,len',hlt,hk,hfree,hyields,hone⟩)
    · exact spec_of_forall fun a => spec_of_forall fun s' => if_neg (by omega)
    · have hone : len'+1 = len := hone hg
      have hyields : yields = true := hyields
      simp only [hyields,if_true,spec_pure,withdraws,h.counts.idxs]
      split
      · simp only [Option.getD_some,hfree.counts.idxs]
        omega
      · rfl
  | resume =>
    simp only [semNext]
    cases hloc : s.sem.loc s.sem.kernel.activeThread with
    | user => exact Nat.sub_self _
    | inV => exact Nat.sub_self _
    | inP m =>
      cases m with
      | none => exact Nat.sub_self _
      | some markIdx =>
        simp only [spec_bind,spec_pure]
        refine (h.counts.lockStageWoken).imp ?_
        rintro ⟨k,q,e⟩ (⟨-,-,hq⟩ | ⟨hev,len',hfree,-,-⟩)
        · simp only [withdraws,SemState.endP]
          rw [show q = s.sem.itc from hq,Nat.sub_self]
        · have hpos : ¬s.sem.itc.token < 0 := fun ht => hg ⟨hev,ht⟩
          have hlen := h.counts.token
          simp only [withdraws,h.counts.idxs]
          omega

theorem tokenStep_spec {s : TokenState cfg} {x : SemLabel cfg} (h : TokenInv count s len)
    (he : semEnabled s.sem x = true) (hf : FitsInt s x) : Spec (tokenNext s x) (fun s' =>
      (∃ len', TokenInv count s' len') ∧ (¬GivesUp s.sem x → s'.withdrawn = s.withdrawn))
      (fun _ => True) := by
  have hkept : Spec (semNext s.sem x) (fun s' =>
      ∃ len', TokenInv count ⟨s',s.withdrawn+withdraws s.sem s' x⟩ len') (fun _ => True) := by
    cases x with
    | smP flags timeout clk => exact h.smP he
    | smV => exact h.smV he (hf rfl)
    | resume =>
      simp only [semEnabled,Bool.and_eq_true,Bool.not_eq_true'] at he
      exact h.resume he.1
    | yield clk t =>
      simp only [semEnabled,Bool.and_eq_true] at he
      exact (h.yield he.2).imp fun s' hi => ⟨len,hi⟩
  simp only [tokenNext,spec_bind,spec_pure]
  cases hs : semNext s.sem x with
  | error e => trivial
  | ok s' =>
    refine ⟨hkept.of_ok hs,fun hg => ?_⟩
    rw [(h.withdraws_eq_zero hg).of_ok hs]
    rfl

/-- An `sm_v` beyond `INT_MAX` leaves a negative token on a semaphore nobody waits for. -/
theorem TokenInv.wraps (h : TokenInv count s len) {x : SemLabel cfg} (hf : ¬FitsInt s x) :
    Spec (tokenNext s x) (fun s' => ¬TokenExact count s') (fun _ => True) := by
  simp only [FitsInt,Classical.not_imp,not_lt] at hf
  obtain ⟨rfl,hbig⟩ := hf
  have hsem : ¬s.sem.itc.bType ≠ .sem := not_not_intro h.sem
  have hlt := h.token_lt
  have hexact := h.exact
  have htok : s.sem.itc.token = 2^31-1 := by omega
  have hstage : unlockStage s.sem.kernel s.sem.itc =
      .ok (s.sem.kernel,{ s.sem.itc with token := -2^31 },false) := by
    rw [unlockStage,if_neg (by omega),htok]
    rfl
  have hzero : ∀ s', withdraws s.sem s' .smV = 0 := fun s' => if_neg (by omega)
  simp only [tokenNext,semNext,Tinker.smV,if_neg hsem,hstage,hzero,spec_bind,spec_ok]
  refine fun hn => ?_
  have h' := hn.exact
  simp only [Option.getD_some] at h'
  omega

end

theorem tokenInit_inv {k : Kernel cfg} {count : ℕ} {flags : IpcFlags} (hk : Quiet k)
    (hc : count < 2^31) : TokenInv count (tokenInit k count flags) 0 where
  counts := ⟨cfg.maxBlockedOnQ_pos,cfg.maxBlockedOnQ_pos,(place_zero cfg.maxBlockedOnQ_pos).symm,by
    have ht : toInt32 count = count := toInt32_of_range (by omega) (by omega)
    simp [tokenInit,semInit,smCreate,ht]⟩
  sem := rfl
  token_lt := by
    have ht : toInt32 count = count := toInt32_of_range (by omega) (by omega)
    simp only [tokenInit,semInit,smCreate,ht]
    omega
  exact := by
    have ht : toInt32 count = count := toInt32_of_range (by omega) (by omega)
    simp [tokenInit,semInit,smCreate,ht]
  waiting := Nat.zero_le _
  untimed := fun t hl => by cases hl
  alive := hk.alive
  running := fun _ => hk.ready

/-- The token is the number it stands for in every state of a run just when the count fits an
`int` and no `sm_v` is made while the token is `INT_MAX`; and it counts the calls alone as long as
no wait that has timed out is given up. -/
theorem tokenRun_exact_iff {k : Kernel cfg} {count : ℕ} {flags : IpcFlags} (hk : Quiet k)
    {ls : List (SemLabel cfg)} {s : TokenState cfg}
    (hr : (tokenMachine cfg).run (tokenInit k count flags) ls = some s) :
    ((tokenMachine cfg).Along (fun s _ => TokenExact count s) (tokenInit k count flags) ls ∧
        TokenExact count s ↔
      count < 2^31 ∧ (tokenMachine cfg).Along FitsInt (tokenInit k count flags) ls) ∧
    (count < 2^31 →
      (tokenMachine cfg).Along (fun s x => FitsInt s x ∧ ¬GivesUp s.sem x)
        (tokenInit k count flags) ls → s.sem.itc.token = count+s.sem.posts-s.sem.taken) := by
  have hstep : ∀ (s : TokenState cfg) x s', (∃ len, TokenInv count s len) → FitsInt s x →
      (tokenMachine cfg).Step s x s' →
      (∃ len, TokenInv count s' len) ∧ (¬GivesUp s.sem x → s'.withdrawn = s.withdrawn) := by
    rintro s x s' ⟨len,hi⟩ hf hs
    exact (tokenStep_spec hi hs.1 hf).of_ok hs.2
  refine ⟨?_,fun hc hal => ?_⟩
  · by_cases hc : count < 2^31
    · simp only [hc,true_and]
      refine (tokenMachine cfg).run_along_iff (I:=fun s => ∃ len, TokenInv count s len)
        (fun s ⟨len,hi⟩ => hi.tokenExact) (fun s x s' hi hf hs => (hstep s x s' hi hf hs).1) ?_
        ⟨0,tokenInit_inv hk hc⟩ hr
      rintro s x s' ⟨len,hi⟩ hf hs
      exact (hi.wraps hf).of_ok hs.2
    · refine iff_of_false (fun hn => ?_) fun hn => hc hn.1
      -- the count does not fit, so the first token is another number
      have h0 : TokenExact count (tokenInit k count flags) := by
        cases ls with
        | nil =>
          simp only [Machine.run,Option.some.injEq] at hr
          exact hr ▸ hn.2
        | cons x ls => exact hn.1.1
      have hexact := h0.exact
      have hint := h0.int
      simp only [tokenInit,semInit] at hexact
      simp only [tokenInit,semInit] at hint
      omega
  · have hi := (tokenMachine cfg).run_invariant
      (I:=fun s => (∃ len, TokenInv count s len) ∧ s.withdrawn = 0)
      (fun s x s' hi hf hs => by
        obtain ⟨hi',hw⟩ := hstep s x s' hi.1 hf.1 hs
        exact ⟨hi',(hw hf.2).trans hi.2⟩) ⟨⟨0,tokenInit_inv hk hc⟩,rfl⟩ hal hr
    obtain ⟨⟨len,hi⟩,hw⟩ := hi
    rw [hi.exact,hw]
    simp

theorem fitsInt_smV {s : TokenState cfg} :
    FitsInt s .smV ↔ s.sem.itc.token+1 < 2^31 := ⟨fun h => h rfl,fun h _ => h⟩

instance decidableFitsInt (s : TokenState cfg) : (x : SemLabel cfg) → Decidable (FitsInt s x)
  | .smV => decidable_of_iff _ fitsInt_smV.symm
  | .smP _ _ _ => isTrue fun h => by cases h
  | .resume => isTrue fun h => by cases h
  | .yield _ _ => isTrue fun h => by cases h

/-- A wait that times out gives its place back, and the token stays exact. -/
theorem tokenRun_exact_timeout : ∃ s : TokenState gnuArm,
    (tokenMachine gnuArm).run (tokenInit fiveThreads 0 fifo) timeoutSteps = some s ∧
    s.withdrawn = 1 ∧ TokenExact 0 s := by
  obtain ⟨s,hr,hw⟩ := (tokenMachine gnuArm).exists_run (fun s => s.withdrawn = 1)
    (tokenInit fiveThreads 0 fifo) timeoutSteps (by decide +kernel)
  exact ⟨s,hr,hw,((tokenRun_exact_iff fiveThreads_quiet hr).1.mpr
    ⟨by decide,by decide +kernel⟩).2⟩

/-- A count of `2^31` is granted with a negative token, and the first `sm_v` takes a waiter from
a ring nobody has entered. -/
theorem tokenRun_not_exact :
    (¬∀ (k : Kernel gnuArm) (count : ℕ) (flags : IpcFlags) (ls : List (SemLabel gnuArm))
      (s : TokenState gnuArm), Quiet k → count < 2^32 →
      (tokenMachine gnuArm).run (tokenInit k count flags) ls = some s → TokenExact count s) ∧
    smV fiveThreads (some (smCreate (2^31) fifo)) = .error .nullPointer := by
  refine ⟨fun h => ?_,rfl⟩
  have h0 := (h fiveThreads (2^31) fifo [] _ fiveThreads_quiet (by decide) rfl).nobody fun _ => rfl
  exact absurd h0 (by decide)

end Tinker

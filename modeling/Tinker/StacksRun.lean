import Tinker.Stacks

/-! Every valid thread but the first has a stack of its own in the memory for stacks, and nobody
else has anything there. Nothing that the other threads do reaches it, and a thread that runs has
its stack. -/
namespace Tinker

open Kernel Outcome Memory Owned MemPool

variable {cfg : Config} {numQ : ℕ}

/-! ### The allocator below -/

section

variable {lo hi size : ℕ} {s : PoolState} {m : StackMem cfg} {t : Thid cfg}

/-- A block that `malloc` returns was not held. -/
theorem PoolInvariant.malloc_fresh {w : ℕ} (h : PoolInvariant w lo hi s) (hsize : size+1 < 2^(8*w)) :
    Spec (MemPool.malloc w s.pool size) (fun x => x.1 ≠ 0 → s.held x.1 = none ∧
      PoolInvariant w lo hi ⟨x.2,Function.update s.held x.1 (some (peek x.2.mem x.1 size))⟩)
      (fun _ => False) := by
  obtain ⟨fl,us,hinv⟩ := h
  refine (hinv.mallocs size).imp ?_
  rintro ⟨p,pool⟩ (⟨_,hx⟩ | ⟨u,fl',_,rfl,_,_,hset⟩) hp
  · cases hx
    exact absurd rfl hp
  · have hnew := hset (peek pool.mem (u.pos+hlen w) size)
      (by rw [peek_length]; exact le_evenSize hsize) (by rw [peek_length])
    refine ⟨?_,fl',u :: us,hnew⟩
    by_contra hheld
    obtain ⟨v,hv,hpos⟩ := (hinv.held (u.pos+hlen w)).mp (Option.isSome_iff_ne_none.mpr hheld)
    exact PoolInv.ptr_ne hnew.well v hv hpos

/-- A block that is held has the contents it was given. -/
theorem PoolInvariant.peek_held {w p : ℕ} {d : List Byte} (h : PoolInvariant w lo hi s)
    (hd : s.held p = some d) : peek s.pool.mem p d.length = d := by
  obtain ⟨fl,us,hinv⟩ := h
  obtain ⟨t,ht,rfl⟩ := (hinv.held p).mp (Option.isSome_iff_exists.mpr ⟨d,hd⟩)
  exact (hinv.data t ht d hd).2

theorem markup_length (h8 : 8 ≤ size) (hsize : size+1 < 2^(8*stsizeT)) :
    (StackMem.markup t size).length = size-8 := by
  simp only [StackMem.markup,List.length_replicate,stsizeT] at hsize ⊢
  omega

/-- A stack is a new block of the size asked for. -/
theorem StackMem.alloc_spec (h : PoolInvariant stsizeT lo hi m.mem) (h8 : 8 ≤ size)
    (hsize : size+1 < 2^(8*stsizeT)) : Spec (m.alloc t size) (fun m' =>
      PoolInvariant stsizeT lo hi m'.mem ∧ ∃ p d, p ≠ 0 ∧ m.mem.held p = none ∧
        d.length = size ∧ m'.mem.held = Function.update m.mem.held p (some d) ∧
        m'.stackBegin = Function.update m.stackBegin t p)
      (fun e => e = .kernel (.exit tcNomem)) := by
  simp only [StackMem.alloc,stalloc,spec_bind,spec_mapError,spec_check,spec_pure]
  refine (h.malloc_fresh hsize).mono ?_ fun _ => False.elim
  rintro ⟨p,pool⟩ hmalloc
  refine ⟨fun hp => ?_,fun _ => trivial⟩
  obtain ⟨hfree,hinv⟩ := hmalloc hp
  let s : PoolState := ⟨pool,Function.update m.mem.held p (some (peek pool.mem p size))⟩
  have hd : s.held p = some (peek pool.mem p size) := Function.update_self _ _ _
  have hlen : (peek pool.mem p size).length = size := by rw [peek_length]
  have hin : 0+(StackMem.markup t size).length ≤ (peek pool.mem p size).length := by
    rw [markup_length h8 hsize,hlen]
    omega
  obtain ⟨fl,us,hinv⟩ := hinv
  have hwrite := hinv.write_ends ⟨_,hd,hin⟩
  refine (hwrite.meet (?_ : Spec _ (fun s' : PoolState => ∃ d, d.length = size ∧
    s'.held = Function.update m.mem.held p (some d)) fun _ => True)).mono ?_ fun _ h => h.1.elim
  · simp only [poolNext,Function.update_self,Option.map_some,spec_pure,Function.update_idem]
    refine ⟨_,?_,rfl⟩
    simp only [List.length_append,List.length_take,List.length_drop,peek_length]
    rw [markup_length h8 hsize]
    omega
  · rintro s' ⟨⟨fl',us',hinv',_⟩,d,hdlen,hheld⟩
    exact ⟨⟨fl',us',hinv'⟩,p,d,hp,hfree,hdlen,hheld,rfl⟩

theorem StackMem.free_spec (h : PoolInvariant stsizeT lo hi m.mem)
    (hp : m.stackBegin t = 0 ∨ (m.mem.held (m.stackBegin t)).isSome)
    (hclear : ClearsNext stsizeT m.mem.pool (m.stackBegin t)) : Spec (m.free t) (fun m' =>
      PoolInvariant stsizeT lo hi m'.mem ∧ m'.stackBegin = m.stackBegin ∧
        m'.mem.held = Function.update m.mem.held (m.stackBegin t) none) (fun _ => False) := by
  obtain ⟨fl,us,hinv⟩ := h
  simp only [StackMem.free,spec_bind,spec_mapError,spec_pure]
  refine ((hinv.free_ends hp hclear).meet (?_ : Spec _ (fun s' : PoolState =>
    s'.held = Function.update m.mem.held (m.stackBegin t) none) fun _ => True)).mono ?_
    fun _ h => h.1
  · simp only [poolNext,spec_bind,spec_pure]
    exact spec_of_forall fun _ => trivial
  · rintro s' ⟨⟨fl',us',hinv',_⟩,hheld⟩
    exact ⟨⟨fl',us',hinv'⟩,trivial,hheld⟩

theorem StackMem.push_spec (h : PoolInvariant stsizeT lo hi m.mem) {off : ℕ} {bytes : List Byte}
    (hp : ∃ d, m.mem.held (m.stackBegin t) = some d ∧ off+bytes.length ≤ d.length) :
    Spec (m.push t off bytes) (fun m' =>
      PoolInvariant stsizeT lo hi m'.mem ∧ m'.stackBegin = m.stackBegin ∧
        ∃ d, m'.mem.held = Function.update m.mem.held (m.stackBegin t) (some d))
      (fun _ => False) := by
  obtain ⟨fl,us,hinv⟩ := h
  simp only [StackMem.push,spec_bind,spec_mapError,spec_pure]
  refine ((hinv.write_ends hp).meet (?_ : Spec _ (fun s' : PoolState =>
    ∃ d, s'.held = Function.update m.mem.held (m.stackBegin t) (some d)) fun _ => True)).mono ?_
    fun _ h => h.1
  · obtain ⟨d,hd,_⟩ := hp
    simp only [poolNext,hd,Option.map_some,spec_pure]
    exact ⟨_,rfl⟩
  · rintro s' ⟨⟨fl',us',hinv',_⟩,hheld⟩
    exact ⟨⟨fl',us',hinv'⟩,trivial,hheld⟩

end

/-! ### The invariant -/

/-- The stack that slot `t` answers for. -/
def stackOf (k : Kernel cfg) (m : StackMem cfg) (t : Thid cfg) : List ℕ :=
  if (k.pool t).valid = true ∧ m.stackBegin t ≠ 0 then [m.stackBegin t] else []

/-- Each block is the stack of one valid thread, and all but the first have one. The slots that are
free hold dead threads, so none of them is dispatched. -/
structure StackInv (lo hi : ℕ) (k : Kernel cfg) (m : StackMem cfg) : Prop where
  pool : PoolInvariant stsizeT lo hi m.mem
  owns : Owns m.mem.held (stackOf k m)
  has : ∀ t, (k.pool t).valid = true → m.stackBegin t = 0 → t = root
  dead : ∀ t, (k.pool t).valid = false → (k.pool t).state.has .zombi = true
  running : (k.pool k.activeThread).valid = true

/-- No slot is taken or freed, and the dead stay dead. -/
structure SameThreads (k k' : Kernel cfg) : Prop where
  active : k'.activeThread = k.activeThread
  valid : ∀ t, (k'.pool t).valid = (k.pool t).valid
  dead : ∀ t, (k.pool t).state.has .zombi = true → (k'.pool t).state.has .zombi = true

/-- The stack of `t` is where it was, with the same contents. -/
def SameStack (m m' : StackMem cfg) (t : Thid cfg) : Prop :=
  m'.stackBegin t = m.stackBegin t ∧
    m'.mem.held (m.stackBegin t) = m.mem.held (m.stackBegin t)

section

variable {k k' : Kernel cfg} {m m' m2 : StackMem cfg} {t u : Thid cfg} {lo hi : ℕ} {clk : Clock}

theorem SameStack.refl (m : StackMem cfg) (t : Thid cfg) : SameStack m m t := ⟨rfl,rfl⟩

theorem SameStack.trans (h : SameStack m m' t) (h' : SameStack m' m2 t) : SameStack m m2 t := by
  refine ⟨h'.1.trans h.1,?_⟩
  have hheld := h'.2
  rw [h.1] at hheld
  exact hheld.trans h.2

theorem SameTable.threads {K : Thid cfg → MoveKind → Prop} (hs : SameTable k k')
    (hm : TcbMoves K k k') : SameThreads k k' where
  active := hs.activeThread
  valid := fun t => (hs.pool t).1
  dead := fun _ => hm.keep (I:=fun b => b.state.has .zombi = true) fun _ _ _ _ hb => hb.dead_stays

theorem mem_stackOf {p : ℕ} :
    p ∈ stackOf k m t ↔ (k.pool t).valid = true ∧ m.stackBegin t = p ∧ p ≠ 0 := by
  unfold stackOf
  split
  · next h =>
    rw [List.mem_singleton]
    exact ⟨fun hp => ⟨h.1,hp.symm,hp ▸ h.2⟩,fun hp => hp.2.1.symm⟩
  · next h => exact iff_of_false List.not_mem_nil fun hp => h ⟨hp.1,hp.2.1 ▸ hp.2.2⟩

theorem StackInv.same (h : StackInv lo hi k m) (hs : SameThreads k k') : StackInv lo hi k' m where
  pool := h.pool
  owns := h.owns.perm fun t => .of_eq (by rw [stackOf,stackOf,hs.valid t])
  has := fun t ht => h.has t (hs.valid t ▸ ht)
  dead := fun t ht => hs.dead t (h.dead t (hs.valid t ▸ ht))
  running := by
    rw [hs.active,hs.valid]
    exact h.running

theorem StackInv.held_zero (h : StackInv lo hi k m) : m.mem.held 0 = none := by
  obtain ⟨fl,us,hinv⟩ := h.pool
  exact hinv.none_zero

theorem StackInv.held (h : StackInv lo hi k m) (hv : (k.pool t).valid = true) :
    m.stackBegin t = 0 ∨ (m.mem.held (m.stackBegin t)).isSome = true := by
  by_cases h0 : m.stackBegin t = 0
  · exact Or.inl h0
  · exact Or.inr (h.owns.isSome (i:=t) (mem_stackOf.mpr ⟨hv,rfl,h0⟩))

/-- Two threads have two stacks. -/
theorem StackInv.stack_ne (h : StackInv lo hi k m) (ht : (k.pool t).valid = true)
    (hu : (k.pool u).valid = true) (hne : t ≠ u) : m.stackBegin t ≠ m.stackBegin u := by
  intro he
  by_cases h0 : m.stackBegin t = 0
  · exact hne ((h.has t ht h0).trans (h.has u hu (he ▸ h0)).symm)
  · exact hne (h.owns.holder_unique (mem_stackOf.mpr ⟨ht,rfl,h0⟩)
      (mem_stackOf.mpr ⟨hu,he.symm,h0⟩))

/-- The stack of a thread that is buried is given back. -/
theorem StackInv.buried (h : StackInv lo hi k m) (hv : (k.pool t).valid = true)
    (hna : t ≠ k.activeThread) (ha : k'.activeThread = k.activeThread)
    (hk : ∀ u, (k'.pool u).valid = if u = t then false else (k.pool u).valid)
    (hz : (k'.pool t).state.has .zombi = true)
    (hdead : ∀ u, (k.pool u).state.has .zombi = true → (k'.pool u).state.has .zombi = true)
    (hp : PoolInvariant stsizeT lo hi m'.mem) (hb : m'.stackBegin = m.stackBegin)
    (hheld : m'.mem.held = Function.update m.mem.held (m.stackBegin t) none) :
    StackInv lo hi k' m' ∧ ∀ u, (k'.pool u).valid = true →
      (k.pool u).valid = true ∧ SameStack m m' u := by
  have hval : ∀ u, u ≠ t → (k'.pool u).valid = (k.pool u).valid := fun u hu => by
    rw [hk u,if_neg hu]
  have hgone : (k'.pool t).valid = false := by rw [hk t,if_pos rfl]
  have hothers : ∀ u, u ≠ t → (stackOf k' m' u).Perm (stackOf k m u) := fun u hu =>
    .of_eq (by rw [stackOf,stackOf,hval u hu,hb])
  have hnone : stackOf k' m' t = [] := by
    rw [stackOf,hgone]
    simp
  refine ⟨⟨hp,?_,fun u hu h0 => ?_,fun u hu => ?_,?_⟩,fun u hu => ?_⟩
  · rw [hheld]
    by_cases h0 : m.stackBegin t = 0
    · rw [h0,Function.update_eq_self_iff.mpr h.held_zero.symm]
      refine h.owns.perm fun u => ?_
      by_cases hu : u = t
      · subst hu
        rw [hnone,stackOf,if_neg fun hn => hn.2 h0]
      · exact hothers u hu
    · refine h.owns.free (i:=t) (.of_eq ?_) hothers
      rw [hnone,stackOf,if_pos ⟨hv,h0⟩]
  · have hut : u ≠ t := by
      rintro rfl
      rw [hgone] at hu
      cases hu
    rw [hval u hut] at hu
    rw [hb] at h0
    exact h.has u hu h0
  · by_cases hut : u = t
    · rw [hut]
      exact hz
    · rw [hval u hut] at hu
      exact hdead u (h.dead u hu)
  · rw [ha,hval _ (Ne.symm hna)]
    exact h.running
  · have hut : u ≠ t := by
      rintro rfl
      rw [hgone] at hu
      cases hu
    rw [hval u hut] at hu
    refine ⟨hu,congrFun hb u,?_⟩
    rw [hheld]
    exact Function.update_of_ne (h.stack_ne hu hv hut) _ _

/-- The first half of a deletion: the thread is dead behind it. -/
theorem killThread_threads : Spec (killThread k t) (fun r => SameThreads k r.1 ∧
    (r.2 = true → Buries k t ∧ (r.1.pool t).state.has .zombi = true))
    (fun _ => True) := by
  have hdies : Spec (killThread k t) (fun r => (∀ u, (k.pool u).state.has .zombi = true →
      (r.1.pool u).state.has .zombi = true) ∧ (r.1.pool t).state.has .zombi = true)
      (fun _ => True) := by
    unfold killThread
    rw [spec_ite]
    refine ⟨fun hz => ⟨fun _ hu => hu,hz⟩,fun _ => ?_⟩
    refine tkTryDetachParent_moves.imp fun r hr => ?_
    have hm := tkDetachChildren_moves.trans hr
    have hkeep : ∀ u, ((k.modTcb t fun b => { b with state := .zombi }).pool u).state.has .zombi =
        true → (r.1.pool u).state.has .zombi = true := fun u =>
      hm.keep (I:=fun b => b.state.has .zombi = true) fun _ _ _ _ hb => hb.dead_stays
    refine ⟨fun u hu => hkeep u ?_,hkeep t ?_⟩
    · rw [Kernel.modTcb_pool]
      split
      · exact ProcState.zombi_has_zombi
      · exact hu
    · rw [Kernel.modTcb_pool,if_pos rfl]
      exact ProcState.zombi_has_zombi
  refine ((killThread_spec k t).meet hdies).mono ?_ fun _ _ => trivial
  rintro r ⟨⟨hs,hb⟩,hdead,hz⟩
  exact ⟨⟨hs.activeThread,fun u => (hs.pool u).1,hdead⟩,fun hr => ⟨hb hr,hz⟩⟩

/-- What becomes of the stacks in a call that takes no slot. -/
def StacksLeft (lo hi : ℕ) (k : Kernel cfg) (m : StackMem cfg) (k' : Kernel cfg)
    (m' : StackMem cfg) : Prop :=
  StackInv lo hi k' m' ∧ k'.activeThread = k.activeThread ∧
    ∀ u, (k'.pool u).valid = true → (k.pool u).valid = true ∧ SameStack m m' u

theorem StacksLeft.same (h : StackInv lo hi k m) (hs : SameThreads k k') :
    StacksLeft lo hi k m k' m :=
  ⟨h.same hs,hs.active,fun u hu => ⟨hs.valid u ▸ hu,SameStack.refl m u⟩⟩

theorem StacksLeft.trans {k2 : Kernel cfg} (h : StacksLeft lo hi k m k' m')
    (h' : StacksLeft lo hi k' m' k2 m2) : StacksLeft lo hi k m k2 m2 := by
  refine ⟨h'.1,h'.2.1.trans h.2.1,fun u hu => ?_⟩
  obtain ⟨hu',hs'⟩ := h'.2.2 u hu
  obtain ⟨hu0,hs⟩ := h.2.2 u hu'
  exact ⟨hu0,hs.trans hs'⟩

theorem StackInv.deleteThread (h : StackInv lo hi k m)
    (hc : (k.pool t).valid = true → Buries k t →
      ClearsNext stsizeT m.mem.pool (m.stackBegin t) ∧ t ≠ k.activeThread) :
    Spec (deleteThreadStack k m t) (fun s => StacksLeft lo hi k m s.1 s.2.1)
      (fun e => ∃ f, e = .kernel f) := by
  unfold deleteThreadStack
  rw [spec_ite]
  refine ⟨fun _ => .same h ⟨rfl,fun _ => rfl,fun _ hz => hz⟩,fun hv => ?_⟩
  have hv : (k.pool t).valid = true := by simpa using hv
  simp only [spec_bind,spec_mapError,spec_ite,spec_pure]
  refine killThread_threads.mono ?_ fun f _ => ⟨f,rfl⟩
  rintro ⟨k1,buryIt⟩ ⟨hs,hb⟩
  have hs : SameThreads k k1 := hs
  have h1 := StacksLeft.same h hs
  refine ⟨fun hbury => ?_,fun _ => h1⟩
  obtain ⟨hburies,hz⟩ := hb hbury
  obtain ⟨hclear,hna⟩ := hc hv hburies
  refine bury_pool.mono ?_ fun f _ => ⟨f,rfl⟩
  rintro k2 ⟨_,ha,_,hpool⟩
  refine (StackMem.free_spec h.pool (h.held hv) hclear).mono ?_ fun _ => False.elim
  rintro m' ⟨hp,hbegin,hheld⟩
  have hstate : ∀ u, (k2.pool u).state = (k1.pool u).state := fun u => by rw [hpool u]
  have hvalid : ∀ u, (k2.pool u).valid = if u = t then false else (k1.pool u).valid := fun u => by
    rw [hpool u]
  have hleft := h1.1.buried ((hs.valid t).trans hv)
    (by rw [hs.active]; exact hna) ha hvalid
    (by rw [hstate]; exact hz) (fun u hu => by rw [hstate]; exact hu) hp hbegin hheld
  exact h1.trans ⟨hleft.1,ha,hleft.2⟩

/-- The rounds of the sweep with what they do to the stacks. -/
def stackSweepMachine (clk : Clock) :
    Machine (Kernel cfg × StackMem cfg) (Thid cfg) StackFault where
  enabled := fun _ _ => true
  next := sweepThreadStack clk

/-- The stack of a thread that the sweep reaps can be given back. -/
def ClearReap (s : Kernel cfg × StackMem cfg) (i : Thid cfg) : Prop :=
  (s.1.pool i).valid = true → Reaps s.1 i →
    ClearsNext stsizeT s.2.mem.pool (s.2.stackBegin i)

theorem StackInv.sweepThread (h : StackInv lo hi k m) {i : Thid cfg} (hc : ClearReap (k,m) i) :
    Spec (sweepThreadStack clk (k,m) i) (fun s => StacksLeft lo hi k m s.1 s.2)
      (fun e => ∃ f, e = .kernel f) := by
  have hrefl : StacksLeft lo hi k m k m := .same h ⟨rfl,fun _ => rfl,fun _ hz => hz⟩
  have htable : SameTable k (k.modTcb i (timerTest (actTimeUs clk))) :=
    SameTable.modTcb k i _ fun b => by rw [timerTest_eq]; exact ⟨rfl,rfl,rfl⟩
  have hmoves : TcbMoves (fun u m => Kept u m ∨ m = .timer (actTimeUs clk)) k
      (k.modTcb i (timerTest (actTimeUs clk))) := TcbMoves.modTcb (Or.inr rfl) (.timer _)
  simp only [sweepThreadStack,spec_ite,spec_pure,spec_bind,spec_mapError]
  refine ⟨fun _ => hrefl,fun _ => ⟨fun _ => hrefl,fun hv => ⟨fun hz => ?_,fun _ =>
    .same h (htable.threads hmoves)⟩⟩⟩
  have hv : (k.pool i).valid = true := by simpa using hv
  rw [Kernel.modTcb_pool,if_pos rfl,timerTest_has_zombi,Bool.and_eq_true] at hz
  have hna : i ≠ k.activeThread := of_decide_eq_true hz.2
  refine ((sweepThread_detaches (actTimeUs clk) hz.1 hna).meet tkTryDetachParent_moves).mono ?_
    fun f _ => ⟨f,rfl⟩
  rintro ⟨k1,detached⟩ ⟨⟨hs,hreap⟩,hm⟩
  have hs : SameTable k k1 := hs
  have h1 := StacksLeft.same h (hs.threads (hmoves.trans (hm.mono fun _ _ => Or.inl)))
  refine ⟨fun hd => ?_,fun _ => h1⟩
  refine (h1.1.deleteThread fun _ _ => ?_).imp fun s hs' => h1.trans hs'
  exact ⟨hc hv (hreap hd),by rw [hs.activeThread]; exact hna⟩

theorem StackInv.sweep (h : StackInv lo hi k m)
    (hc : (stackSweepMachine clk).Along ClearReap (k,m) (List.finRange cfg.maxThreads)) :
    Spec ((List.finRange cfg.maxThreads).foldlM (sweepThreadStack clk) (k,m))
      (fun s => StacksLeft lo hi k m s.1 s.2) (fun e => ∃ f, e = .kernel f) := by
  refine (stackSweepMachine clk).spec_foldlM_along (fun _ _ => rfl) (fun s i hs hc => ?_)
    (.same h ⟨rfl,fun _ => rfl,fun _ hz => hz⟩) hc
  exact (hs.1.sweepThread hc).imp fun _ hs' => hs.trans hs'

end

/-! ### The steps -/

/-- What a step needs: a stack with room for its markup whose size can be rounded up, and stacks
that can be given back. Nobody deletes the thread that runs, itself. -/
def StackSafe (w : StackWorld cfg numQ) : StackLabel cfg numQ → Prop
  | .create r => r.stackSize+1 < 2^(8*stsizeT) ∧ 8 ≤ r.stackSize
  | .delete t => (w.kernel.pool t).valid = true → Buries w.kernel t →
      ClearsNext stsizeT w.stk.mem.pool (w.stk.stackBegin t) ∧ t ≠ w.me
  | .yield _ => (stackSweepMachine w.clock).Along ClearReap (w.kernel,w.stk)
      (List.finRange cfg.maxThreads)
  | _ => True

instance (s : Kernel cfg × StackMem cfg) (i : Thid cfg) : Decidable (ClearReap s i) := by
  unfold ClearReap; infer_instance

instance (w : StackWorld cfg numQ) (l : StackLabel cfg numQ) : Decidable (StackSafe w l) :=
  match l with
  | .call _ | .push _ _ => isTrue trivial
  | .create _ => inferInstanceAs (Decidable (_ ∧ _))
  | .delete _ => inferInstanceAs (Decidable (_ → _ → _ ∧ _))
  | .yield _ => Machine.decidableAlong _ ClearReap _ _

section

variable {w w' : World cfg numQ} {k k' : Kernel cfg} {m m' : StackMem cfg} {t : Thid cfg} {lo hi : ℕ}

theorem World.Does.sameThreads {l : WorldLabel cfg numQ} (h : w.Does l w')
    (hl : l.onStacks = false) : SameThreads w.kernel w'.kernel := by
  have hc : ∀ r, l ≠ .create r := by
    rintro r rfl
    cases hl
  have hy : ∀ t, l ≠ .yield t := by
    rintro t rfl
    cases hl
  refine ⟨(h.moves hc hy).active,fun t => ?_,fun t hz => ?_⟩
  · by_cases hr : w.reschedules l = false
    · exact ((h.sameTable hr).1.pool t).1
    · cases h with
      | creates => cases hl
      | deletes => cases hl
      | yields => cases hl
      | changesPrio _ hk =>
        obtain ⟨_,_,hpool⟩ := tkChangePrio_pool.of_ok hk
        obtain ⟨i,hi⟩ := hpool t
        have hv := congrArg Tcb.valid hi
        exact hv
      | createEnds _ _ hk =>
        obtain ⟨i,hi⟩ := tkCreateThreadEnd_pool.of_ok hk t
        have hv := congrArg Tcb.valid hi
        exact hv
      | syncs hsync => cases l <;> first | exact absurd rfl hr | cases hsync
      | returns hy hp =>
        obtain hp | ⟨qid,gen,hp⟩ := hp
        · simp [World.reschedules,hp] at hr
        · simp [World.reschedules,hp] at hr
      | takeEnds hy hp => simp [World.reschedules,hp] at hr
      | joinEnds hy hp => simp [World.reschedules,hp] at hr
      | syncEnds hy hp =>
        obtain ⟨c,hp⟩ | ⟨c,hp⟩ := hp
        · simp [World.reschedules,hp] at hr
        · simp [World.reschedules,hp] at hr
      | _ => exact absurd rfl hr
  · obtain hz' | ⟨r,_,hcr,_⟩ := h.dead_stays hz
    · exact hz'
    · exact absurd hcr (hc r)

theorem Begun.valid {r : ThreadReq} (h : Begun k r k' t) (u : Thid cfg) :
    (k'.pool u).valid = if u = t then true else (k.pool u).valid := by
  rw [h.pool]
  split <;> split <;> simp_all [newTcb]

/-- A creation gives the new thread a stack that nobody had. -/
theorem StackInv.create (h : StackInv lo hi k m) {r : ThreadReq} (hb : Begun k r k' t) {p : ℕ}
    {d : List Byte} (hp : PoolInvariant stsizeT lo hi m'.mem) (h0 : p ≠ 0)
    (hfree : m.mem.held p = none) (hheld : m'.mem.held = Function.update m.mem.held p (some d))
    (hbegin : m'.stackBegin = Function.update m.stackBegin t p) :
    StackInv lo hi k' m' ∧ ∀ u, (k.pool u).valid = true → SameStack m m' u := by
  have hother : ∀ u, u ≠ t → m'.stackBegin u = m.stackBegin u := fun u hu => by
    rw [hbegin,Function.update_of_ne hu]
  have hself : m'.stackBegin t = p := by rw [hbegin,Function.update_self]
  refine ⟨⟨hp,?_,fun u hu hz => ?_,fun u hu => ?_,?_⟩,fun u hu => ?_⟩
  · rw [hheld]
    refine h.owns.alloc (i:=t) hfree (.of_eq ?_) fun u hu => .of_eq ?_
    · rw [stackOf,stackOf,hb.valid,if_pos rfl,hself,if_pos ⟨rfl,h0⟩,hb.free]
      simp
    · rw [stackOf,stackOf,hb.valid,if_neg hu,hother u hu]
  · by_cases hut : u = t
    · rw [hut,hself] at hz
      exact absurd hz h0
    · rw [hb.valid,if_neg hut] at hu
      rw [hother u hut] at hz
      exact h.has u hu hz
  · have hut : u ≠ t := by
      rintro rfl
      rw [hb.valid,if_pos rfl] at hu
      cases hu
    rw [hb.valid,if_neg hut] at hu
    rw [hb.state,if_neg hut]
    exact h.dead u hu
  · rw [hb.eq]
    rw [Kernel.dispatch_activeThread,← hb.eq,hb.valid,if_pos rfl]
  · have hut : u ≠ t := by
      rintro rfl
      rw [hb.free] at hu
      cases hu
    refine ⟨hother u hut,?_⟩
    rw [hheld]
    refine Function.update_of_ne ?_ _ _
    obtain hz | hs := h.held hu
    · rw [hz]
      exact h0.symm
    · intro he
      rw [he,hfree] at hs
      cases hs

theorem StackInv.createThread (h : StackInv lo hi k m) {r : StackReq} (h8 : 8 ≤ r.stackSize)
    (hsize : r.stackSize+1 < 2^(8*stsizeT)) : Spec (createThreadStack k m r)
      (fun s => StackInv lo hi s.1 s.2.1 ∧ ∀ u, (k.pool u).valid = true → SameStack m s.2.1 u)
      (fun e => ∃ f, e = .kernel f) := by
  have hfault : Spec (createThreadStack k m r) (fun _ => True) (fun e => ∃ f, e = .kernel f) := by
    simp only [createThreadStack,spec_bind,spec_mapError,spec_check]
    refine (spec_of_forall fun slotIdx => ⟨fun _ => ?_,fun _ => ⟨_,rfl⟩⟩).mono (fun _ h => h)
      fun f _ => ⟨f,rfl⟩
    cases nextFree (fun t => (k.pool t).valid) cfg.maxThreads k.procIdx with
    | none => exact ⟨_,rfl⟩
    | some t =>
      simp only [spec_bind,spec_check]
      exact ⟨fun _ => (StackMem.alloc_spec h.pool h8 hsize).mono (fun _ _ => trivial)
        fun e he => ⟨_,he⟩,fun _ => ⟨_,rfl⟩⟩
  cases hs : createThreadStack k m r with
  | error e => exact hfault.of_error hs
  | ok s =>
    obtain ⟨hk,ha⟩ := createThreadStack_kernel.of_ok hs
    obtain ⟨hp,p,d,h0,hfree,_,hheld,hbegin⟩ := (StackMem.alloc_spec h.pool h8 hsize).of_ok ha
    exact h.create ((tkCreateThreadBegin_begun _ _).of_ok hk) hp h0 hfree hheld hbegin

end

/-- What a step leaves of the stacks of the threads that are there before it and behind it. -/
def StackWorld.Keeps (w : StackWorld cfg numQ) (l : StackLabel cfg numQ) (w' : StackWorld cfg numQ) :
    Prop :=
  ∀ u, (w.kernel.pool u).valid = true → (w'.kernel.pool u).valid = true →
    (∀ off bytes, l = .push off bytes → w.me ≠ u) → SameStack w.stk w'.stk u

section

variable {w : StackWorld cfg numQ} {l : StackLabel cfg numQ} {lo hi : ℕ}

theorem stackStep_spec (h : StackInv lo hi w.kernel w.stk) (he : stackEnabled w l = true)
    (hc : StackSafe w l) : Spec (stackNext w l)
      (fun w' => StackInv lo hi w'.kernel w'.stk ∧ w.Keeps l w') (fun e => ∃ f, e = .kernel f) := by
  cases l with
  | call l =>
    obtain ⟨he,hl⟩ := (Bool.and_eq_true _ _).mp he
    have hl : l.onStacks = false := by simpa using hl
    simp only [stackNext,spec_bind,spec_mapError,spec_pure]
    cases hn : worldNext w.toWorld l with
    | error e => exact ⟨e,rfl⟩
    | ok w' =>
      have hd : w.toWorld.Does l w' := worldStep_does ⟨he,hn⟩
      exact ⟨h.same (hd.sameThreads hl),fun u _ _ _ => SameStack.refl _ u⟩
  | create r =>
    simp only [stackNext,spec_bind,spec_pure]
    refine (h.createThread hc.2 hc.1).imp ?_
    rintro ⟨k,m,t⟩ ⟨hi,hsame⟩
    exact ⟨hi,fun u hu _ _ => hsame u hu⟩
  | delete t =>
    simp only [stackNext,spec_bind,spec_pure]
    refine (h.deleteThread hc).imp ?_
    rintro ⟨k,m,ok⟩ ⟨hi,_,hsame⟩
    exact ⟨hi,fun u _ hu _ => (hsame u hu).2⟩
  | yield t =>
    simp only [stackNext,spec_bind,spec_pure]
    refine ((h.sweep hc).meet (sweepStack_kernel (m:=w.stk))).mono ?_ fun e he => he.1
    rintro ⟨k,m⟩ ⟨⟨hi,_,hsame⟩,hk⟩
    -- the thread that is dispatched is ready, so it is not dead and its slot is not free
    have hready : (k.pool t).state = .ready := by
      have hr := ((Bool.and_eq_true _ _).mp he).2
      rw [readyAfterSweep,tkWakeupTimedoutThreads,hk] at hr
      exact of_decide_eq_true hr
    have hrun : (k.pool t).valid = true := by
      by_contra hv
      have hz := hi.dead t (by simpa using hv)
      rw [hready] at hz
      cases hz
    exact ⟨⟨hi.pool,hi.owns,hi.has,hi.dead,hrun⟩,fun u _ hu _ => (hsame u hu).2⟩
  | push off bytes =>
    obtain ⟨d,hd,hin⟩ := (Option.any_eq_true _ _).mp he
    simp only [stackNext,spec_bind,spec_pure]
    refine (StackMem.push_spec h.pool ⟨d,hd,of_decide_eq_true hin⟩).mono ?_ fun _ => False.elim
    rintro m ⟨hp,hbegin,d',hheld⟩
    refine ⟨⟨hp,?_,?_,h.dead,h.running⟩,fun u hu _ hne => ?_⟩
    · have howns : Owns m.mem.held (stackOf w.kernel w.stk) := h.owns.of_isSome fun p => by
        rw [hheld]
        by_cases hpp : p = w.stk.stackBegin w.me
        · rw [hpp,Function.update_self,hd]
          rfl
        · rw [Function.update_of_ne hpp]
      exact howns.perm fun t => .of_eq (by rw [stackOf,stackOf,hbegin])
    · rw [hbegin]
      exact h.has
    · refine ⟨congrFun hbegin u,?_⟩
      rw [hheld]
      exact Function.update_of_ne (h.stack_ne hu h.running (hne off bytes rfl).symm) _ _

end

/-! ### Whole runs -/

/-- Every valid thread has a stack, the first one apart, which needs none; no two have the same, and
nothing else is held. The stacks are inside the memory for stacks and apart from each other. The
thread that runs is valid, so its stack has not been given back. -/
structure StacksKept (lo hi : ℕ) (w : StackWorld cfg numQ) : Prop where
  has : ∀ t, (w.kernel.pool t).valid = true → t = root ∧ w.stk.stackBegin t = 0 ∨
    (w.stk.mem.held (w.stk.stackBegin t)).isSome = true
  apart : ∀ t u, (w.kernel.pool t).valid = true → (w.kernel.pool u).valid = true → t ≠ u →
    w.stk.stackBegin t ≠ w.stk.stackBegin u
  only : ∀ p, (w.stk.mem.held p).isSome = true →
    ∃ t, (w.kernel.pool t).valid = true ∧ w.stk.stackBegin t = p
  laidOut : LaidOut stsizeT lo hi w.stk.mem
  running : (w.kernel.pool w.me).valid = true

/-- Thread `t` is there and does not write to its stack. -/
def StackRests (t : Thid cfg) (w : StackWorld cfg numQ) (l : StackLabel cfg numQ) : Prop :=
  (w.kernel.pool t).valid = true ∧
  match l with
  | .push _ _ => w.me ≠ t
  | _ => True

instance (t : Thid cfg) (w : StackWorld cfg numQ) (l : StackLabel cfg numQ) :
    Decidable (StackRests t w l) := by
  unfold StackRests; split <;> infer_instance

section

variable {w w0 w' : StackWorld cfg numQ} {ls ls' : List (StackLabel cfg numQ)} {lo hi : ℕ}
  {clk : Clock} {i : Fin numQ} {mem : MemPool} {pool size minimumStackSize : ℕ} {t : Thid cfg}

theorem StackInv.kept (h : StackInv lo hi w.kernel w.stk) : StacksKept lo hi w where
  has := fun t ht => by
    obtain h0 | hs := h.held ht
    · exact Or.inl ⟨h.has t ht h0,h0⟩
    · exact Or.inr hs
  apart := fun _ _ ht hu hne => h.stack_ne ht hu hne
  only := fun p hp => by
    obtain ⟨t,ht⟩ := h.owns.exists_holder hp
    obtain ⟨hv,hb,_⟩ := mem_stackOf.mp ht
    exact ⟨t,hv,hb⟩
  laidOut := by
    obtain ⟨fl,us,hinv⟩ := h.pool
    exact hinv.laidOut
  running := h.running

/-- The kernel as created has the idle thread's stack. -/
theorem StackInv.init (hfits : PoolFits stsizeT pool size) (h8 : 8 ≤ minimumStackSize)
    (hmin : minimumStackSize+1 < 2^(8*stsizeT))
    (hw : stackInit clk i mem pool size minimumStackSize = .ok w0) :
    StackInv pool (pool+size) w0.kernel w0.stk := by
  obtain ⟨k,hk,hw⟩ := bind_eq_ok.mp hw
  obtain ⟨m,hm,hw⟩ := bind_eq_ok.mp hw
  cases hw
  have hk : tkCreateKernel clk = .ok k := by
    cases hc : (tkCreateKernel clk : Except Fault (Kernel cfg)) with
    | error e => rw [hc] at hk; cases hk
    | ok k' => rw [hc] at hk; cases hk; rfl
  have hb : Booted k := (tkCreateKernel_spec clk).of_ok hk
  have h0 : PoolInvariant stsizeT pool (pool+size) (poolInit stsizeT pool size mem) :=
    ⟨_,_,PoolInv.init hfits⟩
  obtain ⟨hp,p,d,hne,hfree,_,hheld,hbegin⟩ := (StackMem.alloc_spec h0 h8 hmin).of_ok hm
  have hidle : (k.pool k.idleThid).valid = true := (hb.valid _).mpr (Or.inr rfl)
  have hself : m.stackBegin k.idleThid = p := by rw [hbegin,Function.update_self]
  have hother : ∀ t, t ≠ k.idleThid → m.stackBegin t = 0 := fun t ht => by
    rw [hbegin,Function.update_of_ne ht]
  refine ⟨hp,?_,fun t ht hz => ?_,fun t ht => ?_,?_⟩
  · rw [hheld]
    refine owns_empty.alloc (i:=k.idleThid) rfl (.of_eq ?_) fun t ht => .of_eq ?_
    · show stackOf k m k.idleThid = _
      rw [stackOf,hself,if_pos ⟨hidle,hne⟩]
    · show stackOf k m t = _
      rw [stackOf,if_neg fun h => h.2 (hother t ht)]
  · have ht : (k.pool t).valid = true := ht
    obtain hr | hid := (hb.valid t).mp ht
    · exact hr
    · rw [hid] at hz
      exact absurd (hself.symm.trans hz) hne
  · have hfree := tkCreateKernel_free.of_ok hk t ht
    show (k.pool t).state.has .zombi = true
    rw [hfree]
    exact ProcState.zombi_has_zombi
  · show (k.pool k.activeThread).valid = true
    rw [hb.active]
    exact (hb.valid _).mpr (Or.inl rfl)

theorem stackRun_inv (h : StackInv lo hi w0.kernel w0.stk)
    (hc : (stackMachine cfg numQ).Along StackSafe w0 ls)
    (hr : (stackMachine cfg numQ).run w0 ls = some w) : StackInv lo hi w.kernel w.stk :=
  (stackMachine cfg numQ).run_invariant (I:=fun w => StackInv lo hi w.kernel w.stk)
    (fun _ _ _ hi hc hm => ((stackStep_spec hi hm.1 hc).of_ok hm.2).1) h hc hr

/-- The run is one of the kernel without its stacks. In every state of it the stacks are the valid
threads', each of them one, and apart; and no step stops in the allocator. -/
theorem stackRun_kept (hfits : PoolFits stsizeT pool size) (h8 : 8 ≤ minimumStackSize)
    (hmin : minimumStackSize+1 < 2^(8*stsizeT))
    (hw : stackInit clk i mem pool size minimumStackSize = .ok w0)
    (hc : (stackMachine cfg numQ).Along StackSafe w0 ls)
    (hr : (stackMachine cfg numQ).run w0 ls = some w) :
    (worldMachine cfg numQ).run w0.toWorld (ls.map StackLabel.below) = some w.toWorld ∧
    StacksKept pool (pool+size) w ∧
    ∀ l e, stackEnabled w l = true → StackSafe w l → stackNext w l = .error e →
      ∃ f, e = .kernel f := by
  have hinv := stackRun_inv (StackInv.init hfits h8 hmin hw) hc hr
  exact ⟨stackRun_world hr,hinv.kept,fun l e he hs hn => (stackStep_spec hinv he hs).of_error hn⟩

/-- Where nobody writes to the stack of `t` and the thread is there all along, no step changes it. -/
theorem stackRun_sameStack (h : StackInv lo hi w.kernel w.stk)
    (hc : (stackMachine cfg numQ).Along (fun w l => StackSafe w l ∧ StackRests t w l) w ls)
    (hr : (stackMachine cfg numQ).run w ls = some w') (ht : (w'.kernel.pool t).valid = true) :
    StackInv lo hi w'.kernel w'.stk ∧ SameStack w.stk w'.stk t := by
  induction ls generalizing w with
  | nil =>
    simp only [Machine.run,Option.some.injEq] at hr
    subst hr
    exact ⟨h,SameStack.refl _ t⟩
  | cons l ls ih =>
    obtain ⟨m,hm,hr⟩ := (Machine.run_cons _).mp hr
    obtain ⟨⟨hsafe,hv,hrest⟩,hc⟩ := hc
    obtain ⟨hi,hkeeps⟩ := (stackStep_spec h hm.1 hsafe).of_ok hm.2
    have hvm : (m.kernel.pool t).valid = true := by
      cases ls with
      | nil =>
        simp only [Machine.run,Option.some.injEq] at hr
        exact hr ▸ ht
      | cons l' ls => exact (hc m hm).1.2.1
    have hstep : SameStack w.stk m.stk t := by
      refine hkeeps t hv hvm ?_
      rintro off bytes rfl
      exact hrest
    obtain ⟨hi',hlater⟩ := ih hi (hc m hm) hr
    exact ⟨hi',hstep.trans hlater⟩

/-- The stack of a thread that does not run its own code is as it was left, whatever others do. -/
theorem stackRun_rests (hfits : PoolFits stsizeT pool size) (h8 : 8 ≤ minimumStackSize)
    (hmin : minimumStackSize+1 < 2^(8*stsizeT))
    (hw : stackInit clk i mem pool size minimumStackSize = .ok w0)
    (hc : (stackMachine cfg numQ).Along StackSafe w0 ls)
    (hr : (stackMachine cfg numQ).run w0 ls = some w)
    (hc' : (stackMachine cfg numQ).Along (fun w l => StackSafe w l ∧ StackRests t w l) w ls')
    (hr' : (stackMachine cfg numQ).run w ls' = some w') (ht : (w'.kernel.pool t).valid = true) :
    w'.stk.stackBegin t = w.stk.stackBegin t ∧
    ∀ d, w.stk.mem.held (w.stk.stackBegin t) = some d →
      peek w'.stk.mem.pool.mem (w.stk.stackBegin t) d.length =
        peek w.stk.mem.pool.mem (w.stk.stackBegin t) d.length := by
  have h := stackRun_inv (StackInv.init hfits h8 hmin hw) hc hr
  obtain ⟨h',hbegin,hheld⟩ := stackRun_sameStack h hc' hr' ht
  refine ⟨hbegin,fun d hd => ?_⟩
  rw [h.pool.peek_held hd]
  exact h'.pool.peek_held (hheld.trans hd)

end

/-- The root thread makes a thread, which writes to its stack; then another one, which does so too
and is deleted and buried. -/
def twoStacksSteps : List (StackLabel gnuArm 4) :=
  [.create ⟨"a",1,0,32⟩,.push 2 [1,2,3],.yield root,.call .resume]

def laterSteps : List (StackLabel gnuArm 4) :=
  [.create ⟨"b",2,0,32⟩,.push 4 [9],.yield root,.call .resume,.delete 3,.delete 3,.call (.msleep 5),
    .yield 2]

theorem stacksFit : PoolFits stsizeT 100 400 :=
  ⟨by decide,by decide,by decide,by decide⟩

/-- The kernel on 400 bytes of memory that is all zeros. -/
def stacksInit : Except StackFault (StackWorld gnuArm 4) := stackInit 0 0 ⟨fun _ => 0,0⟩ 100 400 32

theorem stackRun_kept_twoStacks : ∃ w0 w : StackWorld gnuArm 4, stacksInit = .ok w0 ∧
    (stackMachine gnuArm 4).run w0 (twoStacksSteps ++ laterSteps) = some w ∧
    (w.stk.stackBegin 2 = 430 ∧ w.stk.mem.held 392 = none) ∧ StacksKept 100 500 w := by
  obtain ⟨w0,w,hw,hc,hr,hp⟩ := (stackMachine gnuArm 4).exists_along (x:=stacksInit) StackSafe
    (fun w => w.stk.stackBegin 2 = 430 ∧ w.stk.mem.held 392 = none) id
    (twoStacksSteps ++ laterSteps) (by decide +kernel)
  exact ⟨w0,w,hw,hr,hp,(stackRun_kept stacksFit (by decide) (by decide) hw hc hr).2.1⟩

theorem stackRun_rests_twoStacks : ∃ w0 w w' : StackWorld gnuArm 4, stacksInit = .ok w0 ∧
    (stackMachine gnuArm 4).run w0 twoStacksSteps = some w ∧
    (stackMachine gnuArm 4).run w laterSteps = some w' ∧ w'.me = 2 ∧
    peek w'.stk.mem.pool.mem 430 32 = peek w.stk.mem.pool.mem 430 32 := by
  obtain ⟨w0,w,hw,hc,hr,hrest,hend⟩ := (stackMachine gnuArm 4).exists_along (x:=stacksInit) StackSafe
    (fun w => (w.stk.stackBegin 2 = 430 ∧ ((w.stk.mem.held 430).any fun d => d.length = 32) = true ∧
      (stackMachine gnuArm 4).Along (fun w l => StackSafe w l ∧ StackRests 2 w l) w laterSteps) ∧
      ((stackMachine gnuArm 4).run w laterSteps).any (fun w' => decide (w'.me = 2 ∧
        (w'.kernel.pool 2).valid = true)) = true) id twoStacksSteps (by decide +kernel)
  obtain ⟨hbegin,hheld,hc'⟩ := hrest
  obtain ⟨d,hd,hlen⟩ := (Option.any_eq_true _ _).mp hheld
  obtain ⟨w',hr',hme,hv⟩ := (stackMachine gnuArm 4).exists_run _ w laterSteps hend
  have hkept := (stackRun_rests stacksFit (by decide) (by decide) hw hc hr hc' hr' hv).2 d
    (by rw [hbegin]; exact hd)
  rw [of_decide_eq_true hlen,hbegin] at hkept
  exact ⟨w0,w,w',hw,hr,hr',hme,hkept⟩

end Tinker

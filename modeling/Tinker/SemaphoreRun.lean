import Tinker.ItcRing

/-! Threads on one FIFO semaphore. A step is what a thread does between two yields, or the
sweep and the dispatch inside `tk_yield`. -/
namespace Tinker

open Outcome Ring

variable {cfg : Config}

/-- Where a thread is: in its own code, behind the yield of `sm_p` with the index a timed wait
remembers, or behind the yield of `sm_v`. -/
inductive SemLoc
  | user | inP (markIdx : Option ℕ) | inV
  deriving DecidableEq

/-- `ret` is the result of a thread's last call. The last five fields only count: arrivals in
the ring with the number each thread has drawn, `sm_v` calls, `sm_p` calls that took a token
or queued up, and `sm_p` calls that returned `ERR_OK`. -/
structure SemState (cfg : Config) where
  kernel : Kernel cfg
  itc : Itc cfg
  loc : Thid cfg → SemLoc
  yielding : Bool
  ret : Thid cfg → Option ItcErr
  arrivals : ℕ
  arrival : Thid cfg → ℕ
  posts : ℕ
  taken : ℕ
  oks : ℕ

inductive SemLabel (cfg : Config)
  | smP (flags : IpcFlags) (timeout clk : Clock) | smV | resume
  | yield (clk : Clock) (t : Thid cfg)

def SemState.runs (s : SemState cfg) : Bool :=
  !s.yielding && decide (s.loc s.kernel.activeThread = .user)

def semEnabled (s : SemState cfg) : SemLabel cfg → Bool
  | .smP _ _ _ => s.runs
  | .smV => s.runs
  | .resume => !s.yielding && decide (s.loc s.kernel.activeThread ≠ .user)
  | .yield clk t => (s.yielding || s.runs) && readyAfterSweep s.kernel clk t

/-- A `sm_p` call ends with result `e`. -/
def SemState.endP (s : SemState cfg) (e : ItcErr) : SemState cfg :=
  { s with
    loc := Function.update s.loc s.kernel.activeThread .user
    ret := Function.update s.ret s.kernel.activeThread (some e)
    oks := if e = .ok then s.oks+1 else s.oks }

def semNext (s : SemState cfg) : SemLabel cfg → Except Fault (SemState cfg)
  | .smP flags timeout clk =>
    let me := s.kernel.activeThread
    let (k,slot,r) := smP s.kernel (some s.itc) flags timeout clk
    let s' := { s with kernel := k, itc := slot.getD s.itc }
    match r with
    | .ret e => .ok (SemState.endP { s' with taken := if e = .ok then s.taken+1 else s.taken } e)
    | .waits m => .ok { s' with
        loc := Function.update s.loc me (.inP m)
        yielding := true
        arrivals := s.arrivals+1
        arrival := Function.update s.arrival me s.arrivals
        taken := s.taken+1 }
  | .smV => do
    let me := s.kernel.activeThread
    let (k,slot,yields,e) ← smV s.kernel (some s.itc)
    let s' := { s with kernel := k, itc := slot.getD s.itc, posts := s.posts+1 }
    if yields then return { s' with loc := Function.update s.loc me .inV, yielding := true }
    else return { s' with ret := Function.update s.ret me (some e) }
  | .resume =>
    match s.loc s.kernel.activeThread with
    | .user => .ok s
    | .inP none => .ok (s.endP .ok)
    | .inP (some markIdx) => do
      let (k,q,e) ← lockStageWoken s.kernel s.itc markIdx
      return SemState.endP { s with kernel := k, itc := q } e
    | .inV => .ok { s with
        loc := Function.update s.loc s.kernel.activeThread .user
        ret := Function.update s.ret s.kernel.activeThread (some .ok) }
  | .yield clk t => do
    let k ← tkWakeupTimedoutThreads s.kernel clk
    return { s with kernel := k.dispatch t, yielding := false }

def semMachine (cfg : Config) : Machine (SemState cfg) (SemLabel cfg) Fault where
  enabled := semEnabled
  next := semNext

/-- A semaphore fresh from `sm_create`. -/
def semInit (k : Kernel cfg) (count : ℕ) (flags : IpcFlags) : SemState cfg where
  kernel := k
  itc := smCreate count flags
  loc := fun _ => .user
  yielding := false
  ret := fun _ => none
  arrivals := 0
  arrival := fun _ => 0
  posts := 0
  taken := 0
  oks := 0

structure SemInv (s : SemState cfg) (l : List (Thid cfg)) : Prop where
  queued : s.itc.Queued l
  fifo : s.itc.flags &&& prior = 0
  sem : s.itc.bType = .sem
  token_lt : s.itc.token < 2^31
  waiting : Waiting s.kernel l (fun t => s.loc t = .inP none)
    (fun t => ∃ m, s.loc t = .inP (some m))
  alive : Alive s.kernel
  running : s.yielding = false → (s.kernel.pool s.kernel.activeThread).state = .ready
  order : l.Pairwise fun t u => s.arrival t < s.arrival u
  arrived : ∀ t ∈ l, s.arrival t < s.arrivals

theorem semInit_inv {k : Kernel cfg} {count : ℕ} {flags : IpcFlags} (hk : Quiet k)
    (hf : flags &&& prior = 0) (hc : count < 2^31) : SemInv (semInit k count flags) [] where
  queued := by
    have ht : toInt32 count = count := toInt32_of_range (by omega) (by omega)
    exact ⟨Holds.nil _ cfg.maxBlockedOnQ_pos,by simp [semInit,smCreate,ht]⟩
  fifo := hf
  sem := rfl
  token_lt := by
    have ht : toInt32 count = count := toInt32_of_range (by omega) (by omega)
    simp only [semInit,smCreate,ht]
    omega
  waiting := by
    refine ⟨List.nodup_nil,fun t hq => ?_,fun t hm => (by cases hm)⟩
    have := hk.unblocked t
    simp only [semInit] at hq
    rw [this] at hq
    cases hq
  alive := hk.alive
  running := fun _ => hk.ready
  order := List.Pairwise.nil
  arrived := fun t hm => by cases hm

/-- A thread that has timed out while others wait finds its own entry under the index it
remembers, and no token count leaves the range of an `int`. -/
def OwnEntry (s : SemState cfg) : SemLabel cfg → Prop
  | .resume => match s.loc s.kernel.activeThread with
    | .inP (some markIdx) =>
      (s.kernel.pool s.kernel.activeThread).wakeupEvent = .timer → s.itc.token < 0 →
        pred cfg.maxBlockedOnQ markIdx ∈ s.itc.idxs ∧
        s.itc.blockedProcs (pred cfg.maxBlockedOnQ markIdx) = some s.kernel.activeThread
    | _ => True
  | .smV => s.itc.token+1 < 2^31
  | _ => True

section

variable {s : SemState cfg} {l : List (Thid cfg)}

theorem SemInv.notMem (h : SemInv s l) (hy : s.yielding = false)
    (ht : ∀ m, s.loc s.kernel.activeThread ≠ .inP (some m)) : s.kernel.activeThread ∉ l := by
  intro hm
  obtain ⟨m,hl⟩ := (h.waiting.ready hm (h.running hy)).1
  exact ht m hl

/-- A thread outside the ring may change its place. -/
theorem SemInv.setLoc (h : SemInv s l) {t : Thid cfg} (ht : t ∉ l) (x : SemLoc) :
    Waiting s.kernel l (fun u => Function.update s.loc t x u = .inP none)
      (fun u => ∃ m, Function.update s.loc t x u = .inP (some m)) := by
  have hne : ∀ u ∈ l, u ≠ t := by rintro u hu rfl; exact ht hu
  refine h.waiting.mono rfl (fun u hu hx => ?_) fun u hu hx => ?_
  · rw [Function.update_of_ne (hne u hu)]; exact hx
  · rw [Function.update_of_ne (hne u hu)]; exact hx

/-- `sm_p` takes a token, fails with the object unchanged, or queues the caller up. -/
theorem SemInv.smP (h : SemInv s l) {flags : IpcFlags} {timeout clk : Clock}
    (he : s.runs = true) : Spec (semNext s (.smP flags timeout clk)) (fun s' =>
      s'.kernel = s.kernel ∧ s'.loc = s.loc ∧ s'.posts = s.posts ∧ SemInv s' l ∧
        (0 < s.itc.token ∧ s'.itc = { s.itc with token := s.itc.token-1 } ∧
          s'.taken = s.taken+1 ∧ s'.oks = s.oks+1 ∨
        s.itc.token ≤ 0 ∧ s'.itc = s.itc ∧ s'.taken = s.taken ∧ s'.oks = s.oks ∧
          (flags &&& nowait = 0 → cfg.maxBlockedOnQ ≤ l.length+1 ∧
            s'.ret s.kernel.activeThread = some .blockLimit)) ∨
      ∃ m, s'.loc = Function.update s.loc s.kernel.activeThread (.inP m) ∧
        (m.isNone = true ↔ timeout = 0) ∧ s'.posts = s.posts ∧ l.length+1 < cfg.maxBlockedOnQ ∧
        SemInv s' (l ++ [s.kernel.activeThread]) ∧
        s'.itc.token = s.itc.token-1 ∧ s'.taken = s.taken+1 ∧ s'.oks = s.oks)
      (fun _ => False) := by
  simp only [SemState.runs,Bool.and_eq_true,Bool.not_eq_true',decide_eq_true_eq] at he
  obtain ⟨hy,hu⟩ := he
  have hnm := h.notMem hy (by rw [hu]; rintro m ⟨⟩)
  have hloc : Function.update s.loc s.kernel.activeThread .user = s.loc :=
    Function.update_eq_self_iff.mpr hu.symm
  have hsem : ¬s.itc.bType ≠ .sem := fun hn => hn h.sem
  simp only [semNext,Tinker.smP,if_neg hsem]
  by_cases hns : s.itc.token ≤ 0 ∧ flags &&& nowait ≠ 0
  · simp only [if_pos hns]
    refine Or.inl ⟨rfl,hloc,rfl,?_,Or.inr ⟨hns.1,rfl,rfl,rfl,fun hf => absurd hf hns.2⟩⟩
    exact ⟨h.queued,h.fifo,h.sem,h.token_lt,by rw [SemState.endP]; exact h.setLoc hnm .user,h.alive,
      h.running,h.order,h.arrived⟩
  · simp only [if_neg hns]
    obtain ⟨ht,hls⟩ | ⟨ht,hroom,q',m,hls,hm,hq,hb,htok⟩ | ⟨ht,hfull,hls⟩ :=
      h.queued.lockStage s.kernel timeout clk
    · simp only [hls]
      refine Or.inl ⟨rfl,hloc,rfl,?_,Or.inl ⟨ht,rfl,rfl,rfl⟩⟩
      refine ⟨⟨h.queued.holds,?_⟩,h.fifo,h.sem,?_,h.setLoc hnm .user,h.alive,h.running,h.order,
        h.arrived⟩
      · have := h.queued.length
        simp only [SemState.endP,Option.getD_some]
        omega
      · have := h.token_lt
        simp only [SemState.endP,Option.getD_some]
        omega
    · simp only [hls]
      refine Or.inr ⟨m,rfl,hm,rfl,hroom,?_,htok,rfl,rfl⟩
      have hready := h.running hy
      have htimed : timeout ≠ 0 → ∃ i, m = some i := fun h0 =>
        Option.ne_none_iff_exists'.mp fun hn => h0 (hm.mp (by rw [hn]; rfl))
      have hflat : timeout = 0 → m = none := fun h0 => Option.isNone_iff_eq_none.mp (hm.mpr h0)
      have hwait := Waiting.block (h.setLoc hnm (.inP m)) timeout clk hnm
        hready (fun h0 => by rw [Function.update_self,hflat h0])
        fun h0 => by
          obtain ⟨i,hi⟩ := htimed h0
          exact ⟨i,by rw [Function.update_self,hi]⟩
      have hne : ∀ u ∈ l, u ≠ s.kernel.activeThread := by rintro u hu rfl; exact hnm hu
      refine ⟨hq,hb.flags.symm ▸ h.fifo,hb.bType.trans h.sem,?_,hwait,h.alive.modTcb ?_,
        fun hf => (by cases hf),?_,?_⟩
      · have := h.token_lt
        simp only [Option.getD_some]
        omega
      · intro _
        rw [goToSleep_state timeout clk hready]
        split <;> decide
      · rw [List.pairwise_append]
        refine ⟨h.order.imp_of_mem fun hu hv huv => ?_,List.pairwise_singleton _ _,
          fun t ht u hu => ?_⟩
        · simpa only [Function.update_of_ne (hne _ hu),Function.update_of_ne (hne _ hv)] using huv
        · simp only [List.mem_singleton.mp hu,Function.update_of_ne (hne t ht),Function.update_self]
          exact h.arrived t ht
      · intro t ht
        obtain ht | ht := List.mem_append.mp ht
        · simp only [Function.update_of_ne (hne t ht)]
          exact (h.arrived t ht).trans (Nat.lt_succ_self _)
        · simp [List.mem_singleton.mp ht]
    · simp only [hls]
      refine Or.inl ⟨rfl,hloc,rfl,?_,Or.inr ⟨ht,rfl,rfl,rfl,fun _ => ⟨hfull,?_⟩⟩⟩
      · exact ⟨h.queued,h.fifo,h.sem,h.token_lt,h.setLoc hnm .user,h.alive,h.running,h.order,
          h.arrived⟩
      · simp [SemState.endP]

/-- `sm_v` adds a token where nobody waits, and else readies one thread; those passed over
had timed out. -/
theorem SemInv.smV (h : SemInv s l) (he : s.runs = true) (hc : s.itc.token+1 < 2^31) :
    Spec (semNext s .smV) (fun s' => s'.posts = s.posts+1 ∧ s'.taken = s.taken ∧ s'.oks = s.oks ∧
      (l = [] ∧ s'.itc.token = s.itc.token+1 ∧ s'.kernel = s.kernel ∧ s'.loc = s.loc ∧ SemInv s' [] ∨
      ∃ pre him post, l = pre ++ him :: post ∧ s'.kernel = readyByItc s.kernel him ∧
        s'.itc.token = -post.length ∧
        s'.loc = Function.update s.loc s.kernel.activeThread .inV ∧
        (∀ t ∈ pre, (s.kernel.pool t).state.has .queue = false) ∧ SemInv s' post))
      (fun _ => False) := by
  simp only [SemState.runs,Bool.and_eq_true,Bool.not_eq_true',decide_eq_true_eq] at he
  obtain ⟨hy,hu⟩ := he
  have hnm := h.notMem hy (by rw [hu]; rintro m ⟨⟩)
  have hsem : ¬s.itc.bType ≠ .sem := fun hn => hn h.sem
  simp only [semNext,Tinker.smV,if_neg hsem,spec_bind]
  refine (h.queued.unlockStage h.fifo).imp ?_
  rintro ⟨k',q',yields⟩ (⟨rfl,hr⟩ | ⟨pre,him,post,rfl,hk,hy',hq,hb,htok,hpre,_⟩)
  · obtain ⟨rfl,rfl,rfl⟩ : k' = s.kernel ∧
        q' = { s.itc with token := toInt32 (s.itc.token+1) } ∧ yields = false := by
      simpa using hr
    have htok : toInt32 (s.itc.token+1) = s.itc.token+1 := by
      have := h.queued.length
      refine toInt32_of_range ?_ hc
      simp only [List.length_nil] at this
      omega
    refine ⟨rfl,rfl,rfl,Or.inl ⟨rfl,htok,rfl,rfl,?_⟩⟩
    have hlen := h.queued.length
    refine ⟨⟨h.queued.holds,?_⟩,h.fifo,h.sem,?_,h.waiting,h.alive,h.running,List.Pairwise.nil,?_⟩
    · simp only [Option.getD_some,htok]
      simp only [List.length_nil] at hlen ⊢
      omega
    · simpa only [Option.getD_some,htok] using hc
    · intro t ht; cases ht
  · have hk : k' = readyByItc s.kernel him := hk
    have hy' : yields = true := hy'
    subst hk hy'
    refine ⟨rfl,rfl,rfl,Or.inr ⟨pre,him,post,rfl,rfl,htok,rfl,hpre,?_⟩⟩
    have hsub : post.Sublist (pre ++ him :: post) :=
      (List.sublist_cons_self him post).trans (List.sublist_append_right pre _)
    have hmem : ∀ t ∈ post, t ∈ pre ++ him :: post := fun t ht => hsub.subset ht
    refine ⟨hq,hb.flags.symm ▸ h.fifo,hb.bType.trans h.sem,?_,
      (h.setLoc hnm .inV).unlock hpre,?_,fun hf => (by cases hf),h.order.sublist hsub,
      fun t ht => h.arrived t (hmem t ht)⟩
    · have htok : q'.token = -post.length := htok
      simp only [Option.getD_some]
      omega
    · exact h.alive.readyByItc him

/-- A call that ends leaves its thread outside the ring; only threads that have timed out leave
the ring with it. -/
theorem SemInv.resume (h : SemInv s l) (he : semEnabled s .resume = true)
    (hc : OwnEntry s .resume) : Spec (semNext s .resume) (fun s' => ∃ l', SemInv s' l' ∧
      s'.posts = s.posts ∧ s'.taken = s.taken ∧
      ((∀ m, s.loc s.kernel.activeThread ≠ .inP (some m)) → l' = l ∧ s'.itc = s.itc ∧
        s'.kernel = s.kernel ∧ s'.loc = Function.update s.loc s.kernel.activeThread .user ∧
        s'.oks = if s.loc s.kernel.activeThread = .inP none then s.oks+1 else s.oks))
      (fun _ => False) := by
  simp only [semEnabled,Bool.and_eq_true,Bool.not_eq_true',decide_eq_true_eq] at he
  obtain ⟨hy,hu⟩ := he
  have hready := h.running hy
  simp only [semNext]
  simp only [OwnEntry] at hc
  cases hloc : s.loc s.kernel.activeThread with
  | user => exact absurd hloc hu
  | inV =>
    have hnm := h.notMem hy (by rw [hloc]; rintro m ⟨⟩)
    refine ⟨l,?_,rfl,rfl,fun _ => ⟨rfl,rfl,rfl,rfl,rfl⟩⟩
    exact ⟨h.queued,h.fifo,h.sem,h.token_lt,h.setLoc hnm .user,h.alive,h.running,h.order,h.arrived⟩
  | inP m =>
    rw [hloc] at hc
    cases m with
    | none =>
      have hnm := h.notMem hy (by rw [hloc]; rintro m ⟨⟩)
      refine ⟨l,?_,rfl,rfl,fun _ => ⟨rfl,rfl,rfl,rfl,rfl⟩⟩
      exact ⟨h.queued,h.fifo,h.sem,h.token_lt,h.setLoc hnm .user,h.alive,h.running,h.order,
        h.arrived⟩
    | some markIdx =>
      simp only [spec_bind,spec_pure]
      refine (h.queued.lockStageWoken (k:=s.kernel) h.waiting.nodup fun hev htok => ?_).imp ?_
      · obtain ⟨hidx,hcell⟩ := hc hev htok
        rw [Itc.idxs,h.queued.holds.walk_eq,List.mem_map] at hidx
        obtain ⟨i,hi,hp⟩ := hidx
        rw [List.mem_range] at hi
        refine ⟨i,hi,hp.symm,?_⟩
        rw [← hp,h.queued.holds.cell i hi] at hcell
        exact Option.some.inj hcell
      · rintro ⟨k',q',e⟩ (⟨rfl,rfl,hnil⟩ | ⟨l',hq,hb,htok,hd⟩)
        · have hnm : s.kernel.activeThread ∉ l := by
            intro hm
            rw [hnil (h.waiting.ready hm hready).2] at hm
            cases hm
          refine ⟨l,?_,rfl,rfl,fun hn => absurd rfl (hn markIdx)⟩
          exact ⟨h.queued,h.fifo,h.sem,h.token_lt,h.setLoc hnm .user,h.alive,h.running,h.order,
            h.arrived⟩
        · have hd : Dropped s.kernel (l.erase s.kernel.activeThread) l' k' := hd
          have hw := (h.waiting.erase hready).dropped hd
          have hsub := hd.sublist.trans List.erase_sublist
          have hnm : s.kernel.activeThread ∉ l' := fun hm =>
            h.waiting.nodup.not_mem_erase (hd.sublist.subset hm)
          have hact : k'.activeThread = s.kernel.activeThread := by rw [hd.rest]
          have hpool : ∀ t, (k'.pool t).valid = (s.kernel.pool t).valid ∧
              (k'.pool t).state = (s.kernel.pool t).state := by
            intro t
            rw [hd.pool]
            split <;> exact ⟨rfl,rfl⟩
          have hne : ∀ u ∈ l', u ≠ s.kernel.activeThread := by rintro u hu rfl; exact hnm hu
          refine ⟨l',⟨hq,hb.flags.symm ▸ h.fifo,hb.bType.trans h.sem,?_,?_,fun t ht => ?_,fun _ => ?_,
            h.order.sublist hsub,fun t ht => h.arrived t (hsub.subset ht)⟩,rfl,rfl,
            fun hn => absurd rfl (hn markIdx)⟩
          · have htok : q'.token ≤ 0 := htok
            simp only [SemState.endP]
            omega
          · refine hw.mono rfl (fun t ht hx => ?_) fun t ht hx => ?_
            · simp only [SemState.endP,hact,Function.update_of_ne (hne t ht)]; exact hx
            · simp only [SemState.endP,hact,Function.update_of_ne (hne t ht)]; exact hx
          · simp only [SemState.endP,(hpool t).1,(hpool t).2] at ht ⊢
            exact h.alive t ht
          · simp only [SemState.endP,(hpool _).2,hact]
            exact hready

theorem SemInv.yield (h : SemInv s l) {clk : Clock} {t : Thid cfg}
    (he : semEnabled s (.yield clk t) = true) : Spec (semNext s (.yield clk t)) (fun s' =>
      SemInv s' l ∧ s'.itc = s.itc ∧ s'.loc = s.loc ∧ s'.posts = s.posts ∧ s'.taken = s.taken ∧
        s'.oks = s.oks) (fun _ => False) := by
  simp only [semEnabled,Bool.and_eq_true] at he
  simp only [semNext,spec_bind,spec_pure]
  refine (h.alive.yield he.2).imp ?_
  rintro k ⟨halive,hp,hready⟩
  exact ⟨⟨h.queued,h.fifo,h.sem,h.token_lt,h.waiting.sweep hp,halive,fun _ => hready,h.order,
    h.arrived⟩,trivial,trivial,trivial,trivial,trivial⟩

theorem semStep_spec {x : SemLabel cfg} (h : SemInv s l) (he : semEnabled s x = true)
    (hc : OwnEntry s x) : Spec (semNext s x) (fun s' => ∃ l', SemInv s' l') (fun _ => False) := by
  cases x with
  | smP flags timeout clk =>
    refine (h.smP he).imp ?_
    rintro s' (⟨_,_,_,hi,_⟩ | ⟨_,_,_,_,_,hi,_⟩)
    · exact ⟨_,hi⟩
    · exact ⟨_,hi⟩
  | smV =>
    refine (h.smV he hc).imp ?_
    rintro s' ⟨_,_,_,⟨_,_,_,_,hi⟩ | ⟨_,_,_,_,_,_,_,_,hi⟩⟩
    · exact ⟨_,hi⟩
    · exact ⟨_,hi⟩
  | resume => exact (h.resume he hc).imp fun s' ⟨l',hi,_⟩ => ⟨l',hi⟩
  | yield clk t => exact (h.yield he).imp fun s' hi => ⟨l,hi.1⟩

end

/-! ### Timeouts -/

/-- The ring holds as many threads as are owed a token, in order of arrival, among them each
blocked one once; nobody is blocked while there is a token; the consistency check holds. -/
structure WellBlocked (s : SemState cfg) : Prop where
  ring : s.itc.token ≤ 0 → ∃ l : List (Thid cfg),
    s.itc.idxs.map s.itc.blockedProcs = l.map some ∧ l.length = -s.itc.token ∧
    (∀ t, (s.kernel.pool t).state.has .queue = true → l.count t = 1) ∧
    l.Pairwise fun t u => s.arrival t < s.arrival u
  free : 0 < s.itc.token → ∀ t, (s.kernel.pool t).state.has .queue = false
  consistent : itcProveConcistency s.kernel s.itc = .ok true

theorem SemInv.wellBlocked {s : SemState cfg} {l : List (Thid cfg)} (h : SemInv s l) :
    WellBlocked s where
  ring := by
    intro ht
    have hlen := h.queued.length
    refine ⟨l,h.queued.holds.map_walk,by omega,fun t hq => ?_,h.order⟩
    exact List.count_eq_one_of_mem h.waiting.nodup (h.waiting.queued t hq)
  free := by
    intro ht t
    have hlen := h.queued.length
    have hnil : l = [] := List.eq_nil_of_length_eq_zero (by omega)
    by_contra hq
    have hm := h.waiting.queued t (by simpa using hq)
    rw [hnil] at hm
    cases hm
  consistent := h.queued.proveConcistency h.waiting.counted

/-- Where every thread that times out while others wait finds its own entry, the ring is exact
in every state, and no call leaves it. -/
theorem semRun_wellBlocked {k : Kernel cfg} {count : ℕ} {flags : IpcFlags} (hk : Quiet k)
    (hf : flags &&& prior = 0) (hn : count < 2^31) {ls : List (SemLabel cfg)} {s : SemState cfg}
    (hc : (semMachine cfg).Along OwnEntry (semInit k count flags) ls)
    (hr : (semMachine cfg).run (semInit k count flags) ls = some s) :
    WellBlocked s ∧
    ∀ x, semEnabled s x = true → OwnEntry s x → ∃ s', semNext s x = .ok s' := by
  obtain ⟨l,hi⟩ : ∃ l, SemInv s l := by
    refine (semMachine cfg).run_invariant (I:=fun s => ∃ l, SemInv s l) ?_
      ⟨[],semInit_inv hk hf hn⟩ hc hr
    rintro s x s' ⟨l,hi⟩ hc hstep
    exact (semStep_spec hi hstep.1 hc).of_ok hstep.2
  refine ⟨hi.wellBlocked,fun x he hc => ?_⟩
  obtain ⟨s',hs,_⟩ := spec_total_iff.mp (semStep_spec hi he hc)
  exact ⟨s',hs⟩

instance (s : SemState cfg) (x : SemLabel cfg) : Decidable (OwnEntry s x) := by
  unfold OwnEntry
  split
  · split <;> infer_instance
  · infer_instance
  · infer_instance

/-- Thread 1 times out behind thread 0 and queues up again, then thread 0 is readied. -/
def timeoutSteps : List (SemLabel gnuArm) :=
  [.smP fifo 0 0,.yield 0 1,.smP fifo 10 0,.yield 0 2,.smP fifo 0 0,.yield 20 1,.resume,
    .smP fifo 0 20,.yield 20 3,.smV,.yield 20 0,.resume]

theorem semRun_wellBlocked_timeout : ∃ s : SemState gnuArm,
    (semMachine gnuArm).run (semInit fiveThreads 0 fifo) timeoutSteps = some s ∧
    s.ret 1 = some .timeout ∧ s.ret 0 = some .ok ∧ WellBlocked s := by
  obtain ⟨s,hr,h1,h0⟩ := (semMachine gnuArm).exists_run
    (fun s => s.ret 1 = some .timeout ∧ s.ret 0 = some .ok) (semInit fiveThreads 0 fifo)
    timeoutSteps (by decide +kernel)
  exact ⟨s,hr,h1,h0,(semRun_wellBlocked fiveThreads_quiet (by decide) (by decide)
    (by decide +kernel) hr).1⟩

/-- Thread 1 times out and its removal moves the entries of threads 2 and 3; then thread 2
times out in its turn. -/
def staleIndexSteps : List (SemLabel gnuArm) :=
  [.smP fifo 0 0,.yield 0 1,.smP fifo 10 0,.yield 0 2,.smP fifo 2000 0,.yield 0 3,.smP fifo 0 0,
    .yield 0 4,.yield 20 1,.resume,.smP fifo 0 20,.yield 20 4,.yield 3000 2,.resume]

/-- Thread 2 removes thread 3, which stays blocked for ever. -/
theorem semRun_not_wellBlocked :
    ¬∀ (k : Kernel gnuArm) (count : ℕ) (flags : IpcFlags) (ls : List (SemLabel gnuArm))
      (s : SemState gnuArm), Quiet k → flags &&& prior = 0 →
      (semMachine gnuArm).run (semInit k count flags) ls = some s → WellBlocked s := by
  intro h
  obtain ⟨s,hr,ht,hq,hm⟩ := (semMachine gnuArm).exists_run
    (fun s => s.itc.token ≤ 0 ∧ (s.kernel.pool 3).state.has .queue = true ∧
      some 3 ∉ s.itc.idxs.map s.itc.blockedProcs)
    (semInit fiveThreads 0 fifo) staleIndexSteps (by decide +kernel)
  obtain ⟨l,hl,_,hcount,_⟩ := (h _ _ _ _ s fiveThreads_quiet (by decide) hr).ring ht
  rw [hl] at hm
  have := List.one_le_count_iff.mp (hcount 3 hq).ge
  exact hm (List.mem_map_of_mem this)

end Tinker

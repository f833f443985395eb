import Tinker.SemaphoreRun

/-! Threads that send and receive without timeouts on one fixed-size FIFO queue. -/
namespace Tinker

open Outcome Ring

variable {cfg : Config}

/-- Where a thread is: in its own code or behind the yield of one of the two calls. -/
inductive QueueLoc
  | user | inReceive | inSend
  deriving DecidableEq

/-- `accepted` and `copied` are the messages `q_send` has taken and `q_receive` has copied out,
oldest first. -/
structure QueueState (cfg : Config) where
  kernel : Kernel cfg
  itc : Itc cfg
  loc : Thid cfg → QueueLoc
  yielding : Bool
  ret : Thid cfg → Option ItcErr
  accepted : List Msg
  copied : List Msg

inductive QueueLabel (cfg : Config)
  | qReceive (flags : IpcFlags) (clk : Clock) | qSend (msg : Msg) | resume
  | yield (clk : Clock) (t : Thid cfg)

def QueueState.runs (s : QueueState cfg) : Bool :=
  !s.yielding && decide (s.loc s.kernel.activeThread = .user)

def queueEnabled (s : QueueState cfg) : QueueLabel cfg → Bool
  | .qReceive _ _ => s.runs
  | .qSend _ => s.runs
  | .resume => !s.yielding && decide (s.loc s.kernel.activeThread ≠ .user)
  | .yield clk t => (s.yielding || s.runs) && readyAfterSweep s.kernel clk t

/-- A call ends with result `e`, a received message with it. -/
def QueueState.endCall (s : QueueState cfg) (e : ItcErr) (msg : Option Msg) : QueueState cfg :=
  { s with
    loc := Function.update s.loc s.kernel.activeThread .user
    ret := Function.update s.ret s.kernel.activeThread (some e)
    copied := s.copied ++ msg.toList }

/-- The test that makes `q_send` return `ERR_FULL`. -/
def isFull (q : Itc cfg) : Prop := 0 < q.token ∧ ¬q.token < toInt32 q.sizeofQ

instance (q : Itc cfg) : Decidable (isFull q) := instDecidableAnd

def queueNext (s : QueueState cfg) : QueueLabel cfg → Except Fault (QueueState cfg)
  | .qReceive flags clk => do
    let me := s.kernel.activeThread
    let (k,slot,r) ← qReceive s.kernel (some s.itc) flags 0 clk
    let s' := { s with kernel := k, itc := slot.getD s.itc }
    match r with
    | .ret e msg => return s'.endCall e msg
    | .waits _ => return { s' with loc := Function.update s.loc me .inReceive, yielding := true }
  | .qSend msg => do
    let me := s.kernel.activeThread
    let (k,slot,r) ← qSend s.kernel (some s.itc) msg
    let s' := { s with
      kernel := k
      itc := slot.getD s.itc
      accepted := if isFull s.itc then s.accepted else s.accepted ++ [msg] }
    match r with
    | some e => return s'.endCall e none
    | none => return { s' with loc := Function.update s.loc me .inSend, yielding := true }
  | .resume =>
    match s.loc s.kernel.activeThread with
    | .user => .ok s
    | .inReceive => do
      let (q,e,msg) ← qReceiveEnd s.kernel s.itc .ok
      return QueueState.endCall { s with itc := q } e msg
    | .inSend => do
      let e ← qSendEnd s.kernel s.itc
      return s.endCall e none
  | .yield clk t => do
    let k ← tkWakeupTimedoutThreads s.kernel clk
    return { s with kernel := k.dispatch t, yielding := false }

def queueMachine (cfg : Config) : Machine (QueueState cfg) (QueueLabel cfg) Fault where
  enabled := queueEnabled
  next := queueNext

/-- A queue fresh from `q_create`. -/
def queueInit (k : Kernel cfg) (count : ℕ) (flags : IpcFlags) : QueueState cfg where
  kernel := k
  itc := qCreate count flags
  loc := fun _ => .user
  yielding := false
  ret := fun _ => none
  accepted := []
  copied := []

/-- The receivers a message has been handed to that have not run since. -/
def handed (s : QueueState cfg) : Finset (Thid cfg) :=
  Finset.univ.filter fun t => s.loc t = .inReceive ∧ (s.kernel.pool t).state.has .queue = false

/-- A message is taken only while a slot is free, counting those of the messages that have
been handed over but not copied out. -/
def SlotFree (s : QueueState cfg) : QueueLabel cfg → Prop
  | .qSend _ => ¬isFull s.itc → s.itc.token.toNat + (handed s).card < s.itc.sizeofQ
  | _ => True

instance (s : QueueState cfg) (x : QueueLabel cfg) : Decidable (SlotFree s x) := by
  unfold SlotFree; split <;> infer_instance

/-- The slots from `mout_idx` up to `min_idx` hold the pending messages, oldest first. -/
structure Itc.Slots (q : Itc cfg) (pending : List Msg) : Prop where
  fills : Fills q.sizeofQ q.q q.moutIdx pending
  minIdx : q.minIdx = place q.sizeofQ q.moutIdx pending.length

structure QueueInv (s : QueueState cfg) (l : List (Thid cfg)) (pending : List Msg) : Prop where
  queued : s.itc.Queued l
  fifo : s.itc.flags &&& prior = 0
  sQueue : s.itc.bType = .sQueue
  slots : s.itc.Slots pending
  waiting : Waiting s.kernel l (fun t => s.loc t = .inReceive) (fun _ => False)
  alive : Alive s.kernel
  running : s.yielding = false → (s.kernel.pool s.kernel.activeThread).state = .ready
  length : pending.length = s.itc.token.toNat + (handed s).card
  accepted : s.accepted = s.copied ++ pending

theorem queueInit_inv {k : Kernel cfg} {count : ℕ} {flags : IpcFlags} (hk : Quiet k)
    (hf : flags &&& prior = 0) (hc : 0 < count) : QueueInv (queueInit k count flags) [] [] where
  queued := ⟨Holds.nil _ cfg.maxBlockedOnQ_pos,by simp [queueInit,qCreate,smCreate,toInt32]⟩
  fifo := hf
  sQueue := rfl
  slots := ⟨⟨hc,Nat.zero_le _,fun i hi => absurd hi (Nat.not_lt_zero i)⟩,(Nat.zero_mod count).symm⟩
  waiting := by
    refine ⟨List.nodup_nil,fun t hq => ?_,fun t hm => (by cases hm)⟩
    simp only [queueInit,hk.unblocked t] at hq
    cases hq
  alive := hk.alive
  running := fun _ => hk.ready
  length := by simp [queueInit,qCreate,smCreate,toInt32,handed]
  accepted := rfl

/-! ### The slots -/

section

variable {k : Kernel cfg} {q q' : Itc cfg} {l : List (Thid cfg)} {pending : List Msg}

theorem Itc.Slots.sameBody (h : q.Slots pending) (hb : q.SameBody q') : q'.Slots pending where
  fills := by rw [hb.sizeofQ,hb.q,hb.moutIdx]; exact h.fills
  minIdx := by rw [hb.sizeofQ,hb.minIdx,hb.moutIdx]; exact h.minIdx

/-- `q_send` writes behind the pending messages. -/
theorem Itc.Slots.push (h : q.Slots pending) (hl : pending.length < q.sizeofQ) (msg : Msg) :
    Itc.Slots { q with
      q := Function.update q.q q.minIdx msg
      minIdx := (q.minIdx+1) % q.sizeofQ } (pending ++ [msg]) where
  fills := by rw [h.minIdx]; exact h.fills.push hl msg
  minIdx := by
    simp only [h.minIdx,List.length_append,List.length_singleton]
    exact succ_place _ _ _

/-- Once the caller has its token, `q_receive` copies the oldest pending message out. -/
theorem qReceiveEnd_ok {m : Msg} {rest : List Msg} (hq : q.Queued l)
    (hl : ∀ t ∈ l, (k.pool t).state.has .queue = true ∨ (k.pool t).state = .ready)
    (h : q.Slots (m :: rest)) : ∃ q', qReceiveEnd k q .ok = .ok (q',.ok,some m) ∧
      q' = { q with moutIdx := succ q.sizeofQ q.moutIdx } ∧ q'.Slots rest := by
  obtain ⟨hm,hf⟩ := h.fills.pop
  refine ⟨_,?_,rfl,hf,?_⟩
  · simp only [qReceiveEnd,hq.proveConcistency hl]
    rw [← hm]
    rfl
  · rw [place_succ]
    exact h.minIdx

theorem qReceiveEnd_err (rc : ItcErr) (hq : q.Queued l)
    (hl : ∀ t ∈ l, (k.pool t).state.has .queue = true ∨ (k.pool t).state = .ready) (hrc : rc ≠ .ok) :
    qReceiveEnd k q rc = .ok (q,rc,none) := by
  simp only [qReceiveEnd,hq.proveConcistency hl]
  exact if_pos hrc

theorem qSendEnd_ok (hq : q.Queued l)
    (hl : ∀ t ∈ l, (k.pool t).state.has .queue = true ∨ (k.pool t).state = .ready) :
    qSendEnd k q = .ok .ok := by
  simp only [qSendEnd,hq.proveConcistency hl]
  rfl

end

/-! ### The receivers on their way -/

section

variable {s s' : QueueState cfg}

theorem mem_handed (t : Thid cfg) :
    t ∈ handed s ↔ s.loc t = .inReceive ∧ (s.kernel.pool t).state.has .queue = false := by
  simp [handed]

/-- A thread that is not on its way to a message changes its place. -/
theorem handed_of_loc {t : Thid cfg} {x : QueueLoc} (hk : s'.kernel = s.kernel)
    (hl : s'.loc = Function.update s.loc t x) (hx : x ≠ .inReceive) (ht : s.loc t ≠ .inReceive) :
    handed s' = handed s := by
  ext u
  rw [mem_handed,mem_handed,hk,hl]
  by_cases hut : u = t
  · subst hut; simp [hx,ht]
  · rw [Function.update_of_ne hut]

/-- A receiver that goes to sleep is on its way only once a message is handed to it. -/
theorem handed_block {clk : Clock} (hr : (s.kernel.pool s.kernel.activeThread).state = .ready)
    (hk : s'.kernel = s.kernel.modTcb s.kernel.activeThread (goToSleep 0 clk))
    (hl : s'.loc = Function.update s.loc s.kernel.activeThread .inReceive)
    (hu : s.loc s.kernel.activeThread ≠ .inReceive) : handed s' = handed s := by
  ext t
  rw [mem_handed,mem_handed,hk,hl,Kernel.modTcb_pool]
  by_cases ht : t = s.kernel.activeThread
  · subst ht
    have hq : (goToSleep 0 clk (s.kernel.pool s.kernel.activeThread)).state.has .queue = true := by
      rw [goToSleep_state 0 clk hr]
      decide
    rw [if_pos rfl,hq]
    simp [hu]
  · rw [if_neg ht,Function.update_of_ne ht]

theorem card_handed_enter {t : Thid cfg} (ht : t ∉ handed s)
    (h : ∀ u, u ∈ handed s' ↔ u = t ∨ u ∈ handed s) : (handed s').card = (handed s).card+1 := by
  rw [← Finset.card_insert_of_notMem ht]
  exact congrArg Finset.card (Finset.ext fun u => by rw [h,Finset.mem_insert])

/-- A receiver that has run again is not on its way any more. -/
theorem card_handed_leave {t : Thid cfg} (ht : t ∈ handed s) (hk : s'.kernel = s.kernel)
    (hl : s'.loc = Function.update s.loc t .user) : (handed s').card+1 = (handed s).card := by
  refine (card_handed_enter (t:=t) (s:=s') (by rw [mem_handed,hl]; simp) fun u => ?_).symm
  rw [mem_handed (s:=s'),hk,hl]
  by_cases hu : u = t
  · subst hu; simp [ht]
  · rw [Function.update_of_ne hu,mem_handed]; simp [hu]

/-- The thread `q_send` readies is on its way. -/
theorem card_handed_ready {him t : Thid cfg} {x : QueueLoc} (hk : s'.kernel = readyByItc s.kernel him)
    (hl : s'.loc = Function.update s.loc t x) (hx : x ≠ .inReceive) (ht : s.loc t ≠ .inReceive)
    (hh : s.loc him = .inReceive) (hq : (s.kernel.pool him).state.has .queue = true) :
    (handed s').card = (handed s).card+1 := by
  have hne : him ≠ t := by rintro rfl; exact ht hh
  refine card_handed_enter (t:=him) (by rw [mem_handed,hq]; simp) fun u => ?_
  rw [mem_handed,mem_handed,hk,hl,readyByItc,Kernel.modTcb_pool]
  by_cases hu : u = him
  · subst hu
    rw [if_pos rfl,Function.update_of_ne hne]
    simp [hh,ProcState.clear_queueSleepTerm_has_queue]
  · by_cases hut : u = t
    · subst hut; simp [hx,ht,hu]
    · simp [hu,hut]

end

section

variable {s : QueueState cfg} {l : List (Thid cfg)} {pending : List Msg}

theorem QueueInv.blocked (h : QueueInv s l pending) {t : Thid cfg} (ht : t ∈ l) :
    (s.kernel.pool t).state = .queue ∧ s.loc t = .inReceive := by
  obtain hs | ⟨hf,_⟩ := h.waiting.entry t ht
  · exact hs
  · exact hf.elim

theorem QueueInv.mem_iff (h : QueueInv s l pending) (t : Thid cfg) :
    t ∈ l ↔ (s.kernel.pool t).state.has .queue = true := by
  refine ⟨fun ht => ?_,h.waiting.queued t⟩
  rw [(h.blocked ht).1]
  decide

theorem QueueInv.notMem (h : QueueInv s l pending) (hy : s.yielding = false) :
    s.kernel.activeThread ∉ l := by
  rw [h.mem_iff,h.running hy]
  simp

/-- A thread outside the ring may change its place. -/
theorem QueueInv.setLoc (h : QueueInv s l pending) {t : Thid cfg} (ht : t ∉ l) (x : QueueLoc) :
    Waiting s.kernel l (fun u => Function.update s.loc t x u = .inReceive) (fun _ => False) := by
  refine h.waiting.mono rfl (fun u hu hx => ?_) fun _ _ hx => hx
  rw [Function.update_of_ne (by rintro rfl; exact ht hu)]
  exact hx

/-- A call ends that was not on its way to a message and copies none out. -/
theorem QueueInv.endCall (h : QueueInv s l pending) (hy : s.yielding = false) {e : ItcErr}
    (hu : s.loc s.kernel.activeThread ≠ .inReceive) : QueueInv (s.endCall e none) l pending := by
  have hh : handed (s.endCall e none) = handed s := handed_of_loc rfl rfl (by rintro ⟨⟩) hu
  refine ⟨h.queued,h.fifo,h.sQueue,h.slots,h.setLoc (h.notMem hy) .user,h.alive,h.running,?_,?_⟩
  · rw [hh]; exact h.length
  · simp only [QueueState.endCall,Option.toList_none,List.append_nil]; exact h.accepted

/-- `q_receive` copies the oldest message out, gives up, or queues the caller up. -/
theorem QueueInv.qReceive (h : QueueInv s l pending) {flags : IpcFlags} {clk : Clock}
    (he : s.runs = true) : Spec (queueNext s (.qReceive flags clk))
      (fun s' => ∃ l' pending', QueueInv s' l' pending') (fun _ => False) := by
  simp only [QueueState.runs,Bool.and_eq_true,Bool.not_eq_true',decide_eq_true_eq] at he
  obtain ⟨hy,hu⟩ := he
  have hnm := h.notMem hy
  have hready := h.running hy
  have hnr : s.loc s.kernel.activeThread ≠ .inReceive := by rw [hu]; rintro ⟨⟩
  have hsq : ¬s.itc.bType ≠ .sQueue := fun hn => hn h.sQueue
  have hlen := h.queued.length
  have hplen := h.length
  simp only [queueNext,Tinker.qReceive,if_neg hsq]
  by_cases hns : s.itc.token ≤ 0 ∧ flags &&& nowait ≠ 0
  · simp only [if_pos hns]
    exact ⟨l,pending,h.endCall hy hnr⟩
  · simp only [if_neg hns]
    obtain ⟨ht,hls⟩ | ⟨ht,hroom,q',m,hls,hm,hq,hb,htok⟩ | ⟨ht,hfull,hls⟩ :=
      h.queued.lockStage s.kernel 0 clk
    · have hq : Itc.Queued { s.itc with token := s.itc.token-1 } l :=
        ⟨h.queued.holds,by simp only; omega⟩
      obtain ⟨b,rest,rfl⟩ := List.exists_cons_of_length_pos (show 0 < pending.length by omega)
      obtain ⟨q',hend,rfl,hs⟩ := qReceiveEnd_ok hq h.waiting.counted
        (show Itc.Slots _ (b :: rest) from ⟨h.slots.fills,h.slots.minIdx⟩)
      simp only [hls,hend,spec_bind,spec_ok,spec_pure]
      refine ⟨l,rest,⟨hq.holds,hq.length⟩,h.fifo,h.sQueue,hs,h.setLoc hnm .user,h.alive,h.running,?_,?_⟩
      · refine Eq.trans ?_ (congrArg (_ + Finset.card ·)
          (Eq.symm (handed_of_loc (s:=s) rfl rfl (by rintro ⟨⟩) hnr)))
        simp only [List.length_cons] at hplen
        simp only [QueueState.endCall,Option.getD_some]
        omega
      · have := h.accepted
        simp only [QueueState.endCall,Option.toList_some]
        rw [this,List.append_assoc]
        rfl
    · simp only [hls]
      have hwait := Waiting.block (h.setLoc hnm .inReceive) 0 clk hnm
        hready (fun _ => Function.update_self _ _ _) (fun h0 => absurd rfl h0)
      refine ⟨l ++ [s.kernel.activeThread],pending,hq,hb.flags.symm ▸ h.fifo,hb.bType.trans h.sQueue,
        h.slots.sameBody hb,hwait,h.alive.modTcb ?_,fun hf => (by cases hf),?_,h.accepted⟩
      · intro _
        rw [goToSleep_state 0 clk hready]
        decide
      · refine Eq.trans ?_ (congrArg (_ + Finset.card ·)
          (Eq.symm (handed_block (s:=s) hready rfl rfl hnr)))
        simp only [Option.getD_some]
        omega
    · simp only [hls,qReceiveEnd_err .blockLimit h.queued h.waiting.counted (by rintro ⟨⟩)]
      exact ⟨l,pending,h.endCall hy hnr⟩

/-- `q_send` gives up, or leaves its message in a free slot and readies a receiver if one waits. -/
theorem QueueInv.qSend (h : QueueInv s l pending) {msg : Msg} (he : s.runs = true)
    (hc : SlotFree s (.qSend msg)) : Spec (queueNext s (.qSend msg))
      (fun s' => ∃ l' pending', QueueInv s' l' pending') (fun _ => False) := by
  simp only [QueueState.runs,Bool.and_eq_true,Bool.not_eq_true',decide_eq_true_eq] at he
  obtain ⟨hy,hu⟩ := he
  have hnm := h.notMem hy
  have hnr : s.loc s.kernel.activeThread ≠ .inReceive := by rw [hu]; rintro ⟨⟩
  have hsq : ¬s.itc.bType ≠ .sQueue := fun hn => hn h.sQueue
  have hlen := h.queued.length
  have hplen := h.length
  simp only [queueNext,Tinker.qSend,if_neg hsq]
  by_cases hfull : isFull s.itc
  · have hf : 0 < s.itc.token ∧ ¬s.itc.token < toInt32 s.itc.sizeofQ := hfull
    simp only [if_pos hf,if_pos hfull]
    exact ⟨l,pending,h.endCall hy hnr⟩
  · have hf : ¬(0 < s.itc.token ∧ ¬s.itc.token < toInt32 s.itc.sizeofQ) := hfull
    have hroom : pending.length < s.itc.sizeofQ := by rw [hplen]; exact hc hfull
    have hs := h.slots.push hroom msg
    have hq : Itc.Queued { s.itc with
        q := Function.update s.itc.q s.itc.minIdx msg
        minIdx := (s.itc.minIdx+1) % s.itc.sizeofQ } l := ⟨h.queued.holds,h.queued.length⟩
    simp only [if_neg hf,if_neg hfull,spec_bind]
    refine (hq.unlockStage (k:=s.kernel) h.fifo).imp ?_
    rintro ⟨k',q',yields⟩ (⟨rfl,hr⟩ | ⟨pre,him,post,rfl,hk,hy',hq',hb,htok,hpre,_⟩)
    · obtain ⟨rfl,rfl,rfl⟩ : k' = s.kernel ∧ q' = { s.itc with
          q := Function.update s.itc.q s.itc.minIdx msg
          minIdx := (s.itc.minIdx+1) % s.itc.sizeofQ
          token := toInt32 (s.itc.token+1) } ∧ yields = false := by
        simpa using hr
      have htok : toInt32 (s.itc.token+1) = s.itc.token+1 := by
        have hmax := toInt32_lt s.itc.sizeofQ
        simp only [List.length_nil] at hlen
        refine toInt32_of_range (by omega) ?_
        rw [isFull,not_and_not_right] at hfull
        by_cases hpos : 0 < s.itc.token
        · have := hfull hpos
          omega
        · omega
      have hq' : Itc.Queued { s.itc with
          q := Function.update s.itc.q s.itc.minIdx msg
          minIdx := (s.itc.minIdx+1) % s.itc.sizeofQ
          token := toInt32 (s.itc.token+1) } [] := by
        refine ⟨h.queued.holds,?_⟩
        simp only [htok]
        simp only [List.length_nil] at hlen ⊢
        omega
      simp only [qSendEnd_ok hq' h.waiting.counted]
      refine ⟨[],pending ++ [msg],hq',h.fifo,h.sQueue,⟨hs.fills,hs.minIdx⟩,h.setLoc hnm .user,h.alive,
        h.running,?_,?_⟩
      · refine Eq.trans ?_ (congrArg (_ + Finset.card ·)
          (Eq.symm (handed_of_loc (s:=s) rfl rfl (by rintro ⟨⟩) hnr)))
        simp only [List.length_nil] at hlen
        simp only [QueueState.endCall,Option.getD_some,htok,List.length_append,List.length_singleton]
        omega
      · simp only [QueueState.endCall,Option.toList_none,List.append_nil,h.accepted,List.append_assoc]
    · have hk : k' = readyByItc s.kernel him := hk
      have hy' : yields = true := hy'
      subst hk hy'
      have hhim : him ∈ pre ++ him :: post := by simp
      have hblocked := h.blocked hhim
      have hnil : pre = [] := by
        refine List.eq_nil_iff_forall_not_mem.mpr fun t hm => ?_
        have := hpre t hm
        rw [(h.blocked (List.mem_append_left _ hm)).1] at this
        simp at this
      subst hnil
      refine ⟨post,pending ++ [msg],hq',hb.flags.symm ▸ h.fifo,hb.bType.trans h.sQueue,
        hs.sameBody hb,(h.setLoc hnm .inSend).unlock hpre,h.alive.readyByItc him,
        fun hf => (by cases hf),?_,?_⟩
      · refine Eq.trans ?_ (congrArg (_ + ·) (Eq.symm (card_handed_ready (s:=s) rfl rfl
          (by rintro ⟨⟩) hnr hblocked.2 (by rw [hblocked.1]; decide))))
        simp only [List.nil_append,List.length_cons] at hlen
        rw [List.length_append,List.length_singleton]
        have htok : q'.token = -post.length := htok
        simp only [Option.getD_some]
        omega
      · simp only [h.accepted,List.append_assoc]

/-- A thread the sweep finds blocked on the queue has no timer running. -/
theorem QueueInv.sweep_queue (h : QueueInv s l pending) {k : Kernel cfg} {clk : Clock}
    (hp : ∀ t, k.pool t = s.kernel.pool t ∨ k.pool t = timerTest clk (s.kernel.pool t))
    (t : Thid cfg) : (k.pool t).state.has .queue = (s.kernel.pool t).state.has .queue := by
  obtain ht | ht := hp t
  · rw [ht]
  · rw [ht,timerTest]
    split
    · next hs =>
      rw [ProcState.clear_queueSleep_has_queue]
      by_contra hne
      have hm := (h.mem_iff t).mpr (by simpa using Ne.symm hne)
      rw [(h.blocked hm).1] at hs
      simp at hs
    · rfl

theorem QueueInv.yield (h : QueueInv s l pending) {clk : Clock} {t : Thid cfg}
    (he : queueEnabled s (.yield clk t) = true) : Spec (queueNext s (.yield clk t))
      (fun s' => QueueInv s' l pending) (fun _ => False) := by
  simp only [queueEnabled,Bool.and_eq_true] at he
  simp only [queueNext,spec_bind,spec_pure]
  refine (h.alive.yield he.2).imp ?_
  rintro k ⟨halive,hp,hready⟩
  have hh : handed { s with kernel := k.dispatch t, yielding := false } = handed s := by
    ext u
    rw [mem_handed,mem_handed,Kernel.dispatch_pool,h.sweep_queue hp]
  refine ⟨h.queued,h.fifo,h.sQueue,h.slots,h.waiting.sweep hp,halive,fun _ => hready,?_,h.accepted⟩
  rw [hh]
  exact h.length

/-- A receiver that runs again copies the oldest message out. -/
theorem QueueInv.resume (h : QueueInv s l pending) (he : queueEnabled s .resume = true) :
    Spec (queueNext s .resume) (fun s' => ∃ pending', QueueInv s' l pending') (fun _ => False) := by
  simp only [queueEnabled,Bool.and_eq_true,Bool.not_eq_true',decide_eq_true_eq] at he
  obtain ⟨hy,hu⟩ := he
  have hready := h.running hy
  have hnm := h.notMem hy
  have hplen := h.length
  simp only [queueNext]
  cases hloc : s.loc s.kernel.activeThread with
  | user => exact absurd hloc hu
  | inSend =>
    simp only [qSendEnd_ok h.queued h.waiting.counted]
    exact ⟨pending,h.endCall hy (by rw [hloc]; rintro ⟨⟩)⟩
  | inReceive =>
    have hm : s.kernel.activeThread ∈ handed s := by rw [mem_handed,hready]; simp [hloc]
    have hcard := Finset.card_pos.mpr ⟨_,hm⟩
    obtain ⟨b,rest,rfl⟩ := List.exists_cons_of_length_pos (show 0 < pending.length by omega)
    obtain ⟨q',hend,rfl,hs⟩ := qReceiveEnd_ok h.queued h.waiting.counted h.slots
    simp only [hend,spec_bind,spec_ok,spec_pure]
    refine ⟨rest,⟨h.queued.holds,h.queued.length⟩,h.fifo,h.sQueue,hs,h.setLoc hnm .user,h.alive,
      h.running,?_,?_⟩
    · have hleft : (handed (QueueState.endCall { s with
          itc := { s.itc with moutIdx := succ s.itc.sizeofQ s.itc.moutIdx } } .ok (some b))).card+1 =
          (handed s).card := card_handed_leave hm rfl rfl
      simp only [List.length_cons] at hplen
      simp only [QueueState.endCall] at hleft ⊢
      omega
    · have := h.accepted
      simp only [QueueState.endCall,Option.toList_some]
      rw [this,List.append_assoc]
      rfl

theorem queueStep_spec {x : QueueLabel cfg} (h : QueueInv s l pending)
    (he : queueEnabled s x = true) (hc : SlotFree s x) :
    Spec (queueNext s x) (fun s' => ∃ l' pending', QueueInv s' l' pending') (fun _ => False) := by
  cases x with
  | qReceive flags clk => exact h.qReceive he
  | qSend msg => exact h.qSend he hc
  | resume => exact (h.resume he).imp fun s' ⟨pending',hi⟩ => ⟨l,pending',hi⟩
  | yield clk t => exact (h.yield he).imp fun s' hi => ⟨l,pending,hi⟩

end

/-- What `q_receive` has copied out is a prefix of what `q_send` has accepted, and the slots
hold the rest in order: a message for each token and for each receiver on its way. -/
structure WellDelivered (s : QueueState cfg) : Prop where
  pending : ∃ pending, s.accepted = s.copied ++ pending ∧
    pending.length = s.itc.token.toNat + (handed s).card ∧ pending.length ≤ s.itc.sizeofQ ∧
    ∀ i (h : i < pending.length), s.itc.q (place s.itc.sizeofQ s.itc.moutIdx i) = pending[i]

theorem QueueInv.wellDelivered {s : QueueState cfg} {l : List (Thid cfg)} {pending : List Msg}
    (h : QueueInv s l pending) : WellDelivered s :=
  ⟨pending,h.accepted,h.length,h.slots.fills.room,h.slots.fills.slot⟩

/-- Where every accepted message finds a free slot, all of them are delivered once and in
order, and no call faults. -/
theorem queueRun_wellDelivered {k : Kernel cfg} {count : ℕ} {flags : IpcFlags} (hk : Quiet k)
    (hf : flags &&& prior = 0) (hn : 0 < count) {ls : List (QueueLabel cfg)} {s : QueueState cfg}
    (hc : (queueMachine cfg).Along SlotFree (queueInit k count flags) ls)
    (hr : (queueMachine cfg).run (queueInit k count flags) ls = some s) :
    WellDelivered s ∧
    ∀ x, queueEnabled s x = true → SlotFree s x → ∃ s', queueNext s x = .ok s' := by
  obtain ⟨l,pending,hi⟩ : ∃ l pending, QueueInv s l pending := by
    refine (queueMachine cfg).run_invariant (I:=fun s => ∃ l pending, QueueInv s l pending) ?_
      ⟨[],[],queueInit_inv hk hf hn⟩ hc hr
    rintro s x s' ⟨l,pending,hi⟩ hc hstep
    exact (queueStep_spec hi hstep.1 hc).of_ok hstep.2
  refine ⟨hi.wellDelivered,fun x he hc => ?_⟩
  obtain ⟨s',hs,_⟩ := spec_total_iff.mp (queueStep_spec hi he hc)
  exact ⟨s',hs⟩

def word (n : ℕ) : Msg := fun _ => n

/-- Thread 1 waits, thread 0 sends to it, and thread 1 is dispatched before the next message. -/
def handOverSteps : List (QueueLabel gnuArm) :=
  [.qReceive fifo 0,.yield 20 0,.qSend (word 1),.yield 20 0,.resume,.qReceive fifo 20,.yield 20 1,
    .resume,.qSend (word 2),.yield 20 0,.resume]

theorem queueRun_wellDelivered_handOver : ∃ s : QueueState gnuArm,
    (queueMachine gnuArm).run (queueInit sleeperFirst 1 fifo) handOverSteps = some s ∧
    s.copied = [word 1,word 2] ∧ WellDelivered s := by
  obtain ⟨s,hr,hm⟩ := (queueMachine gnuArm).exists_run (fun s => s.copied = [word 1,word 2])
    (queueInit sleeperFirst 1 fifo) handOverSteps (by decide +kernel)
  exact ⟨s,hr,hm,(queueRun_wellDelivered sleeperFirst_quiet (by decide) (by decide)
    (by decide +kernel) hr).1⟩

/-- Thread 0 sends a second message before thread 1 has fetched the first one. -/
def overwriteSteps : List (QueueLabel gnuArm) :=
  [.qReceive fifo 0,.yield 20 0,.qSend (word 1),.yield 20 0,.resume,.qSend (word 2),
    .qReceive fifo 20]

theorem queueRun_not_wellDelivered :
    ¬∀ (k : Kernel gnuArm) (count : ℕ) (flags : IpcFlags) (ls : List (QueueLabel gnuArm))
      (s : QueueState gnuArm), Quiet k → flags &&& prior = 0 → 0 < count →
      (queueMachine gnuArm).run (queueInit k count flags) ls = some s → WellDelivered s := by
  intro h
  obtain ⟨s,hr,ha,hm⟩ := (queueMachine gnuArm).exists_run
    (fun s => s.accepted = [word 1,word 2] ∧ s.copied = [word 2]) (queueInit sleeperFirst 1 fifo)
    overwriteSteps (by decide +kernel)
  obtain ⟨pending,hp,_⟩ := (h _ _ _ _ s sleeperFirst_quiet (by decide) (by decide) hr).pending
  rw [ha,hm] at hp
  exact absurd (List.cons.inj hp).1 (by decide)

end Tinker

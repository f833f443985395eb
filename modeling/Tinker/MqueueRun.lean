import Tinker.Machine
import Tinker.MqueueBox
import Tinker.Semaphores

/-! Threads that send to message queues and receive from them. What each semaphore is worth is
weighed against what it stands for: the pool for one access, a queue for its stored messages. -/
namespace Tinker

open Kernel Outcome

variable {cfg : Config}

/-- The semaphore a thread is in `sem_wait` for. -/
def MqLoc.waits : MqLoc → Option MqSem
  | .sendWait _ => some .pool
  | .recvWait _ => some .pool
  | .recvSem _ q => some (.queue q)
  | _ => none

/-- The queue a receiver has settled on. -/
def MqLoc.on : MqLoc → Option QueueId
  | .recvPost _ q => some q
  | .recvSem _ q => some q
  | _ => none

/-- One more for `r`. -/
def plus (out : MqSem → ℕ) (r : MqSem) : MqSem → ℕ := Function.update out r (out r+1)

namespace MqState

variable (s : MqState cfg)

/-- The semaphores; that of a queue nobody has created counts as a new one. -/
def sems : MqSem → Itc cfg
  | .pool => s.poolAccessSem
  | .queue q => if (s.queuePool q).taken then (s.queuePool q).sem else smCreate 0 0

def Live : MqSem → Prop
  | .pool => True
  | .queue q => (s.queuePool q).taken = true

/-- What a semaphore stands for. -/
def total : MqSem → ℕ
  | .pool => 1
  | .queue q => (s.queuePool q).messages.length

/-- The senders that have the pool behind a yield. -/
def posting : Finset (Thid cfg) := Finset.univ.filter fun t => s.loc t = .sendPost

def waits (t : Thid cfg) : Option MqSem := (s.loc t).waits

/-- The running thread is in no `sem_wait`. -/
def others : Thid cfg → Option MqSem := Function.update s.waits s.me none

/-- What threads hold of a semaphore, the running one apart. -/
def outside : MqSem → ℕ
  | .pool => (s.posting.erase s.me).card
  | .queue _ => 0

/-- What threads hold of a semaphore between steps. -/
def resting : MqSem → ℕ
  | .pool => s.posting.card
  | .queue _ => 0

/-- The threads that are blocked on a semaphore. -/
def blocked (r : MqSem) : Finset (Thid cfg) :=
  Finset.univ.filter fun t => s.waits t = some r ∧ (s.kernel.pool t).state.has .queue = true

/-- One more waiter makes `TK_MAX_BLOCKED_ON_Q`. -/
def Crowded (r : MqSem) : Prop := cfg.maxBlockedOnQ ≤ (s.blocked r).card+1

/-- A semaphore's tokens, those on the way to a thread that has been woken and what threads hold
make up what it stands for; `out` is the last of them. -/
structure Accounts (T : Prop) (own : QueueId → List ℕ) (waits : Thid cfg → Option MqSem)
    (out : MqSem → ℕ) : Prop where
  alive : Alive s.kernel
  sems : ∃ ring n, Semaphores s.kernel s.sems waits ring ∧ Values s.kernel s.sems waits n ∧
    ∀ r, s.Live r → n r+out r = s.total r
  keeps : ∀ q, s.Live (.queue q) → ∃ free, (s.queuePool q).Keeps T s.heap (own q) (s.accepted q)
    (s.returned q) (s.queuePool q).messages free
  apart : ∀ q q', s.Live (.queue q) → s.Live (.queue q') → q ≠ q' → (own q).Disjoint (own q')

/-- Inside a step the running thread holds what `out` has more than `outside`. -/
structure Mid (T : Prop) (own : QueueId → List ℕ) (out : MqSem → ℕ) : Prop extends
    s.Accounts T own s.others out where
  opened : ∀ t, t ≠ s.me → ∀ q, (s.loc t).on = some q → s.Live (.queue q)
  running : (s.kernel.pool s.me).state = .ready
  yielding : s.yielding = false

end MqState

/-- Between steps only threads behind the first yield of `mq_send` have the pool. -/
structure MqInv (T : Prop) (own : QueueId → List ℕ) (s : MqState cfg) : Prop extends
    s.Accounts T own s.waits s.resting where
  opened : ∀ t q, (s.loc t).on = some q → s.Live (.queue q)
  running : s.yielding = false → (s.kernel.pool s.me).state = .ready

section

variable {T : Prop} {s : MqState cfg} {own : QueueId → List ℕ} {out : MqSem → ℕ} {r : MqSem}
  {waits : Thid cfg → Option MqSem}

theorem QueueD.Keeps.setSem {Q : QueueD cfg} {heap : Heap Byte} {own : List ℕ}
    {accepted : List (List Byte × ℕ)} {returned : List Receipt} {stored free : List MessT}
    (h : Q.Keeps T heap own accepted returned stored free) (o : Itc cfg) :
    QueueD.Keeps T { Q with sem := o } heap own accepted returned stored free :=
  ⟨⟨h.box.fills,h.box.full,h.box.room,h.box.mIdxIn⟩,h.fits,h.sorted,h.buffers,h.nodup,h.alloc,
    h.sized,h.kept,h.best,h.turn⟩

namespace MqState

/-- A semaphore's change leaves the rest of a queue as it is. -/
theorem setSem_queuePool (k : Kernel cfg) (o : Itc cfg) (q : QueueId) :
    ∃ sem, (s.setSem r k o).queuePool q = { s.queuePool q with sem := sem } := by
  cases r with
  | pool => exact ⟨_,rfl⟩
  | queue q' =>
    by_cases hq : q = q'
    · subst hq
      exact ⟨o,Function.update_self _ _ _⟩
    · exact ⟨_,Function.update_of_ne hq _ _⟩

theorem setSem_taken (k : Kernel cfg) (o : Itc cfg) (q : QueueId) :
    ((s.setSem r k o).queuePool q).taken = (s.queuePool q).taken := by
  obtain ⟨sem,hq⟩ := s.setSem_queuePool (r:=r) k o q
  rw [hq]

theorem setSem_live (k : Kernel cfg) (o : Itc cfg) (j : MqSem) :
    (s.setSem r k o).Live j ↔ s.Live j := by
  cases j with
  | pool => exact Iff.rfl
  | queue q => rw [Live,Live,setSem_taken]

theorem setSem_total (k : Kernel cfg) (o : Itc cfg) (j : MqSem) :
    (s.setSem r k o).total j = s.total j := by
  cases j with
  | pool => rfl
  | queue q =>
    obtain ⟨sem,hq⟩ := s.setSem_queuePool (r:=r) k o q
    rw [total,hq]
    rfl

theorem setSem_sems (hl : s.Live r) (k : Kernel cfg) (o : Itc cfg) :
    (s.setSem r k o).sems = Function.update s.sems r o := by
  funext j
  cases r with
  | pool => cases j <;> rfl
  | queue q =>
    cases j with
    | pool => rfl
    | queue q' =>
      rw [sems,setSem_taken]
      by_cases hq : q' = q
      · subst hq
        rw [Function.update_self]
        have hl : (s.queuePool q').taken = true := hl
        rw [if_pos hl]
        exact congrArg (fun Q : QueueD cfg => Q.sem) (Function.update_self q' _ s.queuePool)
      · have hne : MqSem.queue q' ≠ .queue q := fun he => hq (MqSem.queue.inj he)
        rw [Function.update_of_ne hne]
        exact congrArg (fun Q : QueueD cfg => if (s.queuePool q').taken then Q.sem else smCreate 0 0)
          (Function.update_of_ne hq _ _)

theorem sems_eq (hl : s.Live r) : s.sems r = s.sem r := by
  cases r with
  | pool => rfl
  | queue q => exact if_pos hl

@[simp] theorem setSem_loc (k : Kernel cfg) (o : Itc cfg) : (s.setSem r k o).loc = s.loc := by
  cases r <;> rfl

@[simp] theorem setSem_kernel (k : Kernel cfg) (o : Itc cfg) : (s.setSem r k o).kernel = k := by
  cases r <;> rfl

@[simp] theorem setSem_yielding (k : Kernel cfg) (o : Itc cfg) :
    (s.setSem r k o).yielding = s.yielding := by cases r <;> rfl

@[simp] theorem setSem_heap (k : Kernel cfg) (o : Itc cfg) : (s.setSem r k o).heap = s.heap := by
  cases r <;> rfl

@[simp] theorem setSem_accepted (k : Kernel cfg) (o : Itc cfg) :
    (s.setSem r k o).accepted = s.accepted := by cases r <;> rfl

@[simp] theorem setSem_returned (k : Kernel cfg) (o : Itc cfg) :
    (s.setSem r k o).returned = s.returned := by cases r <;> rfl

/-- A semaphore and the accounts of it change together. -/
theorem Accounts.setSem (h : s.Accounts T own waits out) (hl : s.Live r) {k : Kernel cfg} {o : Itc cfg}
    {waits' : Thid cfg → Option MqSem} {out' : MqSem → ℕ} {ring : MqSem → List (Thid cfg)}
    {n : MqSem → ℕ} (ha : Alive k) (hs : Semaphores k (Function.update s.sems r o) waits' ring)
    (hv : Values k (Function.update s.sems r o) waits' n)
    (hn : ∀ j, s.Live j → n j+out' j = s.total j) :
    (s.setSem r k o).Accounts T own waits' out' := by
  refine ⟨by rwa [setSem_kernel],⟨ring,n,?_,?_,fun j hj => ?_⟩,fun q hq => ?_,fun q q' hq hq' => ?_⟩
  · rwa [setSem_sems hl,setSem_kernel]
  · rwa [setSem_sems hl,setSem_kernel]
  · rw [setSem_total]
    exact hn j ((setSem_live k o j).mp hj)
  · obtain ⟨free,hk⟩ := h.keeps q ((setSem_live k o _).mp hq)
    obtain ⟨sem,hp⟩ := s.setSem_queuePool (r:=r) k o q
    refine ⟨free,?_⟩
    rw [hp,setSem_heap,setSem_accepted,setSem_returned]
    exact hk.setSem sem
  · exact h.apart q q' ((setSem_live k o _).mp hq) ((setSem_live k o _).mp hq')

theorem setSem_me {k : Kernel cfg} (o : Itc cfg) (hk : k.activeThread = s.kernel.activeThread) :
    (s.setSem r k o).me = s.me := by
  rw [me,setSem_kernel,hk]
  rfl

theorem setSem_others {k : Kernel cfg} (o : Itc cfg) (hk : k.activeThread = s.kernel.activeThread) :
    (s.setSem r k o).others = s.others := by
  rw [others,others,setSem_me o hk]
  refine congrArg (fun f : Thid cfg → Option MqSem => Function.update f s.me none)
    (funext fun t => ?_)
  rw [MqState.waits,MqState.waits,setSem_loc]

theorem setSem_outside {k : Kernel cfg} (o : Itc cfg)
    (hk : k.activeThread = s.kernel.activeThread) : (s.setSem r k o).outside = s.outside := by
  funext j
  cases j with
  | pool => rw [outside,outside,setSem_me o hk,posting,posting,setSem_loc]
  | queue q => rfl

theorem Mid.setSem (h : s.Mid T own out) {k : Kernel cfg} {o : Itc cfg} {out' : MqSem → ℕ}
    (hk : k.activeThread = s.kernel.activeThread) (hr : k.pool s.me = s.kernel.pool s.me)
    (ha : (s.setSem r k o).Accounts T own s.others out') : (s.setSem r k o).Mid T own out' where
  toAccounts := by rwa [setSem_others o hk]
  opened := fun t ht q hq => by
    rw [setSem_me o hk] at ht
    rw [setSem_loc] at hq
    exact (setSem_live k o _).mpr (h.opened t ht q hq)
  running := by rw [setSem_me o hk,setSem_kernel,hr,h.running]
  yielding := by rw [setSem_yielding,h.yielding]

/-- What the running thread does to semaphores moves nobody and blocks nobody else. -/
structure Follows (s s' : MqState cfg) : Prop where
  me : s'.me = s.me
  loc : s'.loc = s.loc
  queue : ∀ t, (s'.kernel.pool t).state.has .queue = true →
    (s.kernel.pool t).state.has .queue = true
  live : ∀ r, s'.Live r ↔ s.Live r

namespace Follows

variable {s' s'' : MqState cfg}

theorem refl (s : MqState cfg) : s.Follows s := ⟨rfl,rfl,fun _ h => h,fun _ => Iff.rfl⟩

theorem trans (h : s.Follows s') (h' : s'.Follows s'') : s.Follows s'' :=
  ⟨h'.me.trans h.me,h'.loc.trans h.loc,fun t ht => h.queue t (h'.queue t ht),
    fun r => (h'.live r).trans (h.live r)⟩

theorem outside (h : s.Follows s') : s'.outside = s.outside := by
  funext j
  cases j with
  | pool => rw [MqState.outside,MqState.outside,posting,posting,h.me,h.loc]
  | queue q => rfl

theorem crowded (h : s.Follows s') (hc : s'.Crowded r) : s.Crowded r := by
  refine hc.trans (Nat.succ_le_succ (Finset.card_le_card fun t ht => ?_))
  rw [blocked,Finset.mem_filter,MqState.waits,h.loc] at ht
  rw [blocked,Finset.mem_filter]
  exact ⟨ht.1,ht.2.1,h.queue t ht.2.2⟩

end Follows

theorem setSem_follows {k : Kernel cfg} (o : Itc cfg) (hk : k.activeThread = s.kernel.activeThread)
    (hq : ∀ t, (k.pool t).state.has .queue = true →
      (s.kernel.pool t).state.has .queue = true) : s.Follows (s.setSem r k o) :=
  ⟨setSem_me o hk,setSem_loc k o,by rwa [setSem_kernel],setSem_live k o⟩

theorem Accounts.total_lt (h : s.Accounts T own waits out) (hl : s.Live r) :
    s.total r < 2^31 := by
  cases r with
  | pool => exact Nat.one_lt_two_pow (by decide)
  | queue q =>
    obtain ⟨free,hk⟩ := h.keeps q hl
    have hfull := hk.box.full
    have hmax := hk.fits.maxmsg
    rw [sizeMod] at hmax
    rw [total]
    omega

theorem plus_self (out : MqSem → ℕ) (r : MqSem) : plus out r r = out r+1 :=
  Function.update_self _ _ _

theorem plus_of_ne (out : MqSem → ℕ) {j : MqSem} (hj : j ≠ r) : plus out r j = out j :=
  Function.update_of_ne hj _ _

/-- The running thread gives one of what it holds to a semaphore. -/
theorem Mid.post (h : s.Mid T own (plus out r)) (hl : s.Live r) :
    ∃ s' y, s.semPost r = .ok (s',y) ∧ s'.Mid T own out ∧ s.Follows s' := by
  obtain ⟨ring,n,hs,hv,hn⟩ := h.sems
  have hr := hn r hl
  rw [plus_self] at hr
  have hlt := h.total_lt hl
  obtain ⟨k,q,y,ring',hsm,hs',hv',hact,halive,hqueue,hready⟩ := hs.post hv (i:=r) (by omega)
  rw [sems_eq hl] at hsm
  refine ⟨s.setSem r k q,y,?_,?_,setSem_follows q hact hqueue⟩
  · rw [semPost,hsm]
    rfl
  · refine h.setSem hact (hready _ h.running) (h.toAccounts.setSem hl (halive h.alive) hs' hv'
      fun j hj => ?_)
    obtain rfl | hjr := eq_or_ne j r
    · rw [Function.update_self]
      omega
    · have := hn j hj
      rw [plus_of_ne _ hjr] at this
      rw [Function.update_of_ne hjr]
      exact this

/-- The running thread goes to `x`. -/
def moveTo (s : MqState cfg) (x : MqLoc) : MqState cfg :=
  { s with loc := Function.update s.loc s.me x }

/-- What a thread at `x` holds of the pool. -/
def MqLoc.holds (x : MqLoc) : MqSem → ℕ
  | .pool => if x = .sendPost then 1 else 0
  | .queue _ => 0

theorem moveTo_waits (x : MqLoc) :
    (s.moveTo x).waits = Function.update s.others s.me x.waits := by
  funext t
  rw [waits,moveTo]
  by_cases ht : t = s.me
  · subst ht
    simp only [Function.update_self]
  · simp only [others,Function.update_of_ne ht]
    rfl

theorem mem_posting {t : Thid cfg} : t ∈ s.posting ↔ s.loc t = .sendPost := by
  simp [posting]

theorem moveTo_loc_self (x : MqLoc) : (s.moveTo x).loc s.me = x := Function.update_self _ _ _

theorem moveTo_loc_of_ne (x : MqLoc) {t : Thid cfg} (ht : t ≠ s.me) :
    (s.moveTo x).loc t = s.loc t := Function.update_of_ne ht _ _

theorem moveTo_posting (x : MqLoc) : (s.moveTo x).posting.card =
    (s.posting.erase s.me).card+MqLoc.holds x .pool := by
  have herase : (s.moveTo x).posting.erase s.me = s.posting.erase s.me := by
    ext t
    rw [Finset.mem_erase,Finset.mem_erase,mem_posting,mem_posting]
    exact and_congr_right fun ht => by rw [moveTo_loc_of_ne x ht]
  rw [← herase,MqLoc.holds]
  split
  · next hx => exact (Finset.card_erase_add_one (by rw [mem_posting,moveTo_loc_self,hx])).symm
  · next hx => rw [Finset.erase_eq_of_notMem (by rwa [mem_posting,moveTo_loc_self]),Nat.add_zero]

/-- The running thread comes to rest at `x`, with what it holds there. -/
theorem Accounts.moveTo {x : MqLoc}
    (h : s.Accounts T own (Function.update s.others s.me x.waits)
      fun j => s.outside j+MqLoc.holds x j)
    (hopened : ∀ t, t ≠ s.me → ∀ q, (s.loc t).on = some q → s.Live (.queue q))
    (hon : ∀ q, x.on = some q → s.Live (.queue q)) :
    (s.moveTo x).Accounts T own (s.moveTo x).waits (s.moveTo x).resting ∧
      ∀ t q, ((s.moveTo x).loc t).on = some q → (s.moveTo x).Live (.queue q) := by
  refine ⟨?_,fun t q hq => ?_⟩
  · have hout : (s.moveTo x).resting = fun j => s.outside j+MqLoc.holds x j := by
      funext j
      cases j with
      | pool => exact s.moveTo_posting x
      | queue q => rfl
    rw [hout,moveTo_waits]
    exact ⟨h.alive,h.sems,h.keeps,h.apart⟩
  · by_cases ht : t = s.me
    · subst ht
      rw [moveTo_loc_self] at hq
      exact hon q hq
    · rw [moveTo_loc_of_ne x ht] at hq
      exact hopened t ht q hq

theorem update_others : Function.update s.others s.me none = s.others := by
  rw [others,Function.update_idem]

/-- It yields there. -/
theorem Mid.goTo {x : MqLoc} (h : s.Mid T own fun j => s.outside j+MqLoc.holds x j)
    (hx : x.waits = none) (hon : ∀ q, x.on = some q → s.Live (.queue q)) :
    MqInv T own (s.goTo x) := by
  have hacc := h.toAccounts
  rw [← update_others,← hx] at hacc
  obtain ⟨ha,ho⟩ := Accounts.moveTo hacc h.opened hon
  exact ⟨⟨ha.alive,ha.sems,ha.keeps,ha.apart⟩,ho,by rintro ⟨⟩⟩

/-- Its call ends. -/
theorem Mid.endCall (h : s.Mid T own s.outside) (r : MqRet) : MqInv T own (s.endCall r) := by
  have hacc : s.Accounts T own (Function.update s.others s.me MqLoc.user.waits)
      fun j => s.outside j+MqLoc.holds .user j := by
    have hzero : (fun j => s.outside j+MqLoc.holds .user j) = s.outside := by
      funext j
      cases j <;> rfl
    rw [hzero,show MqLoc.user.waits = none from rfl,update_others]
    exact h.toAccounts
  obtain ⟨ha,ho⟩ := Accounts.moveTo hacc h.opened (by rintro _ ⟨⟩)
  exact ⟨⟨ha.alive,ha.sems,ha.keeps,ha.apart⟩,ho,fun _ => h.running⟩

theorem Accounts.crowded {ring : MqSem → List (Thid cfg)}
    (h : Semaphores s.kernel s.sems s.others ring) (hr : cfg.maxBlockedOnQ ≤ (ring r).length+1) :
    s.Crowded r := by
  refine hr.trans (Nat.succ_le_succ ?_)
  rw [← List.toFinset_card_of_nodup (h.nodup r)]
  refine Finset.card_le_card fun t ht => ?_
  have ht := List.mem_toFinset.mp ht
  have hw := (h.entry r t ht).1
  have hne : t ≠ s.me := by
    rintro rfl
    rw [others,Function.update_self] at hw
    cases hw
  rw [others,Function.update_of_ne hne] at hw
  rw [blocked,Finset.mem_filter]
  exact ⟨Finset.mem_univ t,hw,h.has_queue ht⟩

/-- `sem_wait`: the running thread gets one from the semaphore, or goes to sleep for it, or there are
too many waiters. -/
theorem Mid.wait (h : s.Mid T own out) (hl : s.Live r) (clk : Clock) :
    (∃ s', s.semWait r clk = .ok (s',false) ∧ 0 < (s.sem r).token ∧
      s'.Mid T own (plus out r) ∧ s.Follows s') ∨
    (∃ s', s.semWait r clk = .ok (s',true) ∧ (out = s.outside → ∀ x : MqLoc, x.waits = some r →
      (∀ q, x.on = some q → s.Live (.queue q)) → MqInv T own (s'.goTo x))) ∨
    (s.semWait r clk = .error .assertSem ∧ s.Crowded r) := by
  obtain ⟨ring,n,hs,hv,hn⟩ := h.sems
  have hnone : s.others s.kernel.activeThread = none := Function.update_self _ _ _
  have hrun : (s.kernel.pool s.kernel.activeThread).state = .ready := h.running
  obtain ⟨q,hsm,htok,hpos,hs',hv'⟩ | ⟨q,ring',hsm,hs',hv'⟩ | ⟨hfull,hsm⟩ :=
    hs.wait hv r hnone hrun clk
  · rw [sems_eq hl] at hsm htok
    refine Or.inl ⟨s.setSem r s.kernel q,?_,htok,?_,setSem_follows q rfl fun _ h => h⟩
    · rw [semWait,hsm]
      rfl
    · refine h.setSem rfl rfl (h.toAccounts.setSem hl h.alive hs' hv' fun j hj => ?_)
      have := hn j hj
      obtain rfl | hjr := eq_or_ne j r
      · rw [Function.update_self,plus_self]
        omega
      · rw [Function.update_of_ne hjr,plus_of_ne _ hjr]
        exact this
  · rw [sems_eq hl] at hsm
    refine Or.inr (Or.inl ⟨s.setSem r _ q,by rw [semWait,hsm]; rfl,?_⟩)
    rintro rfl x hx hon
    have halive : Alive (s.kernel.modTcb s.kernel.activeThread (goToSleep 0 clk)) :=
      h.alive.modTcb fun hv => by
        rw [goToSleep_state 0 clk hrun]
        decide
    have hacc := h.toAccounts.setSem hl halive hs' hv' hn
    have hact : (s.kernel.modTcb s.kernel.activeThread (goToSleep 0 clk)).activeThread =
        s.kernel.activeThread := rfl
    have hzero : (fun j => s.outside j+MqLoc.holds x j) = s.outside := by
      funext j
      cases j with
      | pool =>
        rw [MqLoc.holds,if_neg (by rintro rfl; cases hx)]
        rfl
      | queue q => rfl
    obtain ⟨ha,ho⟩ := Accounts.moveTo (s:=s.setSem r _ q) (x:=x) (T:=T) (by
      rw [setSem_others q hact,setSem_me q hact,setSem_outside q hact,hx,hzero]
      exact hacc) (fun t ht u hu => by
        rw [setSem_me q hact] at ht
        rw [setSem_loc] at hu
        exact (setSem_live _ q _).mpr (h.opened t ht u hu)) fun u hu =>
        (setSem_live _ q _).mpr (hon u hu)
    exact ⟨⟨ha.alive,ha.sems,ha.keeps,ha.apart⟩,ho,by rintro ⟨⟩⟩
  · rw [sems_eq hl] at hsm
    exact Or.inr (Or.inr ⟨by rw [semWait,hsm]; rfl,Accounts.crowded hs hfull⟩)

end MqState

open MqState

theorem resting_eq (s : MqState cfg) (j : MqSem) :
    s.resting j = s.outside j+MqLoc.holds (s.loc s.me) j := by
  cases j with
  | pool =>
    rw [MqLoc.holds,outside,resting]
    split
    · next hx => exact (Finset.card_erase_add_one (mem_posting.mpr hx)).symm
    · next hx => rw [Finset.erase_eq_of_notMem (by rwa [mem_posting]),Nat.add_zero]
  | queue q => rfl

/-- A thread goes on that was in no `sem_wait`. -/
theorem MqInv.mid (h : MqInv T own s) (hy : s.yielding = false) (hw : (s.loc s.me).waits = none) :
    s.Mid T own fun j => s.outside j+MqLoc.holds (s.loc s.me) j := by
  obtain ⟨ring,n,hs,hv,hn⟩ := h.sems
  obtain ⟨hs',hv'⟩ := hs.stay hv (t:=s.me) hw
  simp only [resting_eq] at hn
  exact ⟨⟨h.alive,⟨ring,n,hs',hv',hn⟩,h.keeps,h.apart⟩,fun t _ q hq => h.opened t q hq,
    h.running hy,hy⟩

/-- A thread goes on that has been woken from `sem_wait`. -/
theorem MqInv.mid_woken (h : MqInv T own s) (hy : s.yielding = false)
    (hw : (s.loc s.me).waits = some r) : s.Mid T own (plus s.outside r) := by
  obtain ⟨ring,n,hs,hv,hn⟩ := h.sems
  have hq : (s.kernel.pool s.me).state.has .queue = false := by
    rw [h.running hy]
    decide
  obtain ⟨hpos,hs',hv'⟩ := hs.arrive hv (t:=s.me) hw hq
  have hzero : ∀ j, MqLoc.holds (s.loc s.me) j = 0 := by
    intro j
    cases j with
    | pool =>
      rw [MqLoc.holds,if_neg]
      intro hx
      rw [hx] at hw
      cases hw
    | queue q => rfl
  simp only [resting_eq] at hn
  refine ⟨⟨h.alive,⟨ring,_,hs',hv',fun j hj => ?_⟩,h.keeps,h.apart⟩,fun t _ q hq =>
    h.opened t q hq,h.running hy,hy⟩
  have := hn j hj
  rw [hzero,Nat.add_zero] at this
  obtain rfl | hjr := eq_or_ne j r
  · rw [Function.update_self,plus_self]
    omega
  · rw [Function.update_of_ne hjr,plus_of_ne _ hjr]
    exact this

namespace MqState

theorem plus_pool (out : MqSem → ℕ) :
    plus out .pool = fun j => out j+MqLoc.holds .sendPost j := by
  funext j
  cases j with
  | pool => exact plus_self _ _
  | queue q => exact plus_of_ne _ (by rintro ⟨⟩)

/-- It yields at a place where it holds nothing. -/
theorem Mid.goTo_free {x : MqLoc} (h : s.Mid T own s.outside) (hx : x.waits = none)
    (hp : x ≠ .sendPost) (hon : ∀ q, x.on = some q → s.Live (.queue q)) : MqInv T own (s.goTo x) := by
  refine Mid.goTo ?_ hx hon
  have hzero : (fun j => s.outside j+MqLoc.holds x j) = s.outside := by
    funext j
    cases j with
    | pool => rw [MqLoc.holds,if_neg hp,Nat.add_zero]
    | queue q => rfl
  rwa [hzero]

/-- The last `sem_post(&poolAccessSem)` of a call. -/
theorem Mid.release (h : s.Mid T own (plus s.outside .pool)) (r : MqRet) :
    Spec (s.release r) (MqInv T own) (fun _ => False) := by
  obtain ⟨s',y,hp,hm,hf⟩ := h.post trivial
  rw [← hf.outside] at hm
  rw [MqState.release,hp]
  cases y with
  | true => exact hm.goTo_free (x:=.leaving r) rfl (by rintro ⟨⟩) (by rintro _ ⟨⟩)
  | false => exact hm.endCall r

theorem openQueue_live {mq : ℤ} {access : OFlags} {f : FileD cfg}
    (h : s.openQueue mq access = .ok f) : s.Live (.queue f.qId) := by
  unfold openQueue at h
  split at h
  · cases h
  · split_ifs at h with h1 h2 h3
    cases h
    simpa [Live] using h3

theorem sendCheck_ok {a : SendArgs} {q : QueueId} (h : s.sendCheck a = .ok q) :
    s.Live (.queue q) ∧ a.msg.length ≤ (s.queuePool q).mqAttr.mqMsgsize ∧
      numbMess (s.queuePool q) < ((s.queuePool q).mqAttr.mqMaxmsg+(sizeMod-1)) % sizeMod := by
  unfold sendCheck at h
  split at h
  · cases h
  · next f hf =>
    simp only at h
    split_ifs at h with h1 h2
    cases h
    exact ⟨openQueue_live hf,by simpa using h1,by simpa using h2⟩

theorem recvCheck_ok {a : RecvArgs} {q : QueueId} (h : s.recvCheck a = .ok q) :
    s.Live (.queue q) := by
  unfold recvCheck at h
  split at h
  · cases h
  · next f hf =>
    simp only at h
    split_ifs at h with h1 h2
    cases h
    exact openQueue_live hf

/-- The messages of the sender's priority that are stored are older than its own. -/
def Newest (s : MqState cfg) (a : SendArgs) (q : QueueId) : Prop :=
  ∀ m ∈ (s.queuePool q).messages, m.order.prio = a.msgprio →
    compMess m (a.mess none (s.queuePool q).mBox.lastInOrder) < 0

/-- The contents of a queue change, in its slots or in its buffers. -/
def withQueue (s : MqState cfg) (q : QueueId) (Q : QueueD cfg) (heap : Heap Byte)
    (accepted : QueueId → List (List Byte × ℕ)) (returned : QueueId → List Receipt) : MqState cfg :=
  { s.setQueue q Q with heap := heap, accepted := accepted, returned := returned }

section

variable {q u : QueueId} {Q : QueueD cfg} {heap : Heap Byte}
  {accepted : QueueId → List (List Byte × ℕ)} {returned : QueueId → List Receipt}

theorem withQueue_self : (s.withQueue q Q heap accepted returned).queuePool q = Q :=
  Function.update_self _ _ _

theorem withQueue_of_ne (hu : u ≠ q) :
    (s.withQueue q Q heap accepted returned).queuePool u = s.queuePool u :=
  Function.update_of_ne hu _ _

theorem withQueue_live (ht : Q.taken = (s.queuePool q).taken) (j : MqSem) :
    (s.withQueue q Q heap accepted returned).Live j ↔ s.Live j := by
  cases j with
  | pool => exact Iff.rfl
  | queue u =>
    by_cases hu : u = q
    · rw [Live,Live,hu,withQueue_self,ht]
    · rw [Live,Live,withQueue_of_ne hu]

theorem withQueue_sems (ht : Q.taken = (s.queuePool q).taken)
    (hsem : Q.sem = (s.queuePool q).sem) :
    (s.withQueue q Q heap accepted returned).sems = s.sems := by
  funext j
  cases j with
  | pool => rfl
  | queue u =>
    by_cases hu : u = q
    · rw [sems,sems,hu,withQueue_self,ht,hsem]
    · rw [sems,sems,withQueue_of_ne hu]

theorem withQueue_follows (ht : Q.taken = (s.queuePool q).taken) :
    s.Follows (s.withQueue q Q heap accepted returned) :=
  ⟨rfl,rfl,fun _ h => h,withQueue_live ht⟩

/-- What the semaphore of the queue stands for changes with them. -/
theorem Mid.withQueue (h : s.Mid T own out) (hl : s.Live (.queue q))
    (ht : Q.taken = (s.queuePool q).taken) (hsem : Q.sem = (s.queuePool q).sem)
    (hh : ∀ b, b ∉ own q → heap.mem b = s.heap.mem b)
    (hacc : ∀ u, u ≠ q → accepted u = s.accepted u ∧ returned u = s.returned u) {free : List MessT}
    (hk : Q.Keeps T heap (own q) (accepted q) (returned q) Q.messages free) {out' : MqSem → ℕ}
    (hout : ∀ j, j ≠ .queue q → out' j = out j)
    (hq : Q.messages.length+out (.queue q) = (s.queuePool q).messages.length+out' (.queue q)) :
    (s.withQueue q Q heap accepted returned).Mid T own out' := by
  obtain ⟨ring,n,hs,hv,hn⟩ := h.sems
  have hlive : ∀ j, (s.withQueue q Q heap accepted returned).Live j → s.Live j := fun j =>
    (withQueue_live ht j).mp
  refine ⟨⟨h.alive,⟨ring,n,?_,?_,fun j hj => ?_⟩,fun u hu => ?_,fun u v hu hv =>
    h.apart u v (hlive _ hu) (hlive _ hv)⟩,fun t hne u hu =>
    (withQueue_live ht _).mpr (h.opened t hne u hu),h.running,h.yielding⟩
  · rw [withQueue_sems ht hsem]
    exact hs
  · rw [withQueue_sems ht hsem]
    exact hv
  · have hj' := hn j (hlive j hj)
    by_cases hjq : j = .queue q
    · subst hjq
      rw [total] at hj'
      rw [total,withQueue_self]
      omega
    · rw [hout j hjq]
      cases j with
      | pool => exact hj'
      | queue u =>
        rw [total,withQueue_of_ne fun hu => hjq (by rw [hu])]
        exact hj'
  · by_cases huq : u = q
    · subst huq
      refine ⟨free,?_⟩
      rw [withQueue_self]
      exact hk
    · obtain ⟨free',hk'⟩ := h.keeps u (hlive _ hu)
      refine ⟨free',?_⟩
      have hframe := hk'.frame fun b hb => hh b fun hbq =>
        h.apart u q (hlive _ hu) hl huq hb hbq
      rw [withQueue_of_ne huq]
      rw [← (hacc u huq).1,← (hacc u huq).2] at hframe
      exact hframe

end

/-- `mq_send` with the pool to itself. -/
theorem Mid.sendLocked {qsort : Qsort} (hq : Sorts qsort) {a : SendArgs}
    (h : s.Mid T own (plus s.outside .pool))
    (hT : T → ∀ q, s.sendCheck a = .ok q → s.Newest a q) :
    Spec (s.sendLocked qsort a) (MqInv T own) (fun e => e = .nullPointer ∧ a.granted = false) := by
  unfold MqState.sendLocked
  cases hc : s.sendCheck a with
  | error e => exact (h.release (.failed e)).mono (fun _ h => h) fun _ h => h.elim
  | ok q =>
    obtain ⟨hl,hlen,hroom⟩ := sendCheck_ok hc
    obtain ⟨free,hk⟩ := h.keeps q hl
    have hmax := hk.fits.pos
    have hmax' := hk.fits.maxmsg
    rw [hk.box.numbMess_eq] at hroom
    have hroom' : (s.queuePool q).messages.length+1 < (s.queuePool q).mqAttr.mqMaxmsg := by
      have hsz : sizeMod = 4294967296 := rfl
      rw [hsz] at hmax' hroom
      omega
    obtain ⟨Q1,heap',hst,hh,hsort⟩ := hk.send hq hlen hroom' fun ht => hT ht q hc
    simp only [hst,spec_bind,spec_ok]
    refine hsort.imp ?_
    rintro Q' ⟨⟨stored',free',hk',hlen'⟩,ht,-,hsem⟩
    have hmess := hk'.box.messages_eq
    rw [← hmess] at hk' hlen'
    set s1 := s.withQueue q Q' heap'
      (Function.update s.accepted q (s.accepted q ++ [(a.msg,a.msgprio)])) s.returned with hs1
    have hm : s1.Mid T own (plus (plus s.outside .pool) (.queue q)) :=
      h.withQueue hl ht hsem hh (fun u hu => ⟨Function.update_of_ne hu _ _,rfl⟩)
        (by rw [Function.update_self]; exact hk') (fun j hj => plus_of_ne _ hj)
        (by rw [plus_self,hlen']; omega)
    have hf1 : s.Follows s1 := withQueue_follows ht
    obtain ⟨s',y,hp,hm',hf⟩ := hm.post (r:=.queue q) ((hf1.live _).mpr hl)
    have hp' : semPost { s.setQueue q Q' with
        heap := heap'
        accepted := Function.update s.accepted q (s.accepted q ++ [(a.msg,a.msgprio)]) }
        (.queue q) = .ok (s',y) := hp
    rw [hp',spec_ok]
    rw [← (hf1.trans hf).outside] at hm'
    cases y with
    | true =>
      rw [plus_pool] at hm'
      exact hm'.goTo (x:=.sendPost) rfl (by rintro _ ⟨⟩)
    | false => exact (hm'.release .sent).mono (fun _ h => h) fun _ h => h.elim

/-- `mq_receive` with a token of the queue's semaphore. -/
theorem Mid.recvCopy {a : RecvArgs} {q : QueueId} (h : s.Mid T own (plus s.outside (.queue q)))
    (hl : s.Live (.queue q)) : Spec (s.recvCopy a q) (MqInv T own) (fun _ => False) := by
  obtain ⟨ring,n,-,-,hn⟩ := h.sems
  have hpos := hn _ hl
  rw [plus_self] at hpos
  have hout : s.outside (.queue q) = 0 := rfl
  obtain ⟨free,hk⟩ := h.keeps q hl
  -- the token stands for a message
  have hne : (s.queuePool q).messages ≠ [] := by
    rintro hnil
    rw [total,hnil] at hpos
    cases hpos
  obtain ⟨m,stored,hmess⟩ := List.exists_cons_of_ne_nil hne
  rw [hmess] at hk
  obtain ⟨Q',ret,receipt,hf,hk',ht,-,hsem⟩ := hk.receive a.msgprio
  unfold MqState.recvCopy
  simp only [hf,spec_bind,spec_ok,spec_pure]
  have hmess' := hk'.box.messages_eq
  have hlen : Q'.messages.length+1 = (s.queuePool q).messages.length := by
    rw [hmess',hmess]
    rfl
  rw [← hmess'] at hk'
  have hm : (s.withQueue q Q' s.heap s.accepted (Function.update s.returned q
      (s.returned q ++ [receipt]))).Mid T own s.outside :=
    h.withQueue hl ht hsem (fun _ _ => rfl) (fun u hu => ⟨rfl,Function.update_of_ne hu _ _⟩)
      (by rw [Function.update_self]; exact hk') (fun j hj => (plus_of_ne _ hj).symm)
      (by rw [plus_self]; omega)
  exact hm.endCall ret

/-- `mq_receive` from `sem_wait(&Q->sem)` on. -/
theorem Mid.recvToken {a : RecvArgs} {q : QueueId} (h : s.Mid T own s.outside)
    (hl : s.Live (.queue q)) (clk : Clock) : Spec (s.recvToken a q clk) (MqInv T own)
      (fun e => e = .assertSem ∧ s.Crowded (.queue q)) := by
  unfold MqState.recvToken
  obtain ⟨s',hs,-,hm,hf⟩ | ⟨s',hs,hg⟩ | ⟨hs,hc⟩ := h.wait hl clk
  · rw [hs]
    rw [← hf.outside] at hm
    exact (hm.recvCopy ((hf.live _).mpr hl)).mono (fun _ h => h) fun _ h => h.elim
  · rw [hs]
    refine hg rfl (.recvSem a q) rfl ?_
    rintro u hu
    cases hu
    exact hl
  · rw [hs]
    exact ⟨rfl,hc⟩

/-- `mq_receive` with the pool to itself. -/
theorem Mid.recvLocked {a : RecvArgs} (h : s.Mid T own (plus s.outside .pool)) (clk : Clock) :
    Spec (s.recvLocked a clk) (MqInv T own) (fun e => e = .assertSem ∧ ∃ r, s.Crowded r) := by
  unfold MqState.recvLocked
  cases hc : s.recvCheck a with
  | error e => exact (h.release (.failed e)).mono (fun _ h => h) fun _ h => h.elim
  | ok q =>
    have hl := recvCheck_ok hc
    obtain ⟨s',y,hp,hm,hf⟩ := h.post trivial
    rw [← hf.outside] at hm
    have hl' := (hf.live (.queue q)).mpr hl
    simp only [hp,spec_bind,spec_ok]
    cases y with
    | true =>
      refine hm.goTo_free (x:=.recvPost a q) rfl (by rintro ⟨⟩) ?_
      rintro u hu
      cases hu
      exact hl'
    | false =>
      exact (hm.recvToken hl' clk).mono (fun _ h => h) fun e he => ⟨he.1,_,hf.crowded he.2⟩

theorem semWait_pool {s' : MqState cfg} {clk : Clock} {y : Bool}
    (h : s.semWait .pool clk = .ok (s',y)) :
    s'.queuePool = s.queuePool ∧ s'.filePool = s.filePool := by
  unfold semWait at h
  split at h
  · cases h
    exact ⟨rfl,rfl⟩
  · next k o e hs =>
    by_cases he : e = .ok
    · rw [check,if_pos he] at h
      cases h
      exact ⟨rfl,rfl⟩
    · rw [check,if_neg he] at h
      cases h

theorem sendCheck_congr {s' : MqState cfg} (hq : s'.queuePool = s.queuePool)
    (hf : s'.filePool = s.filePool) (hm : s'.me = s.me) (a : SendArgs) :
    s'.sendCheck a = s.sendCheck a := by
  simp only [sendCheck,openQueue,descriptor,hq,hf,hm]

/-- What a step sends, if it gets the pool for it. -/
def sends (s : MqState cfg) : MqLabel cfg → Option SendArgs
  | .mqSend a _ => if 0 < s.poolAccessSem.token then some a else none
  | .resume _ => match s.loc s.me with
    | .sendWait a => some a
    | _ => none
  | _ => none

/-- A message that is accepted is newer than those of its priority that are stored. -/
def SendsNewest (s : MqState cfg) (l : MqLabel cfg) : Prop :=
  ∀ a, s.sends l = some a → ∀ q, s.sendCheck a = .ok q → s.Newest a q

/-- A step stops at an assert for too many waiters, or where a sort gets no memory. -/
def Stops (s : MqState cfg) (l : MqLabel cfg) (e : Fault) : Prop :=
  (e = .assertSem ∧ ∃ r, s.Crowded r) ∨
    e = .nullPointer ∧ ∃ a, s.sends l = some a ∧ a.granted = false

end MqState

/-- The running thread's call gets the pool, goes to sleep for it, or finds too many waiters. -/
theorem MqInv.enter (h : MqInv T own s) (hr : s.runs = true) (clk : Clock) {x : MqLoc}
    (hx : x.waits = some .pool) (hon : x.on = none) {f : MqState cfg → Except Fault (MqState cfg)}
    {R : Fault → Prop} (hcrowd : s.Crowded .pool → R .assertSem)
    (hf : ∀ s', 0 < s.poolAccessSem.token → s'.Mid T own (plus s'.outside .pool) → s.Follows s' →
      s'.queuePool = s.queuePool → s'.filePool = s.filePool → Spec (f s') (MqInv T own) R) :
    Spec (do
      let (s,yields) ← s.semWait .pool clk
      if yields then return s.goTo x else f s) (MqInv T own) R := by
  simp only [runs,Bool.and_eq_true,Bool.not_eq_true',decide_eq_true_eq] at hr
  obtain ⟨hy,hloc⟩ := hr
  have hm := h.mid hy (by rw [hloc]; rfl)
  have hzero : (fun j => s.outside j+MqLoc.holds (s.loc s.me) j) = s.outside := by
    rw [hloc]
    funext j
    cases j <;> rfl
  rw [hzero] at hm
  obtain ⟨s',hs,htok,hm',hf'⟩ | ⟨s',hs,hg⟩ | ⟨hs,hc⟩ := hm.wait (r:=.pool) trivial clk
  · rw [hs]
    rw [← hf'.outside] at hm'
    obtain ⟨hqp,hfp⟩ := semWait_pool hs
    exact hf s' htok hm' hf' hqp hfp
  · rw [hs]
    refine hg rfl x hx fun q hq => ?_
    rw [hon] at hq
    cases hq
  · rw [hs]
    exact hcrowd hc

/-- A step keeps the accounts, or stops. -/
theorem mqStep_spec {qsort : Qsort} (hq : Sorts qsort) {l : MqLabel cfg} (h : MqInv T own s)
    (he : mqEnabled s l = true) (hT : T → s.SendsNewest l) :
    Spec (mqNext qsort s l) (MqInv T own) (s.Stops l) := by
  cases l with
  | mqSend a clk =>
    refine h.enter he clk (x:=.sendWait a) (f:=fun s => s.sendLocked qsort a)
      (R:=s.Stops (.mqSend a clk)) rfl rfl
      (fun hc => Or.inl ⟨rfl,_,hc⟩) ?_
    intro s' htok hm hf hqp hfp
    have hsends : s.sends (.mqSend a clk) = some a := if_pos htok
    have hcheck := sendCheck_congr hqp hfp hf.me a
    refine (hm.sendLocked hq fun ht q hc => ?_).mono (fun _ h => h) fun e he =>
      Or.inr ⟨he.1,a,hsends,he.2⟩
    rw [hcheck] at hc
    rw [Newest,hqp]
    exact hT ht a hsends q hc
  | mqReceive a clk =>
    refine h.enter he clk (x:=.recvWait a) (f:=fun s => s.recvLocked a clk)
      (R:=s.Stops (.mqReceive a clk)) rfl rfl
      (fun hc => Or.inl ⟨rfl,_,hc⟩) ?_
    intro s' _ hm hf _ _
    exact (hm.recvLocked clk).mono (fun _ h => h) fun e ⟨he,r,hr⟩ => Or.inl ⟨he,r,hf.crowded hr⟩
  | resume clk =>
    simp only [mqEnabled,Bool.and_eq_true,Bool.not_eq_true',decide_eq_true_eq] at he
    obtain ⟨hy,-⟩ := he
    have hown : ∀ q, (s.loc s.me).on = some q → s.Live (.queue q) := h.opened s.me
    have hnone : (s.loc s.me).waits = none → s.loc s.me ≠ .sendPost → s.Mid T own s.outside := by
      intro hw hp
      have hm := h.mid hy hw
      have hzero : (fun j => s.outside j+MqLoc.holds (s.loc s.me) j) = s.outside := by
        funext j
        cases j with
        | pool => rw [MqLoc.holds,if_neg hp,Nat.add_zero]
        | queue q => rfl
      rwa [hzero] at hm
    unfold mqNext
    simp only
    cases hloc : s.loc s.me with
    | user => exact h
    | leaving r => exact (hnone (by rw [hloc]; rfl) (by rw [hloc]; rintro ⟨⟩)).endCall r
    | sendWait a =>
      have hm := h.mid_woken hy (r:=.pool) (by rw [hloc]; rfl)
      have hsends : s.sends (.resume clk) = some a := by rw [sends,hloc]
      exact (hm.sendLocked hq fun ht q hc => hT ht a hsends q hc).mono (fun _ h => h) fun e he =>
        Or.inr ⟨he.1,a,hsends,he.2⟩
    | sendPost =>
      have hm := h.mid hy (by rw [hloc]; rfl)
      rw [hloc,← plus_pool] at hm
      exact (hm.release .sent).mono (fun _ h => h) fun _ h => h.elim
    | recvWait a =>
      have hm := h.mid_woken hy (r:=.pool) (by rw [hloc]; rfl)
      exact (hm.recvLocked clk).mono (fun _ h => h) fun e he => Or.inl he
    | recvPost a q =>
      have hm := hnone (by rw [hloc]; rfl) (by rw [hloc]; rintro ⟨⟩)
      exact (hm.recvToken (hown q (by rw [hloc]; rfl)) clk).mono (fun _ h => h) fun e he =>
        Or.inl ⟨he.1,_,he.2⟩
    | recvSem a q =>
      have hm := h.mid_woken hy (r:=.queue q) (by rw [hloc]; rfl)
      exact (hm.recvCopy (hown q (by rw [hloc]; rfl))).mono (fun _ h => h) fun _ h => h.elim
  | yield clk t =>
    simp only [mqEnabled,Bool.and_eq_true] at he
    simp only [mqNext,spec_bind,spec_pure]
    refine (h.alive.yield he.2).mono ?_ fun _ h => h.elim
    rintro k ⟨ha,hp,hr⟩
    obtain ⟨ring,n,hs,hv,hn⟩ := h.sems
    obtain ⟨hs',hqueue⟩ := hs.sweep hp
    exact ⟨⟨ha,⟨ring,n,⟨hs'.queued,hs'.fifo,hs'.isSem,hs'.nodup,hs'.entry,hs'.blocked⟩,
      hv.sweep hqueue,hn⟩,h.keeps,h.apart⟩,h.opened,fun _ => hr⟩

end

end Tinker

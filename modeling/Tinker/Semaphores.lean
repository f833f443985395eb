import Tinker.ItcRing

/-! Several FIFO semaphores, and threads that wait for them without timeouts. A blocked thread is in
the ring of the semaphore it waits for and in no other. -/
namespace Tinker

open Kernel Outcome Ring

variable {cfg : Config} {I : Type*}

/-- `waits` tells which semaphore a thread is in `sm_p` on, `ring` which threads each one holds. -/
structure Semaphores (k : Kernel cfg) (sem : I → Itc cfg) (waits : Thid cfg → Option I)
    (ring : I → List (Thid cfg)) : Prop where
  queued : ∀ i, (sem i).Queued (ring i)
  fifo : ∀ i, (sem i).flags &&& prior = 0
  isSem : ∀ i, (sem i).bType = .sem
  nodup : ∀ i, (ring i).Nodup
  entry : ∀ i, ∀ t ∈ ring i, waits t = some i ∧ (k.pool t).state = .queue
  blocked : ∀ t, (k.pool t).state.has .queue = true → ∃ i, t ∈ ring i

namespace Semaphores

variable {k k' : Kernel cfg} {sem : I → Itc cfg} {waits : Thid cfg → Option I}
  {ring : I → List (Thid cfg)} {i j : I} {t : Thid cfg}

theorem has_queue (h : Semaphores k sem waits ring) (ht : t ∈ ring i) :
    (k.pool t).state.has .queue = true := by
  rw [(h.entry i t ht).2]
  decide

theorem notMem (h : Semaphores k sem waits ring) (ht : (k.pool t).state.has .queue = false) :
    t ∉ ring i := fun hm => by
  rw [h.has_queue hm] at ht
  cases ht

/-- `sm_p` without a timeout takes a token, queues the caller up, or finds the ring full. -/
theorem smP_cases (h : Semaphores k sem waits ring) (i : I) (clk : Clock) :
    (0 < (sem i).token ∧ smP k (some (sem i)) 0 0 clk =
      (k,some { sem i with token := (sem i).token-1 },.ret .ok)) ∨
    ((sem i).token ≤ 0 ∧ ∃ q, smP k (some (sem i)) 0 0 clk =
      (k.modTcb k.activeThread (goToSleep 0 clk),some q,.waits none) ∧
      q.Queued (ring i ++ [k.activeThread]) ∧ (sem i).SameBody q) ∨
    ((sem i).token ≤ 0 ∧ cfg.maxBlockedOnQ ≤ (ring i).length+1 ∧
      smP k (some (sem i)) 0 0 clk = (k,some (sem i),.ret .blockLimit)) := by
  have hsem : ¬(sem i).bType ≠ .sem := fun hn => hn (h.isSem i)
  have hns : ¬((sem i).token ≤ 0 ∧ (0 : IpcFlags) &&& nowait ≠ 0) := fun hn => hn.2 (by decide)
  simp only [smP,if_neg hsem,if_neg hns]
  obtain ⟨ht,hls⟩ | ⟨ht,-,q,m,hls,hm,hq,hb,-⟩ | ⟨ht,hfull,hls⟩ := (h.queued i).lockStage k 0 clk
  · exact Or.inl ⟨ht,by rw [hls]⟩
  · have hm : m = none := Option.isNone_iff_eq_none.mp (hm.mpr rfl)
    subst hm
    exact Or.inr (Or.inl ⟨ht,q,by rw [hls],hq,hb⟩)
  · exact Or.inr (Or.inr ⟨ht,hfull,by rw [hls]⟩)

/-- `sm_v` gives a token back where nobody waits, and readies the first thread of the ring
elsewhere. -/
theorem smV_cases (h : Semaphores k sem waits ring) (i : I) :
    (ring i = [] ∧ smV k (some (sem i)) =
      .ok (k,some { sem i with token := toInt32 ((sem i).token+1) },false,.ok)) ∨
    ∃ him post q, ring i = him :: post ∧ smV k (some (sem i)) =
      .ok (readyByItc k him,some q,true,.ok) ∧ q.Queued post ∧ (sem i).SameBody q ∧
      q.token = -post.length := by
  have hsem : ¬(sem i).bType ≠ .sem := fun hn => hn (h.isSem i)
  simp only [smV,if_neg hsem]
  obtain ⟨r,hr,⟨hl,rfl⟩ | ⟨pre,him,post,hl,hk,hy,hq,hb,htok,hpre,-⟩⟩ :=
    spec_total_iff.mp ((h.queued i).unlockStage (k:=k) (h.fifo i))
  · rw [hr]
    exact Or.inl ⟨hl,rfl⟩
  · have hnil : pre = [] := by
      refine List.eq_nil_iff_forall_not_mem.mpr fun t ht => ?_
      have := hpre t ht
      rw [h.has_queue (i:=i) (by rw [hl]; exact List.mem_append_left _ ht)] at this
      cases this
    subst hnil
    obtain ⟨k',q,y⟩ := r
    obtain ⟨rfl,rfl⟩ : k' = readyByItc k him ∧ y = true := ⟨hk,hy⟩
    rw [hr]
    exact Or.inr ⟨him,post,q,hl,rfl,hq,hb,htok⟩

/-- A thread that is not blocked goes elsewhere. -/
theorem setWaits (h : Semaphores k sem waits ring) (ht : (k.pool t).state.has .queue = false)
    (x : Option I) : Semaphores k sem (Function.update waits t x) ring where
  queued := h.queued
  fifo := h.fifo
  isSem := h.isSem
  nodup := h.nodup
  entry := fun j u hu => by
    have hne : u ≠ t := by
      rintro rfl
      exact h.notMem ht hu
    rw [Function.update_of_ne hne]
    exact h.entry j u hu
  blocked := h.blocked

/-- The timers do not touch a thread that waits without a timeout. -/
theorem sweep {clk : Clock} (h : Semaphores k sem waits ring)
    (hp : ∀ t, k'.pool t = k.pool t ∨ k'.pool t = timerTest clk (k.pool t)) :
    Semaphores k' sem waits ring ∧
      ∀ t, (k'.pool t).state.has .queue = (k.pool t).state.has .queue := by
  have hkeep : ∀ i, ∀ t ∈ ring i, (k'.pool t).state = (k.pool t).state := by
    intro i t ht
    obtain hpt | hpt := hp t
    · rw [hpt]
    · rw [hpt,timerTest]
      split
      · next hs =>
        rw [(h.entry i t ht).2] at hs
        simp at hs
      · rfl
  have hq : ∀ t, (k'.pool t).state.has .queue = (k.pool t).state.has .queue := by
    intro t
    obtain hpt | hpt := hp t
    · rw [hpt]
    · by_cases hb : (k.pool t).state.has .queue = true
      · obtain ⟨i,hi⟩ := h.blocked t hb
        rw [hkeep i t hi]
      · rw [hpt,timerTest]
        split
        · rw [ProcState.clear_queueSleep_has_queue]
          simpa using hb
        · rfl
  refine ⟨⟨h.queued,h.fifo,h.isSem,h.nodup,fun i t ht => ?_,fun t ht => h.blocked t (hq t ▸ ht)⟩,hq⟩
  rw [hkeep i t ht]
  exact h.entry i t ht

variable [DecidableEq I]

/-- The count of a semaphore for which nobody waits may change. -/
theorem setToken (h : Semaphores k sem waits ring) (hr : ring i = []) {n : ℤ} (hn : 0 ≤ n) :
    Semaphores k (Function.update sem i { sem i with token := n }) waits ring := by
  have hup : ∀ j, Function.update sem i { sem i with token := n } j =
      if j = i then { sem i with token := n } else sem j := fun j => Function.update_apply ..
  refine ⟨fun j => ?_,fun j => ?_,fun j => ?_,h.nodup,h.entry,h.blocked⟩
  · rw [hup]
    split
    · next hj =>
      subst hj
      refine ⟨(h.queued j).holds,?_⟩
      rw [hr]
      simp only [List.length_nil]
      omega
    · exact h.queued j
  · rw [hup]
    split
    · exact h.fifo i
    · exact h.fifo j
  · rw [hup]
    split
    · exact h.isSem i
    · exact h.isSem j

/-- The object of a semaphore and its ring change together. -/
theorem setRing (h : Semaphores k sem waits ring) {q : Itc cfg} {l : List (Thid cfg)}
    {waits' : Thid cfg → Option I} (hq : q.Queued l) (hb : (sem i).SameBody q) (hl : l.Nodup)
    (hself : ∀ t ∈ l, waits' t = some i ∧ (k'.pool t).state = .queue)
    (hrest : ∀ j, j ≠ i → ∀ t ∈ ring j, waits' t = waits t ∧ k'.pool t = k.pool t)
    (hblocked : ∀ t, (k'.pool t).state.has .queue = true → t ∈ l ∨ ∃ j, j ≠ i ∧ t ∈ ring j) :
    Semaphores k' (Function.update sem i q) waits' (Function.update ring i l) := by
  refine ⟨fun j => ?_,fun j => ?_,fun j => ?_,fun j => ?_,fun j t ht => ?_,fun t ht => ?_⟩
  · simp only [Function.update_apply]
    split
    · exact hq
    · exact h.queued j
  · simp only [Function.update_apply]
    split
    · rw [hb.flags]
      exact h.fifo i
    · exact h.fifo j
  · simp only [Function.update_apply]
    split
    · exact hb.bType.trans (h.isSem i)
    · exact h.isSem j
  · simp only [Function.update_apply]
    split
    · exact hl
    · exact h.nodup j
  · by_cases hj : j = i
    · subst hj
      rw [Function.update_self] at ht
      exact hself t ht
    · rw [Function.update_of_ne hj] at ht
      obtain ⟨hw,hp⟩ := hrest j hj t ht
      rw [hw,hp]
      exact h.entry j t ht
  · obtain ht | ⟨j,hj,ht⟩ := hblocked t ht
    · exact ⟨i,by rwa [Function.update_self]⟩
    · exact ⟨j,by rwa [Function.update_of_ne hj]⟩

/-- The running thread queues up. -/
theorem block (h : Semaphores k sem waits ring) (hr : (k.pool k.activeThread).state = .ready)
    {q : Itc cfg} (hq : q.Queued (ring i ++ [k.activeThread])) (hb : (sem i).SameBody q)
    (clk : Clock) : Semaphores (k.modTcb k.activeThread (goToSleep 0 clk)) (Function.update sem i q)
      (Function.update waits k.activeThread (some i))
      (Function.update ring i (ring i ++ [k.activeThread])) := by
  have hnm : ∀ j, k.activeThread ∉ ring j := fun j => h.notMem (by rw [hr]; decide)
  have hne : ∀ j, ∀ t ∈ ring j, t ≠ k.activeThread := by
    rintro j t ht rfl
    exact hnm j ht
  have hpool : ∀ t, t ≠ k.activeThread →
      (k.modTcb k.activeThread (goToSleep 0 clk)).pool t = k.pool t := fun t ht => by
    rw [Kernel.modTcb_pool,if_neg ht]
  refine h.setRing hq hb ?_ (fun t ht => ?_) (fun j _ t ht => ?_) fun t ht => ?_
  · rw [List.nodup_append]
    refine ⟨h.nodup i,List.nodup_singleton _,?_⟩
    rintro t ht u hu rfl
    exact hnm i (List.mem_singleton.mp hu ▸ ht)
  · obtain ht | ht := List.mem_append.mp ht
    · rw [Function.update_of_ne (hne i t ht),hpool t (hne i t ht)]
      exact h.entry i t ht
    · obtain rfl := List.mem_singleton.mp ht
      rw [Function.update_self,Kernel.modTcb_pool,if_pos rfl,goToSleep_state 0 clk hr]
      exact ⟨rfl,rfl⟩
  · exact ⟨Function.update_of_ne (hne j t ht) _ _,hpool t (hne j t ht)⟩
  · by_cases hme : t = k.activeThread
    · exact Or.inl (by simp [hme])
    · rw [hpool t hme] at ht
      obtain ⟨j,hj⟩ := h.blocked t ht
      by_cases hji : j = i
      · exact Or.inl (List.mem_append_left _ (hji ▸ hj))
      · exact Or.inr ⟨j,hji,hj⟩

/-- The first thread of a ring is served. -/
theorem serve (h : Semaphores k sem waits ring) {him : Thid cfg} {post : List (Thid cfg)}
    {q : Itc cfg} (hl : ring i = him :: post) (hq : q.Queued post) (hb : (sem i).SameBody q) :
    Semaphores (readyByItc k him) (Function.update sem i q) waits
      (Function.update ring i post) := by
  have hnd := h.nodup i
  rw [hl] at hnd
  have hhim : him ∈ ring i := by rw [hl]; exact List.mem_cons_self
  have hpool : ∀ t, t ≠ him → (readyByItc k him).pool t = k.pool t := fun t ht => by
    rw [readyByItc,Kernel.modTcb_pool,if_neg ht]
  have hne : ∀ t ∈ post, t ≠ him := by
    rintro t ht rfl
    exact (List.nodup_cons.mp hnd).1 ht
  refine h.setRing hq hb (List.nodup_cons.mp hnd).2 (fun t ht => ?_) (fun j hj t ht => ?_)
    fun t ht => ?_
  · rw [hpool t (hne t ht)]
    exact h.entry i t (by rw [hl]; exact List.mem_cons_of_mem _ ht)
  · refine ⟨rfl,hpool t ?_⟩
    rintro rfl
    -- a thread waits for one semaphore only
    have := (h.entry j t ht).1.symm.trans (h.entry i t hhim).1
    exact hj (Option.some.inj this)
  · by_cases hth : t = him
    · subst hth
      rw [readyByItc,Kernel.modTcb_pool,if_pos rfl,ProcState.clear_queueSleepTerm_has_queue] at ht
      cases ht
    · rw [hpool t hth] at ht
      obtain ⟨j,hj⟩ := h.blocked t ht
      by_cases hji : j = i
      · rw [hji,hl,List.mem_cons] at hj
        exact Or.inl (hj.resolve_left hth)
      · exact Or.inr ⟨j,hji,hj⟩

end Semaphores

variable [DecidableEq I]

/-- The threads a token of semaphore `i` has been handed to that have not run since. -/
def woken (k : Kernel cfg) (waits : Thid cfg → Option I) (i : I) : Finset (Thid cfg) :=
  Finset.univ.filter fun t => waits t = some i ∧ (k.pool t).state.has .queue = false

section

variable {k k' : Kernel cfg} {sem : I → Itc cfg} {waits : Thid cfg → Option I}
  {ring : I → List (Thid cfg)} {i j : I} {t : Thid cfg}

theorem mem_woken : t ∈ woken k waits i ↔
    waits t = some i ∧ (k.pool t).state.has .queue = false := by
  simp [woken]

theorem woken_eq {waits' : Thid cfg → Option I}
    (h : ∀ t, (waits' t = some i ∧ (k'.pool t).state.has .queue = false) ↔
      waits t = some i ∧ (k.pool t).state.has .queue = false) :
    woken k' waits' i = woken k waits i := by
  ext t
  rw [mem_woken,mem_woken]
  exact h t

/-- The thread that is served is on its way to the token. -/
theorem card_woken_serve (hw : waits t = some i) (hq : (k.pool t).state.has .queue = true) :
    (woken (readyByItc k t) waits i).card = (woken k waits i).card+1 := by
  have hnm : t ∉ woken k waits i := by
    rw [mem_woken,hq]
    simp
  rw [← Finset.card_insert_of_notMem hnm]
  refine congrArg Finset.card (Finset.ext fun u => ?_)
  rw [Finset.mem_insert,mem_woken,mem_woken,readyByItc,Kernel.modTcb_pool]
  by_cases hu : u = t
  · subst hu
    simp [hw,ProcState.clear_queueSleepTerm_has_queue]
  · simp [hu]

/-- Serving one semaphore sends nobody to another. -/
theorem woken_serve_ne (hw : waits t = some i) (hj : j ≠ i) :
    woken (readyByItc k t) waits j = woken k waits j := by
  refine woken_eq fun u => ?_
  rw [readyByItc,Kernel.modTcb_pool]
  by_cases hu : u = t
  · subst hu
    simp [hw,hj.symm]
  · rw [if_neg hu]

/-- A thread that queues up is not on its way. -/
theorem woken_block (hw : waits k.activeThread = none)
    (hr : (k.pool k.activeThread).state = .ready) (clk : Clock) :
    woken (k.modTcb k.activeThread (goToSleep 0 clk)) (Function.update waits k.activeThread (some i))
      j = woken k waits j := by
  refine woken_eq fun u => ?_
  rw [Kernel.modTcb_pool]
  by_cases hu : u = k.activeThread
  · subst hu
    rw [if_pos rfl,goToSleep_state 0 clk hr,hw]
    simp
  · rw [if_neg hu,Function.update_of_ne hu]

/-- A thread that has come back has its token. -/
theorem card_woken_leave (hw : waits t = some i) (hq : (k.pool t).state.has .queue = false) :
    (woken k (Function.update waits t none) i).card+1 = (woken k waits i).card := by
  have hnm : t ∉ woken k (Function.update waits t none) i := by
    rw [mem_woken]
    simp
  rw [← Finset.card_insert_of_notMem hnm]
  refine congrArg Finset.card (Finset.ext fun u => ?_)
  rw [Finset.mem_insert,mem_woken,mem_woken]
  by_cases hu : u = t
  · subst hu
    simp [hw,hq]
  · simp [hu]

theorem woken_setWaits {x : Option I} (hw : waits t ≠ some i) (hx : x ≠ some i) :
    woken k (Function.update waits t x) i = woken k waits i := by
  refine woken_eq fun u => ?_
  by_cases hu : u = t
  · subst hu
    simp [hw,hx]
  · rw [Function.update_of_ne hu]

/-- What a semaphore is worth: its tokens and those handed to threads that have not run since. -/
def Values (k : Kernel cfg) (sem : I → Itc cfg) (waits : Thid cfg → Option I) (n : I → ℕ) : Prop :=
  ∀ i, (sem i).token.toNat + (woken k waits i).card = n i

variable {n : I → ℕ}

/-- `sm_v` makes a semaphore worth one more. -/
theorem Semaphores.post (h : Semaphores k sem waits ring) (hv : Values k sem waits n)
    (hn : n i+1 < 2^31) : ∃ k' q y ring', smV k (some (sem i)) = .ok (k',some q,y,.ok) ∧
      Semaphores k' (Function.update sem i q) waits ring' ∧
      Values k' (Function.update sem i q) waits (Function.update n i (n i+1)) ∧
      k'.activeThread = k.activeThread ∧ (Alive k → Alive k') ∧
      (∀ t, (k'.pool t).state.has .queue = true → (k.pool t).state.has .queue = true) ∧
      ∀ t, (k.pool t).state = .ready → k'.pool t = k.pool t := by
  obtain ⟨hl,hs⟩ | ⟨him,post,q,hl,hs,hq,hb,htok⟩ := h.smV_cases i
  · have hlen := (h.queued i).length
    have hi := hv i
    rw [hl,List.length_nil] at hlen
    have htok : toInt32 ((sem i).token+1) = (sem i).token+1 :=
      toInt32_of_range (by omega) (by omega)
    rw [htok] at hs
    refine ⟨k,_,false,ring,hs,h.setToken hl (by omega),fun j => ?_,rfl,id,fun _ h => h,fun _ _ => rfl⟩
    simp only [Function.update_apply]
    split
    · next hj =>
      subst hj
      simp only
      omega
    · exact hv j
  · have hhim : him ∈ ring i := by rw [hl]; exact List.mem_cons_self
    have hw := (h.entry i him hhim).1
    have hqueue := h.has_queue hhim
    refine ⟨_,q,true,_,hs,h.serve hl hq hb,fun j => ?_,rfl,fun ha => ha.readyByItc him,fun t ht => ?_,
      fun t ht => ?_⟩
    · by_cases hj : j = i
      · subst hj
        have hlen := (h.queued j).length
        have hi := hv j
        rw [hl,List.length_cons] at hlen
        rw [Function.update_self,Function.update_self,card_woken_serve hw hqueue,htok]
        omega
      · rw [Function.update_of_ne hj,Function.update_of_ne hj,woken_serve_ne hw hj]
        exact hv j
    · rw [readyByItc,Kernel.modTcb_pool] at ht
      split at ht
      · rw [ProcState.clear_queueSleepTerm_has_queue] at ht
        cases ht
      · exact ht
    · have hne : t ≠ him := by
        rintro rfl
        rw [ht] at hqueue
        cases hqueue
      rw [readyByItc,Kernel.modTcb_pool,if_neg hne]

/-- `sm_p` takes one off a semaphore's worth, or queues the caller up, or finds the ring full. -/
theorem Semaphores.wait (h : Semaphores k sem waits ring) (hv : Values k sem waits n) (i : I)
    (hw : waits k.activeThread = none) (hr : (k.pool k.activeThread).state = .ready)
    (clk : Clock) :
    (∃ q, smP k (some (sem i)) 0 0 clk = (k,some q,.ret .ok) ∧ 0 < (sem i).token ∧ 0 < n i ∧
      Semaphores k (Function.update sem i q) waits ring ∧
      Values k (Function.update sem i q) waits (Function.update n i (n i-1))) ∨
    (∃ q ring', smP k (some (sem i)) 0 0 clk =
        (k.modTcb k.activeThread (goToSleep 0 clk),some q,.waits none) ∧
      Semaphores (k.modTcb k.activeThread (goToSleep 0 clk)) (Function.update sem i q)
        (Function.update waits k.activeThread (some i)) ring' ∧
      Values (k.modTcb k.activeThread (goToSleep 0 clk)) (Function.update sem i q)
        (Function.update waits k.activeThread (some i)) n) ∨
    (cfg.maxBlockedOnQ ≤ (ring i).length+1 ∧
      smP k (some (sem i)) 0 0 clk = (k,some (sem i),.ret .blockLimit)) := by
  have hlen := (h.queued i).length
  have hi := hv i
  obtain ⟨ht,hs⟩ | ⟨ht,q,hs,hq,hb⟩ | ⟨ht,hfull,hs⟩ := h.smP_cases i clk
  · have hl : ring i = [] := List.eq_nil_of_length_eq_zero (by omega)
    refine Or.inl ⟨_,hs,ht,by omega,h.setToken hl (by omega),fun j => ?_⟩
    simp only [Function.update_apply]
    split
    · next hj =>
      subst hj
      simp only
      omega
    · exact hv j
  · refine Or.inr (Or.inl ⟨q,_,hs,h.block hr hq hb clk,fun j => ?_⟩)
    rw [woken_block hw hr,Function.update_apply]
    split
    · next hj =>
      subst hj
      have hq := hq.length
      rw [List.length_append,List.length_singleton] at hq
      omega
    · exact hv j
  · exact Or.inr (Or.inr ⟨hfull,hs⟩)

/-- A thread that runs again behind `sm_p` has its token. -/
theorem Semaphores.arrive (h : Semaphores k sem waits ring) (hv : Values k sem waits n)
    (hw : waits t = some i) (hq : (k.pool t).state.has .queue = false) :
    0 < n i ∧ Semaphores k sem (Function.update waits t none) ring ∧
      Values k sem (Function.update waits t none) (Function.update n i (n i-1)) := by
  have hcard := card_woken_leave hw hq
  have hi := hv i
  refine ⟨by omega,h.setWaits hq none,fun j => ?_⟩
  by_cases hj : j = i
  · subst hj
    rw [Function.update_self]
    omega
  · rw [Function.update_of_ne hj,woken_setWaits (by rw [hw]; simpa using Ne.symm hj) (by simp)]
    exact hv j

/-- A thread that waits for no semaphore goes elsewhere. -/
theorem Semaphores.stay (h : Semaphores k sem waits ring) (hv : Values k sem waits n)
    (hw : waits t = none) :
    Semaphores k sem (Function.update waits t none) ring ∧
      Values k sem (Function.update waits t none) n := by
  rw [Function.update_eq_self_iff.mpr hw.symm]
  exact ⟨h,hv⟩

theorem Values.sweep (hv : Values k sem waits n)
    (hq : ∀ t, (k'.pool t).state.has .queue = (k.pool t).state.has .queue) :
    Values k' sem waits n := fun i => by
  have hw : woken k' waits i = woken k waits i := woken_eq fun t => by rw [hq t]
  rw [hw]
  exact hv i

end

end Tinker

import Tinker.Counted
import Tinker.ItcRing

/-! Semaphores created with `PRIOR`. The search of `unlock_stage` goes through the ring from
`out_idx` on and finds the first thread of the numerically smallest priority, wherever the ring
starts; `_itc_removeBlocked` takes that cell out. -/
namespace Tinker

open Outcome Ring Counted

variable {cfg : Config} {k : Kernel cfg} {q : Itc cfg} {l : List (Thid cfg)}

/-- The priority `unlock_stage` compares. -/
def Kernel.prioOf (k : Kernel cfg) (t : Thid cfg) : ℕ := (k.pool t).prio

/-- One round of the search of `unlock_stage`. -/
def bestRound (k : Kernel cfg) (q : Itc cfg) (best : Option (ℕ × Thid cfg)) (i : ℕ) :
    Except Fault (Option (ℕ × Thid cfg)) := do
  let t ← q.proc i
  match best with
  | none => return some (i,t)
  | some (j,u) => return if (k.pool t).prio < (k.pool u).prio then some (i,t) else some (j,u)

theorem bestBlocked_eq (k : Kernel cfg) (q : Itc cfg) :
    bestBlocked k q = q.idxs.foldlM (bestRound k q) none := rfl

/-- The priority `t_prio` that a search has come to. -/
def bestPrio (k : Kernel cfg) : Option (ℕ × Thid cfg) → ℕ
  | none => cfg.maxPrioLevels+2
  | some (_,t) => k.prioOf t

/-- One round as `unlock_stage` makes it, with `t_prio`. -/
def prioRound (k : Kernel cfg) (q : Itc cfg) (x : ℕ × Option (ℕ × Thid cfg)) (i : ℕ) :
    Except Fault (ℕ × Option (ℕ × Thid cfg)) := do
  let t ← q.proc i
  return if k.prioOf t < x.1 then (k.prioOf t,some (i,t)) else x

/-- The search as `unlock_stage` makes it: from a priority that no thread has, with its assert. -/
def searchBest (k : Kernel cfg) (q : Itc cfg) : Except Fault (Option (ℕ × Thid cfg)) := do
  let (tPrio,best) ← q.idxs.foldlM (prioRound k q) (cfg.maxPrioLevels+2,none)
  check (tPrio ≠ cfg.maxPrioLevels+2) .assertBest
  return best

theorem prioRound_eq {i : ℕ} (hp : ∀ t, q.proc i = .ok t → k.prioOf t < cfg.maxPrioLevels)
    (best : Option (ℕ × Thid cfg)) : prioRound k q (bestPrio k best,best) i =
      (bestRound k q best i).map fun b => (bestPrio k b,b) := by
  cases ht : q.proc i with
  | error e => rw [prioRound,bestRound,ht]; rfl
  | ok t =>
    have hlt := hp t ht
    cases best with
    | none =>
      have hstart : k.prioOf t < bestPrio k none := by
        rw [bestPrio]
        omega
      rw [prioRound,bestRound,ht]
      exact congrArg Except.ok (if_pos hstart)
    | some b =>
      obtain ⟨j,u⟩ := b
      by_cases hb : k.prioOf t < k.prioOf u
      · have hround : bestRound k q (some (j,u)) i = .ok (some (i,t)) := by
          rw [bestRound,ht]
          exact congrArg Except.ok (if_pos hb)
        rw [prioRound,ht,hround]
        exact congrArg Except.ok (if_pos hb)
      · have hround : bestRound k q (some (j,u)) i = .ok (some (j,u)) := by
          rw [bestRound,ht]
          exact congrArg Except.ok (if_neg hb)
        rw [prioRound,ht,hround]
        exact congrArg Except.ok (if_neg hb)

theorem prioRounds_eq {is : List ℕ}
    (hp : ∀ i ∈ is, ∀ t, q.proc i = .ok t → k.prioOf t < cfg.maxPrioLevels)
    (best : Option (ℕ × Thid cfg)) : is.foldlM (prioRound k q) (bestPrio k best,best) =
      (is.foldlM (bestRound k q) best).map fun b => (bestPrio k b,b) := by
  induction is generalizing best with
  | nil => rfl
  | cons i is ih =>
    rw [List.foldlM_cons,List.foldlM_cons,prioRound_eq (hp i List.mem_cons_self)]
    cases bestRound k q best i with
    | error e => rfl
    | ok b => exact ih (fun j hj => hp j (List.mem_cons_of_mem i hj)) b

/-- The rounds over the cells behind a thread already found, which is the first one of the least
priority so far. -/
theorem Itc.Queued.bestRounds (h : q.Queued l) {pre post rest : List (Thid cfg)} {t : Thid cfg}
    (he : l = pre ++ t :: post ++ rest) (hf : FirstLeast k.prioOf pre t post) :
    ∃ pre' t' post', l = pre' ++ t' :: post' ∧ FirstLeast k.prioOf pre' t' post' ∧
      ((List.range' (pre.length+1+post.length) rest.length).map
        (place cfg.maxBlockedOnQ q.outIdx)).foldlM (bestRound k q)
        (some (place cfg.maxBlockedOnQ q.outIdx pre.length,t)) =
        .ok (some (place cfg.maxBlockedOnQ q.outIdx pre'.length,t')) := by
  induction rest generalizing pre t post with
  | nil => exact ⟨pre,t,post,by rw [he,List.append_nil],hf,rfl⟩
  | cons u rest ih =>
    -- the next cell holds `u`
    have hlt : pre.length+1+post.length < l.length := by
      rw [he]; simp only [List.length_append,List.length_cons]; omega
    have hu : q.proc (place cfg.maxBlockedOnQ q.outIdx (pre.length+1+post.length)) = .ok u := by
      rw [h.proc_place hlt]
      congr 1
      subst he
      rw [List.getElem_append_right (by simp only [List.length_append,List.length_cons]; omega)]
      simp only [List.length_append,List.length_cons,
        show pre.length+1+post.length-(pre.length+(post.length+1)) = 0 by omega,
        List.getElem_cons_zero]
    rw [List.length_cons,List.range'_succ,List.map_cons,List.foldlM_cons]
    by_cases hb : k.prioOf u < k.prioOf t
    · have hround : bestRound k q (some (place cfg.maxBlockedOnQ q.outIdx pre.length,t))
          (place cfg.maxBlockedOnQ q.outIdx (pre.length+1+post.length)) =
          .ok (some (place cfg.maxBlockedOnQ q.outIdx (pre ++ t :: post).length,u)) := by
        have hlen : (pre ++ t :: post).length = pre.length+1+post.length := by
          simp only [List.length_append,List.length_cons]; omega
        rw [hlen]
        simp only [bestRound,hu]
        exact congrArg Except.ok (if_pos hb)
      obtain ⟨pre',t',post',hl,hf',hgo⟩ := ih (by rw [he]; simp) (hf.beaten hb)
      refine ⟨pre',t',post',hl,hf',?_⟩
      rw [hround,← hgo]
      simp only [List.length_append,List.length_cons,List.length_nil,Nat.add_zero]
      rw [show pre.length+1+post.length+1 = pre.length+(post.length+1)+1 by omega]
      rfl
    · have hround : bestRound k q (some (place cfg.maxBlockedOnQ q.outIdx pre.length,t))
          (place cfg.maxBlockedOnQ q.outIdx (pre.length+1+post.length)) =
          .ok (some (place cfg.maxBlockedOnQ q.outIdx pre.length,t)) := by
        simp only [bestRound,hu]
        exact congrArg Except.ok (if_neg hb)
      obtain ⟨pre',t',post',hl,hf',hgo⟩ := ih (by rw [he]; simp) (hf.stays hb)
      refine ⟨pre',t',post',hl,hf',?_⟩
      rw [hround,← hgo]
      simp only [List.length_append,List.length_cons,List.length_nil]
      rfl

/-- The search finds the first thread of the least priority and the cell it is in. -/
theorem Itc.Queued.bestBlocked (h : q.Queued l) (hne : l ≠ []) : ∃ pre t post,
    l = pre ++ t :: post ∧ FirstLeast k.prioOf pre t post ∧
    bestBlocked k q = .ok (some (place cfg.maxBlockedOnQ q.outIdx pre.length,t)) := by
  cases l with
  | nil => exact absurd rfl hne
  | cons u l =>
    have hone : FirstLeast k.prioOf [] u [] := ⟨fun c hc => (by cases hc),fun c hc => (by cases hc)⟩
    have hsplit : u :: l = [] ++ u :: [] ++ l := rfl
    obtain ⟨pre,t,post,he,hf,hgo⟩ := h.bestRounds (k:=k) hsplit hone
    refine ⟨pre,t,post,he,hf,?_⟩
    have hfirst : bestRound k q none (place cfg.maxBlockedOnQ q.outIdx 0) =
        .ok (some (place cfg.maxBlockedOnQ q.outIdx 0,u)) := by
      simp only [bestRound,h.proc_place (Nat.zero_lt_of_lt (Nat.lt_succ_self l.length))]
      rfl
    have hidxs : q.idxs = (List.range (u :: l).length).map (place cfg.maxBlockedOnQ q.outIdx) :=
      h.holds.walk_eq
    rw [bestBlocked_eq,hidxs,List.length_cons,List.range_eq_range',List.range'_succ,List.map_cons,
      List.foldlM_cons,hfirst,← hgo]
    rfl

/-- Where every waiter has a priority of the table, the search finds its thread and the assert behind
it holds. -/
theorem Itc.Queued.searchBest (h : q.Queued l) (hne : l ≠ [])
    (hprio : ∀ t ∈ l, (k.pool t).prio < cfg.maxPrioLevels) :
    searchBest k q = Tinker.bestBlocked k q := by
  have hcells : ∀ i ∈ q.idxs, ∀ t, q.proc i = .ok t → k.prioOf t < cfg.maxPrioLevels := by
    intro i hi t ht
    have hidxs : q.idxs = (List.range l.length).map (place cfg.maxBlockedOnQ q.outIdx) :=
      h.holds.walk_eq
    rw [hidxs] at hi
    obtain ⟨j,hj,rfl⟩ := List.mem_map.mp hi
    rw [h.proc_place (List.mem_range.mp hj)] at ht
    exact Except.ok.inj ht ▸ hprio _ (List.getElem_mem _)
  obtain ⟨pre,t,post,rfl,-,hbest⟩ := h.bestBlocked (k:=k) hne
  have hlt := hprio t (List.mem_append_right _ List.mem_cons_self)
  have hprioOf : k.prioOf t = (k.pool t).prio := rfl
  have hassert : bestPrio k (some (place cfg.maxBlockedOnQ q.outIdx pre.length,t)) ≠
      cfg.maxPrioLevels+2 := by
    rw [bestPrio]
    omega
  have hrounds := prioRounds_eq hcells none
  rw [← bestBlocked_eq,hbest] at hrounds
  rw [Tinker.searchBest,hbest]
  have hstart : q.idxs.foldlM (prioRound k q) (cfg.maxPrioLevels+2,none) = _ := hrounds
  rw [hstart]
  simp only [Except.map,bind,Except.bind,check,if_pos hassert]
  rfl

/-- What `sm_v` does to a `PRIOR` semaphore on which the threads of `l` wait, the first one the
longest: `him` leaves the ring and is ready. -/
structure ServesBest (k : Kernel cfg) (q : Itc cfg) (l : List (Thid cfg)) (him : Thid cfg)
    (k' : Kernel cfg) (q' : Itc cfg) : Prop where
  waits : him ∈ l
  best : ∀ u ∈ l, (k.pool him).prio ≤ (k.pool u).prio
  longest : ∀ u ∈ l, (k.pool u).prio = (k.pool him).prio → l.idxOf him ≤ l.idxOf u
  ready : (k'.pool him).state = .ready
  others : ∀ u ≠ him, k'.pool u = k.pool u
  rest : { k' with pool := k.pool } = k
  queued : q'.Queued (l.erase him)
  once : (l.erase him).Nodup ∧ him ∉ l.erase him
  token : q'.token = q.token+1
  body : q.SameBody q'

theorem Itc.Queued.unlockStage_prior (h : q.Queued l) (hp : q.flags &&& prior ≠ 0)
    (hne : l ≠ []) (hnd : l.Nodup) (hw : ∀ t ∈ l, (k.pool t).state = .queue) :
    ∃ him k' q', Tinker.unlockStage k q = .ok (k',q',true) ∧ ServesBest k q l him k' q' := by
  obtain ⟨pre,t,post,rfl,hf,hbest⟩ := h.bestBlocked (k:=k) hne
  have hi : pre.length < (pre ++ t :: post).length := by
    simp only [List.length_append,List.length_cons]; omega
  obtain ⟨hq,hb,htok,_⟩ := h.remove hi
  have hpre : t ∉ pre := fun hm => (List.disjoint_of_nodup_append hnd) hm List.mem_cons_self
  have herase : (pre ++ t :: post).eraseIdx pre.length = (pre ++ t :: post).erase t := by
    rw [List.eraseIdx_append_of_length_le (le_refl _),Nat.sub_self,List.eraseIdx_cons_zero,
      List.erase_append_right _ hpre,List.erase_cons_head]
  have hidx : (pre ++ t :: post).idxOf t = pre.length := by
    rw [List.idxOf_append_of_notMem hpre,List.idxOf_cons_self,Nat.add_zero]
  refine ⟨t,readyByItc k t,itcRemoveBlocked q (place cfg.maxBlockedOnQ q.outIdx pre.length),?_,?_⟩
  · rw [Tinker.unlockStage,if_pos (h.token_neg.mpr hne),if_pos hp,hbest]
    rfl
  · exact {
      waits := List.mem_append_right _ List.mem_cons_self
      best := by
        intro u hu
        simp only [List.mem_append,List.mem_cons] at hu
        obtain hu | rfl | hu := hu
        · exact Nat.le_of_lt (hf.before u hu)
        · exact le_refl _
        · exact hf.after u hu
      longest := by
        intro u hu heq
        rw [hidx]
        by_contra hlt
        have hlt' : (pre ++ t :: post).idxOf u < pre.length := Nat.lt_of_not_le hlt
        have hmem : u ∈ pre := by
          have hget := List.getElem_idxOf (List.idxOf_lt_length_of_mem hu)
          rw [List.getElem_append_left hlt'] at hget
          exact hget ▸ List.getElem_mem hlt'
        exact absurd heq (Nat.ne_of_gt (hf.before u hmem))
      ready := by
        simp only [readyByItc,Kernel.modTcb_pool,if_pos,
          hw t (List.mem_append_right _ List.mem_cons_self)]
        decide
      others := fun u hu => by rw [readyByItc,Kernel.modTcb_pool,if_neg hu]
      rest := rfl
      queued := herase ▸ hq
      once := ⟨hnd.erase t,hnd.not_mem_erase⟩
      token := htok
      body := hb }

/-- `sm_v` serves the waiter of the best priority, the one that has waited longest among equals, which
its search finds where the waiters have priorities of the table. -/
theorem smV_servesBest (hq : q.Queued l) (hs : q.bType = .sem) (hp : q.flags &&& prior ≠ 0)
    (hne : l ≠ []) (hnd : l.Nodup) (hw : ∀ t ∈ l, (k.pool t).state = .queue)
    (hprio : ∀ t ∈ l, (k.pool t).prio < cfg.maxPrioLevels) :
    searchBest k q = bestBlocked k q ∧
    ∃ him k' q', smV k (some q) = .ok (k',some q',true,.ok) ∧ ServesBest k q l him k' q' := by
  obtain ⟨him,k',q',hu,hserves⟩ := hq.unlockStage_prior hp hne hnd hw
  refine ⟨hq.searchBest hne hprio,him,k',q',?_,hserves⟩
  simp only [smV,if_neg (not_not.mpr hs),hu]
  rfl

/-- The threads 1, 2 and 3 wait in the cells 9, 0 and 1, and the last two have the priority 2. -/
def threeWait : Itc gnuArm :=
  { (smCreate 0 prior : Itc gnuArm) with
    token := -3
    blockedProcs := fun i => [some 2,some 3].getD i (some 1)
    outIdx := 9
    inIdx := 2 }

def waitingKernel : Kernel gnuArm :=
  { fiveThreads with
    pool := fun t => { fiveThreads.pool t with
      state := if t.val = 1 ∨ t.val = 2 ∨ t.val = 3 then .queue else .ready
      prio := if t.val = 2 ∨ t.val = 3 then 2 else 5 } }

theorem threeWait_queued : threeWait.Queued [1,2,3] :=
  ⟨⟨by decide,by decide,by decide,by decide⟩,by decide⟩

theorem smV_servesBest_threeWait :
    searchBest waitingKernel threeWait = bestBlocked waitingKernel threeWait ∧
    ∃ him k' q', smV waitingKernel (some threeWait) = .ok (k',some q',true,.ok) ∧
      ServesBest waitingKernel threeWait [1,2,3] him k' q' :=
  smV_servesBest threeWait_queued rfl (by decide) (by decide) (by decide) (by decide) (by decide)

end Tinker

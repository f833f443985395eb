import Tinker.Itc
import Tinker.ScheduleOps

/-! The ring of blocked threads of one object.
`q.Queued l` says that the ring holds the threads of `l` in order and that the token counts
them; each stage of `tk_itc.c` is an operation on that list. -/
namespace Tinker

open Outcome Ring

variable {cfg : Config}

theorem toInt32_of_range {z : ℤ} (h0 : 0 ≤ z) (h : z < 2^31) : toInt32 z = z :=
  toInt32_of_int (by omega) h

theorem toInt32_lt (z : ℤ) : toInt32 z < 2^31 := by
  have := Int.bmod_lt (x:=z) (m:=2^32) (by decide)
  simp only [toInt32]
  omega

theorem toInt32_le {z : ℤ} (h : 0 ≤ z) : toInt32 z ≤ z := by
  have hmod := Int.emod_emod_of_dvd z (dvd_refl ((2^32 : ℕ) : ℤ))
  simp only [toInt32,Int.bmod]
  split <;> omega

structure Itc.Queued (q : Itc cfg) (l : List (Thid cfg)) : Prop where
  holds : Holds cfg.maxBlockedOnQ q.blockedProcs q.outIdx q.inIdx l
  length : l.length = (-q.token).toNat

/-- The fields that have nothing to do with blocking are unchanged. -/
structure Itc.SameBody (q q' : Itc cfg) : Prop where
  flags : q'.flags = q.flags
  sizeofQ : q'.sizeofQ = q.sizeofQ
  bType : q'.bType = q.bType
  minIdx : q'.minIdx = q.minIdx
  moutIdx : q'.moutIdx = q.moutIdx
  q : q'.q = q.q

theorem Itc.SameBody.refl (q : Itc cfg) : q.SameBody q := ⟨rfl,rfl,rfl,rfl,rfl,rfl⟩

theorem Itc.SameBody.trans {a b c : Itc cfg} (h : a.SameBody b) (h' : b.SameBody c) :
    a.SameBody c :=
  ⟨h'.flags.trans h.flags,h'.sizeofQ.trans h.sizeofQ,h'.bType.trans h.bType,
    h'.minIdx.trans h.minIdx,h'.moutIdx.trans h.moutIdx,h'.q.trans h.q⟩

theorem mapM_proc_eq {q : Itc cfg} {is : List ℕ} {l : List (Thid cfg)}
    (h : is.map q.blockedProcs = l.map some) : is.mapM q.proc = .ok l := by
  refine mapM_eq_ok ?_
  induction is generalizing l with
  | nil =>
    cases l with
    | nil => rfl
    | cons t l => cases h
  | cons i is ih =>
    cases l with
    | nil => cases h
    | cons t l =>
      simp only [List.map_cons,List.cons.injEq] at h ⊢
      exact ⟨by simp [Itc.proc,h.1],ih h.2⟩

section

variable {k : Kernel cfg} {q : Itc cfg} {l : List (Thid cfg)}

theorem Itc.Queued.token_neg (h : q.Queued l) : q.token < 0 ↔ l ≠ [] := by
  have := h.length
  rw [← List.length_pos_iff]
  omega

theorem Itc.Queued.proc_place (h : q.Queued l) {i : ℕ} (hi : i < l.length) :
    q.proc (place cfg.maxBlockedOnQ q.outIdx i) = .ok l[i] := by
  simp [Itc.proc,h.holds.cell i hi]

/-- Where the ring holds waiting or ready threads only, the consistency check holds. -/
theorem Itc.Queued.proveConcistency (h : q.Queued l)
    (hl : ∀ t ∈ l, (k.pool t).state.has .queue = true ∨ (k.pool t).state = .ready) :
    itcProveConcistency k q = .ok true := by
  unfold itcProveConcistency
  split
  · rfl
  · have hlen := h.length
    have hm : q.idxs.mapM q.proc = .ok l := mapM_proc_eq h.holds.map_walk
    have hall : l.countP (fun t => (k.pool t).state.has .queue ||
        decide ((k.pool t).state = .ready)) = l.length := by
      rw [List.countP_eq_length]
      intro t ht
      obtain hq | hr := hl t ht
      · simp [hq]
      · simp [hr]
    simp only [hm,bind,Except.bind,hall,pure,Except.pure,Except.ok.injEq,decide_eq_true_eq]
    omega

/-- `_itc_removeBlocked` on a cell in use takes out the thread of that cell. -/
theorem itcRemoveBlocked_holds
    (h : Holds cfg.maxBlockedOnQ q.blockedProcs q.outIdx q.inIdx l) {i : ℕ} (hi : i < l.length) :
    Holds cfg.maxBlockedOnQ
      (itcRemoveBlocked q (place cfg.maxBlockedOnQ q.outIdx i)).blockedProcs
      (itcRemoveBlocked q (place cfg.maxBlockedOnQ q.outIdx i)).outIdx
      (itcRemoveBlocked q (place cfg.maxBlockedOnQ q.outIdx i)).inIdx (l.eraseIdx i) ∧
    q.SameBody (itcRemoveBlocked q (place cfg.maxBlockedOnQ q.outIdx i)) ∧
    (itcRemoveBlocked q (place cfg.maxBlockedOnQ q.outIdx i)).token = q.token+1 ∧
    (itcRemoveBlocked q (place cfg.maxBlockedOnQ q.outIdx i)).outIdx =
      (if i = 0 then succ cfg.maxBlockedOnQ q.outIdx else q.outIdx) ∧
    (i+1 = l.length → i ≠ 0 → (itcRemoveBlocked q (place cfg.maxBlockedOnQ q.outIdx i)).inIdx =
      place cfg.maxBlockedOnQ q.outIdx i) := by
  have hroom := h.room
  have hzero : q.outIdx = place cfg.maxBlockedOnQ q.outIdx i ↔ i = 0 := by
    constructor
    · intro he
      nth_rewrite 1 [← place_zero h.out_lt] at he
      exact (place_inj h.pos (by omega) he).symm
    · rintro rfl; exact (place_zero h.out_lt).symm
  have hlast : pred cfg.maxBlockedOnQ q.inIdx = place cfg.maxBlockedOnQ q.outIdx (l.length-1) := by
    rw [h.inn_eq]
    nth_rewrite 1 [show l.length = l.length-1+1 by omega]
    exact pred_place h.pos _ _
  have hout : ∀ j < l.length, j ≠ i → place cfg.maxBlockedOnQ q.outIdx j ≠
      place cfg.maxBlockedOnQ q.outIdx i :=
    fun j hj hne he => hne (place_inj (by omega) (by omega) he)
  unfold itcRemoveBlocked
  by_cases h0 : i = 0
  · simp only [if_pos (hzero.mpr h0),if_pos h0]
    subst h0
    cases l with
    | nil => cases hi
    | cons t l =>
      refine ⟨?_,⟨rfl,rfl,rfl,rfl,rfl,rfl⟩,trivial,trivial,fun _ hn => absurd rfl hn⟩
      refine h.pop.update fun j hj => ?_
      rw [place_succ]
      exact hout (j+1) (by simpa using hj) (Nat.succ_ne_zero j)
  · simp only [if_neg fun he => h0 (hzero.mp he),if_neg h0]
    by_cases hl : i+1 = l.length
    · have hi' : pred cfg.maxBlockedOnQ q.inIdx = place cfg.maxBlockedOnQ q.outIdx i := by
        rw [hlast,show l.length-1 = i by omega]
      simp only [if_pos hi']
      refine ⟨?_,⟨rfl,rfl,rfl,rfl,rfl,rfl⟩,trivial,trivial,fun _ _ => hi'⟩
      rw [← List.dropLast_eq_eraseIdx hl]
      refine (h.dropLast (List.ne_nil_of_length_pos (by omega))).update fun j hj => ?_
      rw [List.length_dropLast] at hj
      exact hout j (by omega) (by omega)
    · have hne : pred cfg.maxBlockedOnQ q.inIdx ≠ place cfg.maxBlockedOnQ q.outIdx i := by
        rw [hlast]
        exact hout _ (by omega) (by omega)
      simp only [if_neg hne]
      exact ⟨h.eraseIdx hi,⟨rfl,rfl,rfl,rfl,rfl,rfl⟩,trivial,trivial,fun h => absurd h hl⟩

theorem Itc.Queued.remove (h : q.Queued l) {i : ℕ} (hi : i < l.length) :
    (itcRemoveBlocked q (place cfg.maxBlockedOnQ q.outIdx i)).Queued (l.eraseIdx i) ∧
    q.SameBody (itcRemoveBlocked q (place cfg.maxBlockedOnQ q.outIdx i)) ∧
    (itcRemoveBlocked q (place cfg.maxBlockedOnQ q.outIdx i)).token = q.token+1 ∧
    (itcRemoveBlocked q (place cfg.maxBlockedOnQ q.outIdx i)).outIdx =
      (if i = 0 then succ cfg.maxBlockedOnQ q.outIdx else q.outIdx) ∧
    (i+1 = l.length → i ≠ 0 → (itcRemoveBlocked q (place cfg.maxBlockedOnQ q.outIdx i)).inIdx =
      place cfg.maxBlockedOnQ q.outIdx i) := by
  obtain ⟨hholds,hbody,htoken,hrest⟩ := itcRemoveBlocked_holds h.holds hi
  have hlen := h.length
  have herase := List.length_eraseIdx_of_lt hi
  exact ⟨⟨hholds,by rw [htoken]; omega⟩,hbody,htoken,hrest⟩

/-- The threads a loop from `out_idx` up to `in_idx` finds in the cells. -/
def Itc.live (q : Itc cfg) : List (Option (Thid cfg)) := q.idxs.map q.blockedProcs

/-- `_itc_removeBlocked` is the erasure of one entry, in every rotation of the ring. -/
theorem itcRemoveBlocked_erases (hout : q.outIdx < cfg.maxBlockedOnQ)
    (hin : q.inIdx < cfg.maxBlockedOnQ) (hlive : q.live = l.map some) {i : ℕ}
    (hi : i < q.idxs.length) :
    (itcRemoveBlocked q q.idxs[i]).live = (l.eraseIdx i).map some ∧
      (itcRemoveBlocked q q.idxs[i]).token = q.token+1 ∧
      (itcRemoveBlocked q q.idxs[i]).inIdx < cfg.maxBlockedOnQ ∧
      (itcRemoveBlocked q q.idxs[i]).outIdx < cfg.maxBlockedOnQ := by
  have hholds : Holds cfg.maxBlockedOnQ q.blockedProcs q.outIdx q.inIdx l :=
    holds_of_walk hout hin hlive
  have hlen : q.idxs.length = l.length := by simpa [Itc.live] using congrArg List.length hlive
  have hidx : q.idxs[i] = place cfg.maxBlockedOnQ q.outIdx i := by
    have hwalk : q.idxs = _ := hholds.walk_eq
    simp [hwalk]
  rw [hidx]
  obtain ⟨herased,-,htoken,-⟩ := itcRemoveBlocked_holds hholds (hlen ▸ hi)
  exact ⟨herased.map_walk,htoken,herased.inn_lt,herased.out_lt⟩

/-- Threads 1 to 4 wait in the cells 8, 9, 0 and 1. -/
def wrappedRing : Itc gnuArm :=
  { (smCreate 0 0 : Itc gnuArm) with
    token := -4
    blockedProcs := fun i =>
      if i = 8 then some 1 else if i = 9 then some 2 else if i = 0 then some 3 else some 4
    inIdx := 2
    outIdx := 8 }

/-- The third of them goes. -/
theorem itcRemoveBlocked_erases_wrapped :
    (itcRemoveBlocked wrappedRing 0).live = [1,2,4].map some ∧
      (itcRemoveBlocked wrappedRing 0).token = wrappedRing.token+1 ∧
      (itcRemoveBlocked wrappedRing 0).inIdx < gnuArm.maxBlockedOnQ ∧
      (itcRemoveBlocked wrappedRing 0).outIdx < gnuArm.maxBlockedOnQ :=
  itcRemoveBlocked_erases (q:=wrappedRing) (l:=[1,2,3,4]) (i:=2) (by decide) (by decide) rfl
    (by decide)

/-- What `lock_stage` does before its yield: take a token, queue up at the end, or give up. -/
theorem Itc.Queued.lockStage (h : q.Queued l) (k : Kernel cfg) (timeout clk : Clock) :
    (0 < q.token ∧ lockStage k q timeout clk = (k,{ q with token := q.token-1 },.ret .ok)) ∨
    (q.token ≤ 0 ∧ l.length+1 < cfg.maxBlockedOnQ ∧ ∃ q' m,
      lockStage k q timeout clk = (k.modTcb k.activeThread (goToSleep timeout clk),q',.waits m) ∧
      (m.isNone = true ↔ timeout = 0) ∧ q'.Queued (l ++ [k.activeThread]) ∧
      q.SameBody q' ∧ q'.token = q.token-1) ∨
    (q.token ≤ 0 ∧ cfg.maxBlockedOnQ ≤ l.length+1 ∧
      lockStage k q timeout clk = (k,q,.ret .blockLimit)) := by
  have hlen := h.length
  have hpos := cfg.maxBlockedOnQ_pos
  unfold Tinker.lockStage
  by_cases ht : 0 < q.token
  · exact Or.inl ⟨ht,if_pos ht⟩
  · right
    simp only [if_neg ht]
    by_cases hr : q.token.natAbs < cfg.maxBlockedOnQ-1
    · left
      have hroom : l.length+1 < cfg.maxBlockedOnQ := by omega
      refine ⟨by omega,hroom,{ q with
          token := q.token-1
          blockedProcs := Function.update q.blockedProcs q.inIdx (some k.activeThread)
          inIdx := succ cfg.maxBlockedOnQ q.inIdx },
        if timeout = 0 then none else some (succ cfg.maxBlockedOnQ q.inIdx),
        ?_,?_,⟨h.holds.push hroom k.activeThread,?_⟩,⟨rfl,rfl,rfl,rfl,rfl,rfl⟩,rfl⟩
      · rw [if_pos hr]
      · split <;> simp_all
      · simp only [List.length_append,List.length_singleton]
        omega
    · exact Or.inr ⟨by omega,by omega,if_neg hr⟩

/-- The FIFO loop takes threads from the front, up to the first one that still waits. -/
theorem Itc.Queued.popBlocked (h : q.Queued l) {fuel : ℕ} (hl : l ≠ [])
    (hf : l.length ≤ fuel) : Spec (popBlocked k fuel q) (fun r => ∃ pre post,
      l = pre ++ r.1 :: post ∧ r.2.Queued post ∧ q.SameBody r.2 ∧ r.2.token = -post.length ∧
      (∀ t ∈ pre, (k.pool t).state.has .queue = false) ∧
      ((k.pool r.1).state.has .queue = true ∨ post = [])) (fun _ => False) := by
  induction fuel generalizing q l with
  | zero => exact absurd (List.length_pos_of_ne_nil hl) (by omega)
  | succ fuel ih =>
    cases l with
    | nil => exact absurd rfl hl
    | cons t l =>
      have hp : q.proc q.outIdx = .ok t := by simp [Itc.proc,h.holds.head]
      have hlen := h.length
      simp only [List.length_cons] at hlen hf
      have hq : Itc.Queued { q with
          outIdx := succ cfg.maxBlockedOnQ q.outIdx, token := q.token+1 } l :=
        ⟨h.holds.pop,by simp only; omega⟩
      have hb : q.SameBody { q with
          outIdx := succ cfg.maxBlockedOnQ q.outIdx, token := q.token+1 } :=
        ⟨rfl,rfl,rfl,rfl,rfl,rfl⟩
      simp only [Tinker.popBlocked,hp,spec_bind,spec_ok,spec_ite,spec_pure]
      refine ⟨fun hc => ?_,fun hc => ?_⟩
      · refine (ih hq (hq.token_neg.mp hc.2) (by omega)).imp ?_
        rintro r ⟨pre,post,he,hqr,hbr,htok,hpre,hor⟩
        refine ⟨t :: pre,post,by rw [he]; rfl,hqr,hb.trans hbr,htok,?_,hor⟩
        intro u hu
        obtain rfl | hu := List.mem_cons.mp hu
        · exact hc.1
        · exact hpre u hu
      · refine ⟨[],l,rfl,hq,hb,by omega,fun u hu => (by cases hu),?_⟩
        by_cases hqt : (k.pool t).state.has .queue = true
        · exact Or.inl hqt
        · right
          have : ¬q.token+1 < 0 := fun hlt => hc ⟨by simpa using hqt,hlt⟩
          exact List.eq_nil_of_length_eq_zero (by omega)

/-- `unlock_stage` on a FIFO object gives back a token or readies one thread. -/
theorem Itc.Queued.unlockStage (h : q.Queued l) (hfifo : q.flags &&& prior = 0) :
    Spec (unlockStage k q) (fun r =>
      l = [] ∧ r = (k,{ q with token := toInt32 (q.token+1) },false) ∨
      ∃ pre him post, l = pre ++ him :: post ∧ r.1 = readyByItc k him ∧ r.2.2 = true ∧
        r.2.1.Queued post ∧ q.SameBody r.2.1 ∧ r.2.1.token = -post.length ∧
        (∀ t ∈ pre, (k.pool t).state.has .queue = false) ∧
        ((k.pool him).state.has .queue = true ∨ post = [])) (fun _ => False) := by
  simp only [Tinker.unlockStage,spec_ite,spec_bind]
  refine ⟨fun hneg => ⟨fun hp => absurd hfifo hp,fun _ => ?_⟩,fun hpos => ?_⟩
  · have hlen := h.length
    refine (h.popBlocked (h.token_neg.mp hneg) (by omega)).imp ?_
    rintro ⟨him,q'⟩ ⟨pre,post,he,hq,hb,ht,hpre,hor⟩
    exact Or.inr ⟨pre,him,post,he,rfl,rfl,hq,hb,ht,hpre,hor⟩
  · refine Or.inl ⟨?_,rfl⟩
    by_contra hne
    exact hpos (h.token_neg.mpr hne)

/-- The threads of `l` that are not in `l'` had timed out, and are told so. -/
structure Dropped (k : Kernel cfg) (l l' : List (Thid cfg)) (k' : Kernel cfg) : Prop where
  sublist : l'.Sublist l
  gone : ∀ t ∈ l, t ∉ l' → (k.pool t).state = .ready ∧ (k.pool t).wakeupEvent = .timer
  pool : ∀ t, k'.pool t =
    if t ∈ l ∧ t ∉ l' then { k.pool t with wakeupEvent := .itc2 } else k.pool t
  rest : k' = { k with pool := k'.pool }

theorem Dropped.refl (k : Kernel cfg) (l : List (Thid cfg)) : Dropped k l l k where
  sublist := List.Sublist.refl l
  gone := fun _ h hn => absurd h hn
  pool := fun _ => (if_neg fun h => h.2 h.1).symm
  rest := rfl

theorem Dropped.trans {k1 k' : Kernel cfg} {l1 l' : List (Thid cfg)} (h : Dropped k l l1 k1)
    (h' : Dropped k1 l1 l' k') : Dropped k l l' k' where
  sublist := h'.sublist.trans h.sublist
  gone := by
    intro t ht hn
    by_cases h1 : t ∈ l1
    · have := h'.gone t h1 hn
      rw [h.pool,if_neg fun hc => hc.2 h1] at this
      exact this
    · exact h.gone t ht h1
  pool := by
    intro t
    rw [h'.pool,h.pool]
    by_cases h1 : t ∈ l1
    · have ht := h.sublist.subset h1
      by_cases hl : t ∈ l'
      · simp [h1,hl]
      · simp [h1,hl,ht]
    · have hl : t ∉ l' := fun hl => h1 (h'.sublist.subset hl)
      simp [h1,hl]
  rest := by rw [h'.rest,h.rest]

theorem mem_eraseIdx_iff (hnd : l.Nodup) {i : ℕ} (hi : i < l.length) (t : Thid cfg) :
    t ∈ l.eraseIdx i ↔ t ≠ l[i] ∧ t ∈ l := by
  rw [← hnd.erase_getElem i hi,hnd.mem_erase_iff]

theorem Dropped.one (hnd : l.Nodup) {i : ℕ} (hi : i < l.length)
    (ht : (k.pool l[i]).state = .ready ∧ (k.pool l[i]).wakeupEvent = .timer) :
    Dropped k l (l.eraseIdx i) (k.modTcb l[i] fun b => { b with wakeupEvent := .itc2 }) where
  sublist := List.eraseIdx_sublist l i
  gone := by
    intro t hm hn
    rw [mem_eraseIdx_iff hnd hi] at hn
    have : t = l[i] := by tauto
    rw [this]
    exact ht
  pool := by
    intro t
    have hmem := mem_eraseIdx_iff hnd hi t
    rw [Kernel.modTcb_pool]
    by_cases he : t = l[i]
    · subst he; simp [hmem]
    · by_cases hm : t ∈ l <;> simp [hmem,he,hm]
  rest := rfl

/-- The clean-up loop only takes threads out that have timed out themselves. -/
theorem Itc.Queued.dropTimedOut (h : q.Queued l) (hnd : l.Nodup) {fuel i : ℕ} (hi : i < l.length)
    (hf : l.length ≤ fuel+i) :
    Spec (dropTimedOut fuel (place cfg.maxBlockedOnQ q.outIdx i) k q)
      (fun r => ∃ l', r.2.Queued l' ∧ q.SameBody r.2 ∧ r.2.token ≤ 0 ∧ Dropped k l l' r.1)
      (fun _ => False) := by
  induction fuel generalizing k q l i with
  | zero => omega
  | succ fuel ih =>
    have hroom := h.holds.room
    have hinn := h.holds.inn_eq
    have hneg := h.token_neg.mpr (List.ne_nil_of_length_pos (Nat.zero_lt_of_lt hi))
    simp only [Tinker.dropTimedOut,h.proc_place hi,spec_bind,spec_ok]
    by_cases hc : (k.pool l[i]).state = .ready ∧ (k.pool l[i]).wakeupEvent = .timer
    · obtain ⟨hq,hb,htok,hout,hlast⟩ := h.remove hi
      have hd := Dropped.one hnd hi hc
      have hel := List.length_eraseIdx_of_lt hi
      simp only [if_pos hc,spec_ite,spec_pure]
      have hle : (itcRemoveBlocked q (place cfg.maxBlockedOnQ q.outIdx i)).token ≤ 0 := by omega
      have hstop := And.intro hq (And.intro hb (And.intro hle hd))
      refine ⟨fun _ => ⟨_,hstop⟩,fun hne => ⟨fun hgo => ?_,fun _ => ⟨_,hstop⟩⟩⟩
      -- after the first thread the next one is in front, else the next one is skipped
      have hnext : succ cfg.maxBlockedOnQ (place cfg.maxBlockedOnQ q.outIdx i) =
          place cfg.maxBlockedOnQ (itcRemoveBlocked q (place cfg.maxBlockedOnQ q.outIdx i)).outIdx
            (if i = 0 then 0 else i+1) := by
        rw [hout]
        split
        · next h0 => subst h0; rw [place_succ,succ_place]
        · exact succ_place _ _ _
      have hlt : (if i = 0 then 0 else i+1) < (l.eraseIdx i).length := by
        have hnl := hgo.2
        rw [hnext,hq.holds.inn_eq] at hnl
        have hle : (if i = 0 then 0 else i+1) ≤ (l.eraseIdx i).length := by
          split
          · exact Nat.zero_le _
          · next h0 =>
            by_contra hgt
            exact hne (hlast (by omega) h0).symm
        exact lt_of_le_of_ne hle fun he => hnl (by rw [he])
      rw [hnext]
      refine (ih hq (hnd.sublist (List.eraseIdx_sublist l i)) hlt ?_).imp ?_
      · split <;> omega
      · rintro r ⟨l',hq',hb',ht',hd'⟩
        exact ⟨l',hq',hb.trans hb',ht',hd.trans hd'⟩
    · simp only [if_neg hc,spec_ite,spec_pure]
      have hself : ∃ l', q.Queued l' ∧ q.SameBody q ∧ q.token ≤ 0 ∧ Dropped k l l' k :=
        ⟨l,h,Itc.SameBody.refl q,hneg.le,Dropped.refl k l⟩
      refine ⟨fun _ => hself,fun _ => ⟨fun hgo => ?_,fun _ => hself⟩⟩
      have hnl := hgo.2
      rw [succ_place] at hnl ⊢
      refine ih h hnd (i:=i+1) ?_ (by omega)
      rw [hinn] at hnl
      exact lt_of_le_of_ne hi fun he => hnl (by rw [← he])

/-- A timed wait that ends. Nothing happens unless the thread has timed out while others wait;
then it must find its own entry under the index it remembers. -/
theorem Itc.Queued.lockStageWoken (h : q.Queued l) (hnd : l.Nodup) {markIdx : ℕ}
    (hown : (k.pool k.activeThread).wakeupEvent = .timer → q.token < 0 →
      ∃ i, ∃ hi : i < l.length, pred cfg.maxBlockedOnQ markIdx = place cfg.maxBlockedOnQ q.outIdx i ∧
        l[i] = k.activeThread) :
    Spec (lockStageWoken k q markIdx)
      (fun r => r.1 = k ∧ r.2.1 = q ∧ ((k.pool k.activeThread).wakeupEvent = .timer → l = []) ∨
        ∃ l', r.2.1.Queued l' ∧ q.SameBody r.2.1 ∧ r.2.1.token ≤ 0 ∧
          Dropped k (l.erase k.activeThread) l' r.1)
      (fun _ => False) := by
  unfold Tinker.lockStageWoken
  split
  · next hev =>
    simp only [spec_ite,spec_ok,spec_bind,spec_pure]
    refine ⟨fun htok => Or.inl ⟨trivial,trivial,fun _ => ?_⟩,fun htok => ?_⟩
    · by_contra hne
      have := h.token_neg.mpr hne
      omega
    · obtain ⟨i,hi,hp,ha⟩ := hown hev (by omega)
      obtain ⟨hq,hb,ht,_,_⟩ := h.remove hi
      rw [hp,← ha,hnd.erase_getElem i hi]
      have hnd' := hnd.sublist (List.eraseIdx_sublist l i)
      refine ⟨fun _ => Or.inr ⟨_,hq,hb,by omega,Dropped.refl k _⟩,fun hneg => ?_⟩
      have hne := List.length_pos_of_ne_nil (hq.token_neg.mp (by omega))
      have hzero := place_zero hq.holds.out_lt
      rw [← hzero]
      refine (hq.dropTimedOut hnd' hne ?_).imp ?_
      · exact hq.holds.room.le.trans (Nat.le_mul_of_pos_right _ (Nat.succ_pos _))
      · rintro r ⟨l',hq',hb',ht',hd⟩
        exact Or.inr ⟨l',hq',hb.trans hb',ht',hd⟩
  · next hev => exact Or.inl ⟨rfl,rfl,fun he => by rw [hev] at he; cases he⟩
  · next hev _ => exact Or.inl ⟨rfl,rfl,fun he => absurd he hev⟩

end

/-! ### The state words of the blocked threads -/

theorem Alive.readyByItc {k : Kernel cfg} (h : Alive k) (t : Thid cfg) : Alive (readyByItc k t) := by
  refine h.modTcb fun hv => ?_
  simp only [ProcState.clear_queueSleepTerm_has_zombi]
  exact h t hv

/-- The threads of `l` are those the object has blocked, by an untimed call or by a timed one;
one whose time is out stays in the ring until it runs. -/
structure Waiting (k : Kernel cfg) (l : List (Thid cfg)) (untimed timed : Thid cfg → Prop) :
    Prop where
  nodup : l.Nodup
  queued : ∀ t, (k.pool t).state.has .queue = true → t ∈ l
  entry : ∀ t ∈ l, (k.pool t).state = .queue ∧ untimed t ∨
    timed t ∧ ((k.pool t).state = .queueSleep ∨
      (k.pool t).state = .ready ∧ (k.pool t).wakeupEvent = .timer)

section

variable {k k' : Kernel cfg} {l l' : List (Thid cfg)} {untimed timed : Thid cfg → Prop}

theorem Waiting.mono {untimed' timed' : Thid cfg → Prop} (h : Waiting k l untimed timed)
    (hp : k'.pool = k.pool) (hu : ∀ t ∈ l, untimed t → untimed' t)
    (ht : ∀ t ∈ l, timed t → timed' t) : Waiting k' l untimed' timed' where
  nodup := h.nodup
  queued := by rw [hp]; exact h.queued
  entry := by
    intro t hm
    rw [hp]
    exact (h.entry t hm).imp (fun h => ⟨h.1,hu t hm h.2⟩) fun h => ⟨ht t hm h.1,h.2⟩

/-- The consistency check counts every thread of the ring. -/
theorem Waiting.counted (h : Waiting k l untimed timed) :
    ∀ t ∈ l, (k.pool t).state.has .queue = true ∨ (k.pool t).state = .ready := by
  intro t ht
  obtain ⟨hs,_⟩ | ⟨_,hs | ⟨hs,_⟩⟩ := h.entry t ht
  · exact Or.inl (by rw [hs]; decide)
  · exact Or.inl (by rw [hs]; decide)
  · exact Or.inr hs

/-- A ready thread is in the ring only when its time is out. -/
theorem Waiting.ready (h : Waiting k l untimed timed) {t : Thid cfg} (ht : t ∈ l)
    (hr : (k.pool t).state = .ready) : timed t ∧ (k.pool t).wakeupEvent = .timer := by
  obtain ⟨hs,_⟩ | ⟨htime,hs | ⟨_,he⟩⟩ := h.entry t ht
  · rw [hr] at hs; exact absurd hs (by decide)
  · rw [hr] at hs; exact absurd hs (by decide)
  · exact ⟨htime,he⟩

theorem Waiting.sweep {clk : Clock} (h : Waiting k l untimed timed)
    (hp : ∀ t, k'.pool t = k.pool t ∨ k'.pool t = timerTest clk (k.pool t)) :
    Waiting k' l untimed timed where
  nodup := h.nodup
  queued := by
    intro t hq
    refine h.queued t ?_
    obtain ht | ht := hp t
    · rwa [ht] at hq
    · rw [ht,timerTest] at hq
      split at hq
      · rw [ProcState.clear_queueSleep_has_queue] at hq; cases hq
      · exact hq
  entry := by
    intro t hm
    obtain ht | ht := hp t
    · rw [ht]; exact h.entry t hm
    · rw [ht,timerTest]
      split
      · next hs =>
        obtain ⟨hq,_⟩ | ⟨htime,hq | ⟨hq,_⟩⟩ := h.entry t hm
        · simp [hq] at hs
        · exact Or.inr ⟨htime,Or.inr ⟨by simp only [hq]; decide,rfl⟩⟩
        · simp [hq] at hs
      · exact h.entry t hm

/-- The running thread queues up at the end. -/
theorem Waiting.block (h : Waiting k l untimed timed) (timeout clk : Clock)
    (ha : k.activeThread ∉ l) (hr : (k.pool k.activeThread).state = .ready)
    (hu : timeout = 0 → untimed k.activeThread) (ht : timeout ≠ 0 → timed k.activeThread) :
    Waiting (k.modTcb k.activeThread (goToSleep timeout clk)) (l ++ [k.activeThread])
      untimed timed where
  nodup := by
    rw [List.nodup_append]
    refine ⟨h.nodup,List.nodup_singleton _,?_⟩
    rintro t hm u hu rfl
    exact ha (List.mem_singleton.mp hu ▸ hm)
  queued := by
    intro t hq
    rw [Kernel.modTcb_pool] at hq
    split at hq
    · next he => simp [he]
    · exact List.mem_append_left _ (h.queued t hq)
  entry := by
    intro t hm
    rw [Kernel.modTcb_pool]
    obtain hm | hm := List.mem_append.mp hm
    · have hne : t ≠ k.activeThread := by rintro rfl; exact ha hm
      rw [if_neg hne]
      exact h.entry t hm
    · rw [List.mem_singleton.mp hm,if_pos rfl,goToSleep_state timeout clk hr]
      by_cases h0 : timeout = 0
      · rw [if_pos h0]; exact Or.inl ⟨rfl,hu h0⟩
      · rw [if_neg h0]; exact Or.inr ⟨ht h0,Or.inl rfl⟩

/-- The threads up to `him` leave the ring, and `him` is ready. -/
theorem Waiting.unlock {pre post : List (Thid cfg)} {him : Thid cfg}
    (h : Waiting k (pre ++ him :: post) untimed timed)
    (hpre : ∀ t ∈ pre, (k.pool t).state.has .queue = false) :
    Waiting (readyByItc k him) post untimed timed := by
  have hnd := h.nodup
  have hnd' := (List.nodup_append.mp hnd).2.1
  have hhim : him ∉ post := (List.nodup_cons.mp hnd').1
  refine ⟨(List.nodup_cons.mp hnd').2,fun t hq => ?_,fun t hm => ?_⟩
  · rw [readyByItc,Kernel.modTcb_pool] at hq
    split at hq
    · rw [ProcState.clear_queueSleepTerm_has_queue] at hq; cases hq
    · next hne =>
      have hm := h.queued t hq
      simp only [List.mem_append,List.mem_cons] at hm
      obtain hm | rfl | hm := hm
      · rw [hpre t hm] at hq; cases hq
      · exact absurd rfl hne
      · exact hm
  · have hne : t ≠ him := by rintro rfl; exact hhim hm
    rw [readyByItc,Kernel.modTcb_pool,if_neg hne]
    exact h.entry t (List.mem_append_right _ (List.mem_cons_of_mem _ hm))

theorem Waiting.dropped (h : Waiting k l untimed timed) (hd : Dropped k l l' k') :
    Waiting k' l' untimed timed := by
  have hold : ∀ t, (k'.pool t).state = (k.pool t).state := by
    intro t; rw [hd.pool]; split <;> rfl
  refine ⟨h.nodup.sublist hd.sublist,fun t hq => ?_,fun t hm => ?_⟩
  · rw [hold] at hq
    have hm := h.queued t hq
    by_contra hn
    rw [(hd.gone t hm hn).1] at hq
    simp at hq
  · rw [hd.pool,if_neg fun hc => hc.2 hm]
    exact h.entry t (hd.sublist.subset hm)

/-- A ready thread leaves the ring. -/
theorem Waiting.erase (h : Waiting k l untimed timed) {t : Thid cfg}
    (hr : (k.pool t).state = .ready) : Waiting k (l.erase t) untimed timed where
  nodup := h.nodup.erase t
  queued := by
    intro u hq
    refine (List.mem_erase_of_ne ?_).mpr (h.queued u hq)
    rintro rfl
    rw [hr] at hq
    simp at hq
  entry := fun u hm => h.entry u (List.mem_of_mem_erase hm)

end

end Tinker

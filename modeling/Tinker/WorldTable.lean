import Tinker.DeadRun
import Tinker.PrioSwitch
import Tinker.Simulation

/-! The schedule table in runs of the whole kernel. A thread is valid but not entered from the
first half of its creation to the second, whatever other threads do in between; all the others are
in the cells their control blocks name. -/
namespace Tinker

open Kernel Outcome

variable {cfg : Config} {numQ : ℕ}

/-- The rounds of `_tk_wakeup_timedout_threads`. -/
def sweepMachine (clk : Clock) : Machine (Kernel cfg) (Thid cfg) Fault where
  enabled := fun _ _ => true
  next := sweepThread clk

/-- The thread is in its cell and comes out clean. -/
def CleanExit (k : Kernel cfg) (t : Thid cfg) : Prop := InPlace k t ∧ CleanRemoval k t

/-- A thread that the sweep takes out of the table comes out clean. -/
def CleanReap (k : Kernel cfg) (i : Thid cfg) : Prop :=
  (k.pool i).valid = true → Reaps k i → CleanExit k i

/-- A thread that the step takes out of its row comes out clean, and a creation that ends finds its
own thread in `__tk_proc_idx`. -/
def OrderlyStep (w : World cfg numQ) : WorldLabel cfg numQ → Prop
  | .delete t => (w.kernel.pool t).valid = true → Buries w.kernel t → CleanExit w.kernel t
  | .changePrio t newPrio => newPrio ≠ (w.kernel.pool t).prio → CleanExit w.kernel t
  | .resume => ∀ r t, w.place w.me = .inCreate r t → w.kernel.procIdx = t
  | .yield _ => (sweepMachine w.clock).Along CleanReap w.kernel (List.finRange cfg.maxThreads)
  | _ => True

instance (k : Kernel cfg) (t : Thid cfg) : Decidable (InPlace k t) := instDecidableAnd

instance (k : Kernel cfg) (t : Thid cfg) : Decidable (CleanExit k t) := instDecidableAnd

instance (k : Kernel cfg) (i : Thid cfg) : Decidable (CleanReap k i) := by
  unfold CleanReap; infer_instance

instance (w : World cfg numQ) (l : WorldLabel cfg numQ) : Decidable (OrderlyStep w l) :=
  match l with
  | .delete _ => inferInstanceAs (Decidable (_ → _ → _))
  | .changePrio _ _ => inferInstanceAs (Decidable (_ → _))
  | .yield _ => Machine.decidableAlong _ CleanReap _ _
  | .resume => match h : w.place w.me with
    | .inCreate _ t => decidable_of_iff (w.kernel.procIdx = t)
        ⟨fun ht r' t' hp => by rw [h] at hp; cases hp; exact ht,fun hp => hp _ t h⟩
    | .user | .returning | .ended | .inTake _ _ | .inSend _ _ | .inJoin _ _ | .inWait _
    | .inSignal _ => isTrue fun r t hp => by rw [h] at hp; cases hp
  | .createItc _ _ | .deleteItc _ _ | .destructItc | .take _ _ _ _ _ | .give _ _ | .lock _
  | .unlock _ | .wait _ _ | .signal _ | .broadcast _ | .create _ | .exit _ | .join _ | .msleep _
  | .advance _ => isTrue trivial

/-! ### The steps that leave the table alone -/

section

variable {k k' : Kernel cfg} {t : Thid cfg}

theorem goToSleep_sameTable {timeout clk : Clock} :
    SameTable k (k.modTcb t (goToSleep timeout clk)) := by
  apply SameTable.modTcb
  intro b
  unfold goToSleep
  split <;> exact ⟨rfl,rfl,rfl⟩

theorem readyByItc_sameTable : SameTable k (readyByItc k t) :=
  SameTable.modTcb _ _ _ fun _ => ⟨rfl,rfl,rfl⟩

theorem tkMsleep_sameTable {ms : BitVec 32} {clk : Clock} : SameTable k (tkMsleep k ms clk) :=
  SameTable.modTcb _ _ _ fun _ => ⟨rfl,rfl,rfl⟩

theorem tkDestructor_sameTable {retval : ℕ} {clk : Clock} :
    SameTable k (tkDestructor k retval clk) := by
  have hdies : SameTable k
      (k.modTcb k.activeThread fun b => { b with state := .zombi, retval := retval }) :=
    SameTable.modTcb _ _ _ fun _ => ⟨rfl,rfl,rfl⟩
  exact (hdies.trans (tkDetachChildren_sameTable _ _)).trans tkMsleep_sameTable

theorem SyncMoves.sameTable (h : SyncMoves k k') : SameTable k k' := by
  induction h with
  | refl => exact SameTable.refl k
  | tail hpre hs ih =>
    apply ih.trans
    cases hs with
    | blocks r => exact SameTable.modTcb _ _ _ fun _ => ⟨rfl,rfl,rfl⟩
    | unblocks t => exact SameTable.modTcb _ _ _ fun _ => ⟨rfl,rfl,rfl⟩

theorem DropsTimedOut.sameTable (h : DropsTimedOut k k') : SameTable k k' := by
  refine ⟨?_,?_,?_,?_,?_,fun t => ?_⟩
  · rw [h.rest]
  · rw [h.rest]
  · rw [h.rest]
  · rw [h.rest]
  · rw [h.rest]
  · obtain ht | ⟨_,ht⟩ := h.pool t
    · rw [ht]; exact ⟨rfl,rfl,rfl⟩
    · rw [ht]; exact ⟨rfl,rfl,rfl⟩

/-- The deletion of a thread whose parent has still to be told takes nothing out of the table. -/
theorem tkDeleteThread_sameTable (hb : (k.pool t).valid = true → ¬Buries k t) :
    Spec (tkDeleteThread k t) (fun r => SameTable k r.1)
      (fun e => e = .assertParent ∨ e = .assertNoChilds) := by
  unfold tkDeleteThread
  rw [spec_ite]
  refine ⟨fun _ => SameTable.refl k,fun hv => ?_⟩
  have hb := hb (by simpa using hv)
  rw [spec_bind]
  refine (killThread_spec k t).imp ?_
  rintro ⟨k1,buryIt⟩ ⟨hs,hburied⟩
  cases buryIt with
  | false => exact hs
  | true => exact absurd (hburied rfl) hb

theorem tkChangePrio_sameTable {newPrio : ℤ} (hp : newPrio = (k.pool t).prio) :
    Spec (tkChangePrio k t newPrio) (fun r => SameTable k r.1) (fun _ => True) := by
  simp only [tkChangePrio,Kernel.readProcs,spec_bind,spec_ite,spec_ok,spec_check,spec_pure]
  refine ⟨fun _ => ⟨fun _ => ⟨fun _ => ⟨fun _ => SameTable.refl k,fun hne => ?_⟩,fun _ => trivial⟩,
    fun _ => trivial⟩,fun _ => trivial⟩
  rw [hp] at hne
  exact absurd (Int.toNat_natCast _).symm hne

/-- The second half of a creation ends only where the row has room. -/
theorem tkCreateThreadEnd_room {r : ThreadReq} : Spec (tkCreateThreadEnd k r t)
    (fun _ => r.prio < cfg.maxPrioLevels ∧ k.procs r.prio < cfg.maxThreadsAtPrio)
    (fun _ => True) := by
  simp only [tkCreateThreadEnd,Kernel.readProcs,Kernel.writeCell,spec_bind,spec_ite,spec_ok,
    spec_pure]
  exact ⟨fun _ => ⟨fun hcell => hcell,fun _ => trivial⟩,fun _ => trivial⟩

end

/-- The steps that may take a thread out of the table or enter one. -/
def World.reschedules (w : World cfg numQ) : WorldLabel cfg numQ → Bool
  | .create _ | .delete _ | .changePrio _ _ | .yield _ => true
  | .resume =>
    match w.place w.me with
    | .inCreate _ _ => true
    | _ => false
  | _ => false

section

variable {w w' : World cfg numQ} {l : WorldLabel cfg numQ} {out : Finset (Thid cfg)}

/-- The creations in progress behind a step are some of those before it. -/
def World.BuildsLess (w w' : World cfg numQ) : Prop :=
  ∀ c r t, w'.place c = .inCreate r t → w.place c = .inCreate r t

theorem World.buildsLess_after {s : Sync cfg} {st : ItcStore cfg numQ} {evs : List (Event cfg numQ)}
    {x : Place cfg numQ} {y : Bool} (hx : ∀ r t, x ≠ .inCreate r t) :
    w.BuildsLess (w.after s st evs x y) := by
  intro c r t hc
  simp only [World.after,Function.update_apply] at hc
  split at hc
  · exact absurd hc (hx r t)
  · exact hc

theorem SyncPlace.not_inCreate {x : Place cfg numQ} {y : Bool} (h : SyncPlace x y) (r : ThreadReq)
    (t : Thid cfg) : x ≠ .inCreate r t := by
  rintro rfl
  obtain ⟨_,h⟩ | ⟨_,h | ⟨_,h⟩ | ⟨_,h⟩⟩ := h <;> cases h

/-- All other steps leave the table as it is, and begin no creation. -/
theorem World.Does.sameTable (h : w.Does l w') (hl : w.reschedules l = false) :
    SameTable w.kernel w'.kernel ∧ w.BuildsLess w' := by
  have hsame : ∀ st gen, SameTable w.kernel w.kernel ∧
      w.BuildsLess { w with store := st, gen := gen } :=
    fun st gen => ⟨SameTable.refl _,fun _ _ _ hc => hc⟩
  cases h with
  | @createItc r granted hr =>
    obtain ⟨st,gen,he⟩ := w.createItc_frame r granted
    rw [he]
    exact hsame st gen
  | deleteItc hr hst => exact hsame _ _
  | destructItc hr hst => exact hsame _ _
  | takes hr hst he hd => exact ⟨SameTable.refl _,World.buildsLess_after fun _ _ => by rintro ⟨⟩⟩
  | blocks hr hst ho hm =>
    exact ⟨goToSleep_sameTable,World.buildsLess_after fun _ _ => by rintro ⟨⟩⟩
  | gives hr hs hst hev hx =>
    constructor
    · obtain ⟨rfl,_⟩ | ⟨t,_,rfl,_⟩ := hs
      · exact SameTable.refl _
      · exact readyByItc_sameTable
    · apply World.buildsLess_after
      rintro r t rfl
      obtain ⟨_,hx⟩ | ⟨_,hx | hx⟩ := hx <;> cases hx
  | syncs hsync hr hs hx => exact ⟨hs.moves.sameTable,World.buildsLess_after hx.not_inCreate⟩
  | creates => cases hl
  | exits => exact ⟨tkDestructor_sameTable,World.buildsLess_after fun _ _ => by rintro ⟨⟩⟩
  | deletes => cases hl
  | joins hr ht hz hk =>
    exact ⟨((tkTryDetachParent_sameTable _ _ true).of_ok hk).1,fun _ _ _ hc => hc⟩
  | joinFails => exact ⟨SameTable.refl _,fun _ _ _ hc => hc⟩
  | joinWaits =>
    refine ⟨SameTable.modTcb _ _ _ fun _ => ⟨rfl,rfl,rfl⟩,World.buildsLess_after fun _ _ => ?_⟩
    rintro ⟨⟩
  | msleeps => exact ⟨tkMsleep_sameTable,World.buildsLess_after fun _ _ => by rintro ⟨⟩⟩
  | changesPrio => cases hl
  | returns => exact ⟨SameTable.refl _,World.buildsLess_after fun _ _ => by rintro ⟨⟩⟩
  | takeEnds hy hp hd => exact ⟨hd.sameTable,World.buildsLess_after fun _ _ => by rintro ⟨⟩⟩
  | joinEnds => exact ⟨SameTable.refl _,World.buildsLess_after fun _ _ => by rintro ⟨⟩⟩
  | createEnds hy hp =>
    simp only [World.reschedules,hp] at hl
    cases hl
  | syncEnds hy hp hs hx => exact ⟨hs.moves.sameTable,World.buildsLess_after hx.not_inCreate⟩
  | yields => cases hl
  | advances => exact ⟨SameTable.refl _,fun _ _ _ hc => hc⟩

/-! ### The invariant -/

/-- The table is well formed but for the threads `out`, and every creation in progress has one of
them for its own. -/
structure TableInv (w : World cfg numQ) (out : Finset (Thid cfg)) : Prop where
  table : ScheduleInv w.kernel out
  building : ∀ c r t, w.place c = .inCreate r t → t ∈ out ∧ (w.kernel.pool t).prio = r.prio
  apart : ∀ c c' r r' t, w.place c = .inCreate r t → w.place c' = .inCreate r' t → c = c'

/-- Threads in their cells are entered. -/
theorem ScheduleInv.not_out {k : Kernel cfg} {t : Thid cfg} (h : ScheduleInv k out)
    (ht : InPlace k t) : t ∉ out := by
  have hlive := (h.live _ _ ht.1).2.2.2
  rwa [ht.2] at hlive

theorem TableInv.congr (h : TableInv w out) (hk : ScheduleInv w'.kernel out)
    (hp : ∀ t, (w'.kernel.pool t).prio = (w.kernel.pool t).prio) (hb : w.BuildsLess w') :
    TableInv w' out where
  table := hk
  building := fun c r t hc => by
    rw [hp t]
    exact h.building c r t (hb c r t hc)
  apart := fun c c' r r' t hc hc' => h.apart c c' r r' t (hb c r t hc) (hb c' r' t hc')

theorem TableInv.same (h : TableInv w out) (hk : SameTable w.kernel w'.kernel)
    (hb : w.BuildsLess w') : TableInv w' out :=
  h.congr (hk.inv h.table) (fun t => (hk.pool t).2.1) hb

/-- A new thread is out of the table, and its creation in progress. -/
theorem TableInv.create (h : TableInv w out) {r : ThreadReq} {k : Kernel cfg} {t : Thid cfg}
    (hb : Begun w.kernel r k t) : TableInv (w.created r k t) (insert t out) := by
  obtain ⟨hi,_,_,hto,hprio,_⟩ := hb.inv h.table
  have hcase : ∀ {c r' t'}, (w.created r k t).place c = .inCreate r' t' →
      c = w.me ∧ r' = r ∧ t' = t ∨ w.place c = .inCreate r' t' := by
    intro c r' t' hc
    simp only [World.created,Function.update_apply] at hc
    split at hc
    · cases hc
    · split at hc
      · next hme => cases hc; exact Or.inl ⟨hme,rfl,rfl⟩
      · exact Or.inr hc
  have hne : ∀ {c r' t'}, w.place c = .inCreate r' t' → t' ≠ t := by
    rintro c r' t' hc rfl
    exact hto (h.building _ _ _ hc).1
  refine ⟨hi,fun c r' t' hc => ?_,fun c c' r1 r2 x hc hc' => ?_⟩
  · obtain ⟨_,rfl,rfl⟩ | hc := hcase hc
    · exact ⟨Finset.mem_insert_self _ _,hprio⟩
    · obtain ⟨hm,hp⟩ := h.building _ _ _ hc
      refine ⟨Finset.mem_insert_of_mem hm,?_⟩
      rw [← hp]
      simp only [World.created,hb.pool,if_neg (hne hc)]
      split <;> rfl
  · obtain ⟨hme,_,rfl⟩ | hc := hcase hc <;> obtain ⟨hme',_,ht⟩ | hc' := hcase hc'
    · exact hme.trans hme'.symm
    · exact absurd rfl (hne hc')
    · exact absurd ht (hne hc)
    · exact h.apart _ _ _ _ _ hc hc'

/-- A creation that ends enters its own thread, which is in no other creation. -/
theorem TableInv.finish (h : TableInv w out) {r : ThreadReq} {k : Kernel cfg} {t v : Thid cfg}
    (hp : w.place w.me = .inCreate r t) (ht : w.kernel.procIdx = t)
    (hk : tkCreateThreadEnd w.kernel r t = .ok (k,v)) :
    TableInv (w.after { w.toSync with kernel := k } w.store [] .user false) (out.erase t) := by
  obtain ⟨hto,hprio⟩ := h.building _ _ _ hp
  -- the call has written to its cell, so the row had room
  have hroom := tkCreateThreadEnd_room.of_ok hk
  subst ht
  obtain ⟨hi,_,_,_,_,hpool⟩ := (tkCreateThreadEnd_spec h.table hto hroom.1 hroom.2 hprio).of_ok hk
  have hless : w.BuildsLess (w.after { w.toSync with kernel := k } w.store [] .user false) :=
    World.buildsLess_after fun _ _ => by rintro ⟨⟩
  refine ⟨hi,fun c r' t' hc => ?_,fun c c' r1 r2 x hc hc' => ?_⟩
  · obtain ⟨hm,hp'⟩ := h.building _ _ _ (hless _ _ _ hc)
    have hne : t' ≠ w.kernel.procIdx := by
      rintro rfl
      have hme := h.apart _ _ _ _ _ (hless _ _ _ hc) hp
      rw [hme,World.after_place_me] at hc
      cases hc
    refine ⟨Finset.mem_erase.mpr ⟨hne,hm⟩,?_⟩
    rw [← hp']
    exact congrArg Tcb.prio ((hpool t').trans (if_neg hne))
  · exact h.apart _ _ _ _ _ (hless _ _ _ hc) (hless _ _ _ hc')

/-- What a clean sweep keeps. -/
theorem ScheduleInv.sweep {k : Kernel cfg} (h : ScheduleInv k out) {clk : Clock}
    (hc : (sweepMachine clk).Along CleanReap k (List.finRange cfg.maxThreads)) :
    Spec (tkWakeupTimedoutThreads k clk) (fun k' => ScheduleInv k' out ∧
      ∀ t, (k'.pool t).prio = (k.pool t).prio) (fun e => e = .assertParent ∨ e = .assertNoChilds) := by
  refine (sweepMachine clk).spec_foldlM_along (fun _ _ => rfl) (fun s i hs hc => ?_)
    ⟨h,fun _ => rfl⟩ hc
  obtain ⟨hi,hp⟩ := hs
  by_cases hr : (s.pool i).valid = true ∧ Reaps s i
  · obtain ⟨hin,hclean⟩ := hc hr.1 hr.2
    have hno := hi.not_out hin
    refine (sweepThread_spec clk hi (fun hm => absurd hm hno) fun _ => hclean).imp ?_
    rintro s' ⟨hi',hs⟩
    exact ⟨hi',fun t => (hs.prio t).trans (hp t)⟩
  · refine (sweepThread_sameTable clk fun hv hreaps => hr ⟨hv,hreaps⟩).imp fun s' hs => ?_
    exact ⟨hs.inv hi,fun t => (hs.pool t).2.1.trans (hp t)⟩

/-- An orderly step keeps the table well formed but for the threads under construction. -/
theorem TableInv.step (h : TableInv w out) (ho : OrderlyStep w l) (hd : w.Does l w') :
    ∃ out', TableInv w' out' := by
  by_cases hl : w.reschedules l = false
  · obtain ⟨hs,hb⟩ := hd.sameTable hl
    exact ⟨out,h.same hs hb⟩
  cases hd with
  | creates hr hk => exact ⟨_,h.create ((tkCreateThreadBegin_begun _ _).of_ok hk)⟩
  | @deletes t k ok hr hk =>
    refine ⟨out,?_⟩
    by_cases hb : (w.kernel.pool t).valid = true ∧ Buries w.kernel t
    · obtain ⟨hin,hclean⟩ := ho hb.1 hb.2
      obtain ⟨hi,hs⟩ := (tkDeleteThread_spec h.table (h.table.not_out hin) fun _ => hclean).of_ok hk
      exact h.congr hi hs.prio fun _ _ _ hc => hc
    · have hs := (tkDeleteThread_sameTable fun hv hburies => hb ⟨hv,hburies⟩).of_ok hk
      exact h.same hs fun _ _ _ hc => hc
  | @changesPrio t p k y hr hk =>
    refine ⟨out,?_⟩
    obtain ⟨hpos,hlt,hpool⟩ := tkChangePrio_pool.of_ok hk
    by_cases hp : p = (w.kernel.pool t).prio
    · exact h.same ((tkChangePrio_sameTable hp).of_ok hk) fun _ _ _ hc => hc
    · obtain ⟨hin,hclean⟩ := ho hp
      have hno := h.table.not_out hin
      have hi := (tkChangePrio_spec h.table hno hpos (by omega) fun _ => hclean).of_ok hk
      refine ⟨hi,fun c r x hc => ?_,h.apart⟩
      obtain ⟨hm,hprio⟩ := h.building c r x hc
      obtain ⟨i,hi⟩ := hpool x
      have hne : x ≠ t := fun he => hno (he ▸ hm)
      have hx : (k.pool x).prio = (w.kernel.pool x).prio := by
        have := congrArg Tcb.prio hi
        rwa [if_neg hne] at this
      exact ⟨hm,hx.trans hprio⟩
  | @createEnds r t k v hy hp hk => exact ⟨_,h.finish hp (ho r t hp) hk⟩
  | @yields t k hy hr hk =>
    obtain ⟨hi,hp⟩ := (h.table.sweep ho).of_ok hk
    refine ⟨out,?_⟩
    exact h.congr (hi.congr rfl rfl rfl fun _ => ⟨rfl,rfl,rfl⟩) hp fun _ _ _ hc => hc
  | syncs hsync =>
    cases l <;> first | exact absurd rfl hl | cases hsync
  | returns hy hp =>
    simp only [World.reschedules] at hl
    obtain hp | ⟨qid,gen,hp⟩ := hp
    · simp [hp] at hl
    · simp [hp] at hl
  | takeEnds hy hp => simp [World.reschedules,hp] at hl
  | joinEnds hy hp => simp [World.reschedules,hp] at hl
  | syncEnds hy hp =>
    obtain ⟨c,hp⟩ | ⟨c,hp⟩ := hp
    · simp [World.reschedules,hp] at hl
    · simp [World.reschedules,hp] at hl
  | _ => exact absurd rfl hl

end

end Tinker

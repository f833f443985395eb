import Tinker.Moves

/-! Cancelling threads in the whole kernel. `tk_delete_thread` touches no ring and no list, so a
thread that is blocked when it is deleted stays in line, and a later hand-over can go to it. -/
namespace Tinker

open Kernel Outcome Counted

variable {cfg : Config} {numQ : ℕ}

/-- The thread that `_mutex_unlock_primitive` passes the mutex on to. -/
def Sync.heir (s : Sync cfg) (r : MutexRef) : Option (Thid cfg) :=
  ((List.range (s.mux r).numb).mapM (s.mux r).read).toOption.bind fun ts =>
    (scan (fun t => (s.kernel.pool t).prio) ts 0 none cfg.maxPrioLevels).bind fun j =>
      ((s.mux r).read j).toOption

section

variable {k k' : Kernel cfg} {q : Itc cfg} {t : Thid cfg}

variable {s s' : Sync cfg} {r : MutexRef}

/-- An unlock makes the heir the owner. -/
theorem mutexUnlockPrimitive_heir : Spec (mutexUnlockPrimitive s r false)
    (fun p => p.2 = true → ∃ t, s.heir r = some t ∧ (p.1.mux r).owner = .thread t)
    (fun _ => True) := by
  simp only [mutexUnlockPrimitive,spec_ite,spec_ok,spec_bind,spec_check,spec_pure,Sync.heir]
  refine ⟨fun _ => ⟨fun _ => (by rintro ⟨⟩),fun _ => trivial⟩,fun _ => ⟨fun _ => (by rintro ⟨⟩),fun _ =>
    ⟨fun h => absurd h Bool.false_ne_true,fun _ => ?_⟩⟩⟩
  cases (List.range (s.mux r).numb).mapM (s.mux r).read with
  | error e => trivial
  | ok ts =>
    simp only [spec_ok,Except.toOption,Option.bind_some]
    split
    · trivial
    · next j hj =>
      rw [hj,spec_bind]
      cases hr : (s.mux r).read j with
      | error e => trivial
      | ok t =>
        simp only [spec_ok,spec_bind,spec_pure]
        refine closeGap_from.imp fun thread _ _ => ⟨t,?_,?_⟩
        · rw [Option.bind_some,hr]
        · simp [Sync.setMux]

end

/-! ### What no cell refers to -/

section

variable {w w' : World cfg numQ} {l : WorldLabel cfg numQ} {t : Thid cfg}

/-- A thread gets into a ring or a list by its own steps only, and nobody owns a mutex but by being
in its list or by locking it. -/
structure World.Keeps (w w' : World cfg numQ) (x : Thid cfg) : Prop where
  slots : ∀ qid, ∀ o' ∈ w'.store.array qid, ∀ i u, o'.blockedProcs i = some u →
    u = x ∨ ∃ o ∈ w.store.array qid, ∃ j, o.blockedProcs j = some u
  cells : ∀ r i u, (w'.mux r).thread i = some u → u = x ∨ ∃ j, (w.mux r).thread j = some u
  owner : ∀ r u, (w'.mux r).owner = .thread u → u = x ∨ (w.mux r).owner = .thread u ∨
    ∃ j, (w.mux r).thread j = some u

theorem World.Keeps.of_slots {x : Thid cfg} (hm : w'.mux = w.mux)
    (hs : w.store.SameSlots x w'.store) : w.Keeps w' x where
  slots := by
    intro qid o' ho' i u hu
    obtain ⟨o,ho,hc⟩ := hs.cells qid o' ho'
    obtain he | hj := hc.cells i u hu
    · exact Or.inl he
    · exact Or.inr ⟨o,ho,hj⟩
  cells := fun r i u hu => Or.inr ⟨i,by rw [← hm]; exact hu⟩
  owner := fun r u hu => Or.inr (Or.inl (by rw [← hm]; exact hu))

theorem World.Keeps.of_sync {x : Thid cfg} (hs : w'.store = w.store)
    (hg : w.toSync.Goes x w'.toSync) : w.Keeps w' x where
  slots := fun qid o' ho' i u hu => Or.inr ⟨o',by rw [← hs]; exact ho',i,hu⟩
  cells := hg.cells
  owner := hg.owner

/-- The cells of new and of deleted objects are empty. -/
theorem World.Keeps.of_fresh {x : Thid cfg} (hm : w'.mux = w.mux)
    (hs : ∀ qid, ∀ o' ∈ w'.store.array qid, o' ∈ w.store.array qid ∨
      ∀ i, o'.blockedProcs i = none) : w.Keeps w' x where
  slots := by
    intro qid o' ho' i u hu
    obtain ho | hn := hs qid o' ho'
    · exact Or.inr ⟨o',ho,i,hu⟩
    · rw [hn] at hu
      cases hu
  cells := fun r i u hu => Or.inr ⟨i,by rw [← hm]; exact hu⟩
  owner := fun r u hu => Or.inr (Or.inl (by rw [← hm]; exact hu))

theorem ItcReq.obj_cells (r : ItcReq) (i : ℕ) : (r.obj : ItcObj cfg).blockedProcs i = none := by
  cases r <;> rfl

theorem World.createItc_keeps (r : ItcReq) (granted : Bool) (x : Thid cfg) :
    w.Keeps (w.createItc r granted) x := by
  obtain ⟨i,_,hc⟩ | ⟨i,e,he,hc⟩ := w.store.create_spec (r.obj : ItcObj cfg) granted
  · refine .of_fresh (by simp only [World.createItc,hc]; rfl) fun qid o' ho' => ?_
    simp only [World.createItc,hc,World.setStore,Function.update_apply] at ho'
    split at ho'
    · cases ho'
      exact Or.inr (ItcReq.obj_cells r)
    · exact Or.inl ho'
  · have hw : w.createItc r granted = w.setStore { w.store with idx := i } := by
      unfold World.createItc
      rw [hc]
      cases e with
      | ok => exact absurd rfl he
      | _ => rfl
    rw [hw]
    exact .of_fresh rfl fun _ _ => Or.inl

theorem World.Does.keeps (h : w.Does l w') {x : Thid cfg} (hx : w.blocks l = true → x = w.me) :
    w.Keeps w' x := by
  have hself : ∀ {w' : World cfg numQ}, w'.mux = w.mux → w'.store = w.store → w.Keeps w' x :=
    fun hm hs => .of_slots hm (by rw [hs]; exact .refl _ _)
  cases h with
  | createItc hr => exact World.createItc_keeps _ _ x
  | @deleteItc op qid st hr hst =>
    refine .of_fresh rfl fun q o' ho' => ?_
    have ho' : o' ∈ st.array q := ho'
    rw [hst.1,Function.update_apply] at ho'
    split at ho'
    · cases ho'
    · exact Or.inl ho'
  | destructItc hr hst =>
    refine .of_fresh rfl fun q o' ho' => Or.inl ?_
    rw [← hst]
    exact ho'
  | takes hr hst he hd =>
    rw [hx rfl]
    exact .of_slots rfl hst
  | blocks hr hst ho hm =>
    rw [hx rfl]
    exact .of_slots rfl hst
  | gives hr hs hst hev hy => exact .of_slots rfl (hst x)
  | syncs hl hr hs hy => exact .of_sync rfl (hs x hx)
  | takeEnds hy hp hd hst hev he => exact .of_slots rfl (hst x)
  | syncEnds hy hp hs hxy => exact .of_sync rfl (hs x hx)
  | _ => exact hself rfl rfl

end

/-! ### Cancelling -/

section

variable {k k' : Kernel cfg} {t u : Thid cfg}

end

end Tinker

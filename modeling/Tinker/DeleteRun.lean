import Tinker.DeadRun

/-! Deleting ITC objects in the whole kernel. A call that has slept reads `__itc_array[qid]` again,
so it goes on with its own object only where nobody deletes an object in use. -/
namespace Tinker

open Kernel Outcome

variable {cfg : Config} {numQ : ℕ}

/-- The take a thread is in. -/
def Place.takes : Place cfg numQ → Option (TakeCall numQ)
  | .inTake c _ => some c
  | _ => none

/-- A living thread is in the call `c`. -/
def World.Inside (w : World cfg numQ) (t : Thid cfg) (c : TakeCall numQ) : Prop :=
  (w.kernel.pool t).state.has .zombi = false ∧ c ∈ (w.place t).takes

/-- What the call finds in its slot is the object it began with. -/
def World.Holds (w : World cfg numQ) (c : TakeCall numQ) : Prop :=
  w.gen c.qid = c.gen ∧ ∃ o, w.store.deref c.qid = .ok o

/-- An object is deleted only while no living thread is in a call that takes from it. -/
def UnusedDelete (w : World cfg numQ) : WorldLabel cfg numQ → Prop
  | .deleteItc _ qid => ∀ t, ∀ c ∈ (w.place t).takes,
      (w.kernel.pool t).state.has .zombi = false → c.qid ≠ qid
  | .destructItc => ∀ t, ∀ c ∈ (w.place t).takes, (w.kernel.pool t).state.has .zombi = true
  | _ => True

instance (w : World cfg numQ) (l : WorldLabel cfg numQ) : Decidable (UnusedDelete w l) := by
  cases l <;> unfold UnusedDelete <;> infer_instance

section

variable {w w' : World cfg numQ} {l : WorldLabel cfg numQ} {t : Thid cfg} {c : TakeCall numQ}

theorem ItcStore.deref_iff {st : ItcStore cfg numQ} {i : Fin numQ} :
    (∃ o, st.deref i = .ok o) ↔ st.freed i = false ∧ (st.array i).isSome = true := by
  unfold ItcStore.deref ItcStore.slot
  cases st.freed i with
  | true => simp [bind,Except.bind]
  | false => cases h : st.array i <;> simp [bind,Except.bind,pure,Except.pure]

/-- The slots tell which pointers can be followed. -/
theorem ItcStore.SameSlots.deref {me : Thid cfg} {st st' : ItcStore cfg numQ}
    (h : st.SameSlots me st') {i : Fin numQ} (hd : ∃ o, st.deref i = .ok o) :
    ∃ o, st'.deref i = .ok o := by
  rw [ItcStore.deref_iff] at hd ⊢
  rw [h.used i,h.freed i]
  exact hd

/-- The running thread is in a take after its step only where it has just gone to sleep there or
was there before. -/
theorem World.Does.takes_me (h : w.Does l w') (hc : c ∈ (w'.place w.me).takes) :
    c ∈ (w.place w.me).takes ∨ (c.gen = w.gen c.qid ∧ ∃ o, w.store.deref c.qid = .ok o) := by
  cases h with
  | @createItc r granted hr =>
    obtain ⟨st,gen,he⟩ := w.createItc_frame r granted
    rw [he] at hc
    exact Or.inl hc
  | deleteItc | destructItc | deletes | joins | joinFails | changesPrio | yields | advances =>
    exact Or.inl hc
  | blocks hr hst ho hm =>
    rw [World.after_place_me] at hc
    cases hc
    exact Or.inr ⟨rfl,ho⟩
  | creates hr hk =>
    simp only [World.created,Function.update_apply] at hc
    split at hc
    · cases hc
    · rw [if_pos trivial] at hc
      cases hc
  | gives hr hs hst hev hx =>
    rw [World.after_place_me] at hc
    obtain ⟨_,rfl⟩ | ⟨_,rfl | rfl⟩ := hx <;> cases hc
  | syncs hl hr hs hx =>
    rw [World.after_place_me] at hc
    obtain ⟨_,rfl⟩ | ⟨_,rfl | ⟨_,rfl⟩ | ⟨_,rfl⟩⟩ := hx <;> cases hc
  | syncEnds hy hp hs hx =>
    rw [World.after_place_me] at hc
    obtain ⟨_,rfl⟩ | ⟨_,rfl | ⟨_,rfl⟩ | ⟨_,rfl⟩⟩ := hx <;> cases hc
  | _ =>
    rw [World.after_place_me] at hc
    cases hc

/-- A living thread is inside a call after a step only where it was before or has just found the
object there. -/
theorem World.Does.inside (h : w.Does l w') (hc : w'.Inside t c) :
    w.Inside t c ∨ (c.gen = w.gen c.qid ∧ ∃ o, w.store.deref c.qid = .ok o) := by
  obtain ⟨hz,hc⟩ := hc
  have hplace : c ∈ (w.place t).takes ∨ (c.gen = w.gen c.qid ∧ ∃ o, w.store.deref c.qid = .ok o) := by
    by_cases ht : t = w.me
    · subst ht
      exact h.takes_me hc
    · by_cases hl : ∃ r, l = .create r
      · obtain ⟨r,rfl⟩ := hl
        cases h with
        | syncs hs => cases hs
        | creates hr hk =>
          simp only [World.created,Function.update_apply,if_neg ht] at hc
          split at hc
          · cases hc
          · exact Or.inl hc
      · rw [h.others (fun r hr => hl ⟨r,hr⟩) ht] at hc
        exact Or.inl hc
  refine hplace.imp_left fun hc' => ⟨?_,hc'⟩
  -- the dead do not come back, and a new thread is in no call
  by_contra hdead
  obtain hstay | ⟨r,k',rfl,hk⟩ := h.dead_stays (Bool.not_eq_false _ ▸ hdead)
  · rw [hz] at hstay
    cases hstay
  · cases h with
    | syncs hs => cases hs
    | creates hr hk' =>
      rw [hk] at hk'
      cases hk'
      simp only [World.created,Function.update_self] at hc
      cases hc

/-- Creations and deletions apart, the objects stay in their slots. -/
theorem World.Does.slots (h : w.Does l w') (hc : ∀ r g, l ≠ .createItc r g)
    (hd : ∀ op qid, l ≠ .deleteItc op qid) (hx : l ≠ .destructItc) :
    w.store.SameSlots w.me w'.store ∧ w'.gen = w.gen := by
  cases h with
  | createItc => exact absurd rfl (hc _ _)
  | deleteItc => exact absurd rfl (hd _ _)
  | destructItc => exact absurd rfl hx
  | takes hr hst he hev => exact ⟨hst,rfl⟩
  | blocks hr hst ho hm => exact ⟨hst,rfl⟩
  | gives hr hs hst hev hx => exact ⟨hst w.me,rfl⟩
  | takeEnds hy hp hdrops hst hev he => exact ⟨hst w.me,rfl⟩
  | _ => exact ⟨.refl _ _,rfl⟩

/-- Creating an object leaves the slots in use alone. -/
theorem World.createItc_holds {r : ItcReq} {granted : Bool} (h : w.Holds c) :
    (w.createItc r granted).Holds c := by
  unfold World.createItc
  obtain ⟨i,hnone,he⟩ | ⟨i,e,hne,he⟩ := w.store.create_spec r.obj granted
  · have hi : c.qid ≠ i := by
      intro hi
      have hsome := (ItcStore.deref_iff.mp h.2).2
      rw [hi,hnone] at hsome
      cases hsome
    simp only [he]
    refine ⟨(Function.update_of_ne hi _ _).trans h.1,ItcStore.deref_iff.mpr ?_⟩
    have hsame : Function.update w.store.array i (some r.obj) c.qid = w.store.array c.qid :=
      Function.update_of_ne hi _ _
    have hd := ItcStore.deref_iff.mp h.2
    rw [← hsame] at hd
    exact hd
  · rw [he]
    cases e with
    | ok => exact absurd rfl hne
    | _ => exact h

/-- Where a deletion finds its object out of use, the calls keep their objects. -/
theorem World.Does.holds (h : w.Does l w') (hu : UnusedDelete w l)
    (hi : ∀ t c, w.Inside t c → w.Holds c) (hc : w'.Inside t c) : w'.Holds c := by
  have hnow : w.Holds c := by
    obtain hin | ⟨hg,o,ho⟩ := h.inside hc
    · exact hi t c hin
    · exact ⟨hg.symm,o,ho⟩
  by_cases hcreate : ∃ r g, l = .createItc r g
  · obtain ⟨r,g,rfl⟩ := hcreate
    cases h with
    | syncs hs => cases hs
    | createItc hr => exact World.createItc_holds hnow
  by_cases hdelete : ∃ op qid, l = .deleteItc op qid
  · obtain ⟨op,qid,rfl⟩ := hdelete
    cases h with
    | syncs hs => cases hs
    | deleteItc hr hst =>
      have hne : c.qid ≠ qid := hu t c hc.2 hc.1
      refine ⟨hnow.1,ItcStore.deref_iff.mpr ?_⟩
      simp only [World.setStore,hst.1,hst.2,Function.update_of_ne hne]
      exact ItcStore.deref_iff.mp hnow.2
  by_cases hdestruct : l = .destructItc
  · subst hdestruct
    cases h with
    | syncs hs => cases hs
    | destructItc hr hst =>
      have hz := hu t c hc.2
      exact absurd (hz.symm.trans hc.1) (by decide)
  · obtain ⟨hslots,hgen⟩ := h.slots (fun r g hl => hcreate ⟨r,g,hl⟩)
      (fun op qid hl => hdelete ⟨op,qid,hl⟩) hdestruct
    exact ⟨by rw [hgen]; exact hnow.1,hslots.deref hnow.2⟩

end

/-- Where objects are deleted out of use only, a call that has slept goes on with the object it
slept on. -/
theorem worldRun_holds {k : Kernel cfg} {i : Fin numQ} {ls : List (WorldLabel cfg numQ)}
    {w : World cfg numQ} (hc : (worldMachine cfg numQ).Along UnusedDelete (worldInit k i) ls)
    (hr : (worldMachine cfg numQ).run (worldInit k i) ls = some w) :
    ∀ t c, w.Inside t c → w.Holds c :=
  (worldMachine cfg numQ).run_invariant (I:=fun w => ∀ t c, w.Inside t c → w.Holds c)
    (fun _ _ _ hi hu hstep t c => (worldStep_does hstep).holds hu hi)
    (fun _ _ h => by cases h.2) hc hr

/-- The root thread deletes the semaphore after its child has been served, and makes a new one in
the same slot. -/
def deleteSteps : List (WorldLabel gnuArm 4) :=
  [.createItc (.sem 0 fifo) true,.create ⟨"a",1,0,true⟩,.yield 2,.take .sem 0 fifo 0 0,.yield root,
    .resume,.give 0 .token,.yield 2,.resume,.yield root,.resume,.deleteItc .sem 0,
    .createItc (.sem 0 fifo) true,.take .sem 0 fifo 0 0]

theorem worldRun_holds_delete : ∃ (k : Kernel gnuArm) (w : World gnuArm 4),
    (worldMachine gnuArm 4).run (worldInit k 0) deleteSteps = some w ∧
    w.Inside root ⟨.sem,0,2,0,0⟩ ∧ ∀ t c, w.Inside t c → w.Holds c := by
  obtain ⟨k,w,hk,hc,hr,hz,ht⟩ := (worldMachine gnuArm 4).exists_along (x:=tkCreateKernel 0)
    UnusedDelete (fun w => (w.kernel.pool root).state.has .zombi = false ∧
      (w.place root).takes = some ⟨.sem,0,2,0,0⟩) (worldInit · 0) deleteSteps (by decide +kernel)
  exact ⟨k,w,hr,⟨hz,ht⟩,worldRun_holds hc hr⟩

/-- The root thread deletes the semaphore its child sleeps on, and makes a new one in the same
slot. -/
def deleteInUseSteps : List (WorldLabel gnuArm 4) :=
  [.createItc (.sem 0 fifo) true,.create ⟨"a",1,0,true⟩,.yield 2,.take .sem 0 fifo 0 0,.yield root,
    .resume,.deleteItc .sem 0,.createItc (.sem 0 fifo) true]

/-- The child sleeps on, and no call can find it any more. -/
theorem worldRun_not_holds :
    ¬∀ (k : Kernel gnuArm) (ls : List (WorldLabel gnuArm 4)) (w : World gnuArm 4),
      tkCreateKernel 0 = .ok k → (worldMachine gnuArm 4).run (worldInit k 0) ls = some w →
      ∀ t c, w.Inside t c → w.Holds c := by
  intro h
  obtain ⟨k,w,hk,hr,hz,ht,hg⟩ := (worldMachine gnuArm 4).exists_start (x:=tkCreateKernel 0)
    (fun w => (w.kernel.pool 2).state.has .zombi = false ∧
      (w.place 2).takes = some ⟨.sem,0,1,0,0⟩ ∧ w.gen 0 = 2)
    (worldInit · 0) deleteInUseSteps (by decide +kernel)
  have := (h k _ w hk hr 2 ⟨.sem,0,1,0,0⟩ ⟨hz,ht⟩).1
  rw [hg] at this
  cases this

end Tinker

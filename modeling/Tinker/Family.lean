import Mathlib.Data.List.FinRange
import Tinker.ScheduleOps

/-! Parents and children. `noChilds` counts the children of a thread and `Gid` names the parent;
each operation of `tk.c` keeps the two in step as long as no dead thread is anybody's parent. -/
namespace Tinker

open Outcome

variable {cfg : Config}

/-- The valid threads other than `t` whose `Gid` is `t`. -/
def children (k : Kernel cfg) (t : Thid cfg) : Finset (Thid cfg) :=
  Finset.univ.filter fun c => (k.pool c).valid = true ∧ (k.pool c).gid = some t ∧ c ≠ t

@[simp] theorem mem_children {k : Kernel cfg} {t c : Thid cfg} :
    c ∈ children k t ↔ (k.pool c).valid = true ∧ (k.pool c).gid = some t ∧ c ≠ t := by
  simp [children]

structure FamilyInv (k : Kernel cfg) : Prop where
  count : ∀ t, (k.pool t).valid = true → (k.pool t).noChilds = (children k t).card
  parent : ∀ c p, (k.pool c).valid = true → (k.pool c).gid = some p → p ≠ c →
    (k.pool p).valid = true
  childless : ∀ t, (k.pool t).state.has .zombi = true → ∀ c, (k.pool c).valid = true →
    (k.pool c).gid = some t → c = t
  no_term : ∀ t, (k.pool t).valid = true → (k.pool t).state.has .zombi = true →
    (k.pool t).state.has .term = false

/-- The fields the invariant reads are unchanged. -/
structure SameFamily (k k' : Kernel cfg) : Prop where
  pool : ∀ t, (k'.pool t).valid = (k.pool t).valid ∧ (k'.pool t).gid = (k.pool t).gid ∧
    (k'.pool t).noChilds = (k.pool t).noChilds ∧
    (k'.pool t).state.has .zombi = (k.pool t).state.has .zombi
  term : ∀ t, (k'.pool t).state.has .zombi = true → (k'.pool t).state.has .term = true →
    (k.pool t).state.has .term = true

theorem SameFamily.refl (k : Kernel cfg) : SameFamily k k :=
  ⟨fun _ => ⟨rfl,rfl,rfl,rfl⟩,fun _ _ h => h⟩

theorem SameFamily.children {k k' : Kernel cfg} (h : SameFamily k k') (t : Thid cfg) :
    children k' t = children k t := by
  ext c; simp [(h.pool c).1,(h.pool c).2.1]

theorem SameFamily.inv {k k' : Kernel cfg} (h : SameFamily k k') (hi : FamilyInv k) :
    FamilyInv k' where
  count := by
    intro t ht
    rw [(h.pool t).1] at ht
    rw [(h.pool t).2.2.1,h.children,hi.count t ht]
  parent := by
    intro c p hc hg hp
    rw [(h.pool c).1] at hc
    rw [(h.pool c).2.1] at hg
    rw [(h.pool p).1]
    exact hi.parent c p hc hg hp
  childless := by
    intro t hz c hc hg
    rw [(h.pool t).2.2.2] at hz
    rw [(h.pool c).1] at hc
    rw [(h.pool c).2.1] at hg
    exact hi.childless t hz c hc hg
  no_term := by
    intro t ht hz
    rw [(h.pool t).1] at ht
    have hz' := (h.pool t).2.2.2.symm.trans hz
    cases hterm : (k'.pool t).state.has .term with
    | false => rfl
    | true =>
      have := h.term t hz hterm
      rw [hi.no_term t ht hz'] at this
      cases this

/-! ### The loop over the children -/

/-- Where nobody names `t`, or its counter is not positive, the loop does nothing. -/
theorem tkDetachChildren_eq_self {k : Kernel cfg} {t : Thid cfg}
    (h : (k.pool t).noChilds ≤ 0 ∨
      ∀ j, (k.pool j).valid = true → (k.pool j).gid ≠ some t) :
    tkDetachChildren k t = k := by
  unfold tkDetachChildren
  generalize List.finRange cfg.maxThreads = js
  induction js with
  | nil => rfl
  | cons j js ih =>
    have hj : detachChild t k j = k := by
      refine if_neg ?_
      rintro ⟨hn,hv,hg⟩
      obtain h | h := h
      · omega
      · exact h j hv hg
    rw [List.foldl_cons,hj]
    exact ih

/-- Where the counter is exact, the loop detaches every thread that names `t` and ends at zero. -/
theorem detachLoop_pool {t : Thid cfg} (js : List (Thid cfg)) (hnd : js.Nodup) (k : Kernel cfg)
    (hall : ∀ j, (k.pool j).valid = true → (k.pool j).gid = some t → j ∈ js)
    (hn : (k.pool t).noChilds =
      js.countP fun j => decide ((k.pool j).valid = true ∧ (k.pool j).gid = some t))
    (u : Thid cfg) : (js.foldl (detachChild t) k).pool u = { k.pool u with
      gid := if (k.pool u).valid = true ∧ (k.pool u).gid = some t then none else (k.pool u).gid
      noChilds := if u = t then 0 else (k.pool u).noChilds } := by
  induction js generalizing k with
  | nil =>
    have hu : ¬((k.pool u).valid = true ∧ (k.pool u).gid = some t) := by
      rintro ⟨hv,hg⟩
      cases hall u hv hg
    rw [List.foldl_nil,if_neg hu]
    split
    · next he =>
      subst he
      simp only [List.countP_nil,Nat.cast_zero] at hn
      rw [← hn]
    · rfl
  | cons j js ih =>
    obtain ⟨hj,hnd⟩ := List.nodup_cons.mp hnd
    rw [List.foldl_cons]
    by_cases hc : (k.pool j).valid = true ∧ (k.pool j).gid = some t
    · rw [List.countP_cons_of_pos (by simpa using hc)] at hn
      have hpos : 0 < (k.pool t).noChilds := by omega
      have hstep : ∀ x, (detachChild t k j).pool x = { k.pool x with
          gid := if x = j then none else (k.pool x).gid
          noChilds := if x = t then (k.pool t).noChilds-1 else (k.pool x).noChilds } := by
        intro x
        simp only [detachChild,if_pos (show 0 < (k.pool t).noChilds ∧ _ from ⟨hpos,hc⟩),
          Kernel.modTcb_pool]
        by_cases hxt : x = t
        · subst hxt
          by_cases hxj : x = j
          · subst hxj; simp
          · simp [hxj]
        · by_cases hxj : x = j
          · subst hxj; simp [hxt]
          · simp [hxt,hxj]
      rw [ih hnd]
      · rw [hstep]
        by_cases huj : u = j
        · subst huj
          by_cases hut : u = t
          · subst hut; simp [hc]
          · simp [hc,hut]
        · by_cases hut : u = t
          · subst hut; simp [huj]
          · simp [huj,hut]
      · intro x hv hg
        rw [hstep] at hv hg
        by_cases hxj : x = j
        · simp [hxj] at hg
        · rw [if_neg hxj] at hg
          exact (List.mem_cons.mp (hall x hv hg)).resolve_left hxj
      · have hcount : js.countP (fun x => decide (((detachChild t k j).pool x).valid = true ∧
            ((detachChild t k j).pool x).gid = some t)) =
            js.countP fun x => decide ((k.pool x).valid = true ∧ (k.pool x).gid = some t) := by
          refine List.countP_congr fun x hx => ?_
          have hxj : x ≠ j := by rintro rfl; exact hj hx
          rw [hstep]
          simp [hxj]
        rw [hcount,hstep]
        simp only [if_true]
        omega
    · have hkj : detachChild t k j = k := if_neg fun h => hc h.2
      rw [hkj]
      refine ih hnd k ?_ ?_
      · intro x hv hg
        refine (List.mem_cons.mp (hall x hv hg)).resolve_left ?_
        rintro rfl
        exact hc ⟨hv,hg⟩
      · rw [hn,List.countP_cons_of_neg (by simpa using hc)]

theorem tkDetachChildren_pool_exact {k : Kernel cfg} {t : Thid cfg} (hs : (k.pool t).gid ≠ some t)
    (hn : (k.pool t).noChilds = (children k t).card) (u : Thid cfg) :
    (tkDetachChildren k t).pool u = { k.pool u with
      gid := if (k.pool u).valid = true ∧ (k.pool u).gid = some t then none else (k.pool u).gid
      noChilds := if u = t then 0 else (k.pool u).noChilds } := by
  refine detachLoop_pool _ (List.nodup_finRange _) k (fun j _ _ => List.mem_finRange j) ?_ u
  rw [hn,List.countP_eq_length_filter,← List.toFinset_card_of_nodup
    ((List.nodup_finRange _).filter _)]
  congr 2
  ext c
  simp only [mem_children,List.mem_toFinset,List.mem_filter,List.mem_finRange,true_and,
    decide_eq_true_eq]
  constructor
  · rintro ⟨hv,hg,_⟩; exact ⟨hv,hg⟩
  · rintro ⟨hv,hg⟩
    refine ⟨hv,hg,?_⟩
    rintro rfl
    exact hs hg

/-! ### One operation at a time -/

section

variable {k : Kernel cfg} {t : Thid cfg}

/-- The fields of a dying thread other than the counter and the parents of its children. -/
structure Dies (k : Kernel cfg) (t : Thid cfg) (k' : Kernel cfg) : Prop where
  state : (k'.pool t).state.has .zombi = true ∧ (k'.pool t).state.has .term = false
  self : (k'.pool t).gid = (k.pool t).gid
  valid : ∀ u, (k'.pool u).valid = (k.pool u).valid

section

variable {f : Tcb cfg → Tcb cfg} (hf : ∀ b, f b = { b with state := .zombi, retval := (f b).retval })

include hf

theorem modTcb_zombi_pool (u : Thid cfg) : (k.modTcb t f).pool u = { k.pool u with
    state := if u = t then .zombi else (k.pool u).state
    retval := if u = t then (f (k.pool t)).retval else (k.pool u).retval } := by
  rw [Kernel.modTcb_pool]
  split
  · next hu => subst hu; exact hf _
  · rfl

theorem children_modTcb_zombi (u : Thid cfg) : children (k.modTcb t f) u = children k u := by
  ext c
  simp only [mem_children,modTcb_zombi_pool hf]

/-- A thread without children but itself dies. -/
theorem FamilyInv.die_childless (h : FamilyInv k)
    (ht : ∀ c, (k.pool c).valid = true → (k.pool c).gid = some t → c = t) :
    FamilyInv (k.modTcb t f) ∧ Dies k t (k.modTcb t f) := by
  refine ⟨⟨?_,?_,?_,?_⟩,⟨?_,?_,?_⟩⟩
  · intro u hu
    rw [children_modTcb_zombi hf]
    simp only [modTcb_zombi_pool hf] at hu ⊢
    exact h.count u hu
  · intro c p hc hg hp
    simp only [modTcb_zombi_pool hf] at hc hg ⊢
    exact h.parent c p hc hg hp
  · intro u hz c hc hg
    simp only [modTcb_zombi_pool hf] at hz hc hg
    by_cases hut : u = t
    · subst hut
      exact ht c hc hg
    · rw [if_neg hut] at hz
      exact h.childless u hz c hc hg
  · intro u hu hz
    simp only [modTcb_zombi_pool hf] at hu hz ⊢
    split
    · exact ProcState.zombi_has_term
    · next hut =>
      rw [if_neg hut] at hz
      exact h.no_term u hu hz
  · simp only [modTcb_zombi_pool hf,if_true]
    decide
  · simp only [modTcb_zombi_pool hf]
  · intro u
    simp only [modTcb_zombi_pool hf]

/-- A thread that is not its own parent dies, and its children have none then. -/
theorem FamilyInv.die_parent (h : FamilyInv k) (ht : (k.pool t).valid = true)
    (hs : (k.pool t).gid ≠ some t) : FamilyInv (tkDetachChildren (k.modTcb t f) t) ∧
      Dies k t (tkDetachChildren (k.modTcb t f) t) := by
  have hp := tkDetachChildren_pool_exact (k:=k.modTcb t f) (t:=t)
    (by simpa only [modTcb_zombi_pool hf] using hs)
    (by rw [children_modTcb_zombi hf]; simpa only [modTcb_zombi_pool hf] using h.count t ht)
  simp only [modTcb_zombi_pool hf] at hp
  refine ⟨⟨?_,?_,?_,?_⟩,⟨?_,?_,?_⟩⟩
  · intro u hu
    by_cases hut : u = t
    · subst hut
      have hempty : children (tkDetachChildren (k.modTcb u f) u) u = ∅ := by
        refine Finset.eq_empty_of_forall_notMem fun c hc => ?_
        simp only [mem_children,hp] at hc
        obtain ⟨hv,hg,_⟩ := hc
        split at hg
        · cases hg
        · next hn => exact hn ⟨hv,hg⟩
      rw [hempty,hp]
      simp
    · have hsame : children (tkDetachChildren (k.modTcb t f) t) u = children k u := by
        ext c
        simp only [mem_children,hp]
        constructor
        · rintro ⟨hv,hg,hc⟩
          split at hg
          · cases hg
          · exact ⟨hv,hg,hc⟩
        · rintro ⟨hv,hg,hc⟩
          refine ⟨hv,?_,hc⟩
          rw [if_neg fun hn => hut (Option.some.inj (hg.symm.trans hn.2))]
          exact hg
      rw [hsame]
      simp only [hp,if_neg hut] at hu ⊢
      exact h.count u hu
  · intro c p hc hg hpc
    simp only [hp] at hc hg ⊢
    split at hg
    · cases hg
    · exact h.parent c p hc hg hpc
  · intro u hz c hc hg
    simp only [hp] at hz hc hg
    split at hg
    · cases hg
    · next hn =>
      have hut : u ≠ t := fun hu => hn ⟨hc,hu ▸ hg⟩
      rw [if_neg hut] at hz
      exact h.childless u hz c hc hg
  · intro u hu hz
    simp only [hp] at hu hz ⊢
    split
    · exact ProcState.zombi_has_term
    · next hut =>
      rw [if_neg hut] at hz
      exact h.no_term u hu hz
  · simp only [hp,if_true]
    decide
  · simp only [hp]
    exact if_neg fun hn => hs hn.2
  · intro u
    simp only [hp]

end

/-- Where the counter is zero, a thread is the only one that can be its child. -/
theorem FamilyInv.only_child (h : FamilyInv k) (hz : (k.pool t).noChilds = 0) {c : Thid cfg}
    (hc : (k.pool c).valid = true) (hg : (k.pool c).gid = some t) : c = t := by
  by_contra hct
  have hcount := h.count t (h.parent c t hc hg (Ne.symm hct))
  have hcard : (children k t).card = 0 := by omega
  have hmem : c ∈ children k t := mem_children.mpr ⟨hc,hg,hct⟩
  rw [Finset.card_eq_zero.mp hcard] at hmem
  cases hmem

/-- A thread dies and lets go of its children: none that is its own parent has any. -/
theorem FamilyInv.die (h : FamilyInv k) {f : Tcb cfg → Tcb cfg}
    (hf : ∀ b, f b = { b with state := .zombi, retval := (f b).retval })
    (hs : (k.pool t).gid ≠ some t ∨ (k.pool t).noChilds = 0) :
    FamilyInv (tkDetachChildren (k.modTcb t f) t) ∧
      Dies k t (tkDetachChildren (k.modTcb t f) t) := by
  by_cases hone : (k.pool t).noChilds = 0 ∨
      ∀ j, (k.pool j).valid = true → (k.pool j).gid ≠ some t
  · have hself : tkDetachChildren (k.modTcb t f) t = k.modTcb t f := by
      apply tkDetachChildren_eq_self
      simp only [modTcb_zombi_pool hf]
      exact hone.imp (fun hz => hz.le) fun hj => hj
    rw [hself]
    apply h.die_childless hf
    intro c hc hg
    rcases hone with hz | hj
    · exact h.only_child hz hc hg
    · exact absurd hg (hj c hc)
  · -- a valid thread with children that is not its own parent
    simp only [not_or,not_forall,not_not] at hone
    obtain ⟨hne,j,hj,hg⟩ := hone
    have hs := hs.resolve_right hne
    have hjt : t ≠ j := by rintro rfl; exact hs hg
    exact h.die_parent hf (h.parent j t hj hg hjt) hs

/-- A child leaves its parent, whose counter was positive. -/
theorem FamilyInv.leave (h : FamilyInv k) {p : Thid cfg} (ht : (k.pool t).valid = true)
    (hg : (k.pool t).gid = some p) (hpt : p ≠ t) :
    0 ≤ (k.pool p).noChilds-1 ∧
    FamilyInv ((k.modTcb p fun b => { b with noChilds := b.noChilds-1 }).modTcb t
      fun b => { b with gid := none }) := by
  have hp := h.parent t p ht hg hpt
  have hmem : t ∈ children k p := mem_children.mpr ⟨ht,hg,Ne.symm hpt⟩
  have hm : ∀ u, ((k.modTcb p fun b => { b with noChilds := b.noChilds-1 }).modTcb t
      fun b => { b with gid := none }).pool u = { k.pool u with
        gid := if u = t then none else (k.pool u).gid
        noChilds := if u = p then (k.pool p).noChilds-1 else (k.pool u).noChilds } := by
    intro u
    simp only [Kernel.modTcb_pool]
    by_cases hut : u = t
    · subst hut; simp [Ne.symm hpt]
    · by_cases hup : u = p
      · subst hup; simp [hut]
      · simp [hut,hup]
  have hpos := Finset.card_pos.mpr ⟨t,hmem⟩
  have hcp := h.count p hp
  refine ⟨by omega,⟨?_,?_,?_,?_⟩⟩
  · intro u hu
    have hch : children ((k.modTcb p fun b => { b with noChilds := b.noChilds-1 }).modTcb t
        fun b => { b with gid := none }) u = (children k u).erase t := by
      ext c
      simp only [mem_children,Finset.mem_erase,hm]
      by_cases hct : c = t
      · simp [hct]
      · simp [hct]
    rw [hch]
    simp only [hm] at hu ⊢
    by_cases hup : u = p
    · subst hup
      rw [if_pos rfl,Finset.card_erase_of_mem hmem]
      omega
    · rw [if_neg hup,Finset.erase_eq_of_notMem]
      · exact h.count u hu
      · intro hmem'
        have := (mem_children.mp hmem').2.1
        exact hup (Option.some.inj (this.symm.trans hg))
  · intro c q hc hq hqc
    simp only [hm] at hc hq ⊢
    split at hq
    · cases hq
    · exact h.parent c q hc hq hqc
  · intro u hz c hc hq
    simp only [hm] at hz hc hq
    split at hq
    · cases hq
    · exact h.childless u hz c hc hq
  · intro u hu hz
    simp only [hm] at hu hz ⊢
    exact h.no_term u hu hz

/-- The asserts of `_tk_try_detach_parent` hold, and a detached thread has no parent left. -/
theorem FamilyInv.tryDetach (h : FamilyInv k) (ht : (k.pool t).valid = true) (force : Bool)
    (hs : (k.pool t).gid = some t → force = false ∧ (k.pool t).state.has .term = false) :
    Spec (tkTryDetachParent k t force) (fun r => FamilyInv r.1 ∧
      (r.1.pool t).valid = true ∧ (r.1.pool t).state.has .zombi = (k.pool t).state.has .zombi ∧
      (r.2 = true → (r.1.pool t).gid = none)) (fun _ => False) := by
  unfold tkTryDetachParent
  split
  · next hg => exact ⟨h,ht,rfl,fun _ => hg⟩
  · next p hg =>
    have hp : (k.pool p).valid = true := by
      by_cases hpt : p = t
      · rw [hpt]; exact ht
      · exact h.parent t p ht hg hpt
    simp only [spec_bind,spec_check,spec_ite,spec_pure,hp,true_implies,not_true_eq_false,
      false_implies,and_true]
    have hub : SameFamily k (if waitsFor (k.pool p) t then
        k.modTcb p (unblockParent t (k.pool t).retval) else k) := by
      split
      · refine ⟨fun u => ?_,fun u => ?_⟩
        · rw [Kernel.modTcb_pool]
          split
          · next hu => subst hu; exact ⟨rfl,rfl,rfl,ProcState.clear_term_has_zombi _⟩
          · exact ⟨rfl,rfl,rfl,rfl⟩
        · rw [Kernel.modTcb_pool]
          split
          · intro _ hterm
            simp only [unblockParent,ProcState.clear_term_has_term] at hterm
            cases hterm
          · exact fun _ h => h
      · exact SameFamily.refl k
    have hself : p = t → ¬((waitsFor (k.pool p) t || force) = true) := by
      rintro rfl
      obtain ⟨rfl,hterm⟩ := hs hg
      simp [waitsFor,hterm]
    generalize (if waitsFor (k.pool p) t = true then
      k.modTcb p (unblockParent t (k.pool t).retval) else k) = k1 at hub ⊢
    obtain ⟨hv1,hg1,hn1,hz1⟩ := hub.pool t
    refine ⟨fun hw => ?_,fun _ => ⟨hub.inv h,hv1.trans ht,hz1,fun hf => by cases hf⟩⟩
    have hpt : p ≠ t := fun he => hself he hw
    obtain ⟨hpos,hi⟩ := (hub.inv h).leave (hv1.trans ht) (hg1.trans hg) hpt
    refine ⟨fun _ => ⟨hi,?_,?_,?_⟩,fun hn => hn ?_⟩
    · simp only [Kernel.modTcb_pool,if_true,if_neg (Ne.symm hpt)]
      exact hv1.trans ht
    · simp only [Kernel.modTcb_pool,if_true,if_neg (Ne.symm hpt)]
      exact hz1
    · simp only [Kernel.modTcb_pool,if_true]
    · simp only [Kernel.modTcb_pool,if_true]
      exact hpos

theorem compactRow_pool (prio n i : ℕ) :
    Spec (compactRow prio n i k)
      (fun k' => ∀ u, k'.pool u = { k.pool u with idx := (k'.pool u).idx })
      (fun e => e = .outOfTable) := by
  induction n generalizing i k with
  | zero => exact fun _ => rfl
  | succ n ih =>
    simp only [compactRow,Kernel.readCell,Kernel.writeCell,spec_bind,spec_ite,spec_ok,spec_error]
    refine ⟨fun _ => ⟨fun _ => ih (i+1) |>.imp fun k' hk' u => ?_,fun _ => trivial⟩,fun _ => trivial⟩
    have := hk' u
    rw [Kernel.modTcb_pool] at this
    split at this
    · next hu => rw [this,hu]
    · exact this

/-- A dead thread without a parent, or its own parent, is buried. -/
theorem FamilyInv.bury (h : FamilyInv k) (hz : (k.pool t).state.has .zombi = true)
    (hg : ∀ p, (k.pool t).gid = some p → p = t) :
    Spec (bury k t) FamilyInv (fun e => e = .assertSchedule ∨ e = .outOfTable) := by
  simp only [Tinker.bury,Kernel.readCell,Kernel.readProcs,spec_bind,spec_check,spec_ite,spec_ok,
    spec_error,spec_pure]
  refine ⟨fun _ => ⟨fun _ => ⟨fun _ => (compactRow_pool _ _ _).mono (fun k' hk' => ?_)
    fun e he => Or.inr he,fun _ => Or.inr trivial⟩,fun _ => Or.inl trivial⟩,fun _ => Or.inr trivial⟩
  have hm : ∀ u, ((shortenRow k' (k.pool t).prio).modTcb t
      fun b => { b with valid := false }).pool u = { k.pool u with
        valid := if u = t then false else (k.pool u).valid
        idx := (k'.pool u).idx } := by
    intro u
    rw [Kernel.modTcb_pool]
    split
    · next hu => subst hu; simp only [shortenRow,Kernel.modStat_pool]; rw [hk' u]
    · simp only [shortenRow,Kernel.modStat_pool]; rw [hk' u]
  refine ⟨?_,?_,?_,?_⟩
  · intro u hu
    have hch : children ((shortenRow k' (k.pool t).prio).modTcb t
        fun b => { b with valid := false }) u = children k u := by
      ext c
      simp only [mem_children,hm]
      by_cases hct : c = t
      · subst hct
        constructor
        · rintro ⟨hv,_⟩; simp at hv
        · rintro ⟨_,hgc,hne⟩; exact absurd (hg u hgc).symm hne
      · simp [hct]
    rw [hch]
    simp only [hm] at hu ⊢
    split at hu
    · cases hu
    · exact h.count u hu
  · intro c p hc hgc hp
    simp only [hm] at hc hgc ⊢
    split at hc
    · cases hc
    · next hct =>
      rw [if_neg]
      · exact h.parent c p hc hgc hp
      · rintro rfl
        exact hct (h.childless p hz c hc hgc)
  · intro u hz' c hc hgc
    simp only [hm] at hz' hc hgc
    split at hc
    · cases hc
    · exact h.childless u hz' c hc hgc
  · intro u hu hz'
    simp only [hm] at hu hz' ⊢
    split at hu
    · cases hu
    · exact h.no_term u hu hz'

/-- Deleting a thread that is its own parent and has children would leave one of them behind;
burying a dead child would leave its parent's counter behind. -/
def SafeDelete (k : Kernel cfg) (t : Thid cfg) : Prop :=
  if (k.pool t).state.has .zombi then (k.pool t).gid = none ∨ (k.pool t).gid = some t
  else (k.pool t).gid ≠ some t ∨ (k.pool t).noChilds = 0

instance (k : Kernel cfg) (t : Thid cfg) : Decidable (SafeDelete k t) := by
  unfold SafeDelete; infer_instance

theorem FamilyInv.delete (h : FamilyInv k) (hs : SafeDelete k t) :
    Spec (tkDeleteThread k t) (fun r => FamilyInv r.1)
      (fun e => e = .assertSchedule ∨ e = .outOfTable) := by
  unfold tkDeleteThread
  rw [spec_ite]
  refine ⟨fun _ => h,fun hv => ?_⟩
  have hv : (k.pool t).valid = true := by simpa using hv
  simp only [killThread,SafeDelete] at hs ⊢
  split at hs
  · next hz =>
    rw [if_pos hz,spec_bind,spec_ok]
    simp only [if_true,spec_bind,spec_pure]
    refine (h.bury hz fun p hp => ?_).imp fun _ hk => hk
    obtain hn | hn := hs
    · rw [hn] at hp; cases hp
    · rw [hn] at hp; exact (Option.some.inj hp).symm
  · next hz =>
    rw [if_neg hz,spec_bind]
    obtain ⟨hi,hd⟩ := h.die (t:=t) (f:=fun b => { b with state := .zombi }) (fun _ => rfl) hs
    refine (hi.tryDetach ((hd.valid t).trans hv) false
      fun _ => ⟨rfl,hd.state.2⟩).mono ?_ fun _ => False.elim
    rintro ⟨k',buryIt⟩ ⟨hi',_,hz',hg'⟩
    cases buryIt with
    | false => exact hi'
    | true =>
      simp only [if_true,spec_bind,spec_pure]
      refine (hi'.bury (hz'.trans hd.state.1) fun p hp => ?_).imp fun _ hk => hk
      rw [show (k'.pool t).gid = none from hg' rfl] at hp
      cases hp

theorem timerTest_sameFamily (k : Kernel cfg) (i : Thid cfg) (clk : Clock) :
    SameFamily k (k.modTcb i (timerTest clk)) where
  pool := by
    intro u
    rw [Kernel.modTcb_pool]
    split
    · next hu =>
      subst hu
      refine ⟨?_,?_,?_,timerTest_has_zombi clk _⟩ <;> rw [timerTest_eq]
    · exact ⟨rfl,rfl,rfl,rfl⟩
  term := by
    intro u
    rw [Kernel.modTcb_pool]
    split
    · next hu => subst hu; rw [timerTest_has_term]; exact fun _ h => h
    · exact fun _ h => h

/-- The reaping in the sweep keeps parents and children in step. -/
theorem FamilyInv.sweepThread (h : FamilyInv k) (clk : Clock) (i : Thid cfg) :
    Spec (sweepThread clk k i) FamilyInv (fun e => e = .assertSchedule ∨ e = .outOfTable) := by
  have hi := (timerTest_sameFamily k i (actTimeUs clk)).inv h
  have hvi := ((timerTest_sameFamily k i (actTimeUs clk)).pool i).1
  simp only [Tinker.sweepThread,spec_ite,spec_pure,spec_bind]
  refine ⟨fun _ => h,fun _ => ⟨fun _ => h,fun hv => ⟨fun hz => ?_,fun _ => hi⟩⟩⟩
  have hv : (k.pool i).valid = true := by simpa using hv
  have hz := (Bool.and_eq_true_iff.mp hz).1
  refine (hi.tryDetach (hvi.trans hv) false fun _ =>
    ⟨rfl,hi.no_term i (hvi.trans hv) hz⟩).mono ?_ fun _ => False.elim
  rintro ⟨k',detached⟩ ⟨hi',_,hz',hg'⟩
  refine ⟨fun hd => ?_,fun _ => hi'⟩
  refine (hi'.delete ?_).imp fun _ hr => hr
  rw [SafeDelete,if_pos (hz'.trans hz)]
  exact Or.inl (hg' hd)

/-- A thread joins another one, or itself while it is alive. -/
theorem FamilyInv.join (h : FamilyInv k)
    (hs : ¬(t = k.activeThread ∧ (k.pool t).state.has .zombi = true ∧ (k.pool t).gid = some t)) :
    Spec (tkJoin k t) (fun r => FamilyInv r.1) (fun _ => False) := by
  simp only [tkJoin,spec_ite,spec_pure,spec_bind]
  refine ⟨fun _ => h,fun hg => ⟨fun _ => h,fun hv => ⟨fun hz => ?_,fun hz => ?_⟩⟩⟩
  · have hv : (k.pool t).valid = true := by simpa using hv
    have hg : (k.pool t).gid = some k.activeThread := by simpa using hg
    refine (h.tryDetach hv true fun hself => absurd ⟨?_,hz,hself⟩ hs).imp fun _ hr => hr.1
    exact Option.some.inj (hself.symm.trans hg)
  · have hv : (k.pool t).valid = true := by simpa using hv
    have hg : (k.pool t).gid = some k.activeThread := by simpa using hg
    refine SameFamily.inv ⟨fun u => ?_,fun u => ?_⟩ h
    · rw [Kernel.modTcb_pool]
      split
      · next hu => subst hu; exact ⟨rfl,rfl,rfl,ProcState.or_term_has_zombi _⟩
      · exact ⟨rfl,rfl,rfl,rfl⟩
    · rw [Kernel.modTcb_pool]
      split
      · next hu =>
        -- a dead caller has no child but itself
        intro hza
        rw [ProcState.or_term_has_zombi] at hza
        have hta := h.childless _ hza t hv hg
        rw [← hta] at hza
        exact absurd hza hz
      · exact fun _ h => h

theorem FamilyInv.destructor (h : FamilyInv k) (retval : ℕ) (clk : Clock)
    (hs : (k.pool k.activeThread).gid ≠ some k.activeThread ∨
      (k.pool k.activeThread).noChilds = 0) : FamilyInv (tkDestructor k retval clk) := by
  obtain ⟨hi,hd⟩ := h.die (t:=k.activeThread)
    (f:=fun b => { b with state := .zombi, retval := retval }) (fun _ => rfl) hs
  refine SameFamily.inv (k:=tkDetachChildren (k.modTcb k.activeThread
    fun b => { b with state := .zombi, retval := retval }) k.activeThread) ⟨fun u => ?_,fun u => ?_⟩ hi
  · simp only [tkDestructor,tkMsleep,Kernel.modTcb_pool]
    split
    · next hu => subst hu; exact ⟨rfl,rfl,rfl,ProcState.or_sleep_has_zombi _⟩
    · exact ⟨rfl,rfl,rfl,rfl⟩
  · simp only [tkDestructor,tkMsleep,Kernel.modTcb_pool]
    split
    · next hu => subst hu; rw [ProcState.or_sleep_has_term]; exact fun _ h => h
    · exact fun _ h => h

section

variable {r : ThreadReq} {k' : Kernel cfg}

/-- A new control block, one child more for the running thread, and nothing else. -/
theorem Begun.pool_eq (hb : Begun k r k' t) (hta : t ≠ k.activeThread) (u : Thid cfg) :
    k'.pool u = if u = t then newTcb t k.activeThread r (k.procs r.prio)
      (k.pool t).wakeuptime else { k.pool u with
        noChilds := if u = k.activeThread then (k.pool u).noChilds+1 else (k.pool u).noChilds } := by
  rw [hb.pool]
  by_cases hut : u = t
  · subst hut; simp [hta]
  · simp only [if_neg hut]
    split <;> rfl

/-- The new thread is a child of the running one. -/
theorem FamilyInv.children_create (h : FamilyInv k) (hb : Begun k r k' t)
    (hta : t ≠ k.activeThread) (u : Thid cfg) :
    children k' u = if u = t then ∅ else if u = k.activeThread then insert t (children k u)
      else children k u := by
  by_cases hut : u = t
  · subst hut
    rw [if_pos rfl]
    refine Finset.eq_empty_of_forall_notMem fun c hc => ?_
    simp only [mem_children,hb.pool_eq hta] at hc
    obtain ⟨hc,hg,hcu⟩ := hc
    rw [if_neg hcu] at hc hg
    have hvalid := h.parent c u hc hg (Ne.symm hcu)
    rw [hb.free] at hvalid
    cases hvalid
  rw [if_neg hut]
  split
  · next hua =>
    subst hua
    ext c
    simp only [mem_children,Finset.mem_insert,hb.pool_eq hta]
    by_cases hct : c = t
    · subst hct; simp [newTcb,hta]
    · simp [hct]
  · next hua =>
    ext c
    simp only [mem_children,hb.pool_eq hta]
    by_cases hct : c = t
    · subst hct; simp [newTcb,hb.free,Ne.symm hua]
    · simp [hct]

end

/-- A living thread gets a child. -/
theorem FamilyInv.create {r : ThreadReq} {k' : Kernel cfg} (h : FamilyInv k)
    (hb : Begun k r k' t) (hv : (k.pool k.activeThread).valid = true)
    (hz : (k.pool k.activeThread).state.has .zombi = false) : FamilyInv k' := by
  have hta : t ≠ k.activeThread := by
    rintro rfl
    rw [hb.free] at hv
    cases hv
  have hm := hb.pool_eq hta
  have hold : ∀ {c}, (k.pool c).valid = true → c ≠ t := by
    rintro c hc rfl
    rw [hb.free] at hc
    cases hc
  refine ⟨?_,?_,?_,?_⟩
  · intro u hu
    rw [h.children_create hb hta]
    by_cases hut : u = t
    · rw [if_pos hut,hm,if_pos hut]
      rfl
    · rw [hm,if_neg hut] at hu
      rw [if_neg hut,hm,if_neg hut]
      by_cases hua : u = k.activeThread
      · have hnm : t ∉ children k u := by simp [hb.free]
        rw [if_pos hua,if_pos hua,Finset.card_insert_of_notMem hnm]
        simp [hua,h.count _ hv]
      · rw [if_neg hua]
        simpa [hua] using h.count u hu
  · intro c p hc hg hp
    by_cases hct : c = t
    · subst hct
      rw [hm,if_pos rfl] at hg
      have : p = k.activeThread := (Option.some.inj hg).symm
      rw [this,hm,if_neg (Ne.symm hta)]
      exact hv
    · rw [hm,if_neg hct] at hc hg
      have hvp := h.parent c p hc hg hp
      rw [hm,if_neg (hold hvp)]
      exact hvp
  · intro u hzu c hc hg
    by_cases hut : u = t
    · subst hut; rw [hm,if_pos rfl] at hzu; simp [newTcb] at hzu
    · rw [hm,if_neg hut] at hzu
      by_cases hct : c = t
      · subst hct
        rw [hm,if_pos rfl] at hg
        have : k.activeThread = u := Option.some.inj hg
        rw [← this] at hzu
        simp [hz] at hzu
      · rw [hm,if_neg hct] at hc hg
        exact h.childless u hzu c hc hg
  · intro u hu hzu
    by_cases hut : u = t
    · subst hut; rw [hm,if_pos rfl] at hzu; simp [newTcb] at hzu
    · rw [hm,if_neg hut] at hu hzu ⊢
      exact h.no_term u hu hzu

theorem FamilyInv.createEnd (h : FamilyInv k) (r : ThreadReq) (v : Thid cfg) :
    Spec (tkCreateThreadEnd k r v) (fun s => FamilyInv s.1) (fun e => e = .outOfTable) := by
  simp only [tkCreateThreadEnd,Kernel.readProcs,Kernel.writeCell,spec_bind,spec_ite,spec_ok,
    spec_error,spec_pure]
  refine ⟨fun _ => ⟨fun _ => SameFamily.inv ⟨fun u => ?_,fun u => ?_⟩ h,fun _ => trivial⟩,
    fun _ => trivial⟩
  · simp only [Kernel.modStat_pool,Kernel.modTcb_pool]
    split
    · next hu => subst hu; exact ⟨rfl,rfl,rfl,rfl⟩
    · exact ⟨rfl,rfl,rfl,rfl⟩
  · simp only [Kernel.modStat_pool,Kernel.modTcb_pool]
    split
    · next hu => subst hu; exact fun _ h => h
    · exact fun _ h => h

theorem Booted.family (h : Booted k) : FamilyInv k where
  count := by
    intro t ht
    have hempty : children k t = ∅ := by
      refine Finset.eq_empty_of_forall_notMem fun c hc => ?_
      obtain ⟨hv,hg,hct⟩ := mem_children.mp hc
      rw [(h.own c hv).1] at hg
      exact hct (Option.some.inj hg)
    rw [(h.own t ht).2.1,hempty]
    rfl
  parent := by
    intro c p hc hg hp
    rw [(h.own c hc).1] at hg
    exact absurd (Option.some.inj hg).symm hp
  childless := by
    intro t _ c hc hg
    rw [(h.own c hc).1] at hg
    exact Option.some.inj hg
  no_term := by
    intro t ht _
    rw [(h.own t ht).2.2]
    exact ProcState.has_ready _

end

end Tinker

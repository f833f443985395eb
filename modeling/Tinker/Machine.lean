import Mathlib.Tactic.Common

/-! Labelled machines and their finite runs.
A label is offered or not in a state, and an offered label either moves on or
stops with a fault. Invariants are proved for one step and hold along a run. -/

structure Machine (S L E : Type*) where
  enabled : S → L → Bool
  next : S → L → Except E S

namespace Machine

variable {S L E : Type*} (M : Machine S L E)

/-- One offered step that does not fault. -/
def Step (s : S) (l : L) (s' : S) : Prop := M.enabled s l = true ∧ M.next s l = .ok s'

/-- Take the labels one after the other, each offered and without a fault. -/
def run : S → List L → Option S
  | s, [] => some s
  | s, l :: ls =>
    if M.enabled s l then
      match M.next s l with
      | .ok s' => run s' ls
      | .error _ => none
    else none

/-- Every step along the labels is taken in a state meeting the condition. -/
def Along (C : S → L → Prop) : S → List L → Prop
  | _, [] => True
  | s, l :: ls => C s l ∧ ∀ s', M.Step s l s' → Along C s' ls

/-- Along a fixed list of labels the condition can be tested. -/
instance decidableAlong (C : S → L → Prop) [∀ s l, Decidable (C s l)] :
    ∀ (s : S) (ls : List L), Decidable (M.Along C s ls)
  | _, [] => isTrue trivial
  | s, l :: ls =>
    match he : M.enabled s l, hn : M.next s l with
    | true, .ok s' =>
      have := decidableAlong C s' ls
      decidable_of_iff (C s l ∧ M.Along C s' ls) <| and_congr_right fun _ =>
        ⟨fun h m hm => Except.ok.inj (hn.symm.trans hm.2) ▸ h,fun h => h s' ⟨he,hn⟩⟩
    | true, .error _ => decidable_of_iff (C s l)
        ⟨fun h => ⟨h,fun _ hm => by cases hn.symm.trans hm.2⟩,And.left⟩
    | false, _ => decidable_of_iff (C s l)
        ⟨fun h => ⟨h,fun _ hm => by cases he.symm.trans hm.1⟩,And.left⟩

/-- What is known of each label is known along the run. -/
theorem Along.and_forall {C : S → L → Prop} {P : L → Prop} {s : S} {ls : List L}
    (h : M.Along C s ls) (hp : ∀ l ∈ ls, P l) : M.Along (fun s l => C s l ∧ P l) s ls := by
  induction ls generalizing s with
  | nil => trivial
  | cons l ls ih =>
    exact ⟨⟨h.1,hp l List.mem_cons_self⟩,fun s' hs =>
      ih (h.2 s' hs) fun l hl => hp l (List.mem_cons_of_mem _ hl)⟩

theorem along_of_forall {P : L → Prop} {s : S} {ls : List L} (hp : ∀ l ∈ ls, P l) :
    M.Along (fun _ l => P l) s ls := by
  induction ls generalizing s with
  | nil => trivial
  | cons l ls ih =>
    exact ⟨hp l List.mem_cons_self,fun s' _ => ih fun l hl => hp l (List.mem_cons_of_mem _ hl)⟩

theorem run_cons {s s' : S} {l : L} {ls : List L} :
    M.run s (l :: ls) = some s' ↔ ∃ m, M.Step s l m ∧ M.run m ls = some s' := by
  cases he : M.enabled s l <;> cases hn : M.next s l <;> simp [run,Step,he,hn]

/-- A run that is fixed is computed, and what is asked of its end is tested there. -/
theorem exists_run (P : S → Prop) [DecidablePred P] (s : S) (ls : List L)
    (h : (M.run s ls).any (fun s' => decide (P s')) = true) :
    ∃ s', M.run s ls = some s' ∧ P s' := by
  simpa only [Option.any_eq_true,decide_eq_true_eq] using h

/-- The same where a computation gives the first state. -/
theorem exists_start {A F : Type*} {x : Except F A} (P : S → Prop) [DecidablePred P] (start : A → S)
    (ls : List L)
    (h : x.toOption.any (fun a => (M.run (start a) ls).any fun s => decide (P s)) = true) :
    ∃ a s, x = .ok a ∧ M.run (start a) ls = some s ∧ P s := by
  cases x with
  | ok a =>
    obtain ⟨s,hs⟩ := M.exists_run P (start a) ls h
    exact ⟨a,s,rfl,hs⟩
  | error e => cases h

/-- The same with a condition on the steps. -/
theorem exists_along {A F : Type*} {x : Except F A} (C : S → L → Prop)
    [∀ s l, Decidable (C s l)] (P : S → Prop) [DecidablePred P] (start : A → S) (ls : List L)
    (h : x.toOption.any (fun a => decide (M.Along C (start a) ls) &&
      (M.run (start a) ls).any fun s => decide (P s)) = true) :
    ∃ a s, x = .ok a ∧ M.Along C (start a) ls ∧ M.run (start a) ls = some s ∧ P s := by
  cases x with
  | ok a =>
    have hboth : (decide (M.Along C (start a) ls) && (M.run (start a) ls).any fun s =>
      decide (P s)) = true := h
    obtain ⟨hc,hp⟩ := (Bool.and_eq_true _ _).mp hboth
    obtain ⟨s,hs⟩ := M.exists_run P (start a) ls hp
    exact ⟨a,s,rfl,of_decide_eq_true hc,hs⟩
  | error e => cases h

/-- The step behind a run meets the condition as well. -/
theorem Along.at_end {C : S → L → Prop} {s m : S} {ls : List L} {l : L}
    (h : M.Along C s (ls ++ [l])) (hr : M.run s ls = some m) : C m l := by
  induction ls generalizing s with
  | nil =>
    simp only [run,Option.some.injEq] at hr
    exact hr ▸ h.1
  | cons l' ls ih =>
    obtain ⟨m',hm',hr⟩ := M.run_cons.mp hr
    exact ih (h.2 m' hm') hr

/-- A step lemma under a condition gives the run lemma under the same condition. -/
theorem run_invariant {I : S → Prop} {C : S → L → Prop}
    (hstep : ∀ s l s', I s → C s l → M.Step s l s' → I s')
    {s s' : S} {ls : List L} (hi : I s) (hc : M.Along C s ls) (hr : M.run s ls = some s') :
    I s' := by
  induction ls generalizing s with
  | nil => simp only [run,Option.some.injEq] at hr; exact hr ▸ hi
  | cons l ls ih =>
    obtain ⟨m,hm,hr⟩ := M.run_cons.mp hr
    exact ih (hstep s l m hi hc.1 hm) (hc.2 m hm) hr

/-- The unconditional run lemma. -/
theorem run_invariant_of_step {I : S → Prop}
    (hstep : ∀ s l s', I s → M.Step s l s' → I s')
    {s s' : S} {ls : List L} (hi : I s) (hr : M.run s ls = some s') : I s' := by
  induction ls generalizing s with
  | nil => simp only [run,Option.some.injEq] at hr; exact hr ▸ hi
  | cons l ls ih =>
    obtain ⟨m,hm,hr⟩ := M.run_cons.mp hr
    exact ih (hstep s l m hi hm) hr

/-- What an invariant gives for each step holds along the run. -/
theorem along_of_invariant {I : S → Prop} {C P : S → L → Prop}
    (hstep : ∀ s l s', I s → C s l → M.Step s l s' → I s') (hp : ∀ s l, I s → C s l → P s l)
    {s : S} {ls : List L} (hi : I s) (hc : M.Along C s ls) : M.Along P s ls := by
  induction ls generalizing s with
  | nil => trivial
  | cons l ls ih =>
    exact ⟨hp s l hi hc.1,fun s' hs => ih (hstep s l s' hi hc.1 hs) (hc.2 s' hs)⟩

/-- A property that each step keeps just when the condition `C` is met holds in every state of a run
just when every step meets it. `A` is what is known of the steps anyway. -/
theorem run_along_iff_of {I P : S → Prop} {A C : S → L → Prop} (hp : ∀ s, I s → P s)
    (hstep : ∀ s l s', I s → A s l → C s l → M.Step s l s' → I s')
    (hnot : ∀ s l s', I s → A s l → ¬C s l → M.Step s l s' → ¬P s')
    {s s' : S} {ls : List L} (hi : I s) (ha : M.Along A s ls) (hr : M.run s ls = some s') :
    M.Along (fun s _ => P s) s ls ∧ P s' ↔ M.Along C s ls := by
  induction ls generalizing s with
  | nil =>
    simp only [run,Option.some.injEq] at hr
    exact iff_of_true ⟨trivial,hr ▸ hp s hi⟩ trivial
  | cons l ls ih =>
    obtain ⟨m,hm,hr⟩ := M.run_cons.mp hr
    have huniq : ∀ m', M.Step s l m' → m' = m := fun m' hm' =>
      Except.ok.inj (hm'.2.symm.trans hm.2)
    -- the state behind the first step is one of those the property is about
    have hsecond : M.Along (fun s _ => P s) m ls ∧ P s' → P m := by
      cases ls with
      | nil =>
        simp only [run,Option.some.injEq] at hr
        exact fun h => hr ▸ h.2
      | cons l' ls => exact fun h => h.1.1
    constructor
    · rintro ⟨⟨_,halong⟩,hs'⟩
      have hrest := halong m hm
      have hc : C s l := by
        by_contra hc
        exact hnot s l m hi ha.1 hc hm (hsecond ⟨hrest,hs'⟩)
      refine ⟨hc,fun m' hm' => ?_⟩
      rw [huniq m' hm']
      exact (ih (hstep s l m hi ha.1 hc hm) (ha.2 m hm) hr).mp ⟨hrest,hs'⟩
    · rintro ⟨hc,halong⟩
      have hrest := (ih (hstep s l m hi ha.1 hc hm) (ha.2 m hm) hr).mpr (halong m hm)
      refine ⟨⟨hp s hi,fun m' hm' => ?_⟩,hrest.2⟩
      rw [huniq m' hm']
      exact hrest.1

/-- The same where nothing else is known of the steps. -/
theorem run_along_iff {I P : S → Prop} {C : S → L → Prop} (hp : ∀ s, I s → P s)
    (hstep : ∀ s l s', I s → C s l → M.Step s l s' → I s')
    (hnot : ∀ s l s', I s → ¬C s l → M.Step s l s' → ¬P s')
    {s s' : S} {ls : List L} (hi : I s) (hr : M.run s ls = some s') :
    M.Along (fun s _ => P s) s ls ∧ P s' ↔ M.Along C s ls :=
  M.run_along_iff_of (A:=fun _ _ => True) hp (fun s l s' hi _ => hstep s l s' hi)
    (fun s l s' hi _ => hnot s l s' hi) hi (along_of_forall (P:=fun _ => True) M fun _ _ => trivial) hr

/-- What each step keeps or gives up in a known way holds at the end of a run, unless some step of
it gave it up. -/
theorem run_unless {I : S → Prop} {Q : S → L → Prop}
    (hstep : ∀ s l s', I s → M.Step s l s' → I s' ∨ Q s l)
    {s s' : S} {ls : List L} (hi : I s) (hr : M.run s ls = some s') :
    I s' ∨ ∃ pre l post m, ls = pre ++ l :: post ∧ M.run s pre = some m ∧ I m ∧ Q m l := by
  induction ls generalizing s with
  | nil => simp only [run,Option.some.injEq] at hr; exact Or.inl (hr ▸ hi)
  | cons l ls ih =>
    obtain ⟨m,hm,hr⟩ := M.run_cons.mp hr
    obtain hi' | hq := hstep s l m hi hm
    · obtain hend | ⟨pre,l',post,m',rfl,hpre,hi',hq⟩ := ih hi' hr
      · exact Or.inl hend
      · exact Or.inr ⟨l :: pre,l',post,m',rfl,M.run_cons.mpr ⟨m,hm,hpre⟩,hi',hq⟩
    · exact Or.inr ⟨[],l,ls,s,rfl,rfl,hi,hq⟩

end Machine

import Tinker.Machine
import Tinker.Outcome

/-! Two computations that may fault, side by side. `Alike R x y` says that both return, with values
in `R`, or both stop with the same fault. -/
namespace Outcome

universe u v

variable {E : Type*} {A C : Type u} {B D : Type v}

def Alike (R : A → B → Prop) : Except E A → Except E B → Prop
  | .ok a, .ok b => R a b
  | .error e, .error e' => e = e'
  | _, _ => False

@[simp] theorem alike_ok (R : A → B → Prop) (a : A) (b : B) :
    Alike R (.ok a : Except E A) (.ok b) ↔ R a b := Iff.rfl

@[simp] theorem alike_pure (R : A → B → Prop) (a : A) (b : B) :
    Alike R (pure a : Except E A) (pure b) ↔ R a b := Iff.rfl

@[simp] theorem alike_error (R : A → B → Prop) (e e' : E) :
    Alike R (.error e) (.error e') ↔ e = e' := Iff.rfl

theorem ok_bind (a : A) (f : A → Except E C) : (Except.ok a >>= f) = f a := rfl

theorem Alike.refl (x : Except E A) : Alike Eq x x := by
  cases x <;> rfl

/-- Computations that go on alike where they have gone alike. -/
theorem Alike.bind {R : A → B → Prop} {S : C → D → Prop} {x : Except E A} {y : Except E B}
    {f : A → Except E C} {g : B → Except E D} (h : Alike R x y)
    (hfg : ∀ a b, R a b → Alike S (f a) (g b)) : Alike S (x >>= f) (y >>= g) := by
  cases x with
  | ok a =>
    cases y with
    | ok b => exact hfg a b h
    | error e => cases h
  | error e =>
    cases y with
    | ok b => cases h
    | error e' => exact h

theorem Alike.imp {R S : A → B → Prop} {x : Except E A} {y : Except E B} (h : Alike R x y)
    (hrs : ∀ a b, R a b → S a b) : Alike S x y := by
  cases x with
  | ok a =>
    cases y with
    | ok b => exact hrs a b h
    | error e => cases h
  | error e =>
    cases y with
    | ok b => cases h
    | error e' => exact h

/-- What the first of them returns, besides. -/
theorem Alike.and_spec {R : A → B → Prop} {Q : A → Prop} {x : Except E A} {y : Except E B}
    (h : Alike R x y) (hx : Spec x Q fun _ => True) : Alike (fun a b => R a b ∧ Q a) x y := by
  cases x with
  | ok a =>
    cases y with
    | ok b => exact ⟨h,hx⟩
    | error e => cases h
  | error e =>
    cases y with
    | ok b => cases h
    | error e' => exact h

/-- One test made of both. -/
theorem alike_check {S : C → D → Prop} {p q : Prop} [Decidable p] [Decidable q] {e : E}
    {f : PUnit → Except E C} {g : PUnit → Except E D} (hpq : p ↔ q)
    (hfg : p → Alike S (f ⟨⟩) (g ⟨⟩)) : Alike S (check p e >>= f) (check q e >>= g) := by
  by_cases hp : p
  · rw [check,check,if_pos hp,if_pos (hpq.mp hp)]
    exact hfg hp
  · rw [check,check,if_neg hp,if_neg (mt hpq.mpr hp)]
    exact rfl

theorem alike_ite {R : A → B → Prop} {p q : Prop} [Decidable p] [Decidable q]
    {x x' : Except E A} {y y' : Except E B} (hpq : p ↔ q) (hthen : p → Alike R x y)
    (helse : ¬p → Alike R x' y') : Alike R (if p then x else x') (if q then y else y') := by
  by_cases hp : p
  · rw [if_pos hp,if_pos (hpq.mp hp)]
    exact hthen hp
  · rw [if_neg hp,if_neg (mt hpq.mpr hp)]
    exact helse hp

theorem rel_imp {R S : A → B → Prop} {x : Option A} {y : Option B} (h : Option.Rel R x y)
    (hrs : ∀ a b, R a b → S a b) : Option.Rel S x y := by
  cases h with
  | none => exact .none
  | some hr => exact .some (hrs _ _ hr)

theorem rel_isSome {R : A → B → Prop} {x : Option A} {y : Option B} (h : Option.Rel R x y) :
    x.isSome = y.isSome := by
  cases h <;> rfl

end Outcome

namespace Machine

open Outcome

variable {S S' L L' K E : Type*} {M : Machine S L E} {M' : Machine S' L' E} {R : S → S' → Prop}
  {C : S' → L' → Prop} {f : K → L} {g : K → L'}

/-- What two machines do alike at each step they do alike over a run. -/
theorem run_alike (henabled : ∀ s s' k, R s s' → M.enabled s (f k) = M'.enabled s' (g k))
    (hnext : ∀ s s' k, R s s' → M'.enabled s' (g k) = true → C s' (g k) →
      Alike R (M.next s (f k)) (M'.next s' (g k)))
    {s : S} {s' : S'} {ks : List K} (hr : R s s') (hc : M'.Along C s' (ks.map g)) :
    Option.Rel R (M.run s (ks.map f)) (M'.run s' (ks.map g)) := by
  induction ks generalizing s s' with
  | nil => exact .some hr
  | cons k ks ih =>
    have he := henabled s s' k hr
    rw [List.map_cons,List.map_cons,run,run,he]
    cases hk : M'.enabled s' (g k) with
    | false => exact .none
    | true =>
      have hn := hnext s s' k hr hk hc.1
      cases hs : M.next s (f k) with
      | ok t =>
        cases hs' : M'.next s' (g k) with
        | ok t' =>
          rw [hs,hs'] at hn
          exact ih hn (hc.2 t' ⟨hk,hs'⟩)
        | error e =>
          rw [hs,hs'] at hn
          cases hn
      | error e =>
        cases hs' : M'.next s' (g k) with
        | ok t' =>
          rw [hs,hs'] at hn
          cases hn
        | error e' => exact .none

/-- A forward simulation: where each step is answered by one of another machine, its runs are too. -/
theorem run_refines {F : Type*} {N : Machine S' L' F} {D : S → L → Prop} {Q : L → L' → Prop}
    (hstep : ∀ s s' l t, R s s' → D s l → M.Step s l t →
      ∃ l' t', Q l l' ∧ N.Step s' l' t' ∧ R t t')
    {s t : S} {s' : S'} {ls : List L} (hr : R s s') (hd : M.Along D s ls)
    (hrun : M.run s ls = some t) :
    ∃ ls' t', List.Forall₂ Q ls ls' ∧ N.run s' ls' = some t' ∧ R t t' := by
  induction ls generalizing s s' with
  | nil =>
    simp only [run,Option.some.injEq] at hrun
    exact ⟨[],s',.nil,rfl,hrun ▸ hr⟩
  | cons l ls ih =>
    obtain ⟨m,hm,hrun⟩ := M.run_cons.mp hrun
    obtain ⟨l',m',hq,hm',hr'⟩ := hstep s s' l m hr hd.1 hm
    obtain ⟨ls',t',hqs,hrun',ht⟩ := ih hr' (hd.2 m hm) hrun
    exact ⟨l' :: ls',t',.cons hq hqs,N.run_cons.mpr ⟨m',hm',hrun'⟩,ht⟩

/-- A loop whose rounds meet the condition keeps what such a round keeps. -/
theorem spec_foldlM_along (he : ∀ s l, M.enabled s l = true) {I : S → Prop} {D : S → L → Prop}
    {F : E → Prop} (hstep : ∀ s l, I s → D s l → Spec (M.next s l) I F) {s : S} {ls : List L}
    (hi : I s) (hd : M.Along D s ls) : Spec (ls.foldlM M.next s) I F := by
  induction ls generalizing s with
  | nil => exact hi
  | cons l ls ih =>
    rw [List.foldlM_cons,spec_bind]
    have hs := hstep s l hi hd.1
    cases hn : M.next s l with
    | error e => exact hs.of_error hn
    | ok m => exact ih (hs.of_ok hn) (hd.2 m ⟨he s l,hn⟩)

end Machine

import Mathlib.Tactic.Common

/-! Triples for computations that may fault.
`Spec x Q R` says that `x` returns a value meeting `Q` or stops with a fault
meeting `R`; `R = fun _ => False` is total correctness. -/
namespace Outcome

universe u

variable {E : Type*} {A B : Type u}

def Spec (x : Except E A) (Q : A → Prop) (R : E → Prop) : Prop :=
  match x with
  | .ok a => Q a
  | .error e => R e

/-- A triple about a computation that can be run can be tested. -/
instance decidableSpec (x : Except E A) (Q : A → Prop) (R : E → Prop) [DecidablePred Q]
    [DecidablePred R] : Decidable (Spec x Q R) :=
  match x with
  | .ok a => inferInstanceAs (Decidable (Q a))
  | .error e => inferInstanceAs (Decidable (R e))

@[simp] theorem spec_ok (a : A) (Q : A → Prop) (R : E → Prop) :
    Spec (.ok a : Except E A) Q R ↔ Q a := Iff.rfl
@[simp] theorem spec_pure (a : A) (Q : A → Prop) (R : E → Prop) :
    Spec (pure a : Except E A) Q R ↔ Q a := Iff.rfl
@[simp] theorem spec_error (e : E) (Q : A → Prop) (R : E → Prop) :
    Spec (.error e : Except E A) Q R ↔ R e := Iff.rfl
@[simp] theorem spec_throw (e : E) (Q : A → Prop) (R : E → Prop) :
    Spec (throw e : Except E A) Q R ↔ R e := Iff.rfl

/-- Sequencing: the second computation is met where the first one returns. -/
@[simp] theorem spec_bind (x : Except E A) (f : A → Except E B) (Q : B → Prop) (R : E → Prop) :
    Spec (x >>= f) Q R ↔ Spec x (fun a => Spec (f a) Q R) R := by
  cases x <;> rfl

/-- Go on where the test holds, stop with the fault where it does not. -/
def check (p : Prop) [Decidable p] (e : E) : Except E PUnit.{u+1} :=
  if p then .ok ⟨⟩ else .error e

@[simp] theorem spec_check (p : Prop) [Decidable p] (e : E) (Q : PUnit.{u+1} → Prop) (R : E → Prop) :
    Spec (check p e) Q R ↔ (p → Q ⟨⟩) ∧ (¬p → R e) := by
  unfold check; split <;> simp_all

theorem check_of {p : Prop} [Decidable p] {e : E} (hp : p) : check p e = .ok PUnit.unit := if_pos hp

@[simp] theorem spec_ite (p : Prop) [Decidable p] (x y : Except E A) (Q : A → Prop) (R : E → Prop) :
    Spec (if p then x else y) Q R ↔ (p → Spec x Q R) ∧ (¬p → Spec y Q R) := by
  split <;> simp_all

theorem Spec.mono {x : Except E A} {Q Q' : A → Prop} {R R' : E → Prop}
    (h : Spec x Q R) (hq : ∀ a, Q a → Q' a) (hr : ∀ e, R e → R' e) : Spec x Q' R' := by
  cases x with
  | ok a => exact hq a h
  | error e => exact hr e h

/-- Strengthen the postcondition only. -/
theorem Spec.imp {x : Except E A} {Q Q' : A → Prop} {R : E → Prop}
    (h : Spec x Q R) (hq : ∀ a, Q a → Q' a) : Spec x Q' R :=
  h.mono hq (fun _ hr => hr)

theorem Spec.and {x : Except E A} {Q Q' : A → Prop} {R : E → Prop} (h : Spec x Q R)
    (h' : Spec x Q' R) : Spec x (fun a => Q a ∧ Q' a) R := by
  cases x with
  | ok a => exact ⟨h,h'⟩
  | error e => exact h

/-- What two specifications say of a computation together. -/
theorem Spec.meet {x : Except E A} {Q Q' : A → Prop} {R R' : E → Prop} (h : Spec x Q R)
    (h' : Spec x Q' R') : Spec x (fun a => Q a ∧ Q' a) (fun e => R e ∧ R' e) := by
  cases x with
  | ok a => exact ⟨h,h'⟩
  | error e => exact ⟨h,h'⟩

@[simp] theorem spec_mapError {E' : Type*} {x : Except E A} {f : E → E'} {Q : A → Prop}
    {R : E' → Prop} : Spec (x.mapError f) Q R ↔ Spec x Q fun e => R (f e) := by
  cases x <;> rfl

theorem Spec.of_ok {x : Except E A} {Q : A → Prop} {R : E → Prop} {a : A}
    (h : Spec x Q R) (hx : x = .ok a) : Q a := by
  subst hx; exact h

theorem Spec.of_error {x : Except E A} {Q : A → Prop} {R : E → Prop} {e : E}
    (h : Spec x Q R) (hx : x = .error e) : R e := by
  subst hx; exact h

/-- A computation followed by a function returns where it does. -/
theorem map_eq_ok {x : Except E A} {f : A → B} {b : B} :
    x.map f = .ok b ↔ ∃ a, x = .ok a ∧ f a = b := by
  cases x with
  | ok a =>
    rw [Except.map,Except.ok.injEq]
    exact ⟨fun h => ⟨a,rfl,h⟩,fun ⟨_,h,hb⟩ => Except.ok.inj h ▸ hb⟩
  | error e => exact ⟨fun h => (by cases h),fun ⟨_,h,_⟩ => (by cases h)⟩

/-- A computation followed by another one returns where both do. -/
theorem bind_eq_ok {x : Except E A} {f : A → Except E B} {b : B} :
    x >>= f = .ok b ↔ ∃ a, x = .ok a ∧ f a = .ok b := by
  cases x with
  | ok a => exact ⟨fun h => ⟨a,rfl,h⟩,fun ⟨_,h,hb⟩ => Except.ok.inj h ▸ hb⟩
  | error e => exact ⟨fun h => (by cases h),fun ⟨_,h,_⟩ => (by cases h)⟩

/-- A family of postconditions is met where each of them is. -/
theorem Spec.all {ι : Type*} [Nonempty ι] {x : Except E A} {Q : ι → A → Prop} {R : E → Prop}
    (h : ∀ i, Spec x (Q i) R) : Spec x (fun a => ∀ i, Q i a) R := by
  cases x with
  | ok a => exact h
  | error e => exact h (Classical.arbitrary ι)

/-- What all values meet is met by a returned one. -/
theorem spec_of_forall {x : Except E A} {Q : A → Prop} (h : ∀ a, Q a) :
    Spec x Q (fun _ => True) := by
  cases x with
  | ok a => exact h a
  | error e => trivial

/-- A total triple is a returned value. -/
theorem spec_total_iff {x : Except E A} {Q : A → Prop} :
    Spec x Q (fun _ => False) ↔ ∃ a, x = .ok a ∧ Q a := by
  cases x <;> simp

/-- A returned value found by evaluation. -/
theorem exists_ok {x : Except E A} {p : A → Bool} (h : x.toOption.any p = true) :
    ∃ a, x = .ok a ∧ p a = true := by
  cases x with
  | ok a => exact ⟨a,rfl,by simpa [Except.toOption] using h⟩
  | error e => simp [Except.toOption] at h

theorem mapM_eq_ok {f : B → Except E A} {is : List B} {l : List A}
    (h : is.map f = l.map .ok) : is.mapM f = .ok l := by
  induction is generalizing l with
  | nil =>
    cases l with
    | nil => rfl
    | cons a l => cases h
  | cons i is ih =>
    cases l with
    | nil => cases h
    | cons a l =>
      simp only [List.map_cons,List.cons.injEq] at h
      simp [List.mapM_cons,h.1,ih h.2,bind,Except.bind,pure,Except.pure]

/-- A loop keeps what each round keeps. -/
theorem spec_foldlM {f : A → B → Except E A} {I : A → Prop} {R : E → Prop} {l : List B} {a : A}
    (ha : I a) (hstep : ∀ a b, b ∈ l → I a → Spec (f a b) I R) : Spec (l.foldlM f a) I R := by
  induction l generalizing a with
  | nil => exact ha
  | cons b l ih =>
    rw [List.foldlM_cons,spec_bind]
    exact (hstep a b List.mem_cons_self ha).imp fun a' ha' =>
      ih ha' fun a b hb => hstep a b (List.mem_cons_of_mem _ hb)

/-- What a round settles is settled at the end of the loop, where no round undoes it. -/
theorem spec_foldlM_settles {f : A → B → Except E A} {I : A → Prop} {P : B → A → Prop}
    {R : E → Prop} {l : List B} {a : A} (ha : I a)
    (hstep : ∀ a b, b ∈ l → I a → Spec (f a b)
      (fun a' => I a' ∧ P b a' ∧ ∀ c, P c a → P c a') R) :
    Spec (l.foldlM f a) (fun a' => I a' ∧ (∀ b ∈ l, P b a') ∧ ∀ c, P c a → P c a') R := by
  induction l generalizing a with
  | nil => exact ⟨ha,fun b hb => (by cases hb),fun _ h => h⟩
  | cons b l ih =>
    rw [List.foldlM_cons,spec_bind]
    refine (hstep a b List.mem_cons_self ha).imp fun a' ha' => ?_
    refine (ih ha'.1 fun a b hb => hstep a b (List.mem_cons_of_mem _ hb)).imp fun a2 h2 => ?_
    refine ⟨h2.1,fun c hc => ?_,fun c hc => h2.2.2 c (ha'.2.2 c hc)⟩
    obtain rfl | hc := List.mem_cons.mp hc
    · exact h2.2.2 c ha'.2.1
    · exact h2.2.1 c hc

end Outcome

import Tinker.Outcome

/-! Computations that leave a state behind also where they stop with an error. -/
namespace Outcome

variable {E S A B : Type}

/-- Run from `s`, `c` returns a value and a state as `Q` says, or stops with an error in a state
as `R` says. -/
def After (c : EStateM E S A) (s : S) (Q : A → S → Prop) (R : E → S → Prop) : Prop :=
  match c.run s with
  | .ok a s' => Q a s'
  | .error e s' => R e s'

section

variable {c : EStateM E S A} {s : S} {Q Q' : A → S → Prop} {R R' : E → S → Prop}

@[simp] theorem after_pure (a : A) : After (pure a) s Q R ↔ Q a s := Iff.rfl

@[simp] theorem after_throw (e : E) : After (throw e : EStateM E S A) s Q R ↔ R e s := Iff.rfl

@[simp] theorem after_get {Q : S → S → Prop} : After get s Q R ↔ Q s s := Iff.rfl

@[simp] theorem after_modify {Q : PUnit → S → Prop} (f : S → S) :
    After (modify f) s Q R ↔ Q ⟨⟩ (f s) := Iff.rfl

@[simp] theorem after_bind {f : A → EStateM E S B} {Q : B → S → Prop} :
    After (c >>= f) s Q R ↔ After c s (fun a s' => After (f a) s' Q R) R := by
  have hrun : (c >>= f).run s = match c.run s with
    | .ok a s' => (f a).run s'
    | .error e s' => .error e s' := rfl
  unfold After
  rw [hrun]
  cases c.run s <;> rfl

@[simp] theorem after_ite {p : Prop} [Decidable p] {d : EStateM E S A} :
    After (if p then c else d) s Q R ↔ (p → After c s Q R) ∧ (¬p → After d s Q R) := by
  split <;> simp_all

theorem run_eq_ok {a : A} {s' : S} :
    c.run s = .ok a s' ↔ After c s (fun b t => b = a ∧ t = s') (fun _ _ => False) := by
  unfold After
  cases c.run s with
  | ok b t => exact ⟨fun h => ⟨EStateM.Result.ok.inj h |>.1,EStateM.Result.ok.inj h |>.2⟩,
      fun ⟨h,h'⟩ => by rw [h,h']⟩
  | error e t => exact ⟨fun h => (by cases h),False.elim⟩

theorem run_eq_error {e : E} {s' : S} :
    c.run s = .error e s' ↔ After c s (fun _ _ => False) (fun d t => d = e ∧ t = s') := by
  unfold After
  cases c.run s with
  | ok b t => exact ⟨fun h => (by cases h),False.elim⟩
  | error d t => exact ⟨fun h => ⟨EStateM.Result.error.inj h |>.1,EStateM.Result.error.inj h |>.2⟩,
      fun ⟨h,h'⟩ => by rw [h,h']⟩

theorem after_of_ok {a : A} {s' : S} (h : c.run s = .ok a s') : After c s Q R ↔ Q a s' := by
  rw [After,h]

theorem after_of_error {e : E} {s' : S} (h : c.run s = .error e s') : After c s Q R ↔ R e s' := by
  rw [After,h]

theorem After.mono (h : After c s Q R) (hq : ∀ a s', Q a s' → Q' a s')
    (hr : ∀ e s', R e s' → R' e s') : After c s Q' R' := by
  unfold After at h ⊢
  cases hc : c.run s with
  | ok a s' => rw [hc] at h; exact hq a s' h
  | error e s' => rw [hc] at h; exact hr e s' h

/-- Nothing is asked of a computation but that it lets the next one do it. -/
theorem after_of_forall (h : ∀ a s', Q a s') : After c s Q (fun _ _ => True) := by
  unfold After
  cases c.run s with
  | ok a s' => exact h a s'
  | error e s' => trivial

/-- What is known of a computation that stops meets in one error and one state. -/
theorem After.error_meets (h : After c s (fun _ _ => False) R) (h' : After c s Q R') :
    ∃ e s', R e s' ∧ R' e s' := by
  unfold After at h h'
  cases hc : c.run s with
  | ok a s' =>
    rw [hc] at h
    exact h.elim
  | error e s' =>
    rw [hc] at h h'
    exact ⟨e,s',h,h'⟩

end

/-- A change of the state that may be refused; the state is left alone then. -/
def update (f : S → Except E S) : EStateM E S PUnit := do
  let s ← get
  match f s with
  | .ok s' => set s'
  | .error e => throw e

@[simp] theorem after_update {f : S → Except E S} {s : S} {Q : PUnit → S → Prop} {R : E → S → Prop} :
    After (update f) s Q R ↔ Spec (f s) (Q ⟨⟩) (fun e => R e s) := by
  simp only [update,after_bind,after_get]
  cases f s <;> rfl

/-- A value that is read off the state, or refused. -/
def look (f : S → Except E A) : EStateM E S A := do
  let s ← get
  match f s with
  | .ok a => return a
  | .error e => throw e

@[simp] theorem after_look {f : S → Except E A} {s : S} {Q : A → S → Prop} {R : E → S → Prop} :
    After (look f) s Q R ↔ Spec (f s) (fun a => Q a s) (fun e => R e s) := by
  simp only [look,after_bind,after_get]
  cases f s <;> rfl

end Outcome

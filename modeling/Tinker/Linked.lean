import Mathlib.Data.List.Infix
import Mathlib.Data.List.Nodup

/-! Singly linked chains: the cells met from a link on until the null link. -/
namespace Linked

variable {α : Type*} {next next' : α → Option α} {ci : Option α} {l l' : List α} {p n : α}

/-- The cells from `ci` on, in their order, up to the null link. -/
def Chain (next : α → Option α) : Option α → List α → Prop
  | ci, [] => ci = none
  | ci, p :: l => ci = some p ∧ Chain next (next p) l

@[simp] theorem chain_nil : Chain next ci [] ↔ ci = none := Iff.rfl

@[simp] theorem chain_cons : Chain next ci (p :: l) ↔ ci = some p ∧ Chain next (next p) l := Iff.rfl

theorem Chain.head? (h : Chain next ci l) : l.head? = ci := by
  cases l with
  | nil => exact h.symm
  | cons p l => exact h.1.symm

/-- A link leads to one chain only. -/
theorem Chain.unique (h : Chain next ci l) (h' : Chain next ci l') : l = l' := by
  induction l generalizing ci l' with
  | nil =>
    cases l' with
    | nil => rfl
    | cons p l' => cases h.symm.trans h'.1
  | cons p l ih =>
    cases l' with
    | nil => cases h'.symm.trans h.1
    | cons q l' =>
      obtain rfl := Option.some.inj (h.1.symm.trans h'.1)
      rw [ih h.2 h'.2]

/-- From a cell of a chain on there is the rest of it. -/
theorem Chain.suffix (h : Chain next ci l) (hp : p ∈ l) :
    ∃ l', l' <:+ l ∧ Chain next (some p) l' := by
  induction l generalizing ci with
  | nil => exact absurd hp List.not_mem_nil
  | cons q l ih =>
    obtain rfl | hp := List.mem_cons.mp hp
    · exact ⟨p :: l,List.suffix_refl _,rfl,h.2⟩
    · obtain ⟨l',hl',hchain⟩ := ih h.2 hp
      exact ⟨l',hl'.trans (List.suffix_cons q l),hchain⟩

/-- A chain depends on the links of its own cells only. -/
theorem Chain.congr (h : Chain next ci l) (heq : ∀ p ∈ l, next' p = next p) :
    Chain next' ci l := by
  induction l generalizing ci with
  | nil => exact h
  | cons p l ih =>
    refine ⟨h.1,?_⟩
    rw [heq p List.mem_cons_self]
    exact ih h.2 fun q hq => heq q (List.mem_cons_of_mem p hq)

/-- A cell is hung at the end of a chain. -/
theorem Chain.concat (h : Chain next ci (l ++ [p])) (hnext : ∀ q ∈ l, next' q = next q)
    (hp : next' p = some n) (hn : next' n = none) :
    Chain next' ci (l ++ [p] ++ [n]) := by
  induction l generalizing ci with
  | nil => exact ⟨h.1,hp,hn⟩
  | cons q l ih =>
    refine ⟨h.1,?_⟩
    rw [hnext q List.mem_cons_self]
    exact ih h.2 fun r hr => hnext r (List.mem_cons_of_mem q hr)

/-- The cells behind one of a chain. -/
theorem Chain.behind (h : Chain next ci (l ++ p :: l')) : Chain next (next p) l' := by
  induction l generalizing ci with
  | nil => exact h.2
  | cons q l ih => exact ih h.2

/-- A chain goes on in another way behind one of its cells. -/
theorem Chain.splice {r : List α} (h : Chain next ci (l ++ p :: r))
    (hl : ∀ q ∈ l, next' q = next q) (hp : Chain next' (next' p) l') :
    Chain next' ci (l ++ p :: l') := by
  induction l generalizing ci with
  | nil => exact ⟨h.1,hp⟩
  | cons q l ih =>
    refine ⟨h.1,?_⟩
    rw [hl q List.mem_cons_self]
    exact ih h.2 fun x hx => hl x (List.mem_cons_of_mem q hx)

theorem Chain.next_getElem (h : Chain next ci l) {i : ℕ} (hi : i < l.length) :
    next l[i] = l[i+1]? := by
  induction l generalizing ci i with
  | nil => cases hi
  | cons p l ih =>
    cases i with
    | zero =>
      rw [List.getElem_cons_zero,List.getElem?_cons_succ,← List.head?_eq_getElem?,h.2.head?]
    | succ i => exact ih h.2 (Nat.lt_of_succ_lt_succ hi)

theorem Chain.next_mem (h : Chain next ci l) (hp : p ∈ l) (hn : next p = some n) : n ∈ l := by
  obtain ⟨i,hi,rfl⟩ := List.getElem_of_mem hp
  rw [h.next_getElem hi] at hn
  exact List.mem_of_getElem? hn

/-- The cells from `ci` on in both directions: `prev` leads from each to the one before. -/
def Doubly (next prev : α → Option α) : Option α → Option α → List α → Prop
  | _, ci, [] => ci = none
  | before, ci, p :: l => ci = some p ∧ prev p = before ∧ Doubly next prev (some p) (next p) l

namespace Doubly

variable {prev prev' : α → Option α} {before : Option α}

theorem chain (h : Doubly next prev before ci l) : Chain next ci l := by
  induction l generalizing before ci with
  | nil => exact h
  | cons p l ih => exact ⟨h.1,ih h.2.2⟩

theorem congr (h : Doubly next prev before ci l) (hnext : ∀ p ∈ l, next' p = next p)
    (hprev : ∀ p ∈ l, prev' p = prev p) : Doubly next' prev' before ci l := by
  induction l generalizing before ci with
  | nil => exact h
  | cons p l ih =>
    refine ⟨h.1,(hprev p List.mem_cons_self).trans h.2.1,?_⟩
    rw [hnext p List.mem_cons_self]
    exact ih h.2.2 (fun q hq => hnext q (List.mem_cons_of_mem p hq))
      fun q hq => hprev q (List.mem_cons_of_mem p hq)

/-- A cell is hung at the end. -/
theorem concat (h : Doubly next prev before ci (l ++ [p])) (hnext : ∀ q ∈ l, next' q = next q)
    (hprev : ∀ q ∈ l ++ [p], prev' q = prev q) (hp : next' p = some n) (hn : next' n = none)
    (hback : prev' n = some p) : Doubly next' prev' before ci (l ++ [p] ++ [n]) := by
  induction l generalizing before ci with
  | nil => exact ⟨h.1,(hprev p List.mem_cons_self).trans h.2.1,hp,hback,hn⟩
  | cons q l ih =>
    refine ⟨h.1,(hprev q List.mem_cons_self).trans h.2.1,?_⟩
    rw [hnext q List.mem_cons_self]
    exact ih h.2.2 (fun r hr => hnext r (List.mem_cons_of_mem q hr))
      fun r hr => hprev r (List.mem_cons_of_mem q hr)

theorem prev_getElem_succ (h : Doubly next prev before ci l) {i : ℕ} (hi : i+1 < l.length) :
    prev l[i+1] = some l[i] := by
  induction l generalizing before ci i with
  | nil => cases hi
  | cons p l ih =>
    cases i with
    | zero =>
      cases l with
      | nil => exact absurd hi (Nat.lt_irrefl 1)
      | cons q l => exact h.2.2.2.1
    | succ i => exact ih h.2.2 (Nat.lt_of_succ_lt_succ hi)

/-- The two directions are inverse to each other. -/
theorem inverse (h : Doubly next prev none ci l) (hl : l.Nodup) {a b : α} (ha : a ∈ l)
    (hb : b ∈ l) : next a = some b ↔ prev b = some a := by
  obtain ⟨i,hi,rfl⟩ := List.getElem_of_mem ha
  obtain ⟨j,hj,rfl⟩ := List.getElem_of_mem hb
  have hnext : next l[i] = some l[j] ↔ i+1 = j := by
    rw [h.chain.next_getElem hi,← List.getElem?_eq_getElem hj,eq_comm,List.getElem?_inj hj hl,
      eq_comm]
  rw [hnext]
  cases j with
  | zero =>
    cases l with
    | nil => cases hi
    | cons p l => exact iff_of_false (Nat.succ_ne_zero i) (by rw [List.getElem_cons_zero,h.2.1]; nofun)
  | succ j =>
    rw [h.prev_getElem_succ hj,Option.some_inj,hl.getElem_inj_iff,Nat.succ_inj,eq_comm]

end Doubly

end Linked

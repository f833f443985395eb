import Mathlib.Data.List.Basic
import Mathlib.Logic.Function.Basic
import Mathlib.Tactic.Common

/-! Memory as cells by address: `memcpy` to an address and from one. -/
namespace Memory

variable {α : Type*}

/-- The cells written from address `i` on. -/
def poke (mem : ℕ → α) : ℕ → List α → ℕ → α
  | _, [] => mem
  | i, a :: as => poke (Function.update mem i a) (i+1) as

/-- The `n` cells from address `i` on. -/
def peek (mem : ℕ → α) (i n : ℕ) : List α := (List.range n).map fun j => mem (i+j)

variable {mem : ℕ → α} {i j n : ℕ} {as : List α}

theorem poke_apply (mem : ℕ → α) (i : ℕ) (as : List α) (j : ℕ) :
    poke mem i as j = if i ≤ j then (as[j-i]?).getD (mem j) else mem j := by
  induction as generalizing mem i with
  | nil => simp [poke]
  | cons a as ih =>
    rw [poke,ih]
    obtain hlt | rfl | hgt := Nat.lt_trichotomy j i
    · rw [if_neg (by omega),if_neg (by omega),Function.update_of_ne (by omega)]
    · rw [if_neg (by omega),if_pos (Nat.le_refl j)]
      simp
    · obtain ⟨d,rfl⟩ := Nat.exists_eq_add_of_lt hgt
      rw [if_pos (by omega),if_pos (by omega),Function.update_of_ne (by omega)]
      rw [show i+d+1-(i+1) = d by omega,show i+d+1-i = d+1 by omega,List.getElem?_cons_succ]

theorem poke_add (h : j < as.length) : poke mem i as (i+j) = as[j] := by
  rw [poke_apply,if_pos (Nat.le_add_right i j),Nat.add_sub_cancel_left,List.getElem?_eq_getElem h,
    Option.getD_some]

theorem poke_of_lt (h : j < i) : poke mem i as j = mem j := by
  rw [poke_apply,if_neg (Nat.not_le.mpr h)]

theorem poke_of_le (h : i+as.length ≤ j) : poke mem i as j = mem j := by
  rw [poke_apply,if_pos (by omega),List.getElem?_eq_none (by omega),Option.getD_none]

@[simp] theorem peek_length (mem : ℕ → α) (i n : ℕ) : (peek mem i n).length = n := by
  simp [peek]

@[simp] theorem peek_getElem (h : j < (peek mem i n).length) : (peek mem i n)[j] = mem (i+j) := by
  simp [peek]

theorem peek_add (mem : ℕ → α) (i n k : ℕ) :
    peek mem i (n+k) = peek mem i n ++ peek mem (i+n) k := by
  simp [peek,List.range_add,Nat.add_assoc]

/-- Writes one behind the other are one write. -/
theorem poke_append (mem : ℕ → α) (i : ℕ) (as bs : List α) :
    poke mem i (as ++ bs) = poke (poke mem i as) (i+as.length) bs := by
  induction as generalizing mem i with
  | nil => rfl
  | cons a as ih =>
    rw [List.cons_append,poke,poke,ih,List.length_cons,Nat.add_right_comm,Nat.add_assoc i]

theorem peek_eq_take (hn : n ≤ as.length) (h : ∀ j (hj : j < as.length), mem (i+j) = as[j]) :
    peek mem i n = as.take n := by
  refine List.ext_getElem (by simp [hn]) fun j h1 h2 => ?_
  rw [peek_length] at h1
  rw [peek_getElem,List.getElem_take]
  exact h j (Nat.lt_of_lt_of_le h1 hn)

/-- A range reads the same in memories that agree on it. -/
theorem peek_congr {mem' : ℕ → α} (h : ∀ x, i ≤ x → x < i+n → mem' x = mem x) :
    peek mem' i n = peek mem i n := by
  apply List.map_congr_left
  intro j hj
  exact h (i+j) (Nat.le_add_right i j) (Nat.add_lt_add_left (List.mem_range.mp hj) i)

theorem peek_poke (mem : ℕ → α) (i : ℕ) (as : List α) : peek (poke mem i as) i as.length = as := by
  rw [peek_eq_take (Nat.le_refl _) fun j hj => poke_add hj,List.take_length]

/-- A write beside a range leaves it. -/
theorem peek_poke_of_apart (h : j+n ≤ i ∨ i+as.length ≤ j) :
    peek (poke mem i as) j n = peek mem j n := by
  apply peek_congr
  intro x hle hlt
  rcases h with h | h
  · exact poke_of_lt (Nat.lt_of_lt_of_le hlt h)
  · exact poke_of_le (Nat.le_trans h hle)

end Memory

import Mathlib.Data.List.Basic
import Mathlib.Logic.Function.Basic
import Tinker.Outcome

/-! Buffers from `malloc`.
A number names one allocation only, so a pointer to freed memory stays recognisable: reading,
writing or freeing through it is a fault. -/

/-- The contents of the buffers that are allocated, and the number of the next one. -/
structure Heap (B : Type*) where
  mem : ℕ → Option (List B)
  next : ℕ

namespace Heap

open Outcome

variable {B E : Type*} {h h' : Heap B} {b c : ℕ}

def empty : Heap B := ⟨fun _ => none,0⟩

/-- `malloc`, with the contents the buffer happens to have. -/
def malloc (h : Heap B) (junk : List B) : Heap B × ℕ :=
  (⟨Function.update h.mem h.next (some junk),h.next+1⟩,h.next)

/-- `free`; NULL is let through, a buffer that is not allocated is not. -/
def free (bad : E) (h : Heap B) : Option ℕ → Except E (Heap B)
  | none => .ok h
  | some b => if (h.mem b).isSome then .ok { h with mem := Function.update h.mem b none } else .error bad

/-- The contents a pointer leads to. -/
def get (null bad : E) (h : Heap B) : Option ℕ → Except E (List B)
  | none => .error null
  | some b => match h.mem b with
    | none => .error bad
    | some l => .ok l

/-- `memcpy` to the start of a buffer. -/
def write (null bad : E) (h : Heap B) (p : Option ℕ) (src : List B) : Except E (Heap B) := do
  let old ← h.get null bad p
  check (src.length ≤ old.length) bad
  return { h with mem := Function.update h.mem (p.getD 0) (some (src ++ old.drop src.length)) }

/-- `memcpy` of the first `n` bytes out of a buffer. -/
def read (null bad : E) (h : Heap B) (p : Option ℕ) (n : ℕ) : Except E (List B) := do
  let old ← h.get null bad p
  check (n ≤ old.length) bad
  return old.take n

/-- The numbers from `next` on are not in use. -/
def Fresh (h : Heap B) : Prop := ∀ b, h.next ≤ b → h.mem b = none

theorem fresh_empty : (empty : Heap B).Fresh := fun _ _ => rfl

theorem Fresh.lt (hf : h.Fresh) {l : List B} (hb : h.mem b = some l) : b < h.next := by
  by_contra hn
  rw [hf b (Nat.le_of_not_lt hn)] at hb
  cases hb

theorem malloc_mem_of_ne {junk : List B} (hb : b ≠ h.next) : (h.malloc junk).1.mem b = h.mem b :=
  Function.update_of_ne hb _ _

theorem Fresh.malloc (hf : h.Fresh) (junk : List B) : (h.malloc junk).1.Fresh := by
  intro b hb
  simp only [Heap.malloc] at hb ⊢
  rw [Function.update_of_ne (by omega)]
  exact hf b (by omega)

/-- A buffer may be given up. -/
theorem Fresh.erase (hf : h.Fresh) (p : ℕ) :
    Fresh { h with mem := Function.update h.mem p none } := by
  intro b hb
  simp only [Function.update_apply]
  split
  · rfl
  · exact hf b hb

end Heap

import Mathlib.Algebra.GroupWithZero.Nat
import Mathlib.Tactic.Common

/-! A count in two machine words, with a carry from the low one to the high one. -/
namespace WideCounter

variable {n : ℕ}

structure Words (n : ℕ) where
  hi : BitVec n
  lo : BitVec n
  deriving DecidableEq

namespace Words

/-- What the two words count. -/
def value (w : Words n) : ℕ := w.hi.toNat*2^n+w.lo.toNat

/-- One more word is counted. -/
def add (w : Words n) (a : BitVec n) : Words n :=
  if w.lo+a < w.lo then ⟨w.hi+1,w.lo+a⟩ else ⟨w.hi,w.lo+a⟩

theorem value_lt (w : Words n) : w.value < 2^n*2^n := by
  have hhi : w.hi.toNat*2^n+2^n ≤ 2^n*2^n := by
    rw [← Nat.succ_mul]
    exact Nat.mul_le_mul_right _ w.hi.isLt
  have hlo := w.lo.isLt
  rw [value]
  omega

theorem mul_add_mod {h x : ℕ} (hx : x < 2^n) :
    (h*2^n+x) % (2^n*2^n) = h % 2^n*2^n+x := by
  have hmod : (h*2^n+x) % 2^n = x := by
    rw [Nat.mul_add_mod_self_right,Nat.mod_eq_of_lt hx]
  have hdiv : (h*2^n+x)/2^n = h := by
    rw [Nat.add_comm,Nat.add_mul_div_right _ _ (Nat.two_pow_pos n),Nat.div_eq_of_lt hx,Nat.zero_add]
  rw [Nat.mod_mul,hmod,hdiv,Nat.mul_comm,Nat.add_comm]

/-- A sum of words is below its first summand just when it wraps. -/
theorem add_lt_iff (x a : BitVec n) : x+a < x ↔ 2^n ≤ x.toNat+a.toNat := by
  have hx := x.isLt
  have ha := a.isLt
  rw [BitVec.lt_def,BitVec.toNat_add]
  by_cases hc : x.toNat+a.toNat < 2^n
  · rw [Nat.mod_eq_of_lt hc]
    omega
  · rw [Nat.mod_eq_sub_mod (by omega),Nat.mod_eq_of_lt (by omega)]
    omega

theorem add_value (w : Words n) (a : BitVec n) :
    (w.add a).value = (w.value+a.toNat) % (2^n*2^n) := by
  have hlo := w.lo.isLt
  have ha := a.isLt
  unfold add
  split
  · next hc =>
    rw [add_lt_iff] at hc
    have hmod : (w.lo.toNat+a.toNat) % 2^n = w.lo.toNat+a.toNat-2^n := by
      rw [Nat.mod_eq_sub_mod hc,Nat.mod_eq_of_lt (by omega)]
    have hone : (w.hi+1).toNat = (w.hi.toNat+1) % 2^n := by simp [BitVec.toNat_add]
    have hcarry : w.hi.toNat*2^n+w.lo.toNat+a.toNat =
        (w.hi.toNat+1)*2^n+(w.lo.toNat+a.toNat-2^n) := by
      rw [Nat.succ_mul]
      omega
    have hsum : (w.lo+a).toNat = w.lo.toNat+a.toNat-2^n := by rw [BitVec.toNat_add,hmod]
    rw [value,value,hcarry,mul_add_mod (by omega),hone,hsum]
  · next hc =>
    rw [add_lt_iff,Nat.not_le] at hc
    have hsum : (w.lo+a).toNat = w.lo.toNat+a.toNat := by
      rw [BitVec.toNat_add,Nat.mod_eq_of_lt hc]
    rw [value,value,Nat.add_assoc,mul_add_mod hc,Nat.mod_eq_of_lt w.hi.isLt,hsum]

/-- After any number of additions the words hold the sum, as long as it fits. -/
theorem foldl_add_value (w : Words n) (l : List (BitVec n)) :
    (l.foldl add w).value = (w.value+(l.map BitVec.toNat).sum) % (2^n*2^n) := by
  induction l generalizing w with
  | nil => simp [Nat.mod_eq_of_lt w.value_lt]
  | cons a l ih => simp [ih,add_value,Nat.add_assoc]

end Words

end WideCounter

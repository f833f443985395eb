import Mathlib.Algebra.GroupWithZero.Nat
import Mathlib.Tactic.Common

/-! The digits of a number from the highest power of the base down, as a loop over the powers meets
them. Without leading zeros they are what the number is printed as. -/
namespace Numeral

/-- The `k` digits of `n`, from that of `b^(k-1)` on. -/
def digits (b : ℕ) : ℕ → ℕ → List ℕ
  | 0, _ => []
  | k+1, n => n/b^k :: digits b k (n % b^k)

variable {b k n : ℕ}

@[simp] theorem digits_length (b k n : ℕ) : (digits b k n).length = k := by
  induction k generalizing n with
  | zero => rfl
  | succ k ih => rw [digits,List.length_cons,ih]

theorem digits_lt (hn : n < b^k) : ∀ d ∈ digits b k n, d < b := by
  induction k generalizing n with
  | zero => exact fun d hd => absurd hd List.not_mem_nil
  | succ k ih =>
    intro d hd
    rcases List.mem_cons.mp hd with rfl | hd
    · exact Nat.div_lt_of_lt_mul (by rwa [← Nat.pow_succ])
    · have hpos : 0 < b^k := Nat.pos_of_ne_zero fun h0 => by
        rw [Nat.pow_succ,h0,Nat.zero_mul] at hn
        exact Nat.not_lt_zero n hn
      exact ih (Nat.mod_lt n hpos) d hd

/-- The lowest digit stands at the end. -/
theorem digits_concat (hb : 0 < b) (hn : n < b^(k+1)) :
    digits b (k+1) n = digits b k (n/b) ++ [n % b] := by
  induction k generalizing n with
  | zero =>
    rw [Nat.pow_one] at hn
    simp only [digits,Nat.pow_zero,Nat.div_one,List.nil_append,Nat.mod_eq_of_lt hn]
  | succ k ih =>
    have hlt : n % b^(k+1) < b^(k+1) := Nat.mod_lt n (Nat.pow_pos hb)
    have hhigh : n/b^(k+1) = n/b/b^k := by rw [Nat.div_div_eq_div_mul,Nat.pow_succ']
    have hmid : n % b^(k+1)/b = n/b % b^k := by rw [Nat.pow_succ',Nat.mod_mul_right_div_self]
    have hlow : n % b^(k+1) % b = n % b := Nat.mod_mod_of_dvd n ⟨b^k,Nat.pow_succ'⟩
    rw [digits,ih hlt,hhigh,hmid,hlow]
    rfl

/-- A number whose highest digit is not zero is printed as its digits. -/
theorem toDigits_eq (hb : 1 < b) (hlo : b^k ≤ n) (hhi : n < b^(k+1)) :
    Nat.toDigits b n = (digits b (k+1) n).map Nat.digitChar := by
  induction k generalizing n with
  | zero =>
    rw [Nat.zero_add,Nat.pow_one] at hhi
    rw [Nat.toDigits_of_lt_base hhi]
    simp [digits]
  | succ k ih =>
    have hle : b ≤ n := by
      calc b = b^1 := (Nat.pow_one b).symm
        _ ≤ b^(k+1) := Nat.pow_le_pow_right (by omega) (by omega)
        _ ≤ n := hlo
    have hlo' : b^k ≤ n/b := by
      rw [Nat.le_div_iff_mul_le (by omega)]
      exact hlo
    have hhi' : n/b < b^(k+1) := by
      rw [Nat.div_lt_iff_lt_mul (by omega)]
      exact hhi
    rw [Nat.toDigits_of_base_le hb hle,ih hlo' hhi',digits_concat (by omega) hhi,List.map_append]
    rfl

end Numeral

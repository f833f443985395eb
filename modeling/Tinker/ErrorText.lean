import Tinker.ItcObjects
import Tinker.Memory
import Tinker.Numeral
import Mathlib.Data.Nat.Log
import Mathlib.Tactic.IntervalCases

/-! The numbers in the messages of `tk_trap`. `_ntos` divides by the powers of ten from the eighth
digit down and drops every zero in front of the first digit that is none. -/
namespace Tinker

open Memory Numeral

/-- The loop of `_ntos` over the divisors. -/
def ntosLoop (d number : ℤ) (j : ℕ) (a : Bool) (outst : ℕ → Byte) : ℕ → Byte :=
  if d = 0 then outst
  else
    let div := number.tdiv d
    if a = true ∨ div ≠ 0 then
      ntosLoop (d.tdiv 10) (number-div*d) (j+1) true
        (Function.update outst j (BitVec.ofInt 8 (48+div)))
    else ntosLoop (d.tdiv 10) number j a outst
termination_by d.natAbs
decreasing_by
  all_goals
    rw [Int.natAbs_tdiv]
    exact Nat.div_lt_self (by omega) (by decide)

/-- `_ntos`; a negative `maxlen` is as good as zero. -/
def ntos (outst : ℕ → Byte) (number : ℤ) (maxlen : ℕ) : ℕ → Byte :=
  ntosLoop 10000000 number 0 false fun i => if i < maxlen then 0 else outst i

/-- The characters of a number. -/
def decimal (n : ℕ) : List Byte := (Nat.toDigits 10 n).map fun c => BitVec.ofNat 8 c.toNat

/-- The characters up to the first zero byte are `s`. -/
structure IsText (outst : ℕ → Byte) (s : List Byte) : Prop where
  chars : ∀ i (hi : i < s.length), outst i = s[i] ∧ s[i] ≠ 0
  stop : outst s.length = 0

variable {k n j maxlen : ℕ} {outst : ℕ → Byte}

@[simp] theorem decimal_length (n : ℕ) : (decimal n).length = (Nat.toDigits 10 n).length :=
  List.length_map _

/-- What the loop writes for a digit. -/
def digitByte (d : ℕ) : Byte := BitVec.ofInt 8 (48+d)

theorem digitByte_eq (hd : n < 10) : digitByte n = BitVec.ofNat 8 (Nat.digitChar n).toNat := by
  interval_cases n <;> rfl

theorem digitByte_ne_zero (hd : n < 10) : digitByte n ≠ 0 := by
  interval_cases n <;> decide

theorem tdiv_ten_pow (k : ℕ) : ((10:ℤ)^(k+1)).tdiv 10 = 10^k := by
  rw [pow_succ]
  exact Int.mul_tdiv_cancel _ (by decide)

theorem tdiv_pow (n k : ℕ) : (n:ℤ).tdiv (10^k) = (n/10^k : ℕ) := by
  rw [Int.tdiv_eq_ediv_of_nonneg (Int.natCast_nonneg n)]
  norm_cast

@[simp] theorem ntosLoop_end (number : ℤ) (j : ℕ) (a : Bool) (outst : ℕ → Byte) :
    ntosLoop (((10:ℤ)^0).tdiv 10) number j a outst = outst := by
  rw [ntosLoop]
  exact if_pos rfl

/-- A round that writes. -/
theorem ntosLoop_writes {a : Bool} (h : a = true ∨ n/10^k ≠ 0) :
    ntosLoop (10^k) n j a outst =
      ntosLoop (((10:ℤ)^k).tdiv 10) (n % 10^k : ℕ) (j+1) true
        (Function.update outst j (digitByte (n/10^k))) := by
  have hd : (10:ℤ)^k ≠ 0 := pow_ne_zero k (by decide)
  have hmod : (n:ℤ)-(n/10^k : ℕ)*10^k = (n % 10^k : ℕ) := by
    push_cast
    rw [Int.emod_def,Int.mul_comm]
  rw [ntosLoop,if_neg hd]
  simp only [tdiv_pow]
  rw [if_pos (h.imp id fun h0 => Int.natCast_ne_zero.mpr h0),hmod]
  rfl

/-- A round that drops a leading zero. -/
theorem ntosLoop_drops (h : n/10^k = 0) :
    ntosLoop (10^k) n j false outst = ntosLoop (((10:ℤ)^k).tdiv 10) n j false outst := by
  have hd : (10:ℤ)^k ≠ 0 := pow_ne_zero k (by decide)
  rw [ntosLoop,if_neg hd]
  simp only [tdiv_pow,h]
  rfl

/-- Behind the first digit every round writes. -/
theorem ntosLoop_digits (k n j : ℕ) (outst : ℕ → Byte) :
    ntosLoop (10^k) n j true outst = poke outst j ((digits 10 (k+1) n).map digitByte) := by
  induction k generalizing n j outst with
  | zero =>
    rw [ntosLoop_writes (Or.inl rfl),ntosLoop_end]
    rfl
  | succ k ih =>
    rw [ntosLoop_writes (Or.inl rfl),tdiv_ten_pow,ih]
    rfl

theorem ntosLoop_starts (h : n/10^k ≠ 0) :
    ntosLoop (10^k) n j false outst = poke outst j ((digits 10 (k+1) n).map digitByte) := by
  rw [← ntosLoop_digits,ntosLoop_writes (Or.inr h),ntosLoop_writes (Or.inl rfl)]

theorem ntosLoop_zero (k j : ℕ) (outst : ℕ → Byte) :
    ntosLoop (10^k) 0 j false outst = outst := by
  have hdrop : ∀ k, ntosLoop (10^k) ((0:ℕ):ℤ) j false outst =
      ntosLoop (((10:ℤ)^k).tdiv 10) ((0:ℕ):ℤ) j false outst := fun k =>
    ntosLoop_drops (Nat.zero_div (10^k))
  rw [Nat.cast_zero] at hdrop
  induction k with
  | zero => rw [hdrop,ntosLoop_end]
  | succ k ih => rw [hdrop,tdiv_ten_pow,ih]

theorem decimal_eq_digits (hlo : 10^k ≤ n) (hhi : n < 10^(k+1)) :
    decimal n = (digits 10 (k+1) n).map digitByte := by
  rw [decimal,toDigits_eq (by decide) hlo hhi,List.map_map]
  exact List.map_congr_left fun d hd => (digitByte_eq (digits_lt hhi d hd)).symm

/-- The leading zeros are dropped, the rest is the number. -/
theorem ntosLoop_decimal (hpos : 1 ≤ n) (hn : n < 10^(k+1)) :
    ntosLoop (10^k) n j false outst = poke outst j (decimal n) := by
  induction k with
  | zero =>
    have hlo : 10^0 ≤ n := hpos
    rw [ntosLoop_starts (by rw [Nat.pow_zero,Nat.div_one]; omega),decimal_eq_digits hlo hn]
  | succ k ih =>
    by_cases hlt : n < 10^(k+1)
    · rw [ntosLoop_drops (Nat.div_eq_of_lt hlt),tdiv_ten_pow]
      exact ih hlt
    · have hlo : 10^(k+1) ≤ n := Nat.le_of_not_lt hlt
      have hne : n/10^(k+1) ≠ 0 :=
        Nat.pos_iff_ne_zero.mp (Nat.div_pos hlo (Nat.pow_pos (by decide)))
      rw [ntosLoop_starts hne,decimal_eq_digits hlo hn]

theorem decimal_ne_zero (hpos : 1 ≤ n) : ∀ b ∈ decimal n, b ≠ 0 := by
  have hlog : ∃ k, 10^k ≤ n ∧ n < 10^(k+1) :=
    ⟨Nat.log 10 n,Nat.pow_log_le_self 10 (by omega),Nat.lt_pow_succ_log_self (by decide) n⟩
  obtain ⟨k,hlo,hhi⟩ := hlog
  intro b hb
  rw [decimal_eq_digits hlo hhi] at hb
  obtain ⟨d,hd,rfl⟩ := List.mem_map.mp hb
  exact digitByte_ne_zero (digits_lt hhi d hd)

/-- Characters without a zero among them, written into zeroed memory, are a text. -/
theorem isText_poke {s : List Byte} (hs : ∀ b ∈ s, b ≠ 0) (hlen : s.length < maxlen) :
    IsText (poke (fun i => if i < maxlen then 0 else outst i) 0 s) s := by
  constructor
  · intro i hi
    have h : poke (fun i => if i < maxlen then 0 else outst i) 0 s (0+i) = s[i] := poke_add hi
    rw [Nat.zero_add] at h
    exact ⟨h,hs _ (List.getElem_mem hi)⟩
  · rw [poke_of_le (by omega),if_pos hlen]

/-- A number of nine digits or more is not written out. -/
theorem toDigits_length_of_le (h : 10^8 ≤ n) : 8 < (Nat.toDigits 10 n).length := by
  by_contra hlen
  have := (Nat.length_toDigits_le_iff (by decide) (by decide)).mp (Nat.le_of_not_lt hlen)
  omega

/-- `_ntos` writes the decimal form for the numbers from 1 to 99999999 only: zero is the empty
text, and a longer number has its leading digits run together in one character. -/
theorem ntos_decimal_iff {n : ℕ} (hn : n < 2^31) {maxlen : ℕ} (outst : ℕ → Byte)
    (hlen : (Nat.toDigits 10 n).length < maxlen) :
    (IsText (ntos outst n maxlen) (decimal n) ∧
      ∀ i, maxlen ≤ i → ntos outst n maxlen i = outst i) ↔ 1 ≤ n ∧ n < 10^8 := by
  rw [ntos,show (10000000:ℤ) = 10^7 by norm_num]
  constructor
  · rintro ⟨⟨hchars,hstop⟩,-⟩
    rcases Nat.eq_zero_or_pos n with rfl | hpos
    · -- nothing is written for zero
      have h0 : ntosLoop ((10:ℤ)^7) ((0:ℕ):ℤ) 0 false
          (fun i => if i < maxlen then 0 else outst i) 0 = 0 := by
        rw [Nat.cast_zero,ntosLoop_zero]
        exact if_pos (Nat.zero_lt_of_lt hlen)
      have hhead := hchars 0 (by rw [decimal_length]; decide)
      exact absurd (hhead.1.symm.trans h0) hhead.2
    · refine ⟨hpos,Nat.lt_of_not_le fun hbig => ?_⟩
      -- only eight characters are written, the ninth stays zero
      have hlong : 8 < (decimal n).length := by
        rw [decimal_length]
        exact toDigits_length_of_le hbig
      have hne : n/10^7 ≠ 0 := by omega
      have hninth := hchars 8 hlong
      rw [ntosLoop_starts hne,poke_of_le (by simp),if_pos (by rw [decimal_length] at hlong; omega)]
        at hninth
      exact hninth.2 hninth.1.symm
  · rintro ⟨hpos,hlt⟩
    have hlen' : (decimal n).length < maxlen := by rwa [decimal_length]
    rw [ntosLoop_decimal hpos hlt]
    constructor
    · exact isText_poke (decimal_ne_zero hpos) hlen'
    · intro i hi
      rw [poke_of_le (by omega),if_neg (Nat.not_lt.mpr hi)]

/-- A number a trap really carries is written out. -/
theorem ntos_decimal_4711 : IsText (ntos (fun _ => 255) 4711 16) (decimal 4711) :=
  ((ntos_decimal_iff (n:=4711) (by decide) (fun _ => 255) (by decide)).mpr (by decide)).1

/-- `_ntos(out,0,16)` leaves the empty text. -/
theorem not_ntos_decimal : ¬ ∀ n : ℕ, n < 2^31 → ∀ maxlen : ℕ, (Nat.toDigits 10 n).length < maxlen →
    ∀ outst : ℕ → Byte, IsText (ntos outst n maxlen) (decimal n) ∧
      ∀ i, maxlen ≤ i → ntos outst n maxlen i = outst i := by
  intro h
  have h0 := (h 0 (by decide) 16 (by decide) fun _ => 255).1.chars 0 (by decide)
  have hempty : ntos (fun _ => 255) ((0:ℕ):ℤ) 16 0 = 0 := by
    rw [ntos,show (10000000:ℤ) = 10^7 by norm_num,Nat.cast_zero,ntosLoop_zero]
    rfl
  exact h0.2 (h0.1.symm.trans hempty)

end Tinker

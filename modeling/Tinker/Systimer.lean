import Mathlib.Logic.Function.Iterate
import Tinker.WideCounter

/-! The tick interrupt of the PowerPC board: three handlers for it, the one that is installed, and
the clock that joins the two words they count in. -/
namespace Tinker

open WideCounter

/-- `systimer_Handler_1`; `__sys_mackey` is the high word. -/
def systimerHandler1 (tick : Words 32) : Words 32 :=
  let tick := { tick with lo := tick.lo+1 }
  if tick.lo = 0 then { tick with hi := tick.hi+1 } else tick

/-- `systimer_Handler_2`. -/
def systimerHandler2 (tick : Words 32) : Words 32 := { tick with lo := tick.lo+1 }

/-- `systimer_Handler_3`. -/
def systimerHandler3 (tick : Words 32) : Words 32 := { tick with lo := tick.lo+1 }

/-- The tick variables, and the entry of `isr_table` for their interrupt. -/
structure Systimer where
  tick : Words 32
  isr : Words 32 → Words 32

/-- `systimer_init`. -/
def systimerInit (_ : Systimer) : Systimer := ⟨⟨0,0⟩,systimerHandler3⟩

/-- The interrupt comes. -/
def Systimer.interrupt (s : Systimer) : Systimer := { s with tick := s.isr s.tick }

/-- `(TmickS_high << 32) + TmickS_low`, a `long long`. -/
def ticksOf (tick : Words 32) : BitVec 64 := tick.hi.setWidth 64 <<< 32+tick.lo.setWidth 64

/-- The one handler that carries counts one more tick. -/
theorem systimerHandler1_eq (tick : Words 32) : systimerHandler1 tick = tick.add 1 := by
  have hlt : tick.lo+1 < tick.lo ↔ tick.lo+1 = 0 := by bv_omega
  simp only [systimerHandler1,Words.add,hlt]

/-- With it installed, the words would count all ticks. -/
theorem iterate_handler1_value (n : ℕ) (tick : Words 32) :
    (systimerHandler1^[n] tick).value = (tick.value+n) % (2^32*2^32) := by
  induction n generalizing tick with
  | zero => rw [Function.iterate_zero_apply,Nat.add_zero,Nat.mod_eq_of_lt tick.value_lt]
  | succ n ih =>
    have hone : (1 : BitVec 32).toNat = 1 := rfl
    rw [Function.iterate_succ_apply,ih,systimerHandler1_eq,Words.add_value,Nat.mod_add_mod,hone,
      Nat.add_assoc,Nat.add_comm 1 n]

theorem iterate_handler3 (n : ℕ) (tick : Words 32) :
    systimerHandler3^[n] tick = { tick with lo := tick.lo+BitVec.ofNat 32 n } := by
  induction n generalizing tick with
  | zero => simp
  | succ n ih =>
    rw [Function.iterate_succ_apply,ih]
    simp only [systimerHandler3,Words.mk.injEq,true_and]
    bv_omega

/-- Until the low word wraps, the handlers do the same. -/
theorem iterate_handler1 {n : ℕ} {tick : Words 32} (h : tick.lo.toNat+n < 2^32) :
    systimerHandler1^[n] tick = { tick with lo := tick.lo+BitVec.ofNat 32 n } := by
  induction n generalizing tick with
  | zero => simp
  | succ n ih =>
    have hne : tick.lo+1 ≠ 0 := by bv_omega
    have hlo : (tick.lo+1).toNat = tick.lo.toNat+1 := by bv_omega
    have hstep : systimerHandler1 tick = { tick with lo := tick.lo+1 } := if_neg hne
    rw [Function.iterate_succ_apply,hstep,ih (by simp only [hlo]; omega)]
    simp only [Words.mk.injEq,true_and]
    bv_omega

/-- When it wraps, only the first one carries. -/
theorem handler1_ne_handler3 {tick : Words 32} (h : tick.lo+1 = 0) :
    systimerHandler1 tick ≠ systimerHandler3 tick := by
  have hstep : systimerHandler1 tick = { hi := tick.hi+1, lo := tick.lo+1 } := if_pos h
  rw [hstep,systimerHandler3]
  intro he
  have hhi := congrArg Words.hi he
  simp only at hhi
  bv_omega

/-- The handlers agree over the next `n` ticks. -/
def HandlersAgree (n : ℕ) (tick : Words 32) : Prop :=
  ∀ i ≤ n, systimerHandler1^[i] tick = systimerHandler2^[i] tick ∧
    systimerHandler2^[i] tick = systimerHandler3^[i] tick

theorem handlersAgree_iff (n : ℕ) (tick : Words 32) :
    HandlersAgree n tick ↔ tick.lo.toNat+n < 2^32 := by
  have h23 : systimerHandler2 = systimerHandler3 := rfl
  constructor
  · intro h
    by_contra hwrap
    -- the last tick before the wrap
    have hlt := tick.lo.isLt
    obtain ⟨i,hi⟩ : ∃ i, tick.lo.toNat+i+1 = 2^32 := ⟨2^32-1-tick.lo.toNat,by omega⟩
    have hagree := (h (i+1) (by omega)).1
    rw [h23,Function.iterate_succ_apply',Function.iterate_succ_apply',iterate_handler1 (by omega),
      iterate_handler3] at hagree
    refine handler1_ne_handler3 ?_ hagree
    simp only
    bv_omega
  · intro h i hi
    rw [h23,iterate_handler1 (by omega),iterate_handler3]
    exact ⟨rfl,rfl⟩

/-- The tick variables after `n` ticks since `systimer_init`. -/
def Systimer.tickAfter (s : Systimer) (n : ℕ) : Words 32 :=
  (Systimer.interrupt^[n] (systimerInit s)).tick

theorem tickAfter_eq (s : Systimer) (n : ℕ) : s.tickAfter n = ⟨0,BitVec.ofNat 32 n⟩ := by
  have hrun : ∀ tick, Systimer.interrupt^[n] ⟨tick,systimerHandler3⟩ =
      ⟨systimerHandler3^[n] tick,systimerHandler3⟩ := by
    induction n with
    | zero => intro tick; rfl
    | succ n ih =>
      intro tick
      rw [Function.iterate_succ_apply,Function.iterate_succ_apply]
      exact ih (systimerHandler3 tick)
  rw [Systimer.tickAfter,systimerInit,hrun,iterate_handler3]
  simp

theorem ticksOf_tickAfter (s : Systimer) (n : ℕ) :
    (ticksOf (s.tickAfter n)).toInt = (n % 2^32 : ℕ) := by
  have hjoin : ticksOf (s.tickAfter n) = (BitVec.ofNat 32 n).setWidth 64 := by
    rw [tickAfter_eq]
    simp [ticksOf]
  have hnat : ((BitVec.ofNat 32 n).setWidth 64).toNat = n % 2^32 := by
    rw [BitVec.toNat_setWidth,BitVec.toNat_ofNat]
    omega
  rw [hjoin,BitVec.toInt_eq_toNat_of_lt (by rw [hnat]; omega),hnat]

/-- The handlers agree, the words count the ticks and the clock does not go back just as long as the
low word does not wrap. -/
theorem systimer_counts_iff (n : ℕ) (tick : Words 32) (s : Systimer) :
    (HandlersAgree n tick ↔ tick.lo.toNat+n < 2^32) ∧
    ((∀ i ≤ n, i < 2^64 → (s.tickAfter i).hi.toNat*2^32+(s.tickAfter i).lo.toNat = i) ↔ n < 2^32) ∧
    ((∀ i j, i ≤ j → j ≤ n →
      (ticksOf (s.tickAfter i)).toInt ≤ (ticksOf (s.tickAfter j)).toInt) ↔ n < 2^32) := by
  refine ⟨handlersAgree_iff n tick,⟨fun h => ?_,fun hn i hi _ => ?_⟩,⟨fun h => ?_,
    fun hn i j hij hj => ?_⟩⟩
  · by_contra hwrap
    have hcount := h (2^32) (by omega) (by decide)
    rw [tickAfter_eq] at hcount
    exact absurd hcount (by decide)
  · have hzero : (0 : BitVec 32).toNat = 0 := rfl
    rw [tickAfter_eq]
    simp only [BitVec.toNat_ofNat,hzero]
    omega
  · by_contra hwrap
    have hle := h (2^32-1) (2^32) (by omega) (by omega)
    rw [ticksOf_tickAfter,ticksOf_tickAfter] at hle
    exact absurd hle (by decide)
  · rw [ticksOf_tickAfter,ticksOf_tickAfter]
    omega

theorem systimer_not_counts : ¬∀ (n : ℕ) (tick : Words 32), HandlersAgree n tick := by
  intro h
  have hagree := (h 1 ⟨0,0xFFFFFFFF⟩ 1 (Nat.le_refl 1)).1
  exact absurd hagree (by decide)

end Tinker

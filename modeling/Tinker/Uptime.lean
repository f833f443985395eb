import Tinker.Outcome
import Tinker.WideCounter

/-! The milliseconds of `tk_tick.h` in two words, and `getnanouptime`, which turns them into
seconds and nanoseconds without any arithmetic beyond 32 bits. -/
namespace Tinker

open Outcome WideCounter

/-- `unsigned long` of the targets. -/
abbrev Word := BitVec 32

/-- `_tk_tick_advance_mS` with `SPEEDUP` 1; `sys_mackey` is the high word. -/
def tickAdvanceMS (sys : Words 32) (advance : Word) : Words 32 :=
  if sys.lo+advance < sys.lo then { hi := sys.hi+1, lo := sys.lo+advance }
  else { sys with lo := sys.lo+advance }

/-- What `CLK1` tells of itself, and its reading. -/
structure HWclock where
  freqHz : Word
  res : BitVec 8
  maxPebbles : Word
  pebbles : Word

inductive ClockFault
  | errHw | divByZero
  deriving DecidableEq

/-- The nanoseconds since the last tick. -/
def HWclock.tnS (clk : HWclock) : Except ClockFault Word := do
  check (¬(16 < clk.res ∧ clk.freqHz < 1000000)) .errHw
  let tnS := clk.maxPebbles-clk.pebbles
  check (clk.freqHz/100 ≠ 0) .divByZero
  return tnS*(1000000000/(clk.freqHz/100))/100

structure Timespec where
  tvSec : Word
  tvNsec : Word
  deriving DecidableEq

/-- The seconds in 2^32 milliseconds, and the milliseconds left over. -/
def factor : Word := 0x418937
def ffract : Word := 0x128

example : factor.toNat*1000+ffract.toNat = 2^32 := by decide

/-- `getnanouptime` from the reading of the clock on. -/
def nanouptime (sys : Words 32) (tnS : Word) : Timespec :=
  let mSmS := sys.hi
  let lSmS := sys.lo
  let mSfrac := (mSmS % 1000)*factor+((mSmS % 1000)*ffract)/1000
  let mSrest := ((mSmS % 1000)*ffract) % 1000
  let lSS := lSmS/1000+mSfrac
  let nS := ((lSmS % 1000)+mSrest)*1000000
  let nS := nS+tnS
  let lSS := lSS+nS/1000000000
  let nS := nS % 1000000000
  ⟨lSS,nS⟩

def getnanouptime (sys : Words 32) (clk : HWclock) : Except ClockFault Timespec := do
  let tnS ← clk.tnS
  return nanouptime sys tnS

theorem tickAdvanceMS_eq : tickAdvanceMS = Words.add := by
  funext sys advance
  rfl

section

variable (sys : Words 32) {tnS : Word}

/-- No intermediate result of `getnanouptime` wraps but the sum of the seconds. -/
theorem nanouptime_toNat (ht : tnS.toNat < 1000000) :
    let m := sys.hi.toNat % 1000
    let nS := (sys.lo.toNat % 1000+m*296 % 1000)*1000000+tnS.toNat
    (nanouptime sys tnS).tvSec.toNat =
      (sys.lo.toNat/1000+(m*4294967+m*296/1000)+nS/1000000000) % 2^32 ∧
    (nanouptime sys tnS).tvNsec.toNat = nS % 1000000000 := by
  intro m nS
  have hm : (sys.hi % 1000).toNat = m := rfl
  have hm1000 : m < 1000 := Nat.mod_lt _ (by decide)
  have hffract : ((sys.hi % 1000)*ffract).toNat = m*296 := by
    rw [BitVec.toNat_mul,hm]
    change m*296 % 2^32 = m*296
    omega
  have hfactor : ((sys.hi % 1000)*factor).toNat = m*4294967 := by
    rw [BitVec.toNat_mul,hm]
    change m*4294967 % 2^32 = m*4294967
    omega
  have hfrac : ((sys.hi % 1000)*factor+((sys.hi % 1000)*ffract)/1000).toNat =
      m*4294967+m*296/1000 := by
    rw [BitVec.toNat_add,BitVec.toNat_udiv,hffract,hfactor]
    change (m*4294967+m*296/1000) % 2^32 = m*4294967+m*296/1000
    omega
  have hmS : (sys.lo % 1000+((sys.hi % 1000)*ffract) % 1000).toNat =
      sys.lo.toNat % 1000+m*296 % 1000 := by
    rw [BitVec.toNat_add,BitVec.toNat_umod,BitVec.toNat_umod,hffract]
    change (sys.lo.toNat % 1000+m*296 % 1000) % 2^32 = sys.lo.toNat % 1000+m*296 % 1000
    omega
  have hnS : ((sys.lo % 1000+((sys.hi % 1000)*ffract) % 1000)*1000000+tnS).toNat = nS := by
    rw [BitVec.toNat_add,BitVec.toNat_mul,hmS,Nat.mod_add_mod]
    change nS % 2^32 = nS
    omega
  constructor
  · rw [nanouptime,BitVec.toNat_add,BitVec.toNat_add,BitVec.toNat_udiv,BitVec.toNat_udiv,hnS,hfrac,
      Nat.mod_add_mod]
    rfl
  · rw [nanouptime,BitVec.toNat_umod,hnS]
    rfl

/-- The two words and `tnS`, in nanoseconds. -/
theorem nanouptime_value (ht : tnS.toNat < 1000000) :
    (nanouptime sys tnS).tvSec.toNat =
      (sys.value*1000000+tnS.toNat)/1000000000 % 2^32 ∧
    (nanouptime sys tnS).tvNsec.toNat = (sys.value*1000000+tnS.toNat) % 1000000000 := by
  obtain ⟨hsec,hnsec⟩ := nanouptime_toNat sys ht
  rw [hsec,hnsec,Words.value]
  omega

end

/-- The uptime of any run of ticks is exact, and the seconds wrap only when 32 bits do not hold
them. -/
theorem getnanouptime_exact (steps : List Word)
    (htotal : (steps.map BitVec.toNat).sum < 2^64) {tnS : Word} (ht : tnS.toNat < 1000000) :
    let sys := steps.foldl tickAdvanceMS ⟨0,0⟩
    let N := (steps.map BitVec.toNat).sum
    sys.hi.toNat*2^32+sys.lo.toNat = N ∧
    ∃ tp : Timespec, (∀ clk : HWclock, clk.tnS = .ok tnS → getnanouptime sys clk = .ok tp) ∧
      tp.tvNsec.toNat < 1000000000 ∧
      (∃ wraps, (tp.tvSec.toNat+wraps*2^32)*1000000000+tp.tvNsec.toNat = N*1000000+tnS.toNat) ∧
      (N < 1000*2^32 → tp.tvSec.toNat*1000000000+tp.tvNsec.toNat = N*1000000+tnS.toNat) := by
  intro sys N
  have hvalue : sys.value = N := by
    simp only [sys]
    rw [tickAdvanceMS_eq,Words.foldl_add_value,Words.value,Nat.mod_eq_of_lt (by simpa using htotal)]
    simp [N]
  obtain ⟨hsec,hnsec⟩ := nanouptime_value sys ht
  rw [hvalue] at hsec hnsec
  refine ⟨hvalue,nanouptime sys tnS,fun clk hclk => ?_,?_,?_,fun hN => ?_⟩
  · rw [getnanouptime,hclk]
    rfl
  · omega
  · exact ⟨(N*1000000+tnS.toNat)/1000000000/2^32,by omega⟩
  · omega

/-- The tick at which `sys_mickey` wraps, and one more. -/
theorem getnanouptime_exact_wrap :
    let sys := [0xFFFFFFFF,1,1].foldl tickAdvanceMS ⟨0,0⟩
    let N := ([0xFFFFFFFF,1,1].map (BitVec.toNat (w:=32))).sum
    sys.hi.toNat*2^32+sys.lo.toNat = N ∧
    ∃ tp : Timespec, (∀ clk : HWclock, clk.tnS = .ok 999999 → getnanouptime sys clk = .ok tp) ∧
      tp.tvNsec.toNat < 1000000000 ∧
      (∃ wraps, (tp.tvSec.toNat+wraps*2^32)*1000000000+tp.tvNsec.toNat = N*1000000+999999) ∧
      (N < 1000*2^32 → tp.tvSec.toNat*1000000000+tp.tvNsec.toNat = N*1000000+999999) :=
  getnanouptime_exact [0xFFFFFFFF,1,1] (by decide)
    (show (999999 : Word).toNat < 1000000 by decide)

end Tinker

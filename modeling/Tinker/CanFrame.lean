import Tinker.ItcObjects
import Tinker.Memory
import Tinker.Outcome

/-! The frames of the SJA1000: `sja1000_write` fills one in and `sja1000_read` takes one apart.
Both formats share a union, and what a standard frame carries is written at one place and read at
another. -/
namespace Tinker

open Memory Outcome

/-- The asserts of the CAN driver. -/
inductive CanFault
  | assure | assertRx | assertBuffer
  deriving DecidableEq

/-- The bytes of a number, the most significant one first. -/
def beBytes : ℕ → ℕ → List Byte
  | 0, _ => []
  | n+1, v => beBytes n (v/2^8) ++ [BitVec.ofNat 8 v]

def beNat (l : List Byte) : ℕ := l.foldl (fun v b => v*2^8+b.toNat) 0

@[simp] theorem beBytes_length (n v : ℕ) : (beBytes n v).length = n := by
  induction n generalizing v with
  | zero => rfl
  | succ n ih => simp [beBytes,ih]

theorem beNat_beBytes (n v : ℕ) : beNat (beBytes n v) = v % 2^(8*n) := by
  induction n generalizing v with
  | zero => simp [beBytes,beNat,Nat.mod_one]
  | succ n ih =>
    have hsplit : beNat (beBytes (n+1) v) = beNat (beBytes n (v/2^8))*2^8+v % 2^8 := by
      simp [beBytes,beNat]
    rw [hsplit,ih,Nat.mul_succ,Nat.pow_add,Nat.mul_comm (2^(8*n)) (2^8),Nat.mod_mul]
    omega

/-- The bytes of a number as the processor stores it, the least significant one first. -/
def leBytes (n v : ℕ) : List Byte := (beBytes n v).reverse

def leNat (l : List Byte) : ℕ := beNat l.reverse

theorem leBytes_length (n v : ℕ) : (leBytes n v).length = n := by
  rw [leBytes,List.length_reverse,beBytes_length]

theorem leNat_leBytes (n v : ℕ) : leNat (leBytes n v) = v % 2^(8*n) := by
  rw [leNat,leBytes,List.reverse_reverse,beNat_beBytes]

/-- `sja1000_pelican_frame_t`: the byte of `frinfo` and the 12 of the union `format`, packed. Bit
fields begin at the most significant bit. -/
abbrev CanFrame := Fin 13 → Byte

namespace CanFrame

/-- `frinfo.FF`, set in an extended frame. -/
def ff (f : CanFrame) : Bool := decide (2^7 ≤ (f 0).toNat)

/-- `frinfo.DLC`. -/
def dlc (f : CanFrame) : ℕ := (f 0).toNat % 2^4

/-- `format.EFF.id`. -/
def effId (f : CanFrame) : ℕ := beNat [f 1,f 2,f 3,f 4]/2^3

/-- `format.SFF.id`. -/
def sffId (f : CanFrame) : ℕ := beNat [f 1,f 2]/2^5

/-- The offset of `format.EFF.data` or of `format.SFF.data`. -/
def dataOff (ff : Bool) : ℕ := if ff then 5 else 3

/-- A byte that `memcpy` reads from `data`; behind the frame it reads what happens to be there. -/
def dataByte (f : CanFrame) (ff : Bool) (beyond : Byte) (j : ℕ) : Byte :=
  if h : dataOff ff+j < 13 then f ⟨dataOff ff+j,h⟩ else beyond

def id (f : CanFrame) : ℕ := if f.ff then f.effId else f.sffId

end CanFrame

/-- What `sja1000_read` returns and leaves in the caller's `can_t`. -/
structure CanMsg where
  psz : ℕ
  id : ℕ
  data : List Byte
  deriving DecidableEq

/-- `sizeof(can_t)`. -/
def canTsize : ℕ := 12

/-- `sja1000_read` from the frame in its slot. -/
def CanFrame.read (f : CanFrame) (beyond : ℕ → Byte) (buffLen : ℕ) : Except CanFault CanMsg := do
  check (f.dlc+4 ≤ buffLen) .assertBuffer
  return ⟨f.dlc+4,f.id,(List.range f.dlc).map fun j => f.dataByte f.ff (beyond j) j⟩

/-- The byte of `frinfo` that `sja1000_write` sets up. -/
def frinfo (ff : Bool) (dlc : ℕ) : Byte := BitVec.ofNat 8 (ff.toNat*2^7+dlc % 2^4)

/-- `sja1000_write` once the transmit buffer is free: the frame it hands to the controller and what
it returns. `stack` is the memory from the local `frame` on; both formats write to `EFF.data`. -/
def sja1000Write (xmode : Bool) (stack : ℕ → Byte) (buffer : List Byte) :
    Except CanFault (Option CanFrame × ℕ) := do
  if xmode then
    check (4 ≤ buffer.length) .assure
    let dlc := buffer.length-4
    let mem := poke stack 0 [frinfo true dlc]
    let mem := poke mem 1 (beBytes 4 (beNat (buffer.take 4) % 2^29 * 2^3))
    let mem := poke mem 5 (buffer.drop 4)
    return (some fun i => mem i,0)
  else
    check (2 ≤ buffer.length) .assure
    let dlc := buffer.length-2
    let mem := poke stack 0 [frinfo false dlc]
    let mem := poke mem 1 (beBytes 2 (beNat (buffer.take 2) % 2^11 * 2^5))
    let mem := poke mem 5 (buffer.drop 2)
    return (some fun i => mem i,0)

/-- The header of a package, an identifier in 4 bytes or in 2. -/
def headerSize (xmode : Bool) : ℕ := if xmode then 4 else 2

/-- The package a caller hands to `sja1000_write`. -/
def package (xmode : Bool) (id : ℕ) (payload : List Byte) : List Byte :=
  beBytes (headerSize xmode) id ++ payload

/-- The identifiers that fit the frame format. -/
def IdFits (xmode : Bool) (id : ℕ) : Prop := id < 2^(if xmode then 29 else 11)

/-- A payload of at most 8 bytes gets through as it is, with its identifier and its length; a longer
one is rejected, with nothing handed to the controller. -/
def GetsThrough (xmode : Bool) (id : ℕ) (payload : List Byte) (stack beyond : ℕ → Byte) : Prop :=
  Spec (sja1000Write xmode stack (package xmode id payload)) (fun r =>
    if payload.length ≤ 8 then ∃ f, r = (some f,0) ∧
      f.read beyond canTsize = .ok ⟨payload.length+4,id,payload⟩
    else r = (none,(package xmode id payload).length)) (fun _ => False)

section

variable {stack beyond : ℕ → Byte} {fr : Byte} {head payload : List Byte} {id : ℕ} {xmode : Bool}

/-- The memory of `frame` after the three writes. -/
theorem poke_frame (hh : head.length ≤ 4) (j : ℕ) :
    poke (poke (poke stack 0 [fr]) 1 head) 5 payload j =
      if j = 0 then fr else if j < 5 then (head[j-1]?).getD (stack j)
      else (payload[j-5]?).getD (stack j) := by
  rw [poke_apply,poke_apply,poke_apply]
  obtain rfl | hj := Nat.eq_zero_or_pos j
  · simp
  have h0 : ([fr][j-0]?).getD (stack j) = stack j := by
    rw [List.getElem?_eq_none (by simpa using Nat.succ_le_of_lt hj),Option.getD_none]
  have h1 : 1 ≤ j := hj
  simp only [Nat.zero_le,if_true,h0,h1,if_neg (Nat.ne_of_gt hj)]
  by_cases h5 : 5 ≤ j
  · have hend : head[j-1]? = none := List.getElem?_eq_none (by omega)
    rw [if_pos h5,if_neg (Nat.not_lt.mpr h5),hend,Option.getD_none]
  · rw [if_neg h5,if_pos (Nat.lt_of_not_le h5)]

theorem frinfo_toNat (ff : Bool) (dlc : ℕ) : (frinfo ff dlc).toNat = ff.toNat*2^7+dlc % 2^4 := by
  have := Bool.toNat_le ff
  rw [frinfo,BitVec.toNat_ofNat]
  omega

theorem beBytes_take (n v : ℕ) (l : List Byte) : (beBytes n v ++ l).take n = beBytes n v := by
  rw [List.take_append_of_le_length (by simp),List.take_of_length_le (by simp)]

theorem beBytes_drop (n v : ℕ) (l : List Byte) : (beBytes n v ++ l).drop n = l := by
  rw [List.drop_append_of_le_length (by simp),List.drop_of_length_le (by simp),List.nil_append]

/-- `frinfo` and the header of the frame that goes out. -/
def sentHead (xmode : Bool) (id : ℕ) : List Byte :=
  if xmode then beBytes 4 (id*2^3) else beBytes 2 (id*2^5)

/-- The frame that goes out. -/
def sent (xmode : Bool) (stack : ℕ → Byte) (id : ℕ) (payload : List Byte) : CanFrame := fun i =>
  poke (poke (poke stack 0 [frinfo xmode payload.length]) 1 (sentHead xmode id)) 5 payload i

theorem sja1000Write_package (hid : IdFits xmode id) (stack : ℕ → Byte) (payload : List Byte) :
    sja1000Write xmode stack (package xmode id payload) =
      .ok (some (sent xmode stack id payload),0) := by
  cases xmode with
  | true =>
    have hid : id < 2^29 := hid
    have hval : beNat (beBytes 4 id) % 2^29 = id := by
      rw [beNat_beBytes]
      omega
    simp only [sja1000Write,package,headerSize,if_true,List.length_append,beBytes_length,check,
      Nat.le_add_right,beBytes_take,beBytes_drop,hval,Nat.add_sub_cancel_left,bind,Except.bind,pure,
      Except.pure]
    rfl
  | false =>
    have hid : id < 2^11 := hid
    have hval : beNat (beBytes 2 id) % 2^11 = id := by
      rw [beNat_beBytes]
      omega
    simp only [sja1000Write,package,headerSize,Bool.false_eq_true,if_false,if_true,
      List.length_append,beBytes_length,check,Nat.le_add_right,beBytes_take,beBytes_drop,hval,
      Nat.add_sub_cancel_left,bind,Except.bind,pure,Except.pure]
    rfl

theorem sent_apply (i : Fin 13) : sent xmode stack id payload i =
    if i.val = 0 then frinfo xmode payload.length
    else if i.val < 5 then ((sentHead xmode id)[i.val-1]?).getD (stack i)
    else (payload[i.val-5]?).getD (stack i) := by
  refine poke_frame ?_ i
  cases xmode <;> simp [sentHead]

theorem sent_zero : sent xmode stack id payload 0 = frinfo xmode payload.length := by
  rw [sent_apply]
  exact if_pos rfl

theorem sent_ff : (sent xmode stack id payload).ff = xmode := by
  rw [CanFrame.ff,sent_zero,frinfo_toNat]
  cases xmode with
  | true => exact decide_eq_true (by simp)
  | false => exact decide_eq_false (by rw [Bool.toNat_false]; omega)

theorem sent_dlc (h : payload.length ≤ 8) : (sent xmode stack id payload).dlc = payload.length := by
  rw [CanFrame.dlc,sent_zero,frinfo_toNat]
  omega

/-- The identifier is read from where it was written. -/
theorem sent_id (hid : IdFits xmode id) : (sent xmode stack id payload).id = id := by
  rw [CanFrame.id,sent_ff]
  cases xmode with
  | true =>
    have hid : id < 2^29 := hid
    have hbytes : [sent true stack id payload 1,sent true stack id payload 2,
        sent true stack id payload 3,sent true stack id payload 4] = beBytes 4 (id*2^3) := by
      simp [sent_apply,sentHead,beBytes]
    rw [if_pos rfl,CanFrame.effId,hbytes,beNat_beBytes]
    omega
  | false =>
    have hid : id < 2^11 := hid
    have hbytes : [sent false stack id payload 1,sent false stack id payload 2] =
        beBytes 2 (id*2^5) := by
      simp [sent_apply,sentHead,beBytes]
    rw [if_neg Bool.false_ne_true,CanFrame.sffId,hbytes,beNat_beBytes]
    omega

theorem getsThrough_iff (hid : IdFits xmode id) : GetsThrough xmode id payload stack beyond ↔
    payload.length ≤ 8 ∧ (List.range payload.length).map (fun j =>
      (sent xmode stack id payload).dataByte xmode (beyond j) j) = payload := by
  rw [GetsThrough,sja1000Write_package hid,spec_ok]
  by_cases hlen : payload.length ≤ 8
  · rw [if_pos hlen]
    have hread : (sent xmode stack id payload).read beyond canTsize = .ok ⟨payload.length+4,id,
        (List.range payload.length).map fun j =>
          (sent xmode stack id payload).dataByte xmode (beyond j) j⟩ := by
      have hfit : payload.length+4 ≤ canTsize := by simpa [canTsize] using hlen
      simp [CanFrame.read,sent_dlc hlen,sent_id hid,sent_ff,check,hfit,bind,Except.bind,pure,
        Except.pure]
    constructor
    · rintro ⟨f,hf,hr⟩
      obtain rfl : sent xmode stack id payload = f := by simpa using hf
      rw [hread] at hr
      simp only [Except.ok.injEq,CanMsg.mk.injEq,true_and] at hr
      exact ⟨hlen,hr⟩
    · rintro ⟨-,hd⟩
      refine ⟨_,rfl,?_⟩
      rw [hread,hd]
  · rw [if_neg hlen]
    exact iff_of_false (fun h => by cases h) fun h => hlen h.1

/-- Whatever the memory held before, a package gets through in an extended frame or without a
payload. -/
theorem getsThrough_always_iff (hid : IdFits xmode id) :
    (∀ stack beyond, GetsThrough xmode id payload stack beyond) ↔
      payload.length ≤ 8 ∧ (xmode = true ∨ payload = []) := by
  constructor
  · intro h
    -- the byte in front of the payload that a standard frame is read from
    obtain ⟨hlen,hd⟩ := (getsThrough_iff hid).mp (h (fun _ => payload.headD 0+1) fun _ => 0)
    refine ⟨hlen,?_⟩
    by_contra hno
    obtain ⟨hx,hne⟩ := not_or.mp hno
    obtain rfl : xmode = false := by simpa using hx
    obtain ⟨b,rest,rfl⟩ := List.exists_cons_of_ne_nil hne
    rw [List.length_cons,List.range_succ_eq_map,List.map_cons,List.cons.injEq] at hd
    have hb : b+1 = b := by simpa [CanFrame.dataByte,CanFrame.dataOff,sent_apply,sentHead] using hd.1
    have hn := congrArg BitVec.toNat hb
    have hlt := b.isLt
    have hone : (1 : Byte).toNat = 1 := rfl
    rw [BitVec.toNat_add,hone] at hn
    omega
  · rintro ⟨hlen,hx⟩ stack beyond
    refine (getsThrough_iff hid).mpr ⟨hlen,?_⟩
    obtain rfl | rfl := hx
    · refine List.ext_getElem (by simp) fun j h1 h2 => ?_
      have h13 : 5+j < 13 := by omega
      simp [CanFrame.dataByte,CanFrame.dataOff,h13,sent_apply,h2]
    · rfl

end

theorem getsThrough_always_iff_ext :
    (∀ stack beyond, GetsThrough true 5 [1,2] stack beyond) ↔
      ([1,2] : List Byte).length ≤ 8 ∧ (true = true ∨ ([1,2] : List Byte) = []) :=
  getsThrough_always_iff (by unfold IdFits; decide)

/-- A standard frame with one byte of payload arrives with a byte of old memory instead. -/
theorem not_getsThrough : ¬∀ xmode id payload stack beyond, IdFits xmode id →
    GetsThrough xmode id payload stack beyond := by
  intro h
  have hid : IdFits false 1 := by unfold IdFits; decide
  have hd := ((getsThrough_iff hid).mp (h false 1 [1] (fun _ => 0) (fun _ => 0) hid)).2
  exact absurd hd (by decide)

end Tinker

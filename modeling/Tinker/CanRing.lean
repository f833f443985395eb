import Mathlib.Data.List.Forall2
import Tinker.CanFrame
import Tinker.Machine

/-! The ring of received frames of the SJA1000 driver. `isr_RI` may run between any two statements
of `sja1000_read` where RIE is set; the processor goes from one thread to another in `sem_wait` or
outside of the driver. -/
namespace Tinker

open Outcome

/-- `CAN_RX_BUFFSZ`. -/
def canRxBuffsz : ℕ := 0x1000

/-- The next statement of a call of `sja1000_read`, with the locals that are still needed. -/
inductive ReadLoc
  | out
  | mask (buffLen : ℕ) | count (buffLen : ℕ) | unmask (buffLen : ℕ) (nRx : ℤ)
  | check (buffLen : ℕ) (nRx : ℤ) | wait (buffLen : ℕ)
  | length (buffLen : ℕ) | fit (buffLen dlc : ℕ) | format (dlc : ℕ) | ident (dlc : ℕ) (ff : Bool)
  | copy (dlc : ℕ) (ff : Bool) (id : ℕ) (data : List Byte)
  | advance (m : CanMsg) | wrap (m : CanMsg)
  | maskAgain (m : CanMsg) | uncount (m : CanMsg) | unmaskAgain (m : CanMsg)

/-- The variables of the driver and where its callers are, with the frames received, the results
of the reads that are through with the ring, and what has been returned. -/
structure CanState (τ : Type*) where
  rxBuff : ℕ → CanFrame
  rxidxIn : ℕ
  rxidxOut : ℕ
  nrx : ℤ
  rie : Bool
  rxSem : ℕ
  running : τ
  loc : τ → ReadLoc
  received : List CanFrame
  taken : List CanMsg
  returned : List CanMsg

/-- `frame` is `isr_RI` with the frame in the controller; `step` is the next statement of the
running thread, with the byte it reads where `memcpy` leaves the frame. -/
inductive CanLabel (τ : Type*)
  | frame (f : CanFrame) | switch (t : τ) | call (buffLen : ℕ) | step (beyond : Byte)

namespace CanState

variable {τ : Type*}

/-- The driver as `sja1000_init` leaves it. -/
def init (buff : ℕ → CanFrame) (t : τ) : CanState τ where
  rxBuff := buff
  rxidxIn := 0
  rxidxOut := 0
  nrx := 0
  rie := true
  rxSem := 0
  running := t
  loc := fun _ => .out
  received := []
  taken := []
  returned := []

def here (s : CanState τ) : ReadLoc := s.loc s.running

/-- The frames received and not yet fully read. -/
def waiting (s : CanState τ) : ℕ := s.received.length-s.taken.length

/-- `isr_RI`. -/
def isrRI (s : CanState τ) (f : CanFrame) : Except CanFault (CanState τ) := do
  check (s.nrx+1 < canRxBuffsz) .assertRx
  return { s with
    nrx := s.nrx+1
    rxBuff := Function.update s.rxBuff s.rxidxIn f
    rxidxIn := (s.rxidxIn+1) % canRxBuffsz
    rxSem := s.rxSem+1
    received := s.received ++ [f] }

variable [DecidableEq τ]

def goto (s : CanState τ) (l : ReadLoc) : CanState τ :=
  { s with loc := Function.update s.loc s.running l }

/-- The next statement of `sja1000_read`. -/
def readStep (s : CanState τ) (beyond : Byte) : Except CanFault (CanState τ) :=
  match s.here with
  | .out => .ok s
  | .mask b => .ok ({ s with rie := false }.goto (.count b))
  | .count b => .ok (s.goto (.unmask b s.nrx))
  | .unmask b n => .ok ({ s with rie := true }.goto (.check b n))
  | .check b n => do
    check (n < canRxBuffsz) .assertRx
    return s.goto (.wait b)
  | .wait b => .ok ({ s with rxSem := s.rxSem-1 }.goto (.length b))
  | .length b => .ok (s.goto (.fit b (s.rxBuff s.rxidxOut).dlc))
  | .fit b dlc => do
    check (dlc+4 ≤ b) .assertBuffer
    return s.goto (.format dlc)
  | .format dlc => .ok (s.goto (.ident dlc (s.rxBuff s.rxidxOut).ff))
  | .ident dlc ff =>
    let f := s.rxBuff s.rxidxOut
    .ok (s.goto (.copy dlc ff (if ff then f.effId else f.sffId) []))
  | .copy dlc ff id data =>
    if data.length < dlc then
      let b := (s.rxBuff s.rxidxOut).dataByte ff beyond data.length
      .ok (s.goto (.copy dlc ff id (data ++ [b])))
    else .ok (s.goto (.advance ⟨dlc+4,id,data⟩))
  | .advance m => .ok ({ s with rxidxOut := s.rxidxOut+1 }.goto (.wrap m))
  | .wrap m => .ok ({ s with rxidxOut := s.rxidxOut % canRxBuffsz }.goto (.maskAgain m))
  | .maskAgain m => .ok ({ s with rie := false }.goto (.uncount m))
  | .uncount m => .ok ({ s with nrx := s.nrx-1, taken := s.taken ++ [m] }.goto (.unmaskAgain m))
  | .unmaskAgain m => .ok ({ s with rie := true, returned := s.returned ++ [m] }.goto .out)

/-- The running thread may lose the processor. -/
def mayLeave : ReadLoc → Bool
  | .out | .wait _ => true
  | _ => false

def canOffered (s : CanState τ) : CanLabel τ → Bool
  | .frame _ => s.rie
  | .switch _ => mayLeave s.here
  | .call _ => match s.here with
    | .out => true
    | _ => false
  | .step _ => match s.here with
    | .out => false
    | .wait _ => decide (0 < s.rxSem)
    | _ => true

def canNext (s : CanState τ) : CanLabel τ → Except CanFault (CanState τ)
  | .frame f => s.isrRI f
  | .switch t => .ok { s with running := t }
  | .call b => .ok (s.goto (.mask b))
  | .step beyond => s.readStep beyond

end CanState

open CanState

def canMachine (τ : Type*) [DecidableEq τ] : Machine (CanState τ) (CanLabel τ) CanFault where
  enabled := canOffered
  next := canNext

/-- Fewer than `CAN_RX_BUFFSZ` frames wait once this one is in. -/
def Fits {τ : Type*} (s : CanState τ) : CanLabel τ → Prop
  | .frame _ => s.waiting+1 < canRxBuffsz
  | _ => True

instance {τ : Type*} (s : CanState τ) : ∀ l : CanLabel τ, Decidable (Fits s l)
  | .frame _ => inferInstanceAs (Decidable (s.waiting+1 < canRxBuffsz))
  | .switch _ | .call _ | .step _ => instDecidableTrue

/-- A read has returned the frame: its length, its identifier and the bytes that lie in it. -/
structure Delivers (f : CanFrame) (m : CanMsg) : Prop where
  psz : m.psz = f.dlc+4
  id : m.id = f.id
  length : m.data.length = f.dlc
  data : ∀ j (h : j < m.data.length) (h13 : CanFrame.dataOff f.ff+j < 13),
    m.data[j] = f ⟨CanFrame.dataOff f.ff+j,h13⟩

/-- A frame that lies within its slot has one result, the one that `sja1000_read` makes of it. -/
theorem Delivers.read {f : CanFrame} {m : CanMsg} (h : Delivers f m) (hd : f.dlc ≤ 8)
    {buffLen : ℕ} (hb : f.dlc+4 ≤ buffLen) (beyond : ℕ → Byte) :
    f.read beyond buffLen = .ok m := by
  have hdata : (List.range f.dlc).map (fun j => f.dataByte f.ff (beyond j) j) = m.data := by
    refine List.ext_getElem (by simp [h.length]) fun j h1 h2 => ?_
    have hj : j < f.dlc := h.length ▸ h2
    have h13 : CanFrame.dataOff f.ff+j < 13 := by
      unfold CanFrame.dataOff
      split <;> omega
    rw [h.data j h2 h13]
    simp [CanFrame.dataByte,h13]
  have hm : m = ⟨f.dlc+4,f.id,m.data⟩ := by
    rw [← h.psz,← h.id]
  rw [CanFrame.read,hdata,hm]
  simp [check,hb,bind,Except.bind,pure,Except.pure]

/-- Each frame goes to one read, in the order of reception; the counter counts what is not yet fully
read, which is still in its slot; the reads return what they have taken. -/
structure InOrderOfReception {τ : Type*} (s : CanState τ) : Prop where
  delivered : ∃ done rest, s.received = done ++ rest ∧ List.Forall₂ Delivers done s.taken ∧
    s.nrx = rest.length ∧ (mayLeave s.here = true → s.rxSem = rest.length) ∧
    ∀ i (h : i < rest.length), s.rxBuff ((done.length+i) % canRxBuffsz) = rest[i] ∧
      (done.length+i) % canRxBuffsz ≠ s.rxidxIn
  returned : s.taken = s.returned ∨ ∃ m, s.here = .unmaskAgain m ∧ s.taken = s.returned ++ [m]

section

variable {τ : Type*} {s s' : CanState τ} {done rest : List CanFrame} {l : ReadLoc}

/-- The ring: `done` has been read, and `rest` is in the slots from there on. -/
structure RingHolds (s : CanState τ) (done rest : List CanFrame) : Prop where
  received : s.received = done ++ rest
  taken : List.Forall₂ Delivers done s.taken
  few : rest.length < canRxBuffsz
  nrx : s.nrx = rest.length
  rxIn : s.rxidxIn = (done.length+rest.length) % canRxBuffsz
  slots : ∀ i (h : i < rest.length), s.rxBuff ((done.length+i) % canRxBuffsz) = rest[i]

theorem RingHolds.congr (h : RingHolds s done rest) (hr : s'.received = s.received)
    (ht : s'.taken = s.taken) (hn : s'.nrx = s.nrx) (hi : s'.rxidxIn = s.rxidxIn)
    (hb : s'.rxBuff = s.rxBuff) : RingHolds s' done rest where
  received := hr.trans h.received
  taken := by rw [ht]; exact h.taken
  few := h.few
  nrx := hn.trans h.nrx
  rxIn := hi.trans h.rxIn
  slots := by rw [hb]; exact h.slots

theorem slot_ne {d i n : ℕ} (hi : i < n) (hn : n < canRxBuffsz) :
    (d+i) % canRxBuffsz ≠ (d+n) % canRxBuffsz := by
  unfold canRxBuffsz at *
  omega

/-- `isr_RI` puts the frame into a free slot. -/
theorem RingHolds.push (h : RingHolds s done rest) (f : CanFrame) (hr : s'.received = s.received ++ [f])
    (ht : s'.taken = s.taken) (hn : s'.nrx = s.nrx+1)
    (hi : s'.rxidxIn = (s.rxidxIn+1) % canRxBuffsz)
    (hb : s'.rxBuff = Function.update s.rxBuff s.rxidxIn f) (hf : rest.length+1 < canRxBuffsz) :
    RingHolds s' done (rest ++ [f]) where
  received := by rw [hr,h.received,List.append_assoc]
  taken := by rw [ht]; exact h.taken
  few := by simpa using hf
  nrx := by rw [hn,h.nrx]; simp
  rxIn := by
    rw [hi,h.rxIn,List.length_append,List.length_singleton]
    exact Nat.mod_add_mod _ _ _
  slots := fun i hi => by
    rw [hb,h.rxIn]
    rw [List.length_append,List.length_singleton] at hi
    obtain hlt | rfl := Nat.lt_succ_iff_lt_or_eq.mp hi
    · rw [Function.update_of_ne (slot_ne hlt h.few),List.getElem_append_left hlt]
      exact h.slots i hlt
    · rw [Function.update_self,List.getElem_append_right le_rfl]
      simp

/-- The first frame that waits has been read. -/
theorem RingHolds.pop {f : CanFrame} {m : CanMsg} (h : RingHolds s done (f :: rest)) (hm : Delivers f m)
    (hr : s'.received = s.received) (ht : s'.taken = s.taken ++ [m]) (hn : s'.nrx = s.nrx-1)
    (hi : s'.rxidxIn = s.rxidxIn) (hb : s'.rxBuff = s.rxBuff) : RingHolds s' (done ++ [f]) rest where
  received := by rw [hr,h.received,List.append_assoc,List.singleton_append]
  taken := by
    rw [ht]
    exact List.rel_append h.taken (List.Forall₂.cons hm List.Forall₂.nil)
  few := Nat.lt_of_succ_lt h.few
  nrx := by rw [hn,h.nrx]; simp
  rxIn := by
    rw [hi,h.rxIn,List.length_append,List.length_singleton,List.length_cons,Nat.add_assoc,
      Nat.add_comm 1]
  slots := fun i hi => by
    have := h.slots (i+1) (Nat.succ_lt_succ hi)
    rw [hb,List.length_append,List.length_singleton,Nat.add_assoc,Nat.add_comm 1]
    exact this

/-- No read is behind its `sem_wait`. -/
structure Outside (s : CanState τ) (done rest : List CanFrame) (rie : Bool) : Prop where
  rie : s.rie = rie
  out : s.rxidxOut = done.length % canRxBuffsz
  sem : s.rxSem = rest.length
  returned : s.taken = s.returned

/-- A read has its token for the first frame that waits. -/
structure Inside (s : CanState τ) (rest : List CanFrame) (f : CanFrame) (rie : Bool) (out : ℕ) :
    Prop where
  rie : s.rie = rie
  out : s.rxidxOut = out
  sem : s.rxSem+1 = rest.length
  first : rest.head? = some f
  returned : s.taken = s.returned

/-- The bytes copied so far. -/
def Copied (f : CanFrame) (data : List Byte) : Prop :=
  ∀ j (h : j < data.length) (h13 : CanFrame.dataOff f.ff+j < 13),
    data[j] = f ⟨CanFrame.dataOff f.ff+j,h13⟩

/-- What holds where the running thread is. -/
def AtLoc (s : CanState τ) (done rest : List CanFrame) : ReadLoc → Prop
  | .out | .wait _ | .mask _ => Outside s done rest true
  | .count _ => Outside s done rest false
  | .unmask _ n => Outside s done rest false ∧ n < canRxBuffsz
  | .check _ n => Outside s done rest true ∧ n < canRxBuffsz
  | .length _ => ∃ f, Inside s rest f true (done.length % canRxBuffsz)
  | .fit _ dlc | .format dlc => ∃ f, Inside s rest f true (done.length % canRxBuffsz) ∧ dlc = f.dlc
  | .ident dlc ff =>
    ∃ f, Inside s rest f true (done.length % canRxBuffsz) ∧ dlc = f.dlc ∧ ff = f.ff
  | .copy dlc ff id data => ∃ f, Inside s rest f true (done.length % canRxBuffsz) ∧ dlc = f.dlc ∧
      ff = f.ff ∧ id = f.id ∧ data.length ≤ dlc ∧ Copied f data
  | .advance m => ∃ f, Inside s rest f true (done.length % canRxBuffsz) ∧ Delivers f m
  | .wrap m => ∃ f, Inside s rest f true (done.length % canRxBuffsz+1) ∧ Delivers f m
  | .maskAgain m => ∃ f, Inside s rest f true ((done.length+1) % canRxBuffsz) ∧ Delivers f m
  | .uncount m => ∃ f, Inside s rest f false ((done.length+1) % canRxBuffsz) ∧ Delivers f m
  | .unmaskAgain m => s.rie = false ∧ s.rxidxOut = done.length % canRxBuffsz ∧
      s.rxSem = rest.length ∧ s.taken = s.returned ++ [m]

/-- The invariant of the ring and its readers. -/
def CanInv (s : CanState τ) : Prop := ∃ done rest, RingHolds s done rest ∧
  AtLoc s done rest s.here ∧ ∀ t, t ≠ s.running → mayLeave (s.loc t) = true

theorem atLoc_of_mayLeave (h : mayLeave l = true) :
    AtLoc s done rest l ↔ Outside s done rest true := by
  cases l <;> first | exact Iff.rfl | cases h

/-- An interrupt does not disturb the statement it comes before. -/
theorem AtLoc.frame {f : CanFrame} (h : AtLoc s done rest l) (hrie : s.rie = true)
    (hr : s'.rie = s.rie) (ho : s'.rxidxOut = s.rxidxOut) (hs : s'.rxSem = s.rxSem+1)
    (ht : s'.taken = s.taken) (hret : s'.returned = s.returned) :
    AtLoc s' done (rest ++ [f]) l := by
  have hout : ∀ {b}, Outside s done rest b → Outside s' done (rest ++ [f]) b := fun h =>
    ⟨hr.trans h.rie,ho.trans h.out,by rw [hs,h.sem]; simp,by rw [ht,hret]; exact h.returned⟩
  have hin : ∀ {g b o}, Inside s rest g b o → Inside s' (rest ++ [f]) g b o := fun h =>
    ⟨hr.trans h.rie,ho.trans h.out,by rw [hs,h.sem]; simp,
      by rw [List.head?_append,h.first]; rfl,by rw [ht,hret]; exact h.returned⟩
  cases l with
  | out | wait | mask | count => exact hout h
  | unmask | check => exact ⟨hout h.1,h.2⟩
  | length => exact h.imp fun _ => hin
  | fit | format | ident | copy | advance | wrap | maskAgain | uncount =>
    exact h.imp fun _ hf => ⟨hin hf.1,hf.2⟩
  | unmaskAgain => exact absurd (hrie.symm.trans h.1) (by decide)

/-- The slot a read works on holds its frame. -/
theorem RingHolds.slot {f : CanFrame} {b : Bool} (h : RingHolds s done rest)
    (hi : Inside s rest f b (done.length % canRxBuffsz)) : s.rxBuff s.rxidxOut = f := by
  obtain ⟨rest',rfl⟩ := List.head?_eq_some_iff.mp hi.first
  rw [hi.out]
  exact h.slots 0 (by simp)

theorem Copied.snoc {f : CanFrame} {data : List Byte} {beyond : Byte} (h : Copied f data) :
    Copied f (data ++ [f.dataByte f.ff beyond data.length]) := by
  intro j hj h13
  rw [List.length_append,List.length_singleton] at hj
  obtain hlt | rfl := Nat.lt_succ_iff_lt_or_eq.mp hj
  · rw [List.getElem_append_left hlt]
    exact h j hlt h13
  · rw [List.getElem_append_right le_rfl]
    simp [CanFrame.dataByte,h13]

theorem canInv_init (buff : ℕ → CanFrame) (t : τ) : CanInv (CanState.init buff t) :=
  ⟨[],[],⟨rfl,List.Forall₂.nil,by decide,rfl,rfl,fun i hi => absurd hi (Nat.not_lt_zero i)⟩,
    ⟨rfl,rfl,rfl,rfl⟩,fun _ _ => rfl⟩

theorem CanInv.inOrder (hi : CanInv s) : InOrderOfReception s := by
  obtain ⟨done,rest,hh,ha,-⟩ := hi
  refine ⟨⟨done,rest,hh.received,hh.taken,hh.nrx,fun hm => ?_,fun i h => ⟨hh.slots i h,?_⟩⟩,?_⟩
  · exact ((atLoc_of_mayLeave hm).mp ha).sem
  · rw [hh.rxIn]
    exact slot_ne h hh.few
  · cases hl : s.here with
    | unmaskAgain m =>
      rw [hl] at ha
      exact Or.inr ⟨m,rfl,ha.2.2.2⟩
    | out | wait | mask | count =>
      rw [hl] at ha
      exact Or.inl ha.returned
    | unmask | check =>
      rw [hl] at ha
      exact Or.inl ha.1.returned
    | length =>
      rw [hl] at ha
      obtain ⟨f,hf⟩ := ha
      exact Or.inl hf.returned
    | fit | format | ident | copy | advance | wrap | maskAgain | uncount =>
      rw [hl] at ha
      obtain ⟨f,hf,-⟩ := ha
      exact Or.inl hf.returned

variable [DecidableEq τ]

theorem here_goto (s : CanState τ) (l : ReadLoc) : (s.goto l).here = l := Function.update_self _ _ _

/-- The statement is done, and the other threads are where they were. -/
theorem CanInv.goto (hh : RingHolds s done rest) (ha : AtLoc (s.goto l) done rest l)
    (ho : ∀ t, t ≠ s.running → mayLeave (s.loc t) = true) : CanInv (s.goto l) := by
  refine ⟨done,rest,hh.congr rfl rfl rfl rfl rfl,?_,fun t ht => ?_⟩
  · rw [here_goto]
    exact ha
  · have ht : t ≠ s.running := ht
    have hloc : (s.goto l).loc t = s.loc t := Function.update_of_ne ht _ _
    rw [hloc]
    exact ho t ht

theorem Outside.goto {b : Bool} (h : Outside s done rest b) (l : ReadLoc) :
    Outside (s.goto l) done rest b := ⟨h.rie,h.out,h.sem,h.returned⟩

theorem Inside.goto {f : CanFrame} {b : Bool} {o : ℕ} (h : Inside s rest f b o) (l : ReadLoc) :
    Inside (s.goto l) rest f b o := ⟨h.rie,h.out,h.sem,h.first,h.returned⟩

/-- One statement of a read. -/
theorem CanInv.readStep (hi : CanInv s) {beyond : Byte} (he : canOffered s (.step beyond) = true) :
    Spec (s.readStep beyond) CanInv (fun e => e = .assertBuffer) := by
  obtain ⟨done,rest,hh,ha,ho⟩ := hi
  unfold CanState.readStep
  simp only [canOffered] at he
  cases hl : s.here with
  | out => rw [hl] at he; cases he
  | mask b =>
    rw [hl] at ha
    exact CanInv.goto (s:={ s with rie := false }) (hh.congr rfl rfl rfl rfl rfl)
      ⟨rfl,ha.out,ha.sem,ha.returned⟩ ho
  | count b =>
    rw [hl] at ha
    refine CanInv.goto hh ⟨ha.goto _,?_⟩ ho
    rw [hh.nrx]
    exact_mod_cast hh.few
  | unmask b n =>
    rw [hl] at ha
    exact CanInv.goto (s:={ s with rie := true }) (hh.congr rfl rfl rfl rfl rfl)
      ⟨⟨rfl,ha.1.out,ha.1.sem,ha.1.returned⟩,ha.2⟩ ho
  | check b n =>
    rw [hl] at ha
    simp only [spec_bind,spec_check,spec_pure]
    exact ⟨fun _ => CanInv.goto hh (ha.1.goto _) ho,
      fun hn => absurd ha.2 hn⟩
  | wait b =>
    rw [hl] at ha he
    have hpos : 0 < s.rxSem := of_decide_eq_true he
    obtain ⟨f,rest',rfl⟩ := List.exists_cons_of_length_pos (ha.sem ▸ hpos)
    refine CanInv.goto (s:={ s with rxSem := s.rxSem-1 }) (hh.congr rfl rfl rfl rfl rfl)
      ⟨f,ha.rie,ha.out,?_,rfl,ha.returned⟩ ho
    have hsem := ha.sem
    exact (Nat.sub_add_cancel hpos).trans hsem
  | length b =>
    rw [hl] at ha
    obtain ⟨f,hf⟩ := ha
    refine CanInv.goto hh ⟨f,hf.goto _,?_⟩ ho
    rw [hh.slot hf]
  | fit b dlc =>
    rw [hl] at ha
    obtain ⟨f,hf,hd⟩ := ha
    simp only [spec_bind,spec_check,spec_pure]
    exact ⟨fun _ => CanInv.goto hh ⟨f,hf.goto _,hd⟩ ho,
      fun _ => trivial⟩
  | format dlc =>
    rw [hl] at ha
    obtain ⟨f,hf,hd⟩ := ha
    refine CanInv.goto hh ⟨f,hf.goto _,hd,?_⟩ ho
    rw [hh.slot hf]
  | ident dlc ff =>
    rw [hl] at ha
    obtain ⟨f,hf,hd,rfl⟩ := ha
    refine CanInv.goto hh ⟨f,hf.goto _,hd,rfl,?_,Nat.zero_le _,
      fun j hj => absurd hj (Nat.not_lt_zero j)⟩ ho
    rw [hh.slot hf]
    rfl
  | copy dlc ff id data =>
    rw [hl] at ha
    obtain ⟨f,hf,rfl,rfl,rfl,hle,hc⟩ := ha
    dsimp only
    split
    · next hlt =>
      refine CanInv.goto hh ⟨f,hf.goto _,rfl,rfl,rfl,?_,?_⟩ ho
      · rw [List.length_append,List.length_singleton]
        exact hlt
      · rw [hh.slot hf]
        exact hc.snoc
    · next hge =>
      exact CanInv.goto hh ⟨f,hf.goto _,rfl,rfl,Nat.le_antisymm hle (Nat.le_of_not_lt hge),hc⟩ ho
  | advance m =>
    rw [hl] at ha
    obtain ⟨f,hf,hd⟩ := ha
    refine CanInv.goto (s:={ s with rxidxOut := s.rxidxOut+1 }) (hh.congr rfl rfl rfl rfl rfl)
      ⟨f,⟨hf.rie,?_,hf.sem,hf.first,hf.returned⟩,hd⟩ ho
    exact congrArg (·+1) hf.out
  | wrap m =>
    rw [hl] at ha
    obtain ⟨f,hf,hd⟩ := ha
    refine CanInv.goto (s:={ s with rxidxOut := s.rxidxOut % canRxBuffsz })
      (hh.congr rfl rfl rfl rfl rfl) ⟨f,⟨hf.rie,?_,hf.sem,hf.first,hf.returned⟩,hd⟩ ho
    have hout := hf.out
    exact (congrArg (· % canRxBuffsz) hout).trans (Nat.mod_add_mod _ _ _)
  | maskAgain m =>
    rw [hl] at ha
    obtain ⟨f,hf,hd⟩ := ha
    exact CanInv.goto (s:={ s with rie := false }) (hh.congr rfl rfl rfl rfl rfl)
      ⟨f,⟨rfl,hf.out,hf.sem,hf.first,hf.returned⟩,hd⟩ ho
  | uncount m =>
    rw [hl] at ha
    obtain ⟨f,hf,hd⟩ := ha
    obtain ⟨rest',rfl⟩ := List.head?_eq_some_iff.mp hf.first
    refine CanInv.goto (s:={ s with nrx := s.nrx-1, taken := s.taken ++ [m] })
      (hh.pop hd rfl rfl rfl rfl rfl) ⟨hf.rie,?_,?_,?_⟩ ho
    · rw [List.length_append,List.length_singleton]
      exact hf.out
    · exact Nat.succ.inj hf.sem
    · exact congrArg (· ++ [m]) hf.returned
  | unmaskAgain m =>
    rw [hl] at ha
    obtain ⟨-,hout,hsem,hret⟩ := ha
    exact CanInv.goto (s:={ s with rie := true, returned := s.returned ++ [m] })
      (hh.congr rfl rfl rfl rfl rfl) ⟨rfl,hout,hsem,hret⟩ ho

/-- Every step keeps the invariant, and no assert on `_can_nrx` fails. -/
theorem CanInv.next (hi : CanInv s) {lb : CanLabel τ} (he : canOffered s lb = true)
    (hc : Fits s lb) : Spec (canNext s lb) CanInv (fun e => e = .assertBuffer) := by
  cases lb with
  | frame f =>
    obtain ⟨done,rest,hh,ha,ho⟩ := hi
    have hdone : done.length = s.taken.length := hh.taken.length_eq
    have hroom : rest.length+1 < canRxBuffsz := by
      have hw : s.waiting = rest.length := by
        rw [CanState.waiting,hh.received,List.length_append,hdone,Nat.add_sub_cancel_left]
      have hc : s.waiting+1 < canRxBuffsz := hc
      rwa [hw] at hc
    have hn : s.nrx+1 < canRxBuffsz := by
      rw [hh.nrx]
      exact_mod_cast hroom
    simp only [canNext,isrRI,spec_bind,spec_check,spec_pure]
    refine ⟨fun _ => ⟨done,rest ++ [f],?_,?_,ho⟩,fun hno => absurd hn hno⟩
    · exact hh.push f rfl rfl rfl rfl rfl hroom
    · exact ha.frame he rfl rfl rfl rfl rfl
  | switch t =>
    obtain ⟨done,rest,hh,ha,ho⟩ := hi
    have he : mayLeave s.here = true := he
    have hall : ∀ u, mayLeave (s.loc u) = true := by
      intro u
      by_cases hu : u = s.running
      · rw [hu]
        exact he
      · exact ho u hu
    have hout := (atLoc_of_mayLeave he).mp ha
    refine ⟨done,rest,hh.congr rfl rfl rfl rfl rfl,?_,fun u _ => hall u⟩
    exact (atLoc_of_mayLeave (hall t)).mpr ⟨hout.rie,hout.out,hout.sem,hout.returned⟩
  | call b =>
    obtain ⟨done,rest,hh,ha,ho⟩ := hi
    simp only [canOffered] at he
    cases hl : s.here with
    | out =>
      rw [hl] at ha
      exact CanInv.goto hh ⟨ha.rie,ha.out,ha.sem,ha.returned⟩ ho
    | _ => rw [hl] at he; cases he
  | step beyond => exact hi.readStep he

/-- Every run of receive interrupts and reads in which fewer than `CAN_RX_BUFFSZ` frames wait. -/
theorem canRun_inOrder {buff : ℕ → CanFrame} {t : τ} {ls : List (CanLabel τ)}
    (hc : (canMachine τ).Along Fits (CanState.init buff t) ls)
    (hr : (canMachine τ).run (CanState.init buff t) ls = some s) :
    InOrderOfReception s ∧ ∀ lb, canOffered s lb = true → Fits s lb →
      Spec (canNext s lb) (fun _ => True) (fun e => e = .assertBuffer) := by
  have hi : CanInv s := (canMachine τ).run_invariant
    (fun _ _ _ hi hc hs => (hi.next hs.1 hc).of_ok hs.2) (canInv_init buff t) hc hr
  exact ⟨hi.inOrder,fun lb he hf => (hi.next he hf).imp fun _ _ => trivial⟩

end

/-- A frame with identifier 1 and the byte 7 is received and read; a second one comes meanwhile. -/
def readSteps : List (CanLabel Bool) :=
  [.frame (sent true (fun _ => 0) 1 [7]),.call 12] ++ List.replicate 9 (.step 0) ++
    [.frame (sent true (fun _ => 0) 2 [])] ++ List.replicate 7 (.step 0)

theorem canRun_inOrder_read : ∃ s : CanState Bool,
    (canMachine Bool).run (CanState.init (fun _ => 0) true) readSteps = some s ∧
    s.returned = [⟨5,1,[7]⟩] ∧ s.nrx = 1 ∧ InOrderOfReception s ∧
    ∀ lb, canOffered s lb = true → Fits s lb →
      Spec (canNext s lb) (fun _ => True) (fun e => e = .assertBuffer) := by
  obtain ⟨s,hr,h1,h2⟩ := (canMachine Bool).exists_run
    (fun s => s.returned = [⟨5,1,[7]⟩] ∧ s.nrx = 1) (CanState.init (fun _ => 0) true) readSteps
    (by decide +kernel)
  exact ⟨s,hr,h1,h2,canRun_inOrder (by decide +kernel) hr⟩

end Tinker

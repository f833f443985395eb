import Tinker.ItcObjects
import Tinker.Machine
import Tinker.Memory

/-! The receive ring of the ESC console. The handler copies a chunk in one piece and the reader takes
out in one piece, so neither of them goes round the end; the semaphore counts chunks with a carriage
return in them. -/
namespace Tinker

open Memory

def smcCharBufflen : ℕ := 1024

def smcBdRxBufflen : ℕ := 160

/-- `'\r'`. -/
def carriageReturn : Byte := 13

/-- A call of `console_read`: whether a complete line was pending, what it returned, and the number
of bytes of the caller's buffer it wrote to. A call that waits has returned nothing yet. -/
structure ReadCall where
  maxLen : ℕ
  line : Bool
  data : List Byte
  written : ℕ

/-- `RX_CHAR_BUFFER` and the memory behind it, its two indices and the semaphore; `top` is the end of
what has been written, and the characters received and the calls are kept, oldest first. -/
structure ConState where
  rx : ℕ → Byte
  top : ℕ
  rxInIdx : ℕ
  rxOutIdx : ℕ
  rxSem : ℕ
  received : List Byte
  calls : List ReadCall

inductive ConLabel
  | chunk (bd : List Byte) | read (maxLen : ℕ)

namespace ConState

/-- The console as `console_stdio_init` finds and leaves it. -/
def init (rx : ℕ → Byte) : ConState := ⟨rx,0,0,0,0,[],[]⟩

def returned (s : ConState) : List Byte := s.calls.flatMap ReadCall.data

def pending (s : ConState) : List Byte := s.received.drop s.returned.length

/-- `_console_rx_handler`, with the contents of `RX_BD_BUFFER`. -/
def rxHandler (s : ConState) (bd : List Byte) : ConState :=
  { s with
    rx := poke s.rx s.rxInIdx bd
    top := max s.top (s.rxInIdx+bd.length)
    rxInIdx := (s.rxInIdx+bd.length) % smcCharBufflen
    rxSem := if carriageReturn ∈ bd then s.rxSem+1 else s.rxSem
    received := s.received ++ bd }

/-- `console_read` behind its `sem_wait`: the number of characters returned and of bytes written. -/
def readLen (s : ConState) (maxLen : ℕ) : ℕ × ℕ :=
  if s.rxOutIdx < s.rxInIdx then
    let totalLen := s.rxInIdx-s.rxOutIdx
    if totalLen ≤ maxLen then (totalLen,totalLen+1) else (maxLen,maxLen)
  else (0,0)

/-- `console_read`; without a token the call waits. -/
def consoleRead (s : ConState) (maxLen : ℕ) : ConState :=
  let line := decide (carriageReturn ∈ s.pending)
  if s.rxSem = 0 then { s with calls := s.calls ++ [⟨maxLen,line,[],0⟩] }
  else
    let (retLen,written) := s.readLen maxLen
    { s with
      rxSem := s.rxSem-1
      rxOutIdx := if retLen = 0 then s.rxOutIdx else (s.rxOutIdx+retLen) % smcCharBufflen
      calls := s.calls ++ [⟨maxLen,line,peek s.rx s.rxOutIdx retLen,written⟩] }

end ConState

/-- Chunks of any content that leave at most `SMC_CHAR_BUFFLEN - 1` characters pending, and reads. -/
def conMachine : Machine ConState ConLabel Empty where
  enabled := fun s l => match l with
    | .chunk bd => decide (bd.length ≤ smcBdRxBufflen ∧
        s.pending.length+bd.length ≤ smcCharBufflen-1)
    | .read _ => true
  next := fun s l => match l with
    | .chunk bd => .ok (s.rxHandler bd)
    | .read maxLen => .ok (s.consoleRead maxLen)

/-- What the reader may rely on: the characters come out as they came in, and those that are pending
are in the ring; nothing is written beyond a buffer; a pending line gives characters. -/
structure ConKept (s : ConState) : Prop where
  inOrder : s.returned <+: s.received
  pending : ∀ i (h : i < s.pending.length),
    s.rx ((s.rxOutIdx+i) % smcCharBufflen) = s.pending[i]
  inside : s.top ≤ smcCharBufflen
  calls : ∀ c ∈ s.calls, c.written ≤ c.maxLen ∧ (c.line = true → c.data ≠ [])

/-- A chunk ends within the buffer. A read that gets a token is not asked for exactly what there is,
and one that finds a line pending has a token, finds it in one piece and has room for a character. -/
def InOnePiece (s : ConState) : ConLabel → Prop
  | .chunk bd => s.rxInIdx+bd.length ≤ smcCharBufflen
  | .read maxLen =>
    (0 < s.rxSem → s.rxOutIdx < s.rxInIdx → s.rxInIdx-s.rxOutIdx ≠ maxLen) ∧
    (carriageReturn ∈ s.pending → 0 < s.rxSem ∧ s.rxOutIdx < s.rxInIdx ∧ 0 < maxLen)

instance (s : ConState) : ∀ l, Decidable (InOnePiece s l)
  | .chunk _ => inferInstanceAs (Decidable (_ ≤ _))
  | .read _ => instDecidableAnd

section

variable {s s' : ConState} {l : ConLabel}

/-- The ring with its indices. -/
structure ConInv (s : ConState) : Prop extends ConKept s where
  room : s.pending.length < smcCharBufflen
  out_lt : s.rxOutIdx < smcCharBufflen
  inIdx : s.rxInIdx = (s.rxOutIdx+s.pending.length) % smcCharBufflen

theorem conInv_init (rx : ℕ → Byte) : ConInv (ConState.init rx) where
  inOrder := List.nil_prefix
  pending := fun i h => absurd h (Nat.not_lt_zero i)
  inside := Nat.zero_le _
  calls := fun c hc => absurd hc List.not_mem_nil
  room := show 0 < smcCharBufflen by decide
  out_lt := show 0 < smcCharBufflen by decide
  inIdx := rfl

theorem ConInv.received (h : ConInv s) : s.received = s.returned ++ s.pending := by
  obtain ⟨rest,hr⟩ := h.inOrder
  rw [ConState.pending,← hr,List.drop_left]

/-- The pending characters do not wrap just where the reader sees some. -/
theorem ConInv.length_pending (h : ConInv s) : s.pending.length =
    if s.rxOutIdx ≤ s.rxInIdx then s.rxInIdx-s.rxOutIdx
    else s.rxInIdx+smcCharBufflen-s.rxOutIdx := by
  have h1 := h.room
  have h2 := h.out_lt
  have h3 := h.inIdx
  unfold smcCharBufflen at *
  split <;> omega

/-- A chunk that ends within the buffer is appended to what is pending. -/
theorem ConInv.chunk (h : ConInv s) {bd : List Byte}
    (hp : s.pending.length+bd.length ≤ smcCharBufflen-1)
    (hc : s.rxInIdx+bd.length ≤ smcCharBufflen) : ConInv (s.rxHandler bd) := by
  have hpend : (s.rxHandler bd).pending = s.pending ++ bd := by
    obtain ⟨rest,hr⟩ := h.inOrder
    have hle : s.returned.length ≤ s.received.length := by
      rw [← hr,List.length_append]
      exact Nat.le_add_right _ _
    exact List.drop_append_of_le_length hle
  have hin := h.inIdx
  have hout := h.out_lt
  have hrx : (s.rxHandler bd).rxOutIdx = s.rxOutIdx := rfl
  refine ⟨⟨h.inOrder.trans (List.prefix_append _ _),fun i hi => ?_,?_,h.calls⟩,?_,hout,?_⟩
  · rw [hpend,List.length_append] at hi
    simp only [hpend,hrx]
    by_cases hlt : i < s.pending.length
    · rw [List.getElem_append_left hlt,← h.pending i hlt]
      -- the cells of the pending characters are not among those written
      by_cases hbelow : (s.rxOutIdx+i) % smcCharBufflen < s.rxInIdx
      · exact poke_of_lt hbelow
      · refine poke_of_le ?_
        unfold smcCharBufflen at *
        omega
    · obtain ⟨j,rfl⟩ := Nat.exists_eq_add_of_le (Nat.le_of_not_lt hlt)
      have hj : j < bd.length := by omega
      have hcell : (s.rxOutIdx+(s.pending.length+j)) % smcCharBufflen = s.rxInIdx+j := by
        unfold smcCharBufflen at *
        omega
      rw [List.getElem_append_right (Nat.le_add_right _ _)]
      simp only [Nat.add_sub_cancel_left,hcell]
      exact poke_add hj
  · exact Nat.max_le.mpr ⟨h.inside,hc⟩
  · rw [hpend,List.length_append]
    unfold smcCharBufflen at *
    omega
  · have hnew : (s.rxHandler bd).rxInIdx = (s.rxInIdx+bd.length) % smcCharBufflen := rfl
    rw [hpend,List.length_append,hnew,hrx,hin,Nat.mod_add_mod,Nat.add_assoc]

/-- The state a call that gets its token leaves. -/
theorem consoleRead_token (hs : s.rxSem ≠ 0) (maxLen : ℕ) : s.consoleRead maxLen = { s with
    rxSem := s.rxSem-1
    rxOutIdx := if (s.readLen maxLen).1 = 0 then s.rxOutIdx
      else (s.rxOutIdx+(s.readLen maxLen).1) % smcCharBufflen
    calls := s.calls ++ [⟨maxLen,decide (carriageReturn ∈ s.pending),
      peek s.rx s.rxOutIdx (s.readLen maxLen).1,(s.readLen maxLen).2⟩] } := by
  rw [ConState.consoleRead,if_neg hs]

/-- What a read takes are the first characters that are pending. -/
theorem ConInv.peek_pending (h : ConInv s) {n : ℕ} (hn : n ≤ s.rxInIdx-s.rxOutIdx) :
    peek s.rx s.rxOutIdx n = s.pending.take n := by
  have hlen := h.length_pending
  have hin : s.rxInIdx < smcCharBufflen := by
    rw [h.inIdx]
    exact Nat.mod_lt _ (by decide)
  obtain rfl | hpos := Nat.eq_zero_or_pos n
  · rfl
  rw [if_pos (by omega)] at hlen
  refine peek_eq_take (by omega) fun j hj => ?_
  rw [← h.pending j hj,Nat.mod_eq_of_lt (by omega)]

/-- A call that returns the first `n` pending characters and keeps to its buffer. -/
theorem ConInv.take (h : ConInv s) {n : ℕ} {c : ReadCall} (hn : n ≤ s.pending.length)
    (hd : c.data = s.pending.take n) (hc : c.written ≤ c.maxLen ∧ (c.line = true → c.data ≠ []))
    (hcalls : s'.calls = s.calls ++ [c]) (hr : s'.received = s.received) (hrx : s'.rx = s.rx)
    (ht : s'.top = s.top) (hi : s'.rxInIdx = s.rxInIdx)
    (ho : s'.rxOutIdx = (s.rxOutIdx+n) % smcCharBufflen) : ConInv s' := by
  have hret : s'.returned = s.returned ++ s.pending.take n := by
    simp [ConState.returned,hcalls,hd]
  have hpend : s'.pending = s.pending.drop n := by
    rw [ConState.pending,ConState.pending,hret,hr,List.drop_drop,List.length_append,
      List.length_take,Nat.min_eq_left hn]
  have hroom := h.room
  refine ⟨⟨?_,fun i hi => ?_,by rw [ht]; exact h.inside,fun d hm => ?_⟩,?_,?_,?_⟩
  · rw [hret,hr,h.received]
    exact (List.prefix_append_right_inj _).mpr (List.take_prefix _ _)
  · simp only [hpend] at hi ⊢
    rw [List.length_drop] at hi
    rw [List.getElem_drop,hrx,ho,Nat.mod_add_mod,Nat.add_assoc]
    exact h.pending (n+i) (by omega)
  · rw [hcalls] at hm
    obtain hm | hm := List.mem_append.mp hm
    · exact h.calls d hm
    · rw [List.mem_singleton.mp hm]
      exact hc
  · rw [hpend,List.length_drop]
    omega
  · rw [ho]
    exact Nat.mod_lt _ (by decide)
  · rw [hi,h.inIdx,ho,hpend,List.length_drop,Nat.mod_add_mod,Nat.add_assoc,
      Nat.add_sub_cancel' hn]

theorem ConInv.read (h : ConInv s) {maxLen : ℕ} (hc : InOnePiece s (.read maxLen)) :
    ConInv (s.consoleRead maxLen) := by
  obtain ⟨hne,hline⟩ := hc
  have hlen := h.length_pending
  have hout : (s.rxOutIdx+0) % smcCharBufflen = s.rxOutIdx := Nat.mod_eq_of_lt h.out_lt
  by_cases hs : s.rxSem = 0
  · -- the call waits, and no line was pending
    rw [ConState.consoleRead,if_pos hs]
    refine h.take (Nat.zero_le _) rfl ⟨Nat.zero_le _,fun hm => ?_⟩ rfl rfl rfl rfl rfl hout.symm
    exact absurd hs (Nat.ne_of_gt (hline (of_decide_eq_true hm)).1)
  rw [consoleRead_token hs]
  have hsem : 0 < s.rxSem := Nat.pos_of_ne_zero hs
  by_cases hlt : s.rxOutIdx < s.rxInIdx
  · rw [if_pos hlt.le] at hlen
    have hne := hne hsem hlt
    have hn : (s.readLen maxLen).1 ≤ s.rxInIdx-s.rxOutIdx ∧ (s.readLen maxLen).2 ≤ maxLen ∧
        (0 < maxLen → 0 < (s.readLen maxLen).1) := by
      rw [ConState.readLen,if_pos hlt]
      dsimp only
      split
      · exact ⟨le_rfl,by omega,fun _ => by omega⟩
      · exact ⟨by omega,le_rfl,id⟩
    have hpeek := h.peek_pending hn.1
    refine h.take (hlen ▸ hn.1) hpeek ⟨hn.2.1,fun hm => ?_⟩ rfl rfl rfl rfl rfl ?_
    · have hpos := hn.2.2 (hline (of_decide_eq_true hm)).2.2
      exact List.ne_nil_of_length_pos (by rw [peek_length]; exact hpos)
    · split
      · next h0 => rw [h0,hout]
      · rfl
  · have hzero : s.readLen maxLen = (0,0) := if_neg hlt
    rw [hzero]
    refine h.take (Nat.zero_le _) rfl ⟨Nat.zero_le _,fun hm => ?_⟩ rfl rfl rfl rfl rfl ?_
    · exact absurd (hline (of_decide_eq_true hm)).2.1 hlt
    · exact hout.symm

/-- A call that writes beyond the caller's buffer, or returns nothing with a line pending. -/
theorem not_conKept_of_call {c : ReadCall} (hm : c ∈ s'.calls)
    (hc : c.maxLen < c.written ∨ c.line = true ∧ c.data = []) : ¬ConKept s' := by
  intro hk
  obtain ⟨h1,h2⟩ := hk.calls c hm
  obtain hlt | ⟨hl,hd⟩ := hc
  · exact absurd h1 (Nat.not_le.mpr hlt)
  · exact h2 hl hd

/-- A chunk or a read that does not meet the condition does the harm at once. -/
theorem not_conKept (hc : ¬InOnePiece s l) (hs : conMachine.Step s l s') : ¬ConKept s' := by
  cases l with
  | chunk bd =>
    obtain rfl : s.rxHandler bd = s' := Except.ok.inj hs.2
    intro hk
    exact hc (Nat.le_trans (Nat.le_max_right _ _) hk.inside)
  | read maxLen =>
    obtain rfl : s.consoleRead maxLen = s' := Except.ok.inj hs.2
    by_cases h0 : s.rxSem = 0
    · have hm : carriageReturn ∈ s.pending := by
        by_contra hno
        exact hc ⟨fun hpos => absurd h0 (Nat.ne_of_gt hpos),fun hm => absurd hm hno⟩
      rw [ConState.consoleRead,if_pos h0]
      exact not_conKept_of_call (List.mem_append_right _ List.mem_cons_self)
        (Or.inr ⟨decide_eq_true hm,rfl⟩)
    rw [consoleRead_token h0]
    refine not_conKept_of_call (List.mem_append_right _ List.mem_cons_self) ?_
    by_cases hne : s.rxOutIdx < s.rxInIdx → s.rxInIdx-s.rxOutIdx ≠ maxLen
    · -- a line is pending, and the read finds none of it or has no room
      obtain ⟨hm,hno⟩ : carriageReturn ∈ s.pending ∧
          ¬(0 < s.rxSem ∧ s.rxOutIdx < s.rxInIdx ∧ 0 < maxLen) := by
        by_contra hno
        exact hc ⟨fun _ => hne,fun hm => by_contra fun hk => hno ⟨hm,hk⟩⟩
      have hzero : (s.readLen maxLen).1 = 0 := by
        rw [ConState.readLen]
        split
        · next hlt =>
          have hmax : maxLen = 0 := by
            by_contra hk
            exact hno ⟨Nat.pos_of_ne_zero h0,hlt,Nat.pos_of_ne_zero hk⟩
          dsimp only
          rw [if_neg (by omega),hmax]
        · rfl
      refine Or.inr ⟨decide_eq_true hm,?_⟩
      rw [hzero]
      rfl
    · -- the terminating 0 goes behind the buffer
      have hall : s.rxOutIdx < s.rxInIdx ∧ s.rxInIdx-s.rxOutIdx = maxLen := by
        by_contra hk
        exact hne fun hlt he => hk ⟨hlt,he⟩
      refine Or.inl ?_
      rw [ConState.readLen,if_pos hall.1]
      dsimp only
      rw [if_pos hall.2.le,hall.2]
      exact Nat.lt_succ_self _

theorem ConInv.step (h : ConInv s) (hc : InOnePiece s l) (hs : conMachine.Step s l s') :
    ConInv s' := by
  cases l with
  | chunk bd =>
    obtain rfl : s.rxHandler bd = s' := Except.ok.inj hs.2
    have hlen := of_decide_eq_true hs.1
    exact h.chunk hlen.2 hc
  | read maxLen =>
    obtain rfl : s.consoleRead maxLen = s' := Except.ok.inj hs.2
    exact h.read hc

/-- The ring keeps its promises in every state of a run just when every chunk and every read finds
it in one piece. -/
theorem conRun_kept_iff {rx : ℕ → Byte} {ls : List ConLabel}
    (hr : conMachine.run (ConState.init rx) ls = some s) :
    conMachine.Along (fun s _ => ConKept s) (ConState.init rx) ls ∧ ConKept s ↔
      conMachine.Along InOnePiece (ConState.init rx) ls :=
  conMachine.run_along_iff (fun _ h => h.toConKept) (fun _ _ _ h hc hs => h.step hc hs)
    (fun _ _ _ _ hc hs => not_conKept hc hs) (conInv_init rx) hr

end

/-- A line comes and is read. -/
def lineSteps : List ConLabel := [.chunk [65,carriageReturn],.read 80]

theorem conRun_kept_iff_line : ∃ s, conMachine.run (ConState.init fun _ => 0) lineSteps = some s ∧
    s.returned = [65,carriageReturn] ∧
    (conMachine.Along (fun s _ => ConKept s) (ConState.init fun _ => 0) lineSteps ∧ ConKept s ↔
      conMachine.Along InOnePiece (ConState.init fun _ => 0) lineSteps) := by
  obtain ⟨s,hr,h1⟩ := conMachine.exists_run (fun s => s.returned = [65,carriageReturn])
    (ConState.init fun _ => 0) lineSteps (by decide +kernel)
  exact ⟨s,hr,h1,conRun_kept_iff hr⟩

/-- The line is read into a buffer of its own length. -/
def exactSteps : List ConLabel := [.chunk [65,carriageReturn],.read 2]

theorem conRun_not_kept : ¬∀ rx ls s, conMachine.run (ConState.init rx) ls = some s → ConKept s := by
  intro h
  obtain ⟨s,hr,hw⟩ : ∃ s, conMachine.run (ConState.init fun _ => 0) exactSteps = some s ∧
      s.calls.any (fun c => decide (c.maxLen < c.written)) = true := by
    have h : (conMachine.run (ConState.init fun _ => 0) exactSteps).any
      (fun s => s.calls.any fun c => decide (c.maxLen < c.written)) = true := by decide +kernel
    simpa only [Option.any_eq_true] using h
  obtain ⟨c,hc,hlt⟩ := List.any_eq_true.mp hw
  exact not_conKept_of_call hc (Or.inl (of_decide_eq_true hlt)) (h _ _ _ hr)

end Tinker

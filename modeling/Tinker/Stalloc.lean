import Tinker.CanFrame
import Tinker.FirstFit
import Tinker.Linked

/-! The memory pools of the XC167: `stalloc` for the stacks of threads, `malloc` and `xmalloc` for
the rest. They differ in the width of a length only. The free blocks of a pool hang together through
headers that lie in the pool itself, in front of every block. -/
namespace Tinker

open Memory Outcome Tiles FirstFit

/-- A walk along the free blocks that comes back to where it has been. -/
inductive PoolFault
  | diverges
  deriving DecidableEq

/-- The memory, and `__stmp__` or `__mp__`. Pointers are `huge`; 0 is the null pointer. -/
structure MemPool where
  mem : ℕ → Byte
  mp : ℕ

namespace MemPool

/-- How many addresses a pointer can hold: a walk that is longer has met one of them twice. -/
def addresses : ℕ := 2^32

/-- `HLEN`: a pointer, and a length of `w` bytes. -/
def hlen (w : ℕ) : ℕ := 4+w

/-- `MIN_BLOCK`. -/
def minBlock (w : ℕ) : ℕ := hlen w*4

/-- `p->next`. -/
def next (s : MemPool) (p : ℕ) : ℕ := leNat (peek s.mem p 4)

/-- `p->len`. -/
def len (w : ℕ) (s : MemPool) (p : ℕ) : ℕ := leNat (peek s.mem (p+4) w)

def setNext (s : MemPool) (p v : ℕ) : MemPool := { s with mem := poke s.mem p (leBytes 4 v) }

def setLen (w : ℕ) (s : MemPool) (p n : ℕ) : MemPool :=
  { s with mem := poke s.mem (p+4) (leBytes w n) }

/-- `q->next`, where `q` may be the address of `__mp__`. -/
def link (s : MemPool) : Option ℕ → ℕ
  | none => s.mp
  | some q => s.next q

def setLink (s : MemPool) (v : ℕ) : Option ℕ → MemPool
  | none => { s with mp := v }
  | some q => s.setNext q v

/-- `(size + 1) & ~1L`, where the sum is a `TLEN`. -/
def evenSize (w size : ℕ) : ℕ := (size+1) % 2^(8*w)/2*2

/-- The loop of `malloc`: the first block with room for `size` bytes, and what leads to it. -/
def findBlock (w : ℕ) (s : MemPool) (size : ℕ) :
    ℕ → Option ℕ → Except PoolFault (Option (Option ℕ × ℕ))
  | 0, _ => .error .diverges
  | fuel+1, q =>
    let p := s.link q
    if p = 0 then .ok none
    else if size ≤ s.len w p then .ok (some (q,p))
    else findBlock w s size fuel (some p)

/-- `malloc`. -/
def malloc (w : ℕ) (s : MemPool) (size : ℕ) : Except PoolFault (ℕ × MemPool) := do
  let size := evenSize w size
  match ← findBlock w s size addresses none with
  | none => return (0,s)
  | some (q,p) =>
    let k := s.len w p-size
    if k < minBlock w then return (p+hlen w,s.setLink (s.next p) q)
    else
      let k := k-hlen w
      let s := s.setLen w p k
      let q := p+hlen w+k
      let s := s.setLen w q size
      return (q+hlen w,s)

/-- The loop of `free`: hop along the blocks until one lies behind `p0`. -/
def findPlace (s : MemPool) (p0 : ℕ) : ℕ → ℕ → Except PoolFault (ℕ × ℕ)
  | 0, _ => .error .diverges
  | fuel+1, q =>
    let p := s.next q
    if p = 0 ∨ p0 < p then .ok (q,p) else findPlace s p0 fuel p

/-- B3 of `free`. If `p0` and `p` are contiguous, `p` is merged into `p0`. -/
def mergeUp (w : ℕ) (s : MemPool) (p0 p : ℕ) : MemPool :=
  if p ≠ 0 ∧ p0+s.len w p0+hlen w = p then
    let s := s.setLen w p0 ((s.len w p0+s.len w p+hlen w) % 2^(8*w))
    s.setNext p0 (s.next p)
  else s.setNext p0 p

/-- B4 of `free`. If `q` and `p0` are contiguous, `p0` is merged into `q`. -/
def mergeDown (w : ℕ) (s : MemPool) (q p0 : ℕ) : MemPool :=
  if q+s.len w q+hlen w = p0 then
    let s := s.setLen w q ((s.len w q+s.len w p0+hlen w) % 2^(8*w))
    s.setNext q (s.next p0)
  else s.setNext q p0

/-- `free`. -/
def free (w : ℕ) (s : MemPool) (memp : ℕ) : Except PoolFault MemPool := do
  if memp = 0 then return s
  let p0 := memp-hlen w
  let q := s.mp
  if q = 0 then return { s with mp := p0 }
  let (q,p) ← findPlace s p0 addresses q
  return (s.mergeUp w p0 p).mergeDown w q p0

/-- `realloc`. -/
def realloc (w : ℕ) (s : MemPool) (oldp size : ℕ) : Except PoolFault (ℕ × MemPool) := do
  let size := evenSize w size
  let (newp,s) ← malloc w s size
  if newp = 0 then return (0,s)
  if oldp ≠ 0 then
    let p0 := oldp-hlen w
    let size := if s.len w p0 < size then s.len w p0 else size
    let s := { s with mem := poke s.mem newp (peek s.mem oldp size) }
    let s ← free w s oldp
    return (newp,s)
  return (newp,s)

/-- `calloc`. -/
def calloc (w : ℕ) (s : MemPool) (size len : ℕ) : Except PoolFault (ℕ × MemPool) := do
  let size := size*len % 2^(8*w)
  let (p,s) ← malloc w s size
  if p ≠ 0 then return (p,{ s with mem := poke s.mem p (List.replicate size 0) })
  return (p,s)

/-- `init_mempool`. -/
def initMempool (w : ℕ) (s : MemPool) (pool size : ℕ) : MemPool :=
  ({ s with mp := pool }.setNext pool 0).setLen w pool ((size+(2^(8*w)-hlen w)) % 2^(8*w))

/-! ### Headers -/

section

variable {w lo hi a b v n size : ℕ} {s s' s2 : MemPool} {as bs : List ℕ}

/-- Two headers that do not overlap. -/
def Clear (w a b : ℕ) : Prop := a+hlen w ≤ b ∨ b+hlen w ≤ a

theorem Clear.symm (h : Clear w a b) : Clear w b a := Or.symm h

/-- The memory differs in headers at the addresses `as` only. -/
def Outside (w : ℕ) (as : List ℕ) (s s' : MemPool) : Prop :=
  ∀ x, (∀ a ∈ as, x < a ∨ a+hlen w ≤ x) → s'.mem x = s.mem x

theorem Outside.refl (s : MemPool) : Outside w as s s := fun _ _ => rfl

theorem Outside.mono (h : Outside w as s s') (hsub : as ⊆ bs) : Outside w bs s s' :=
  fun x hx => h x fun a ha => hx a (hsub ha)

theorem Outside.trans (h : Outside w as s s') (h' : Outside w as s' s2) : Outside w as s s2 :=
  fun x hx => (h' x hx).trans (h x hx)

theorem next_setNext (hv : v < 2^32) : (s.setNext a v).next a = v := by
  have hread := peek_poke s.mem a (leBytes 4 v)
  rw [leBytes_length] at hread
  rw [next,setNext,hread,leNat_leBytes,Nat.mod_eq_of_lt hv]

theorem len_setNext : (s.setNext a v).len w a = s.len w a := by
  rw [len,setNext,peek_poke_of_apart (Or.inr (by rw [leBytes_length])),len]

theorem next_setLen : (s.setLen w a n).next a = s.next a := by
  rw [next,setLen,peek_poke_of_apart (Or.inl (Nat.le_refl _)),next]

theorem len_setLen (hn : n < 2^(8*w)) : (s.setLen w a n).len w a = n := by
  have hread := peek_poke s.mem (a+4) (leBytes w n)
  rw [leBytes_length] at hread
  rw [len,setLen,hread,leNat_leBytes,Nat.mod_eq_of_lt hn]

theorem setNext_outside (w : ℕ) (s : MemPool) (a v : ℕ) : Outside w [a] s (s.setNext a v) := by
  intro x hx
  have hout := hx a List.mem_cons_self
  unfold hlen at hout
  rcases hout with hlt | hle
  · exact poke_of_lt hlt
  · exact poke_of_le (by rw [leBytes_length]; omega)

theorem setLen_outside (w : ℕ) (s : MemPool) (a n : ℕ) : Outside w [a] s (s.setLen w a n) := by
  intro x hx
  have hout := hx a List.mem_cons_self
  unfold hlen at hout
  rcases hout with hlt | hle
  · exact poke_of_lt (by omega)
  · exact poke_of_le (by rw [leBytes_length]; omega)

/-- A header beside those that are written is read as before. -/
theorem Outside.header (h : Outside w as s s') (hb : ∀ a ∈ as, Clear w a b) :
    s'.next b = s.next b ∧ s'.len w b = s.len w b := by
  have hsame : ∀ x, b ≤ x → x < b+hlen w → s'.mem x = s.mem x := by
    intro x hle hlt
    refine h x fun a ha => ?_
    obtain hab | hba := hb a ha
    · exact Or.inr (Nat.le_trans hab hle)
    · exact Or.inl (Nat.lt_of_lt_of_le hlt hba)
  unfold hlen at hsame
  constructor
  · rw [next,next,peek_congr fun x hle hlt => hsame x hle (by omega)]
  · rw [len,len,peek_congr fun x hle hlt => hsame x (by omega) (by omega)]

end

end MemPool

/-- `stsize_t` is an `unsigned int`. -/
def stsizeT : ℕ := 2

def stalloc := MemPool.malloc stsizeT

def stallocFree := MemPool.free stsizeT

def stallocInitMempool := MemPool.initMempool stsizeT

/-- `TLEN` is an `unsigned int`, with `XMEM` an `unsigned long`. -/
def tlen (xmem : Bool) : ℕ := if xmem then 4 else 2

def keilMalloc (xmem : Bool) := MemPool.malloc (tlen xmem)

def keilFree (xmem : Bool) := MemPool.free (tlen xmem)

def keilRealloc (xmem : Bool) := MemPool.realloc (tlen xmem)

def keilCalloc (xmem : Bool) := MemPool.calloc (tlen xmem)

def keilInitMempool (xmem : Bool) := MemPool.initMempool (tlen xmem)

end Tinker

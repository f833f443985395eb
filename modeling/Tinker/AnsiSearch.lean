import Tinker.Itc
import Tinker.Sorting

/-! `qsort` and `bsearch` of `tk_ansi_search.c`. An element is `sz` bytes that are moved and compared
as a whole; memory outside the array is not there. The two counters of the recursion's depth are
left out. -/
namespace Tinker

open Outcome

/-- A copy beyond the buffer of `_swap`, an index outside the array, a loop that does not end. -/
inductive SearchFault
  | overrun | outside | endless
  deriving DecidableEq

def maxSortElementSize : ℕ := 255

section

variable {α : Type}

/-- The element at an index of an array of `count` elements. -/
def elemAt (count : ℕ) (a : ℤ → α) (i : ℤ) : Except SearchFault α := do
  check (0 ≤ i ∧ i < count) .outside
  return a i

/-- `_swap`. -/
def swapElems (count sz : ℕ) (a : ℤ → α) (l r : ℤ) : Except SearchFault (ℤ → α) := do
  check (sz ≤ maxSortElementSize) .overrun
  let t ← elemAt count a l
  let x ← elemAt count a r
  return Function.update (Function.update a l x) r t

/-- `while (cmp(&a[++i], v) < 0)`, where `v` points to `a[r]`. -/
def scanUp (count : ℕ) (cmp : α → α → ℤ) (a : ℤ → α) (r : ℤ) : ℕ → ℤ → Except SearchFault ℤ
  | 0, _ => .error .endless
  | n+1, i => do
    let x ← elemAt count a (i+1)
    let v ← elemAt count a r
    if cmp x v < 0 then scanUp count cmp a r n (i+1) else return i+1

/-- `while (cmp(&a[--j], v) > 0)`. -/
def scanDown (count : ℕ) (cmp : α → α → ℤ) (a : ℤ → α) (r : ℤ) : ℕ → ℤ → Except SearchFault ℤ
  | 0, _ => .error .endless
  | n+1, j => do
    let x ← elemAt count a (j-1)
    let v ← elemAt count a r
    if 0 < cmp x v then scanDown count cmp a r n (j-1) else return j-1

/-- The loop of `_tk_quicksort` with the two scans in it. -/
def partitionLoop (count sz : ℕ) (cmp : α → α → ℤ) (r : ℤ) :
    ℕ → (ℤ → α) → ℤ → ℤ → Except SearchFault ((ℤ → α) × ℤ)
  | 0, _, _, _ => .error .endless
  | n+1, a, i, j => do
    let i ← scanUp count cmp a r (count+1) i
    let j ← scanDown count cmp a r (count+1) j
    if j ≤ i then return (a,i)
    else
      let a ← swapElems count sz a i j
      partitionLoop count sz cmp r n a i j

/-- What `_tk_quicksort` does before it calls itself, with the place of the pivot. -/
def partitionAt (count sz : ℕ) (cmp : α → α → ℤ) (a : ℤ → α) (l r : ℤ) :
    Except SearchFault ((ℤ → α) × ℤ) := do
  let (a,i) ← partitionLoop count sz cmp r (count+1) a (l-1) r
  let a ← swapElems count sz a i r
  return (a,i)

/-- `_tk_quicksort`. -/
def tkQuicksort (count sz : ℕ) (cmp : α → α → ℤ) :
    ℕ → (ℤ → α) → ℤ → ℤ → Except SearchFault (ℤ → α)
  | 0, a, l, r => if l < r then .error .endless else .ok a
  | n+1, a, l, r =>
    if l < r then do
      let (a,i) ← partitionAt count sz cmp a l r
      let a ← tkQuicksort count sz cmp n a l (i-1)
      tkQuicksort count sz cmp n a (i+1) r
    else .ok a

/-- `qsort`; the last index becomes an `int`. -/
def qsort (a : ℤ → α) (count size : ℕ) (compare : α → α → ℤ) : Except SearchFault (ℤ → α) :=
  tkQuicksort count size compare count a 0 (toInt32 (count-1))

/-- `_tk_bsearch`, with what `x` and `rc` hold before they are set. -/
def tkBsearch (count : ℕ) (cmp : α → α → ℤ) (v : α) (a : ℤ → α) :
    ℕ → (l r x rc : ℤ) → Except SearchFault ℤ
  | 0, _, _, _, _ => .error .endless
  | n+1, l, r, x, rc =>
    if l ≤ r then do
      let x := (toInt32 (r+l)).tdiv 2
      let m ← elemAt count a x
      let rc := cmp v m
      if rc = 0 then return x
      else if rc < 0 then tkBsearch count cmp v a n l (x-1) x rc
      else tkBsearch count cmp v a n (x+1) r x rc
    else if rc < 0 then return -1*x-1
    else return -1*x-2

/-- `bsearch`; the result is the index of the element it points to. -/
def bsearch (key : α) (a : ℤ → α) (count : ℕ) (compare : α → α → ℤ) (x rc : ℤ) :
    Except SearchFault (Option ℤ) := do
  let i ← tkBsearch count compare key a (count+1) 0 (toInt32 (count-1)) x rc
  return if 0 ≤ i then some i else none

end

end Tinker

import Tinker.Linked
import Tinker.RamSeek

/-! Regular files on the RAM disk with the pointers in their sectors. A sector has an address and a
link on either side of its data; a handle holds addresses, and a copy by `memcpy` that leaves the
data of a sector runs into the links. -/
namespace Tinker

open Memory Outcome

namespace SectorChain

/-- `struct sector_t`. -/
structure SectorT where
  prev : Option ℕ
  data : ℕ → Byte
  next : Option ℕ

/-- A sector that `memset` has cleared. -/
def SectorT.cleared : SectorT := ⟨none,fun _ => 0,none⟩

/-- The sectors by their addresses; `malloc` gives the address `fresh`. -/
structure Store where
  mem : ℕ → SectorT
  fresh : ℕ

/-- `fs_ifreg_inode_data_t`. -/
structure InodeData where
  maxsize : ℤ
  dsize : ℤ
  sectors : ℕ

/-- `fs_ifreg_hndl_data_t`; `ptr` is a sector and an index in its data. -/
structure HndlData where
  ptr : ℕ × ℤ
  sidx : ℤ
  didx : ℤ
  csector : ℕ

/-- What a `tk_fhandle_t` of a regular file holds. -/
structure Handle where
  oflag : OFlag
  data : HndlData

namespace Store

def next (m : Store) (a : ℕ) : Option ℕ := (m.mem a).next

def prev (m : Store) (a : ℕ) : Option ℕ := (m.mem a).prev

/-- A new sector that is linked to nothing. -/
def newSector (m : Store) : Store := ⟨Function.update m.mem m.fresh .cleared,m.fresh+1⟩

/-- A new sector behind `tsect`. -/
def addNext (m : Store) (tsect : ℕ) : Store :=
  ⟨Function.update (Function.update m.mem tsect { m.mem tsect with next := some m.fresh }) m.fresh
    { SectorT.cleared with prev := some tsect },m.fresh+1⟩

/-- `memcpy` of `k` bytes of `buf` to `data[off]`, with what is left of `buf`. -/
def copyIn (m : Store) (csector : ℕ) (off : ℤ) (k : ℕ) (buf : List Byte) :
    Except FsFault (Store × List Byte) := do
  check (0 ≤ off ∧ off+k ≤ dataInSectorSize) .overrun
  let s := m.mem csector
  return ({ m with
    mem := Function.update m.mem csector { s with data := poke s.data off.toNat (buf.take k) } },
    buf.drop k)

/-- `memcpy` of `k` bytes from `data[off]` to the end of `buf`; `beyond` is what the memory around
the data of a sector holds. -/
def copyOut (beyond : ℕ → ℤ → Byte) (m : Store) (csector : ℕ) (off : ℤ) (k : ℕ) (buf : List Byte) :
    Except FsFault (Store × List Byte) :=
  let byteAt (i : ℤ) : Byte :=
    if 0 ≤ i ∧ i < dataInSectorSize then (m.mem csector).data i.toNat else beyond csector i
  .ok (m,buf ++ (List.range k).map fun j : ℕ => byteAt (off+j))

end Store

/-- `DATA_IN_SECTOR_SIZE - sidx`, which is a `size_t`. -/
def sectorLeft (sidx : ℤ) : ℕ := ((dataInSectorSize-sidx) % 2^32).toNat

/-- The loop of `fs_ifreg_write` that makes room for `need` bytes, with `tsect` on its way along the
chain. -/
def grow (need : ℤ) : ℕ → ℕ → Store → ℤ → Except FsFault (Store × ℤ)
  | 0, _, m, maxsize => if need ≤ maxsize then .ok (m,maxsize) else .error .diverges
  | fuel+1, tsect, m, maxsize =>
    if need ≤ maxsize then .ok (m,maxsize)
    else match m.next tsect with
      | some t => grow need fuel t m maxsize
      | none => grow need fuel m.fresh (m.addNext tsect) (toInt32 (maxsize+dataInSectorSize))

/-- Where a loop over sectors ends: the bytes it has still to copy, or has copied, how many it has
copied, and whether the chain ended first. -/
structure Moved where
  store : Store
  buf : List Byte
  hdata : HndlData
  n : ℕ
  eof : Bool

/-- The loop of `fs_ifreg_read` and `fs_ifreg_write` across sectors. The last piece is not added to
the indices: `nleft` is cleared before it is. -/
def copySectors (copy : Store → ℕ → ℤ → ℕ → List Byte → Except FsFault (Store × List Byte)) :
    (fuel slen nleft : ℕ) → HndlData → Store → List Byte → ℕ → Except FsFault Moved
  | 0, _, _, _, _, _, _ => .error .diverges
  | fuel+1, slen, nleft, h, m, buf, n =>
    if nleft = 0 then .ok ⟨m,buf,h,n,false⟩
    else if slen < nleft then do
      let (m,buf) ← copy m h.csector h.sidx slen buf
      let h := { h with sidx := toInt32 (h.sidx+slen), didx := toInt32 (h.didx+slen) }
      match m.next h.csector with
      | none => return ⟨m,buf,h,n+slen,true⟩
      | some t =>
        let h := { h with csector := t, sidx := 0 }
        copySectors copy fuel dataInSectorSize (nleft-slen) h m buf (n+slen)
    else do
      let (m,buf) ← copy m h.csector h.sidx nleft buf
      let left : ℤ := 0
      return ⟨m,buf,{ h with sidx := h.sidx+left, didx := h.didx+left },n+nleft,false⟩

/-- `fs_ifreg_open`. -/
def fsIfregOpen (m : Store) (idata : Option InodeData) (flags : OFlag) (accessflg : ℕ) :
    Except FsFault (Except FsErr Handle × Store × Option InodeData) := do
  if flags.creat then
    check (accessflg = 0) .assert
  match idata with
  | none =>
    if flags.creat then
      let d : InodeData := ⟨dataInSectorSize,0,m.fresh⟩
      return (.ok ⟨flags,(d.sectors,0),0,0,d.sectors⟩,m.newSector,some d)
    else throw .null
  | some d =>
    if flags.creat && !flags.append then return (.error .eInval,m,some d)
    else return (.ok ⟨flags,(d.sectors,0),0,0,d.sectors⟩,m,some d)

/-- `fs_ifreg_read`: the bytes put into the caller's buffer. -/
def fsIfregRead (m : Store) (idata : Option InodeData) (hndl : Handle) (len : ℕ)
    (beyond : ℕ → ℤ → Byte) : Except FsFault (Except FsErr (List Byte) × HndlData) := do
  assertDbgFlags hndl.oflag
  let h := hndl.data
  if hndl.oflag.wronly then return (.error .eBadf,h)
  let some d := idata | throw .null
  if d.dsize < h.didx then return (.ok [],h)
  if len ≤ sectorLeft h.sidx then
    let (_,buf) ← m.copyOut beyond h.csector h.sidx len []
    return (.ok buf,{ h with sidx := toInt32 (h.sidx+len), didx := toInt32 (h.didx+len) })
  else
    let w ← copySectors (Store.copyOut beyond) (len+2) (sectorLeft h.sidx) len h m [] 0
    return (.ok w.buf,w.hdata)

/-- `fs_ifreg_write` behind the check of its flags, with the file as it is. -/
def writeAppend (m : Store) (d : InodeData) (h : HndlData) (buf : List Byte) :
    Except FsFault (Store × InodeData × HndlData) := do
  let len := buf.length
  let need := toInt32 (len+h.didx)
  let (m,maxsize) ← grow need (need.toNat+m.fresh) h.csector m d.maxsize
  if len ≤ sectorLeft h.sidx then
    let (m,_) ← m.copyIn h.ptr.1 h.ptr.2 len buf
    let h : HndlData := ⟨(h.ptr.1,h.ptr.2+len),toInt32 (h.sidx+len),toInt32 (h.didx+len),h.csector⟩
    return (m,{ d with maxsize := maxsize, dsize := h.didx },h)
  else
    let w ← copySectors Store.copyIn (len+2) (sectorLeft h.sidx) len h m buf 0
    check (w.eof = false) .assert
    check (w.store.next w.hdata.csector = none) .assert
    check (w.n = len) .assert
    return (w.store,{ d with maxsize := maxsize, dsize := w.hdata.didx },w.hdata)

/-- `fs_ifreg_write`. -/
def fsIfregWrite (m : Store) (idata : Option InodeData) (hndl : Handle) (buf : List Byte) :
    Except FsFault (Except FsErr ℕ × Store × Option InodeData × HndlData) := do
  assertDbgFlags hndl.oflag
  let h := hndl.data
  if !(hndl.oflag.rdwr || hndl.oflag.wronly) then return (.error .eBadf,m,idata,h)
  let some d := idata | throw .null
  -- "writing in mid file (TBD)"
  check (d.dsize < toInt32 (buf.length+h.didx)) .assert
  if !hndl.oflag.append then return (.error .eNospc,m,some d,h)
  let (m,d,h) ← writeAppend m d h buf
  return (.ok buf.length,m,some d,h)

/-- The walk of `fs_ifreg_lseek` to the last sector, with the number of those before it. -/
def lastSector (m : Store) : ℕ → ℕ → ℕ → Except FsFault (ℕ × ℕ)
  | 0, _, _ => .error .diverges
  | fuel+1, tsect, nsect =>
    match m.next tsect with
    | none => .ok (tsect,nsect)
    | some t => lastSector m fuel t (nsect+1)

/-- The end of `fs_ifreg_lseek`: file and handle move. -/
def lseekMove (d : InodeData) (h : HndlData) (tsect nsect : ℕ) (ptr : ℤ) : InodeData × HndlData :=
  let didx := toInt32 (h.didx+ptr)
  let sidx := toInt32 (didx-nsect*dataInSectorSize)
  ({ d with dsize := didx },⟨(tsect,sidx),sidx,didx,tsect⟩)

/-- `fs_ifreg_lseek`; `granted` is whether `malloc` gives a sector. -/
def fsIfregLseek (m : Store) (idata : Option InodeData) (hndl : Handle) (ptr : ℤ) (dir : Whence)
    (granted : Bool) :
    Except FsFault (Except SeekErr ℕ × Store × Option InodeData × HndlData) := do
  assertDbgFlags hndl.oflag
  let h := hndl.data
  match dir with
  | .seekSet | .seekCur | .unknown => throw .assert
  | .seekEnd =>
    let some d := idata | throw .null
    let (tsect,nsect) ← lastSector m (m.fresh+1) d.sectors 0
    if d.maxsize < toInt32 (ptr+d.dsize) then
      if hndl.oflag.append then
        -- the handle goes back to the sector it had
        if !granted then return (.error .eNospc,m,some d,h)
        let d := { d with maxsize := toInt32 (d.maxsize+dataInSectorSize) }
        let (d,h) := lseekMove d h tsect nsect ptr
        return (.ok 0,m.addNext tsect,some d,h)
      else return (.error .eFbig,m,some d,{ h with csector := tsect })
    else
      let (d,h) := lseekMove d h tsect nsect ptr
      return (.ok 0,m,some d,h)

/-! ### The links -/

variable {m m' : Store} {first tsect p : ℕ} {c l l1 l2 : List ℕ}

/-- The sectors `c` hang together from `first` on, and `malloc` has given all of them. -/
structure Sectors (m : Store) (first : ℕ) (c : List ℕ) : Prop where
  linked : Linked.Doubly m.next m.prev none (some first) c
  nodup : c.Nodup
  alloc : ∀ a ∈ c, a < m.fresh

/-- Only data may differ. -/
structure SameLinks (m m' : Store) : Prop where
  next : m'.next = m.next
  prev : m'.prev = m.prev
  fresh : m'.fresh = m.fresh

theorem SameLinks.refl (m : Store) : SameLinks m m := ⟨rfl,rfl,rfl⟩

theorem Sectors.sameLinks (h : Sectors m first c) (hs : SameLinks m m') : Sectors m' first c where
  linked := by
    rw [hs.next,hs.prev]
    exact h.linked
  nodup := h.nodup
  alloc := by
    rw [hs.fresh]
    exact h.alloc

theorem Sectors.length_le (h : Sectors m first c) : c.length ≤ m.fresh := by
  have hsub : c ⊆ List.range m.fresh := fun a ha => List.mem_range.mpr (h.alloc a ha)
  have hle := (List.subperm_of_subset h.nodup hsub).length_le
  rwa [List.length_range] at hle

theorem Store.addNext_next (m : Store) (t a : ℕ) : (m.addNext t).next a =
    if a = m.fresh then none else if a = t then some m.fresh else m.next a := by
  simp only [addNext,next,Function.update_apply]
  split_ifs <;> rfl

theorem Store.addNext_prev (m : Store) (t a : ℕ) : (m.addNext t).prev a =
    if a = m.fresh then some t else m.prev a := by
  simp only [addNext,prev,Function.update_apply]
  split_ifs with h1 h2
  · rfl
  · rw [h2]
  · rfl

theorem Sectors.newSector (m : Store) : Sectors m.newSector m.fresh [m.fresh] := by
  refine ⟨⟨rfl,?_,?_⟩,List.nodup_singleton _,fun a ha => ?_⟩
  · simp only [Store.newSector,Store.prev,Function.update_self]
    rfl
  · simp only [Store.newSector,Store.next,Function.update_self]
    rfl
  · rw [List.mem_singleton.mp ha]
    exact Nat.lt_succ_self m.fresh

/-- A sector is added behind the last one. -/
theorem Sectors.addNext (h : Sectors m first (l ++ [p])) :
    Sectors (m.addNext p) first (l ++ [p] ++ [m.fresh]) := by
  have hfresh : ∀ a ∈ l ++ [p], a ≠ m.fresh := fun a ha => Nat.ne_of_lt (h.alloc a ha)
  have hp : p ≠ m.fresh := hfresh p (List.mem_append_right l (List.mem_singleton_self p))
  have hlast : ∀ q ∈ l, q ≠ p := by
    rintro q hq rfl
    exact (List.nodup_append.mp h.nodup).2.2 q hq q (List.mem_singleton_self q) rfl
  refine ⟨h.linked.concat ?_ ?_ ?_ ?_ ?_,?_,?_⟩
  · intro q hq
    rw [Store.addNext_next,if_neg (hfresh q (List.mem_append_left _ hq)),if_neg (hlast q hq)]
  · intro q hq
    rw [Store.addNext_prev,if_neg (hfresh q hq)]
  · rw [Store.addNext_next,if_neg hp,if_pos rfl]
  · rw [Store.addNext_next,if_pos rfl]
  · rw [Store.addNext_prev,if_pos rfl]
  · refine List.nodup_append.mpr ⟨h.nodup,List.nodup_singleton _,fun a ha b hb => ?_⟩
    rw [List.mem_singleton.mp hb]
    exact hfresh a ha
  · intro a ha
    obtain ha | ha := List.mem_append.mp ha
    · exact Nat.lt_succ_of_lt (h.alloc a ha)
    · rw [List.mem_singleton.mp ha]
      exact Nat.lt_succ_self m.fresh

theorem copyIn_spec (m : Store) (a : ℕ) (off : ℤ) (k : ℕ) (buf : List Byte) :
    Spec (m.copyIn a off k buf)
      (fun x => SameLinks m x.1 ∧ 0 ≤ off ∧ off+k ≤ dataInSectorSize)
      (fun e => e = .overrun ∧ ¬(0 ≤ off ∧ off+k ≤ dataInSectorSize)) := by
  simp only [Store.copyIn,spec_bind,spec_check,spec_pure]
  refine ⟨fun hin => ⟨⟨?_,?_,rfl⟩,hin⟩,fun hout => ⟨trivial,hout⟩⟩
  · funext b
    simp only [Store.next,Function.update_apply]
    split_ifs with hb
    · rw [hb]
    · rfl
  · funext b
    simp only [Store.prev,Function.update_apply]
    split_ifs with hb
    · rw [hb]
    · rfl

/-- The counter of the file is right, and an `int`. -/
structure Sized (maxsize : ℤ) (c : List ℕ) : Prop where
  eq : maxsize = dataInSectorSize*c.length
  int : maxsize < 2^31

theorem Sized.concat {maxsize : ℤ} (h : Sized maxsize c) (hroom : maxsize+40 < 2^31) :
    Sized (toInt32 (maxsize+dataInSectorSize)) (c ++ [p]) := by
  have heq := h.eq
  rw [dataInSectorSize_eq] at heq
  have hwrap : toInt32 (maxsize+dataInSectorSize) = maxsize+40 :=
    toInt32_of_int (by rw [dataInSectorSize_eq]; omega) (by rw [dataInSectorSize_eq]; omega)
  refine ⟨?_,?_⟩
  · rw [hwrap,List.length_append,List.length_singleton,dataInSectorSize_eq,heq]
    omega
  · rw [hwrap]
    exact hroom

/-- The largest number of bytes in whole sectors that is an `int`. -/
def maxMaxsize : ℤ := 2147483640

/-- Room is made behind the last sector, from whichever sector the loop sets out. -/
theorem grow_spec {need maxsize : ℤ} {fuel : ℕ} (hs : Sectors m first (l1 ++ tsect :: l2))
    (hsize : Sized maxsize (l1 ++ tsect :: l2)) (hneed : need ≤ maxsize ∨ need ≤ maxMaxsize)
    (hfuel : (need-maxsize).toNat+l2.length ≤ fuel) :
    ∃ m' maxsize' c', grow need fuel tsect m maxsize = .ok (m',maxsize') ∧
      Sectors m' first (l1 ++ tsect :: l2 ++ c') ∧ Sized maxsize' (l1 ++ tsect :: l2 ++ c') := by
  induction fuel generalizing m maxsize tsect l1 l2 with
  | zero =>
    refine ⟨m,maxsize,[],if_pos (by omega),?_⟩
    rw [List.append_nil]
    exact ⟨hs,hsize⟩
  | succ fuel ih =>
    rw [grow]
    by_cases hle : need ≤ maxsize
    · refine ⟨m,maxsize,[],if_pos hle,?_⟩
      rw [List.append_nil]
      exact ⟨hs,hsize⟩
    rw [if_neg hle]
    have hmax : need ≤ maxMaxsize := hneed.resolve_left hle
    have hbehind := hs.linked.chain.behind
    cases l2 with
    | cons t l2 =>
      rw [hbehind.1]
      rw [List.append_cons] at hs hsize ⊢
      rw [List.length_cons] at hfuel
      exact ih hs hsize (Or.inr hmax) (by omega)
    | nil =>
      have hnext : m.next tsect = none := hbehind
      have heq := hsize.eq
      rw [dataInSectorSize_eq] at heq
      have hroom : maxsize+40 < 2^31 := by
        rw [maxMaxsize] at hmax
        omega
      have hwrap := (hsize.concat (p:=m.fresh) hroom).eq
      have hmore : (need-toInt32 (maxsize+dataInSectorSize)).toNat+([] : List ℕ).length ≤ fuel := by
        rw [hwrap,List.length_append,List.length_singleton,dataInSectorSize_eq]
        rw [List.length_nil] at hfuel ⊢
        omega
      rw [hnext]
      obtain ⟨m',maxsize',c',hrun,hs',hsize'⟩ :=
        ih hs.addNext (hsize.concat hroom) (Or.inr hmax) hmore
      rw [List.append_assoc (l1 ++ [tsect])] at hs' hsize'
      exact ⟨m',maxsize',_,hrun,hs',hsize'⟩

/-- Where the counter would overflow the loop has no end. -/
theorem grow_diverges {need maxsize : ℤ} (hneed : maxMaxsize < need) (hint : maxsize < 2^31)
    (hwhole : (8 : ℤ) ∣ maxsize) (fuel tsect : ℕ) (m : Store) :
    grow need fuel tsect m maxsize = .error .diverges := by
  have hle : ¬need ≤ maxsize := by
    rw [maxMaxsize] at hneed
    omega
  induction fuel generalizing tsect m maxsize with
  | zero => exact if_neg hle
  | succ fuel ih =>
    rw [grow,if_neg hle]
    cases m.next tsect with
    | some t => exact ih hint hwhole t m hle
    | none =>
      have hint' : toInt32 (maxsize+dataInSectorSize) < 2^31 := by
        rw [toInt32,Int.bmod_def]
        omega
      have hwhole' : (8 : ℤ) ∣ toInt32 (maxsize+dataInSectorSize) := by
        rw [toInt32,Int.bmod_def,dataInSectorSize_eq]
        omega
      refine ih hint' hwhole' _ _ ?_
      rw [maxMaxsize] at hneed
      omega

/-- The walk comes to the last sector. -/
theorem lastSector_spec {fuel : ℕ} (nsect : ℕ)
    (hc : Linked.Chain m.next (some first) (l1 ++ tsect :: l2)) (hfuel : l2.length < fuel) :
    ∃ l p, l1 ++ tsect :: l2 = l ++ [p] ∧
      lastSector m fuel tsect nsect = .ok (p,nsect+l2.length) := by
  induction l2 generalizing l1 tsect fuel nsect with
  | nil =>
    obtain ⟨fuel,rfl⟩ := Nat.exists_eq_succ_of_ne_zero (Nat.ne_zero_of_lt hfuel)
    have hnext : m.next tsect = none := hc.behind
    exact ⟨l1,tsect,rfl,by rw [lastSector,hnext]; rfl⟩
  | cons t l2 ih =>
    obtain ⟨fuel,rfl⟩ := Nat.exists_eq_succ_of_ne_zero (Nat.ne_zero_of_lt hfuel)
    have hnext : m.next tsect = some t := hc.behind.1
    rw [List.append_cons] at hc ⊢
    obtain ⟨l,p,hl,hrun⟩ := ih (nsect+1) hc (Nat.lt_of_succ_lt_succ hfuel)
    refine ⟨l,p,hl,?_⟩
    rw [lastSector,hnext,List.length_cons,Nat.add_comm l2.length,← Nat.add_assoc]
    exact hrun

/-- The walk of a seek ends at the last sector, with the number of those before it. -/
theorem Sectors.lastSector (hs : Sectors m first c) : ∃ l p, c = l ++ [p] ∧
    SectorChain.lastSector m (m.fresh+1) first 0 = .ok (p,l.length) := by
  have hlen := hs.length_le
  have hchain := hs.linked.chain
  cases c with
  | nil => cases hchain
  | cons a l2 =>
    obtain rfl : first = a := Option.some.inj hchain.1
    rw [List.length_cons] at hlen
    have hspec : ∃ l p, [] ++ first :: l2 = l ++ [p] ∧
        SectorChain.lastSector m (m.fresh+1) first 0 = .ok (p,0+l2.length) :=
      lastSector_spec 0 hchain (by omega)
    obtain ⟨l,p,hl,hrun⟩ := hspec
    have hcount := congrArg List.length hl
    rw [List.nil_append,List.length_cons,List.length_append,List.length_singleton] at hcount
    rw [Nat.zero_add,Nat.succ.inj hcount] at hrun
    exact ⟨l,p,hl,hrun⟩

/-- Where a copy of a piece may begin. -/
abbrev Piece := ℤ → ℕ → Prop

/-- The copies of the loop that fit do not touch a link. -/
def Copies (fits : Piece)
    (copy : Store → ℕ → ℤ → ℕ → List Byte → Except FsFault (Store × List Byte)) : Prop :=
  ∀ m a off k buf, fits off k → Spec (copy m a off k buf) (fun x => SameLinks m x.1) fun _ => False

/-- The loop goes along the chain and comes to an end. -/
theorem copySectors_spec {fits : Piece}
    {copy : Store → ℕ → ℤ → ℕ → List Byte → Except FsFault (Store × List Byte)}
    (hcopy : Copies fits copy) (hwhole : ∀ k ≤ dataInSectorSize, fits 0 k) {fuel slen nleft n : ℕ}
    {h : HndlData} {buf : List Byte} (hs : Sectors m first c) (hc : h.csector ∈ c)
    (hint : h.sidx < 2^31) (hfirst : ∀ k ≤ slen, fits h.sidx k) (hpos : 0 < fuel)
    (hfuel : nleft+1 < fuel+slen) :
    Spec (copySectors copy fuel slen nleft h m buf n)
      (fun w => Sectors w.store first c ∧ w.hdata.csector ∈ c ∧ w.hdata.sidx < 2^31)
      (fun _ => False) := by
  induction fuel generalizing slen nleft h m buf n with
  | zero => exact absurd hpos (Nat.lt_irrefl 0)
  | succ fuel ih =>
    simp only [copySectors,spec_ite,spec_ok,spec_bind,spec_pure]
    refine ⟨fun _ => ⟨hs,hc,hint⟩,fun _ => ⟨fun hlt => ?_,fun hge => ?_⟩⟩
    · refine (hcopy m _ _ _ _ (hfirst slen (Nat.le_refl slen))).imp ?_
      rintro ⟨m1,buf1⟩ hlinks
      have hs1 := hs.sameLinks hlinks
      cases hnext : m1.next h.csector with
      | none =>
        refine ⟨hs1,hc,?_⟩
        simp only [toInt32,Int.bmod_def]
        omega
      | some t =>
        have ht : t ∈ c := hs1.linked.chain.next_mem hc hnext
        refine ih hs1 ht (show (0:ℤ) < 2^31 by decide) hwhole (by omega) ?_
        rw [dataInSectorSize_eq]
        omega
    · refine (hcopy m _ _ _ _ (hfirst nleft (Nat.le_of_not_lt hge))).imp ?_
      rintro ⟨m1,buf1⟩ hlinks
      exact ⟨hs.sameLinks hlinks,hc,by simpa using hint⟩

/-! ### The calls -/

/-- A handle is in the chain. -/
structure HndlIn (h : HndlData) (c : List ℕ) : Prop where
  csector : h.csector ∈ c
  int : h.sidx < 2^31

theorem HndlIn.mono {h : HndlData} {c' : List ℕ} (hh : HndlIn h c) (hc : c ⊆ c') : HndlIn h c' :=
  ⟨hc hh.csector,hh.int⟩

theorem toInt32_lt (z : ℤ) : toInt32 z < 2^31 := by
  rw [toInt32,Int.bmod_def]
  omega

theorem sectorLeft_add {sidx : ℤ} (h0 : 0 ≤ sidx) (hint : sidx < 2^31)
    (hleft : sectorLeft sidx < 2^31) : sidx+sectorLeft sidx = dataInSectorSize := by
  rw [sectorLeft,dataInSectorSize_eq] at *
  omega

theorem assertDbgFlags_spec (oflag : OFlag) :
    Spec (assertDbgFlags oflag) (fun _ => True) (fun e => e = .assert) := by
  simp only [assertDbgFlags,tkDbgFlags,spec_bind,spec_check,spec_pure,implies_true,and_self]

variable {d : InodeData} {h : HndlData} {hndl : Handle} {buf : List Byte}

theorem copyOut_copies (beyond : ℕ → ℤ → Byte) :
    Copies (fun _ _ => True) (Store.copyOut beyond) := fun m _ _ _ _ _ => SameLinks.refl m

theorem copyIn_copies :
    Copies (fun off k => 0 ≤ off ∧ off+k ≤ dataInSectorSize) Store.copyIn :=
  fun m a off k buf hin =>
    (copyIn_spec m a off k buf).mono (fun _ hx => hx.1) fun _ he => absurd hin he.2

/-- A read moves its handle along the chain. -/
theorem fsIfregRead_spec (hs : Sectors m d.sectors c) (hh : HndlIn hndl.data c) (len : ℕ)
    (beyond : ℕ → ℤ → Byte) :
    Spec (fsIfregRead m (some d) hndl len beyond) (fun x => HndlIn x.2 c)
      (fun e => e = .assert) := by
  simp only [fsIfregRead,spec_bind,spec_ite,spec_pure]
  refine (assertDbgFlags_spec hndl.oflag).imp fun _ _ => ⟨fun _ => hh,fun _ => ?_⟩
  refine ⟨fun _ => hh,fun _ => ⟨fun _ => ?_,fun _ => ?_⟩⟩
  · exact ⟨hh.csector,toInt32_lt _⟩
  · refine (copySectors_spec (copyOut_copies beyond) (fun _ _ => trivial) hs hh.csector hh.int
      (fun _ _ => trivial) (by omega) (by omega)).mono (fun w hw => ?_) fun e he => he.elim
    exact ⟨hw.2.1,hw.2.2⟩

/-- The copies of a write stay in the data of a sector, and the counter an `int`. -/
structure Inside (d : InodeData) (h : HndlData) (len : ℕ) : Prop where
  room : toInt32 (len+h.didx) ≤ d.maxsize ∨ toInt32 (len+h.didx) ≤ maxMaxsize
  ptr : len ≤ sectorLeft h.sidx → 0 ≤ h.ptr.2 ∧ h.ptr.2+len ≤ dataInSectorSize
  sidx : sectorLeft h.sidx < len → 0 ≤ h.sidx

/-- What the loop that makes room does for a write. -/
theorem writeAppend_grows (hs : Sectors m d.sectors c) (hsize : Sized d.maxsize c)
    (hc : h.csector ∈ c) {need : ℤ} (hroom : need ≤ d.maxsize ∨ need ≤ maxMaxsize) :
    ∃ m' maxsize' c', grow need (need.toNat+m.fresh) h.csector m d.maxsize = .ok (m',maxsize') ∧
      Sectors m' d.sectors (c ++ c') ∧ Sized maxsize' (c ++ c') := by
  obtain ⟨l1,l2,rfl⟩ := List.append_of_mem hc
  have hle := hs.length_le
  have heq := hsize.eq
  rw [List.length_append,List.length_cons] at hle
  rw [dataInSectorSize_eq] at heq
  exact grow_spec hs hsize hroom (by omega)

theorem writeAppend_inside (hs : Sectors m d.sectors c) (hsize : Sized d.maxsize c)
    (hh : HndlIn h c) (hlen : buf.length < 2^31) (hin : Inside d h buf.length) :
    Spec (writeAppend m d h buf) (fun x => ∃ c', Sectors x.1 x.2.1.sectors (c ++ c') ∧
        Sized x.2.1.maxsize (c ++ c') ∧ HndlIn x.2.2 (c ++ c'))
      (fun e => e = .assert) := by
  obtain ⟨m1,maxsize1,c',hgrow,hs1,hsize1⟩ := writeAppend_grows hs hsize hh.csector hin.room
  have hh1 : HndlIn h (c ++ c') := hh.mono (List.subset_append_left c c')
  simp only [writeAppend,hgrow,spec_bind,spec_ok,spec_ite,spec_pure,spec_check]
  constructor
  · intro hle
    refine (copyIn_spec ..).mono ?_ fun e he => absurd (hin.ptr hle) he.2
    rintro ⟨m2,_⟩ ⟨hlinks,-⟩
    exact ⟨c',hs1.sameLinks hlinks,hsize1,hh1.csector,toInt32_lt _⟩
  · intro hlt
    have h0 := hin.sidx (Nat.lt_of_not_le hlt)
    have hleft := sectorLeft_add h0 hh.int (by omega)
    refine (copySectors_spec copyIn_copies (fun k hk => ⟨Int.le_refl 0,?_⟩) hs1 hh1.csector hh.int
      (fun k hk => ⟨h0,?_⟩) (by omega) (by omega)).mono (fun w hw => ?_) fun e he => he.elim
    · omega
    · omega
    · refine ⟨fun _ => ⟨fun _ => ⟨fun _ => ?_,fun _ => trivial⟩,fun _ => trivial⟩,fun _ => trivial⟩
      exact ⟨c',hw.1,hsize1,hw.2.1,hw.2.2⟩

/-- A loop that begins before the data of a sector overruns it. -/
theorem copySectors_overrun {fuel slen nleft n : ℕ} (hpos : 0 < fuel) (hleft : nleft ≠ 0)
    (hneg : h.sidx < 0) :
    Spec (copySectors Store.copyIn fuel slen nleft h m buf n) (fun _ => False)
      (fun e => e = .overrun) := by
  obtain ⟨fuel,rfl⟩ := Nat.exists_eq_succ_of_ne_zero (Nat.ne_of_gt hpos)
  have hover : ∀ k, Spec (m.copyIn h.csector h.sidx k buf) (fun _ => False)
      (fun e => e = .overrun) := fun k =>
    (copyIn_spec ..).mono (fun _ hx => by have := hx.2.1; omega) fun _ he => he.1
  rw [copySectors,if_neg hleft]
  split
  · rw [spec_bind]
    exact (hover slen).imp fun _ hx => hx.elim
  · rw [spec_bind]
    exact (hover nleft).imp fun _ hx => hx.elim

theorem writeAppend_outside (hs : Sectors m d.sectors c) (hsize : Sized d.maxsize c)
    (hh : HndlIn h c) (hout : ¬Inside d h buf.length) :
    Spec (writeAppend m d h buf) (fun _ => False) (fun e => e ≠ .assert) := by
  by_cases hroom : toInt32 (buf.length+h.didx) ≤ d.maxsize ∨ toInt32 (buf.length+h.didx) ≤ maxMaxsize
  · obtain ⟨m1,maxsize1,c',hgrow,-⟩ := writeAppend_grows hs hsize hh.csector hroom
    simp only [writeAppend,hgrow,spec_bind,spec_ok,spec_ite,spec_pure,spec_check]
    constructor
    · intro hle
      refine (copyIn_spec ..).mono (fun _ hx => hout ⟨hroom,fun _ => hx.2,fun hlt => ?_⟩) ?_
      · exact absurd hle (Nat.not_le.mpr hlt)
      · rintro e ⟨rfl,-⟩
        decide
    · intro hlt
      have hneg : h.sidx < 0 := by
        by_contra h0
        exact hout ⟨hroom,fun hle => absurd hle hlt,fun _ => Int.not_lt.mp h0⟩
      refine (copySectors_overrun (by omega) (by omega) hneg).mono (fun _ hx => hx.elim) ?_
      rintro e rfl
      decide
  · have heq := hsize.eq
    rw [dataInSectorSize_eq] at heq
    obtain ⟨-,hbig⟩ := not_or.mp hroom
    have hdiv := grow_diverges (Int.not_le.mp hbig) hsize.int (by omega)
    simp only [writeAppend,hdiv,spec_bind,spec_error]
    decide

end SectorChain

end Tinker

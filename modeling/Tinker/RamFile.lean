import Tinker.ItcObjects
import Tinker.Memory
import Tinker.Outcome

/-! Regular files on the RAM disk: a chain of sectors for each inode, and handles that keep a
pointer, an index in a sector and an index in the file. All allocations succeed. -/
namespace Tinker

open Memory Outcome

/-- How a call of the file system can end badly: a failed assert, a null pointer, a copy beyond the
data of a sector, a walk along `next` that does not end. -/
inductive FsFault
  | assert | null | overrun | diverges
  deriving DecidableEq

/-- `errno` where a call returns -1. -/
inductive FsErr
  | eNametoolong | eExist | eNoent | eNotdir | eInval | eBadf | eNospc
  deriving DecidableEq

/-- The flags that some function tests; `unknown` stands for the bits `tk_dbg_flags` has no name
for, and those that only `tk_dbg_flags` knows are left out. -/
structure OFlag where
  rdwr : Bool
  wronly : Bool
  append : Bool
  creat : Bool
  excl : Bool
  unknown : Bool

/-- `tk_dbg_flags`: whether bits are left over. -/
def tkDbgFlags (oflag : OFlag) : Except FsFault Bool := do
  check (¬(oflag.rdwr = true ∧ oflag.wronly = true)) .assert
  return oflag.unknown

/-- `assert(tk_dbg_flags(&flags, oflag) == 0)`. -/
def assertDbgFlags (oflag : OFlag) : Except FsFault Unit := do
  let left ← tkDbgFlags oflag
  check (left = false) .assert

/-- `DATA_IN_SECTOR_SIZE` for pointers of four bytes. -/
def dataInSectorSize : ℕ := 48-2*4

theorem dataInSectorSize_eq : dataInSectorSize = 40 := rfl

/-- `fs_ifreg_inode_data_t`, with the data of each sector in the order of the chain. -/
structure IfregData where
  maxsize : ℕ
  dsize : ℕ
  sectors : List (ℕ → Byte)

/-- `fs_ifreg_hndl_data_t`. A sector is its place in the chain, `ptr` a sector and an offset. The
index `sidx` never exceeds `DATA_IN_SECTOR_SIZE`, and what is left of a sector does not wrap. -/
structure IfregHandle where
  ptr : ℕ × ℕ
  sidx : ℕ
  didx : ℕ
  csector : ℕ

/-- What a `tk_fhandle_t` of a regular file holds. -/
structure FHandle where
  oflag : OFlag
  data : IfregHandle

namespace IfregData

/-- The data of the `c`-th sector. -/
def sector (d : IfregData) (c : ℕ) : ℕ → Byte := d.sectors.getD c fun _ => 0

/-- `memcpy` to `data[off]` of the `c`-th sector. -/
def store (d : IfregData) (c off : ℕ) (bs : List Byte) : IfregData :=
  { d with sectors := d.sectors.modify c fun s => poke s off bs }

/-- `memcpy` from `data[off]` of the `c`-th sector. -/
def load (d : IfregData) (c off n : ℕ) : List Byte := peek (d.sector c) off n

/-- A new sector at the end of the chain. -/
def addSector (d : IfregData) : IfregData :=
  { d with maxsize := d.maxsize+dataInSectorSize, sectors := d.sectors ++ [fun _ => 0] }

/-- The loop that makes room for `need` bytes, with `tsect` on its way along the chain. -/
def grow (need : ℕ) : ℕ → ℕ → IfregData → Except FsFault IfregData
  | 0, _, d => if need ≤ d.maxsize then .ok d else .error .diverges
  | fuel+1, tsect, d =>
    if need ≤ d.maxsize then .ok d
    else if tsect+1 < d.sectors.length then grow need fuel (tsect+1) d
    else grow need fuel (tsect+1) d.addSector

end IfregData

/-- `fs_ifreg_open`. -/
def fsIfregOpen (idata : Option IfregData) (flags : OFlag) (accessflg : ℕ) :
    Except FsFault (Except FsErr FHandle × Option IfregData) := do
  if flags.creat then
    check (accessflg = 0) .assert
  match idata with
  | none =>
    if flags.creat then
      let d : IfregData := ⟨dataInSectorSize,0,[fun _ => 0]⟩
      return (.ok ⟨flags,(0,0),0,0,0⟩,some d)
    else throw .null
  | some d =>
    if flags.creat && !flags.append then return (.error .eInval,some d)
    else return (.ok ⟨flags,(0,0),0,0,0⟩,some d)

/-- Where a loop over sectors ends: the handle, what has been copied, and whether the chain ended
first. -/
structure Moved (σ : Type) where
  hdata : IfregHandle
  copied : σ
  n : ℕ
  eof : Bool

/-- The loop of `fs_ifreg_read` and `fs_ifreg_write` across sectors, `rest` of them behind
`csector`. The last piece is not added to the indices: `nleft` is cleared before it is. -/
def copySectors {σ : Type} (copy : ℕ → ℕ → ℕ → σ → σ) :
    (rest slen nleft : ℕ) → IfregHandle → σ → ℕ → Moved σ
  | rest, slen, nleft, h, a, n =>
    if nleft = 0 then ⟨h,a,n,false⟩
    else if slen < nleft then
      let a := copy h.csector h.sidx slen a
      let h := { h with sidx := h.sidx+slen, didx := h.didx+slen }
      match rest with
      | 0 => ⟨h,a,n+slen,true⟩
      | rest+1 => copySectors copy rest dataInSectorSize (nleft-slen)
          { h with csector := h.csector+1, sidx := 0 } a (n+slen)
    else
      let a := copy h.csector h.sidx nleft a
      let left := 0
      ⟨{ h with sidx := h.sidx+left, didx := h.didx+left },a,n+nleft,false⟩

/-- `fs_ifreg_read`: the bytes put into the caller's buffer, as many as it returns. -/
def fsIfregRead (idata : Option IfregData) (hndl : FHandle) (len : ℕ) :
    Except FsFault (Except FsErr (List Byte) × FHandle) := do
  assertDbgFlags hndl.oflag
  let h := hndl.data
  if hndl.oflag.wronly then return (.error .eBadf,hndl)
  let some d := idata | throw .null
  if d.dsize < h.didx then return (.ok [],hndl)
  if len ≤ dataInSectorSize-h.sidx then
    return (.ok (d.load h.csector h.sidx len),
      { hndl with data := { h with sidx := h.sidx+len, didx := h.didx+len } })
  else
    let m := copySectors (fun c s k out => out ++ d.load c s k)
      (d.sectors.length-(h.csector+1)) (dataInSectorSize-h.sidx) len h [] 0
    return (.ok m.copied,{ hndl with data := m.hdata })

/-- `fs_ifreg_write`. -/
def fsIfregWrite (idata : Option IfregData) (hndl : FHandle) (buf : List Byte) :
    Except FsFault (Except FsErr ℕ × Option IfregData × FHandle) := do
  assertDbgFlags hndl.oflag
  let h := hndl.data
  let len := buf.length
  if !(hndl.oflag.rdwr || hndl.oflag.wronly) then return (.error .eBadf,idata,hndl)
  let some d := idata | throw .null
  -- "writing in mid file (TBD)"
  check (d.dsize < len+h.didx) .assert
  if !hndl.oflag.append then return (.error .eNospc,some d,hndl)
  let d ← d.grow (len+h.didx) (len+h.didx+d.sectors.length) h.csector
  if len ≤ dataInSectorSize-h.sidx then
    check (h.ptr.2+len ≤ dataInSectorSize) .overrun
    let h' : IfregHandle := ⟨(h.ptr.1,h.ptr.2+len),h.sidx+len,h.didx+len,h.csector⟩
    return (.ok len,some { d.store h.ptr.1 h.ptr.2 buf with dsize := h'.didx },
      { hndl with data := h' })
  else
    let m := copySectors (fun c s k (d,buf) => (d.store c s (buf.take k),buf.drop k))
      (d.sectors.length-(h.csector+1)) (dataInSectorSize-h.sidx) len h (d,buf) 0
    check (m.eof = false) .assert
    check (m.hdata.csector+1 = d.sectors.length) .assert
    check (m.n = len) .assert
    return (.ok m.n,some { m.copied.1 with dsize := m.hdata.didx },{ hndl with data := m.hdata })

namespace IfregData

variable {d : IfregData} {c off n : ℕ} {bs : List Byte}

/-- The bytes of a file by their index, sector after sector. -/
def byteAt (d : IfregData) (i : ℕ) : Byte := d.sector (i/dataInSectorSize) (i % dataInSectorSize)

@[simp] theorem store_maxsize : (d.store c off bs).maxsize = d.maxsize := rfl
@[simp] theorem store_dsize : (d.store c off bs).dsize = d.dsize := rfl

@[simp] theorem store_length : (d.store c off bs).sectors.length = d.sectors.length := by
  simp [store]

theorem sector_store (hc : c < d.sectors.length) (j : ℕ) :
    (d.store c off bs).sector j = if j = c then poke (d.sector c) off bs else d.sector j := by
  simp only [sector,store,List.getD_eq_getElem?_getD,List.getElem?_modify]
  by_cases hj : j = c
  · subst hj
    simp [List.getElem?_eq_getElem hc]
  · simp [hj,Ne.symm hj]

/-- A copy within a sector is one to the bytes of the file. -/
theorem byteAt_store (hc : c < d.sectors.length) (hoff : off+bs.length ≤ dataInSectorSize) :
    (d.store c off bs).byteAt = poke d.byteAt (dataInSectorSize*c+off) bs := by
  funext i
  rw [byteAt,sector_store hc,poke_apply]
  rw [dataInSectorSize_eq] at *
  by_cases hi : i/40 = c
  · rw [if_pos hi,poke_apply]
    by_cases hle : off ≤ i % 40
    · rw [if_pos hle,if_pos (by omega),show i-(40*c+off) = i % 40-off by omega]
      rw [byteAt,← hi]
      rfl
    · rw [if_neg hle,if_neg (by omega),byteAt,← hi]
      rfl
  · rw [if_neg hi]
    by_cases hle : 40*c+off ≤ i
    · rw [if_pos hle,List.getElem?_eq_none (by omega),Option.getD_none]
      rfl
    · rw [if_neg hle]
      rfl

/-- A copy out of a sector is one of the bytes of the file. -/
theorem load_eq (hoff : off+n ≤ dataInSectorSize) :
    d.load c off n = peek d.byteAt (dataInSectorSize*c+off) n := by
  refine List.ext_getElem (by simp [load]) fun j h1 h2 => ?_
  rw [load,peek_length] at h1
  rw [peek_getElem]
  simp only [load,peek_getElem,byteAt]
  rw [dataInSectorSize_eq] at *
  rw [show (40*c+off+j)/40 = c by omega,show (40*c+off+j) % 40 = off+j by omega]

@[simp] theorem byteAt_addSector : d.addSector.byteAt = d.byteAt := by
  funext i
  simp only [byteAt,sector,addSector,List.getD_eq_getElem?_getD,List.getElem?_append]
  split
  · rfl
  · next hi =>
    rw [List.getElem?_eq_none (by omega : d.sectors.length ≤ _)]
    obtain h0 | hpos := Nat.eq_zero_or_pos (i/dataInSectorSize-d.sectors.length)
    · rw [h0]
      rfl
    · rw [List.getElem?_eq_none (Nat.succ_le_of_lt hpos)]

theorem grow_byteAt {d d' : IfregData} {need fuel tsect : ℕ}
    (h : grow need fuel tsect d = .ok d') :
    d'.byteAt = d.byteAt := by
  induction fuel generalizing tsect d with
  | zero =>
    rw [grow] at h
    split at h
    · cases h
      rfl
    · cases h
  | succ fuel ih =>
    rw [grow] at h
    split at h
    · cases h
      rfl
    split at h
    · exact ih h
    · exact (ih h).trans byteAt_addSector

/-- As many sectors as `maxsize` says. -/
def Sized (d : IfregData) : Prop := d.maxsize = dataInSectorSize*d.sectors.length

/-- Room is made with empty sectors, and no more of them than needed. -/
theorem grow_spec {need fuel tsect : ℕ} (hd : d.Sized)
    (hfuel : need-d.maxsize+(d.sectors.length-tsect) ≤ fuel) :
    ∃ d', grow need fuel tsect d = .ok d' ∧ d'.Sized ∧ need ≤ d'.maxsize ∧
      (d' = d ∨ d'.maxsize < need+dataInSectorSize) := by
  induction fuel generalizing tsect d with
  | zero =>
    have hneed : need ≤ d.maxsize := by omega
    exact ⟨d,by rw [grow,if_pos hneed],hd,hneed,Or.inl rfl⟩
  | succ fuel ih =>
    rw [grow]
    by_cases hneed : need ≤ d.maxsize
    · exact ⟨d,by rw [if_pos hneed],hd,hneed,Or.inl rfl⟩
    rw [if_neg hneed]
    by_cases hnext : tsect+1 < d.sectors.length
    · rw [if_pos hnext]
      exact ih hd (by omega)
    · rw [if_neg hnext]
      have hsize : d.addSector.Sized := by
        rw [Sized] at hd ⊢
        simp only [addSector,List.length_append,List.length_singleton,hd,Nat.mul_add,Nat.mul_one]
      have hfuel' : need-d.addSector.maxsize+(d.addSector.sectors.length-(tsect+1)) ≤ fuel := by
        simp only [addSector,List.length_append,List.length_singleton,dataInSectorSize]
        omega
      obtain ⟨d',hgrow,hd',hneed',hlast⟩ := ih hsize hfuel'
      refine ⟨d',hgrow,hd',hneed',Or.inr ?_⟩
      obtain rfl | hlt := hlast
      · simp only [addSector]
        omega
      · exact hlt

end IfregData

namespace IfregHandle

/-- The handle after `len` bytes from its place on: the last piece is missing from its indices. -/
def behind (h : IfregHandle) (len : ℕ) : IfregHandle :=
  if h.sidx+len ≤ dataInSectorSize then h
  else
    let k := (h.sidx+len-1)/dataInSectorSize
    ⟨h.ptr,0,h.didx+dataInSectorSize*k-h.sidx,h.csector+k⟩

variable {h : IfregHandle} {len : ℕ}

theorem behind_of_le (h : IfregHandle) (hlen : h.sidx+len ≤ dataInSectorSize) :
    h.behind len = h := if_pos hlen

/-- The rest of a piece that fills its sector goes on in the next one. -/
theorem behind_next (h : IfregHandle) (hs : h.sidx ≤ dataInSectorSize)
    (hlen : ¬h.sidx+len ≤ dataInSectorSize) :
    h.behind len = behind ⟨h.ptr,0,h.didx+(dataInSectorSize-h.sidx),h.csector+1⟩
      (len-(dataInSectorSize-h.sidx)) := by
  rw [behind,if_neg hlen,behind]
  rw [dataInSectorSize_eq] at *
  simp only [Nat.zero_add]
  split
  · simp only [mk.injEq,true_and]
    omega
  · simp only [mk.injEq,true_and]
    omega

end IfregHandle

/-- From any place in a sector to the beginning of the next one. -/
theorem sector_next {c i : ℕ} (hi : i ≤ dataInSectorSize) :
    dataInSectorSize*c+i+(dataInSectorSize-i) = dataInSectorSize*(c+1)+0 := by
  rw [Nat.mul_succ]
  omega

/-- What a round of the loop keeps for its piece holds for everything it copies, and the indices
stay behind by the last piece. -/
theorem copySectors_spec {σ : Type} {copy : ℕ → ℕ → ℕ → σ → σ} (I : ℕ → σ → Prop) {sectors : ℕ}
    (hcopy : ∀ c s k a, c < sectors → s+k ≤ dataInSectorSize → I (dataInSectorSize*c+s) a →
      I (dataInSectorSize*c+s+k) (copy c s k a))
    {rest nleft : ℕ} {h : IfregHandle} {a : σ} {n : ℕ} (hrest : h.csector+rest+1 = sectors)
    (hs : h.sidx ≤ dataInSectorSize) (hleft : 0 < nleft)
    (hroom : h.sidx+nleft ≤ dataInSectorSize*(rest+1))
    (hi : I (dataInSectorSize*h.csector+h.sidx) a) :
    ∃ a', I (dataInSectorSize*h.csector+h.sidx+nleft) a' ∧
      copySectors copy rest (dataInSectorSize-h.sidx) nleft h a n =
        ⟨h.behind nleft,a',n+nleft,false⟩ := by
  induction rest generalizing nleft h a n with
  | zero =>
    have hlast : h.sidx+nleft ≤ dataInSectorSize := by omega
    rw [copySectors,if_neg (by omega),if_neg (by omega),h.behind_of_le hlast]
    exact ⟨_,hcopy _ _ _ _ (by omega) (by omega) hi,rfl⟩
  | succ rest ih =>
    rw [copySectors,if_neg (by omega)]
    by_cases hlast : h.sidx+nleft ≤ dataInSectorSize
    · rw [if_neg (by omega),h.behind_of_le hlast]
      exact ⟨_,hcopy _ _ _ _ (by omega) (by omega) hi,rfl⟩
    rw [if_pos (by omega)]
    have hfull := hcopy h.csector h.sidx (dataInSectorSize-h.sidx) a (by omega) (by omega) hi
    rw [sector_next hs] at hfull
    have hroom' : 0+(nleft-(dataInSectorSize-h.sidx)) ≤ dataInSectorSize*(rest+1) := by
      rw [Nat.mul_succ] at hroom
      omega
    obtain ⟨a',ha',hloop⟩ := ih (h := ⟨h.ptr,0,h.didx+(dataInSectorSize-h.sidx),h.csector+1⟩)
      (n := n+(dataInSectorSize-h.sidx)) (by simp only; omega) (Nat.zero_le _) (by omega) hroom'
      hfull
    refine ⟨a',?_,?_⟩
    · convert ha' using 1
      rw [← sector_next hs]
      omega
    · simp only [Nat.sub_zero] at hloop
      refine hloop.trans ?_
      rw [h.behind_next hs hlast]
      congr 1
      omega

/-- What every piece within a sector keeps is kept by the loop, also where the chain ends first. -/
theorem copySectors_keeps {σ : Type} {copy : ℕ → ℕ → ℕ → σ → σ} {J : σ → Prop}
    (hcopy : ∀ c s k a, s+k ≤ dataInSectorSize → J a → J (copy c s k a))
    {rest nleft : ℕ} {h : IfregHandle} {a : σ} {n : ℕ} (hs : h.sidx ≤ dataInSectorSize) (ha : J a) :
    J (copySectors copy rest (dataInSectorSize-h.sidx) nleft h a n).copied ∧
      (copySectors copy rest (dataInSectorSize-h.sidx) nleft h a n).hdata.sidx ≤
        dataInSectorSize := by
  induction rest generalizing nleft h a n with
  | zero =>
    rw [copySectors]
    split
    · exact ⟨ha,hs⟩
    split
    · exact ⟨hcopy _ _ _ _ (by omega) ha,by simp only; omega⟩
    · exact ⟨hcopy _ _ _ _ (by omega) ha,hs⟩
  | succ rest ih =>
    rw [copySectors]
    split
    · exact ⟨ha,hs⟩
    split
    · exact ih (h := ⟨h.ptr,0,h.didx+(dataInSectorSize-h.sidx),h.csector+1⟩) (Nat.zero_le _)
        (hcopy _ _ _ _ (by omega) ha)
    · exact ⟨hcopy _ _ _ _ (by omega) ha,hs⟩

/-- Flags of a handle that reads. -/
structure ReadFlags (o : OFlag) : Prop where
  wronly : o.wronly = false
  unknown : o.unknown = false
  creat : o.creat = true → o.append = true

/-- Flags of a handle that appends to a file it creates. -/
structure WriteFlags (o : OFlag) : Prop where
  access : (o.rdwr || o.wronly) = true
  both : ¬(o.rdwr = true ∧ o.wronly = true)
  creat : o.creat = true
  append : o.append = true
  unknown : o.unknown = false

theorem assertDbgFlags_eq {o : OFlag} (hboth : ¬(o.rdwr = true ∧ o.wronly = true))
    (hunknown : o.unknown = false) : assertDbgFlags o = .ok () := by
  simp only [assertDbgFlags,tkDbgFlags,check,if_pos hboth,hunknown]
  rfl

/-- The handle after `len` bytes: within a sector all its indices move on. -/
def IfregHandle.afterRead (h : IfregHandle) (len : ℕ) : IfregHandle :=
  if len ≤ dataInSectorSize-h.sidx then { h with sidx := h.sidx+len, didx := h.didx+len }
  else h.behind len

section

variable {o : OFlag} {d : IfregData} {h : IfregHandle} {len : ℕ} {buf : List Byte}

/-- The bytes between `base` and `i` have been read. -/
def ReadTo (d : IfregData) (base i : ℕ) (out : List Byte) : Prop :=
  ∃ n, i = base+n ∧ out = peek d.byteAt base n

/-- One more piece of a sector is read. -/
theorem ReadTo.load {base c s k : ℕ} {out : List Byte} (hk : s+k ≤ dataInSectorSize)
    (hout : ReadTo d base (dataInSectorSize*c+s) out) :
    ReadTo d base (dataInSectorSize*c+s+k) (out ++ d.load c s k) := by
  obtain ⟨n,hn,rfl⟩ := hout
  refine ⟨n+k,by omega,?_⟩
  rw [peek_add,IfregData.load_eq hk,hn]

/-- A read where there are enough sectors. -/
theorem fsIfregRead_eq (hw : o.wronly = false) (hu : o.unknown = false)
    (hs : h.sidx ≤ dataInSectorSize) (hdidx : h.didx ≤ d.dsize) (hc : h.csector < d.sectors.length)
    (hroom : dataInSectorSize*h.csector+h.sidx+len ≤ dataInSectorSize*d.sectors.length) :
    fsIfregRead (some d) ⟨o,h⟩ len =
      .ok (.ok (peek d.byteAt (dataInSectorSize*h.csector+h.sidx) len),⟨o,h.afterRead len⟩) := by
  have hflags := assertDbgFlags_eq (by simp [hw]) hu
  rw [fsIfregRead,hflags]
  simp only [hw,Bool.false_eq_true,if_false,if_neg (Nat.not_lt.mpr hdidx),
    IfregHandle.afterRead]
  by_cases hlen : len ≤ dataInSectorSize-h.sidx
  · simp only [if_pos hlen,IfregData.load_eq (d := d) (c := h.csector) (by omega : h.sidx+len ≤ _)]
    rfl
  · rw [Nat.not_le] at hlen
    have hchain : d.sectors.length-(h.csector+1)+1 = d.sectors.length-h.csector := by omega
    have hsectors : h.sidx+len ≤ dataInSectorSize*(d.sectors.length-(h.csector+1)+1) := by
      rw [hchain,Nat.mul_sub]
      omega
    have hend : h.csector+(d.sectors.length-(h.csector+1))+1 = d.sectors.length := by omega
    obtain ⟨out,⟨n,hn,rfl⟩,hloop⟩ := copySectors_spec (a := []) (n := 0)
      (ReadTo d (dataInSectorSize*h.csector+h.sidx)) (fun _ _ _ _ _ hk => ReadTo.load hk) hend hs
      (by omega) hsectors ⟨0,rfl,rfl⟩
    obtain rfl : n = len := by omega
    simp only [if_neg (Nat.not_le.mpr hlen),hloop]
    rfl

/-- A handle at the end of its file, with the last sector of the chain. -/
structure AtEnd (d : IfregData) (h : IfregHandle) : Prop where
  sized : d.Sized
  last : h.csector+1 = d.sectors.length
  sidx : h.sidx ≤ dataInSectorSize
  didx : h.didx = dataInSectorSize*h.csector+h.sidx
  dsize : d.dsize = h.didx

/-- A write within a sector goes to `ptr`. -/
theorem fsIfregWrite_within (ho : WriteFlags o) (hd : AtEnd d h) (hbuf : buf ≠ [])
    (hlen : buf.length ≤ dataInSectorSize-h.sidx) :
    fsIfregWrite (some d) ⟨o,h⟩ buf =
      if h.ptr.2+buf.length ≤ dataInSectorSize then
        .ok (.ok buf.length,some { d.store h.ptr.1 h.ptr.2 buf with dsize := h.didx+buf.length },
          ⟨o,⟨(h.ptr.1,h.ptr.2+buf.length),h.sidx+buf.length,h.didx+buf.length,h.csector⟩⟩)
      else .error .overrun := by
  have hpos : 0 < buf.length := List.length_pos_iff.mpr hbuf
  have hroom : buf.length+h.didx ≤ d.maxsize := by
    rw [hd.sized,← hd.last,hd.didx,Nat.mul_succ]
    have := hd.sidx
    omega
  have hgrow : d.grow (buf.length+h.didx) (buf.length+h.didx+d.sectors.length) h.csector = .ok d := by
    rw [show buf.length+h.didx+d.sectors.length = buf.length+h.didx+d.sectors.length-1+1 by omega,
      IfregData.grow,if_pos hroom]
  have hdsize : d.dsize < buf.length+h.didx := by
    rw [hd.dsize]
    omega
  rw [fsIfregWrite,assertDbgFlags_eq ho.both ho.unknown]
  simp only [ho.access,ho.append,Bool.not_true,Bool.false_eq_true,if_false,hgrow,if_pos hlen]
  rw [check,if_pos hdsize]
  by_cases hptr : h.ptr.2+buf.length ≤ dataInSectorSize
  · rw [check,if_pos hptr,if_pos hptr]
    rfl
  · rw [check,if_neg hptr,if_neg hptr]
    rfl

/-- One more piece of a buffer that is copied to the sectors. -/
theorem byteAt_store_take {mem : ℕ → Byte} {base n c s k : ℕ} {e : IfregData}
    (hc : c < e.sectors.length) (hk : s+k ≤ dataInSectorSize)
    (haddr : dataInSectorSize*c+s = base+n) (he : e.byteAt = poke mem base (buf.take n)) :
    (e.store c s ((buf.drop n).take k)).byteAt = poke mem base (buf.take (n+k)) := by
  have htake : ((buf.drop n).take k).length ≤ k := List.length_take_le _ _
  rw [IfregData.byteAt_store hc (by omega),he,haddr,List.take_add]
  by_cases hn : n ≤ buf.length
  · rw [poke_append,List.length_take,Nat.min_eq_left hn]
  · rw [List.drop_eq_nil_of_le (by omega),List.take_nil,List.append_nil]
    rfl

/-- The sectors when `i` is reached, and what is left of the buffer. -/
def CopiedTo (d d₁ : IfregData) (base : ℕ) (buf : List Byte) (i : ℕ) (a : IfregData × List Byte) :
    Prop :=
  ∃ n, i = base+n ∧ a.1.sectors.length = d₁.sectors.length ∧ a.1.maxsize = d₁.maxsize ∧
    a.2 = buf.drop n ∧ a.1.byteAt = poke d.byteAt base (buf.take n)

/-- A write across sectors goes to where the file ends, and leaves the handle behind. -/
theorem fsIfregWrite_across (ho : WriteFlags o) (hd : AtEnd d h)
    (hlen : ¬buf.length ≤ dataInSectorSize-h.sidx) :
    ∃ d', fsIfregWrite (some d) ⟨o,h⟩ buf =
        .ok (.ok buf.length,some d',⟨o,h.behind buf.length⟩) ∧
      AtEnd d' (h.behind buf.length) ∧ d'.byteAt = poke d.byteAt h.didx buf := by
  have hs := hd.sidx
  have hdidx := hd.didx
  have hlast := hd.last
  have hsized := hd.sized
  have hdsize : d.dsize < buf.length+h.didx := by
    rw [hd.dsize]
    omega
  have hfuel : buf.length+h.didx-d.maxsize+(d.sectors.length-h.csector) ≤
      buf.length+h.didx+d.sectors.length := by omega
  obtain ⟨d₁,hgrow,hsized₁,hneed,hmin⟩ := IfregData.grow_spec hsized hfuel
  have hbytes₁ := IfregData.grow_byteAt hgrow
  -- as many sectors as the file now fills, the last one with at least one byte
  have hcount : d₁.sectors.length = h.csector+(h.sidx+buf.length-1)/dataInSectorSize+1 := by
    rw [IfregData.Sized] at hsized hsized₁
    rw [dataInSectorSize_eq] at *
    obtain rfl | hlt := hmin
    · omega
    · omega
  have hmore : h.csector+1 ≤ d₁.sectors.length := by
    rw [hcount]
    exact Nat.add_le_add_right (Nat.le_add_right _ _) 1
  have hend : h.csector+(d₁.sectors.length-(h.csector+1))+1 = d₁.sectors.length := by omega
  have hroom : h.sidx+buf.length ≤ dataInSectorSize*(d₁.sectors.length-(h.csector+1)+1) := by
    rw [hcount,dataInSectorSize_eq]
    omega
  have hcopy : ∀ c s k (a : IfregData × List Byte), c < d₁.sectors.length →
      s+k ≤ dataInSectorSize → CopiedTo d d₁ h.didx buf (dataInSectorSize*c+s) a →
      CopiedTo d d₁ h.didx buf (dataInSectorSize*c+s+k) (a.1.store c s (a.2.take k),a.2.drop k) := by
    rintro c s k ⟨e,left⟩ hc hk ⟨n,hn,hlen,hmax,rfl,he⟩
    refine ⟨n+k,by omega,?_,hmax,List.drop_drop,?_⟩
    · exact IfregData.store_length.trans hlen
    · exact byteAt_store_take (hlen.symm ▸ hc) hk hn he
  obtain ⟨⟨d₂,left⟩,⟨n,hn,hlen₂,hmax₂,-,hbytes₂⟩,hloop⟩ := copySectors_spec (a := (d₁,buf)) (n := 0)
    (CopiedTo d d₁ h.didx buf) hcopy hend hs (by omega) hroom ⟨0,hdidx.symm,rfl,rfl,rfl,hbytes₁⟩
  have hbehind : h.behind buf.length = ⟨h.ptr,0,
      h.didx+dataInSectorSize*((h.sidx+buf.length-1)/dataInSectorSize)-h.sidx,
      h.csector+(h.sidx+buf.length-1)/dataInSectorSize⟩ := by
    rw [IfregHandle.behind,if_neg (by omega)]
  have hcsector : (h.behind buf.length).csector+1 = d₁.sectors.length := by
    rw [hbehind,hcount]
  obtain rfl : n = buf.length := by omega
  refine ⟨{ d₂ with dsize := (h.behind buf.length).didx },?_,?_,?_⟩
  · rw [fsIfregWrite,assertDbgFlags_eq ho.both ho.unknown]
    simp only [ho.access,ho.append,Bool.not_true,Bool.false_eq_true,if_false,hgrow,if_neg hlen]
    rw [check,if_pos hdsize]
    simp only [bind,Except.bind,hloop]
    rw [check,if_pos trivial,check,if_pos hcsector,check,if_pos (Nat.zero_add _),Nat.zero_add]
    rfl
  · refine ⟨?_,?_,?_,?_,rfl⟩
    · exact hmax₂.trans (hsized₁.trans (congrArg _ hlen₂.symm))
    · simp only [hlen₂]
      exact hcsector
    · rw [hbehind]
      exact Nat.zero_le _
    · rw [hbehind]
      simp only
      rw [Nat.mul_add]
      omega
  · rw [List.take_length] at hbytes₂
    exact hbytes₂

end

end Tinker

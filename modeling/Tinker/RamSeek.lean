import Tinker.RamPlace

/-! `lseek` from the end of a file on the RAM disk. It moves a handle by the offset from where the
handle was, takes that for the new end of the file, and always turns to the last sector, so the
counters that the other operations keep in a sector can leave it. -/
namespace Tinker

open Outcome

/-- `fs_ifreg_inode_data_t` with its `int`s, and the data of each sector in the order of the
chain. -/
structure IfregInodeData where
  maxsize : ℤ
  dsize : ℤ
  sectors : List (ℕ → Byte)

/-- `fs_ifreg_hndl_data_t` with its `int`s. A sector is its place in the chain, `ptr` a sector and
an index in its data. -/
structure IfregHndlData where
  ptr : ℕ × ℤ
  sidx : ℤ
  didx : ℤ
  csector : ℕ
  deriving DecidableEq

/-- The origin of a seek; `unknown` stands for the values that have no name. -/
inductive Whence
  | seekSet | seekCur | seekEnd | unknown

/-- `errno` where `lseek` returns -1. -/
inductive SeekErr
  | eNospc | eFbig
  deriving DecidableEq

/-- The chain with a new sector behind its last one. -/
def IfregInodeData.addSector (d : IfregInodeData) : IfregInodeData :=
  { d with maxsize := toInt32 (d.maxsize+dataInSectorSize), sectors := d.sectors ++ [fun _ => 0] }

/-- The end of `fs_ifreg_lseek`: file and handle move, `nsect` sectors behind the first one. -/
def lseekMove (d : IfregInodeData) (h : IfregHndlData) (nsect : ℕ) (ptr : ℤ) :
    IfregInodeData × IfregHndlData :=
  let didx := toInt32 (h.didx+ptr)
  let sidx := toInt32 (didx-nsect*dataInSectorSize)
  ({ d with dsize := didx },⟨(nsect,sidx),sidx,didx,nsect⟩)

/-- `fs_ifreg_lseek`; `granted` is whether `malloc` gives a sector. -/
def fsIfregLseek (idata : Option IfregInodeData) (oflag : OFlag) (h : IfregHndlData) (ptr : ℤ)
    (dir : Whence) (granted : Bool) :
    Except FsFault (Except SeekErr ℕ × Option IfregInodeData × IfregHndlData) := do
  assertDbgFlags oflag
  match dir with
  | .seekSet | .seekCur | .unknown => throw .assert
  | .seekEnd =>
    let some d := idata | throw .null
    check (0 < d.sectors.length) .null
    let nsect := d.sectors.length-1
    if d.maxsize < toInt32 (ptr+d.dsize) then
      if oflag.append then
        -- the handle goes back to the sector it had
        if !granted then return (.error .eNospc,some d,h)
        let (d,h) := lseekMove d.addSector h nsect ptr
        return (.ok 0,some d,h)
      else return (.error .eFbig,some d,{ h with csector := nsect })
    else
      let (d,h) := lseekMove d h nsect ptr
      return (.ok 0,some d,h)

/-- As many sectors as `maxsize` says, at least one, and counters that are `int`s. -/
structure IfregInodeData.Sized (d : IfregInodeData) : Prop where
  chain : 0 < d.sectors.length
  maxsize : d.maxsize = dataInSectorSize*d.sectors.length
  small : d.maxsize < 2^31
  dsize : d.dsize < 2^31

/-- The handle is at byte `i` of the file, in the sector that holds it, or behind the last one. -/
structure IfregHndlData.At (h : IfregHndlData) (d : IfregInodeData) (i : ℤ) : Prop where
  didx : h.didx = i
  csector : (h.csector : ℤ) = min (i/dataInSectorSize) (d.sectors.length-1)
  sidx : h.sidx = i-dataInSectorSize*h.csector
  inside : i ≤ dataInSectorSize*d.sectors.length

/-- `lseek(fd,off,SEEK_END)` moves the handle there, and nothing else. -/
def SeeksWithin (d : IfregInodeData) (o : OFlag) (h : IfregHndlData) (off : ℤ) (granted : Bool) :
    Prop :=
  ∃ h', fsIfregLseek (some d) o h off .seekEnd granted = .ok (.ok 0,some d,h') ∧ h'.At d (d.dsize+off)

section

variable {d : IfregInodeData} {o : OFlag} {h : IfregHndlData} {off : ℤ} {granted : Bool}

/-- Where the file is not extended, `lseek` moves. -/
theorem fsIfregLseek_within (hboth : ¬(o.rdwr = true ∧ o.wronly = true)) (hu : o.unknown = false)
    (hd : d.Sized) (hroom : toInt32 (off+d.dsize) ≤ d.maxsize) :
    fsIfregLseek (some d) o h off .seekEnd granted =
      .ok (.ok 0,some (lseekMove d h (d.sectors.length-1) off).1,
        (lseekMove d h (d.sectors.length-1) off).2) := by
  rw [fsIfregLseek,assertDbgFlags_eq hboth hu]
  simp only [check,if_pos hd.chain,if_neg (Int.not_lt.mpr hroom)]
  rfl

/-- A seek that extends the file, or refuses to, does not leave the file as it is. -/
theorem fsIfregLseek_beyond (hboth : ¬(o.rdwr = true ∧ o.wronly = true)) (hu : o.unknown = false)
    (hd : d.Sized) (hroom : ¬toInt32 (off+d.dsize) ≤ d.maxsize) :
    ¬SeeksWithin d o h off granted := by
  rintro ⟨h',hrun,-⟩
  rw [fsIfregLseek,assertDbgFlags_eq hboth hu] at hrun
  simp only [check,if_pos hd.chain,if_pos (Int.not_le.mp hroom)] at hrun
  cases happend : o.append <;> cases granted <;> rw [happend] at hrun
  · cases hrun
  · cases hrun
  · cases hrun
  · have hsectors : d.sectors ++ [fun _ => 0] = d.sectors := by
      injection hrun with hok
      injection hok with hret hfile
      injection hfile with hsome hhndl
      injection hsome with hd'
      exact congrArg IfregInodeData.sectors hd'
    have hlen := congrArg List.length hsectors
    rw [List.length_append,List.length_singleton] at hlen
    omega

/-- From the end of the file to the end of the file. -/
theorem lseekMove_end (hd : d.Sized) (hplace : h.didx = d.dsize)
    (hin : dataInSectorSize*(d.sectors.length-1 : ℤ) ≤ d.dsize) :
    lseekMove d h (d.sectors.length-1) 0 =
      (d,⟨(d.sectors.length-1,d.dsize-(d.sectors.length-1 : ℕ)*dataInSectorSize),
        d.dsize-(d.sectors.length-1 : ℕ)*dataInSectorSize,d.dsize,d.sectors.length-1⟩) := by
  have hchain := hd.chain
  have hdsize := hd.dsize
  have hdidx : toInt32 (h.didx+0) = d.dsize := by
    rw [add_zero,hplace]
    exact toInt32_of_int (by rw [dataInSectorSize_eq] at hin; omega) hdsize
  have hsidx : toInt32 (d.dsize-(d.sectors.length-1 : ℕ)*dataInSectorSize) =
      d.dsize-(d.sectors.length-1 : ℕ)*dataInSectorSize := by
    rw [dataInSectorSize_eq] at *
    exact toInt32_of_int (by omega) (by omega)
  rw [lseekMove,hdidx,hsidx]

/-- A seek in the file moves nothing but the handle if and only if it does not move the handle: the
offset is zero, and the handle is at the end of the file, in the last sector. -/
theorem fsIfregLseek_seeks_iff (hboth : ¬(o.rdwr = true ∧ o.wronly = true))
    (hu : o.unknown = false) (hd : d.Sized) (hlo : 0 ≤ d.dsize+off) (hoff : off ≤ 0)
    (hdidx : -2^31 ≤ h.didx ∧ h.didx < 2^31) :
    SeeksWithin d o h off granted ↔ off = 0 ∧ h.didx = d.dsize ∧
      dataInSectorSize*(d.sectors.length-1 : ℤ) ≤ d.dsize ∧ d.dsize ≤ d.maxsize := by
  have hchain := hd.chain
  have hmax := hd.maxsize
  have hsmall := hd.small
  have hdsize := hd.dsize
  have hend : toInt32 (off+d.dsize) = off+d.dsize := toInt32_of_int (by omega) (by omega)
  have hlast : ((d.sectors.length-1 : ℕ) : ℤ) = (d.sectors.length : ℤ)-1 := by omega
  by_cases hroom : off+d.dsize ≤ d.maxsize
  · have hseek : fsIfregLseek (some d) o h off .seekEnd granted = _ :=
      fsIfregLseek_within hboth hu hd (hend.symm ▸ hroom)
    constructor
    · rintro ⟨h',hrun,hat⟩
      rw [hseek] at hrun
      simp only [lseekMove,Except.ok.injEq,Prod.mk.injEq,Option.some.injEq,true_and] at hrun
      obtain ⟨hfile,rfl⟩ := hrun
      have hstay : toInt32 (h.didx+off) = d.dsize := congrArg IfregInodeData.dsize hfile
      have hto : toInt32 (h.didx+off) = d.dsize+off := hat.didx
      obtain rfl : off = 0 := by omega
      rw [add_zero,toInt32_of_int hdidx.1 hdidx.2] at hstay
      have hsector : ((d.sectors.length-1 : ℕ) : ℤ) =
        min ((d.dsize+0)/dataInSectorSize) (d.sectors.length-1) := hat.csector
      have hin := hat.inside
      rw [dataInSectorSize_eq] at *
      exact ⟨rfl,hstay,by omega,by omega⟩
    · rintro ⟨rfl,hplace,hin,hle⟩
      rw [lseekMove_end hd hplace hin] at hseek
      refine ⟨_,hseek,?_⟩
      rw [dataInSectorSize_eq] at *
      constructor
      · exact (add_zero _).symm
      · rw [dataInSectorSize_eq]
        simp only
        omega
      · rw [dataInSectorSize_eq]
        simp only
        omega
      · rw [dataInSectorSize_eq]
        omega
  · constructor
    · intro hseeks
      exact absurd hseeks (fsIfregLseek_beyond hboth hu hd (hend.symm ▸ hroom))
    · rintro ⟨rfl,-,-,hle⟩
      omega

end

/-- A file of ten bytes. -/
def tenBytesData : IfregInodeData := ⟨40,10,[fun i => BitVec.ofNat 8 i]⟩

theorem sized_tenBytesData : tenBytesData.Sized := ⟨by decide,rfl,by decide,by decide⟩

/-- To the end of the file from its end, where the last write has left the handle. -/
theorem fsIfregLseek_seeks_iff_end : SeeksWithin tenBytesData appendFlags ⟨(0,10),10,10,0⟩ 0 true :=
  (fsIfregLseek_seeks_iff (by decide) rfl sized_tenBytesData (by decide) (by decide)
    (by decide)).mpr ⟨rfl,rfl,by decide,by decide⟩

/-- To the end of the file with a new handle: the file is empty then. -/
theorem fsIfregLseek_not_seeks : ¬∀ (d : IfregInodeData) (o : OFlag) (h : IfregHndlData) (off : ℤ)
    (granted : Bool), ¬(o.rdwr = true ∧ o.wronly = true) → o.unknown = false → d.Sized →
    d.dsize ≤ d.maxsize → 0 ≤ d.dsize+off → off ≤ 0 → 0 ≤ h.didx → h.didx ≤ d.dsize →
    SeeksWithin d o h off granted := by
  intro hall
  obtain ⟨h',hrun,hat⟩ := hall tenBytesData appendFlags ⟨(0,0),0,0,0⟩ 0 true (by decide) rfl
    sized_tenBytesData (by decide) (by decide) (by decide) (by decide) (by decide)
  have hempty : fsIfregLseek (some tenBytesData) appendFlags ⟨(0,0),0,0,0⟩ 0 .seekEnd true =
      .ok (.ok 0,some { tenBytesData with dsize := 0 },⟨(0,0),0,0,0⟩) := rfl
  rw [hempty] at hrun
  simp only [Except.ok.injEq,Prod.mk.injEq,Option.some.injEq] at hrun
  exact absurd (congrArg IfregInodeData.dsize hrun.2.1) (by decide)

end Tinker

import Tinker.Machine
import Tinker.SectorChain

/-! The sectors of a file over any calls through any handles. They stay one chain, which grows at its
end, as long as the place a handle writes to by its `ptr` or its `sidx` is in the data of a sector
and the counter of the file is an `int`. -/
namespace Tinker

open Outcome

namespace SectorChain

/-- A file with the handles it has been opened through. -/
structure RamState where
  store : Store
  idata : Option InodeData
  handles : ℕ → Option Handle
  nhandles : ℕ

/-- Before the file is opened for the first time. -/
def ramInit (mem : ℕ → SectorT) : RamState := ⟨⟨mem,0⟩,none,fun _ => none,0⟩

/-- Calls with the number of their handle, where they take one. -/
inductive RamLabel
  | openFile (flags : OFlag) (accessflg : ℕ)
  | write (i : ℕ) (buf : List Byte)
  | read (i len : ℕ) (beyond : ℕ → ℤ → Byte)
  | lseekEnd (i : ℕ) (ptr : ℤ)

/-- The first call is an `open` with `O_CREAT`; a length is an `int`. -/
def ramEnabled (s : RamState) : RamLabel → Bool
  | .openFile flags _ => s.idata.isSome || flags.creat
  | .write i buf => (s.handles i).isSome && decide (buf.length < 2^31)
  | .read i len _ => (s.handles i).isSome && decide (len < 2^31)
  | .lseekEnd i _ => (s.handles i).isSome

def RamState.setHandle (s : RamState) (i : ℕ) (h : Handle) : RamState :=
  { s with handles := Function.update s.handles i (some h) }

theorem RamState.setHandle_handles (s : RamState) (i : ℕ) (h : Handle) (j : ℕ) :
    (s.setHandle i h).handles j = if j = i then some h else s.handles j :=
  Function.update_apply _ _ _ _

def ramNext (s : RamState) : RamLabel → Except FsFault RamState
  | .openFile flags accessflg => do
    let (r,m,idata) ← fsIfregOpen s.store s.idata flags accessflg
    let s := { s with store := m, idata := idata }
    match r with
    | .ok h => return { s.setHandle s.nhandles h with nhandles := s.nhandles+1 }
    | .error _ => return s
  | .write i buf => do
    let some hndl := s.handles i | throw .null
    let (_,m,idata,h) ← fsIfregWrite s.store s.idata hndl buf
    return { s with store := m, idata := idata }.setHandle i { hndl with data := h }
  | .read i len beyond => do
    let some hndl := s.handles i | throw .null
    let (_,h) ← fsIfregRead s.store s.idata hndl len beyond
    return s.setHandle i { hndl with data := h }
  | .lseekEnd i ptr => do
    let some hndl := s.handles i | throw .null
    let (_,m,idata,h) ← fsIfregLseek s.store s.idata hndl ptr .seekEnd true
    return { s with store := m, idata := idata }.setHandle i { hndl with data := h }

def ramMachine : Machine RamState RamLabel FsFault where
  enabled := ramEnabled
  next := ramNext

/-- The sectors of the file are `c`: a finite chain in both directions, which the counter of the
file counts and every handle is in. -/
structure RamState.HasChain (s : RamState) (c : List ℕ) : Prop where
  none : s.idata = none → c = []
  next : ∀ d, s.idata = some d → Linked.Chain s.store.next (some d.sectors) c
  first : ∀ d, s.idata = some d → s.store.prev d.sectors = Option.none
  inverse : ∀ a ∈ c, ∀ b ∈ c, s.store.next a = some b ↔ s.store.prev b = some a
  maxsize : ∀ d, s.idata = some d → d.maxsize = dataInSectorSize*c.length
  csector : ∀ i h, s.handles i = some h → h.data.csector ∈ c

/-- A call leaves the chain as it was or with sectors behind its end, or fails one of its asserts. A
copy that leaves the data of a sector is a fault of its own, and so is a loop without an end. -/
def ChainKept (s : RamState) (l : RamLabel) : Prop :=
  ramEnabled s l = true → Spec (ramNext s l) (fun s' => ∃ c c', s.HasChain c ∧ s'.HasChain (c ++ c'))
    (fun e => e = .assert)

/-- A write through a handle comes to its copies. -/
structure Appends (d : InodeData) (h : Handle) (len : ℕ) : Prop where
  both : ¬(h.oflag.rdwr = true ∧ h.oflag.wronly = true)
  unknown : h.oflag.unknown = false
  writes : (h.oflag.rdwr || h.oflag.wronly) = true
  behind : d.dsize < toInt32 (len+h.data.didx)
  append : h.oflag.append = true

/-- A seek through a handle adds a sector. -/
structure Extends (d : InodeData) (h : Handle) (ptr : ℤ) : Prop where
  both : ¬(h.oflag.rdwr = true ∧ h.oflag.wronly = true)
  unknown : h.oflag.unknown = false
  beyond : d.maxsize < toInt32 (ptr+d.dsize)
  append : h.oflag.append = true

/-- What a call needs. -/
def RamState.Safe (s : RamState) : RamLabel → Prop
  | .openFile _ _ | .read _ _ _ => True
  | .write i buf => ∀ d h, s.idata = some d → s.handles i = some h →
      Appends d h buf.length → Inside d h.data buf.length
  | .lseekEnd i ptr => ∀ d h, s.idata = some d → s.handles i = some h →
      Extends d h ptr → d.maxsize+dataInSectorSize < 2^31

/-- A call that is made finds what it needs. -/
def ChainSafe (s : RamState) (l : RamLabel) : Prop := ramEnabled s l = true → s.Safe l

/-- The sectors of a file, counted. -/
structure FileIn (m : Store) (d : InodeData) (c : List ℕ) : Prop where
  sectors : Sectors m d.sectors c
  sized : Sized d.maxsize c

structure RamInv (s : RamState) (c : List ℕ) : Prop where
  none : s.idata = none → c = []
  file : ∀ d, s.idata = some d → FileIn s.store d c
  handles : ∀ i h, s.handles i = some h → HndlIn h.data c

/-- A call on a file with the sectors `c` has left it and the handle with what is in `x`. -/
def CallEnds (c : List ℕ) (x : Store × Option InodeData × HndlData) : Prop :=
  ∃ d c', x.2.1 = some d ∧ FileIn x.1 d (c ++ c') ∧ HndlIn x.2.2 (c ++ c')

section

variable {m : Store} {d : InodeData} {hndl : Handle} {c : List ℕ} {buf : List Byte} {ptr : ℤ}
  {s : RamState} {l : RamLabel} {i : ℕ} {h : HndlData}

theorem FileIn.callEnds (hf : FileIn m d c) (hh : HndlIn h c) : CallEnds c (m,some d,h) := by
  refine ⟨d,[],rfl,?_⟩
  rw [List.append_nil]
  exact ⟨hf,hh⟩

theorem FileIn.first_mem (hf : FileIn m d c) : d.sectors ∈ c := by
  have hc := hf.sectors.linked
  cases c with
  | nil => cases hc
  | cons p c =>
    rw [Option.some.inj hc.1]
    exact List.mem_cons_self

theorem FileIn.handle (hf : FileIn m d c) (o : OFlag) :
    HndlIn (Handle.mk o ⟨(d.sectors,0),0,0,d.sectors⟩).data c :=
  ⟨hf.first_mem,show (0:ℤ) < 2^31 by decide⟩

theorem FileIn.open_spec (hf : FileIn m d c) (flags : OFlag) (accessflg : ℕ) :
    Spec (fsIfregOpen m (some d) flags accessflg)
      (fun x => x.2 = (m,some d) ∧ ∀ h, x.1 = .ok h → HndlIn h.data c) (fun e => e = .assert) := by
  have hopen : Spec (if flags.creat && !flags.append then
      (.ok (.error .eInval,m,some d) : Except FsFault (Except FsErr Handle × Store × Option InodeData))
      else .ok (.ok ⟨flags,(d.sectors,0),0,0,d.sectors⟩,m,some d))
      (fun x => x.2 = (m,some d) ∧ ∀ h, x.1 = .ok h → HndlIn h.data c) (fun e => e = .assert) := by
    rw [spec_ite]
    refine ⟨fun _ => ⟨rfl,nofun⟩,fun _ => ⟨rfl,?_⟩⟩
    rintro h ⟨⟩
    exact hf.handle flags
  simp only [fsIfregOpen]
  split
  · simp only [spec_bind,spec_check]
    exact ⟨fun _ => hopen,fun _ => trivial⟩
  · exact hopen

/-- The first call gives the file its first sector. -/
theorem open_first (m : Store) {flags : OFlag} (hcreat : flags.creat = true) (accessflg : ℕ) :
    Spec (fsIfregOpen m none flags accessflg)
      (fun x => ∃ d h, x = (.ok h,m.newSector,some d) ∧ FileIn m.newSector d [m.fresh] ∧
        HndlIn h.data [m.fresh]) (fun e => e = .assert) := by
  have hf : FileIn m.newSector ⟨dataInSectorSize,0,m.fresh⟩ [m.fresh] :=
    ⟨Sectors.newSector m,rfl,show (40:ℤ) < 2^31 by decide⟩
  simp only [fsIfregOpen,if_pos hcreat,spec_bind,spec_check,spec_pure]
  exact ⟨fun _ => ⟨_,_,rfl,hf,hf.handle flags⟩,fun _ => trivial⟩

theorem FileIn.write_spec (hf : FileIn m d c) (hh : HndlIn hndl.data c) (hlen : buf.length < 2^31)
    (hin : Appends d hndl buf.length → Inside d hndl.data buf.length) :
    Spec (fsIfregWrite m (some d) hndl buf) (fun x => CallEnds c x.2) (fun e => e = .assert) := by
  have hsame := hf.callEnds hh
  simp only [fsIfregWrite,assertDbgFlags,tkDbgFlags,spec_bind,spec_check,spec_pure,spec_ite,
    implies_true,and_true]
  refine fun hboth hunknown => ⟨fun _ => hsame,fun hwrites hbehind => ⟨fun _ => hsame,fun happend => ?_⟩⟩
  have hwritten := writeAppend_inside hf.sectors hf.sized hh hlen
    (hin ⟨hboth,hunknown,by simpa only [Bool.not_eq_true',Bool.not_eq_false] using hwrites,hbehind,
      by simpa only [Bool.not_eq_true',Bool.not_eq_false] using happend⟩)
  refine hwritten.imp ?_
  rintro ⟨m',d',h'⟩ ⟨c',hs,hsize,hh'⟩
  exact ⟨d',c',rfl,⟨hs,hsize⟩,hh'⟩

theorem FileIn.write_outside (hf : FileIn m d c) (hh : HndlIn hndl.data c)
    (happ : Appends d hndl buf.length) (hout : ¬Inside d hndl.data buf.length) :
    Spec (fsIfregWrite m (some d) hndl buf) (fun _ => False) (fun e => e ≠ .assert) := by
  have hover := writeAppend_outside hf.sectors hf.sized hh hout
  simp only [fsIfregWrite,assertDbgFlags,tkDbgFlags,spec_bind,spec_check,spec_pure,spec_ite,
    happ.both,happ.unknown,happ.writes,happ.behind,happ.append]
  simpa using hover

theorem FileIn.lseekMove (hf : FileIn m d c) {tsect : ℕ} (ht : tsect ∈ c) (h : HndlData) (nsect : ℕ)
    (ptr : ℤ) :
    CallEnds c (m,some (lseekMove d h tsect nsect ptr).1,(lseekMove d h tsect nsect ptr).2) :=
  callEnds (d:=(SectorChain.lseekMove d h tsect nsect ptr).1) ⟨hf.sectors,hf.sized⟩
    ⟨ht,toInt32_lt _⟩

theorem FileIn.lseek_spec (hf : FileIn m d c) (hh : HndlIn hndl.data c)
    (hroom : Extends d hndl ptr → d.maxsize+dataInSectorSize < 2^31) :
    Spec (fsIfregLseek m (some d) hndl ptr .seekEnd true) (fun x => CallEnds c x.2)
      (fun e => e = .assert) := by
  obtain ⟨l,p,hl,hlast⟩ := hf.sectors.lastSector
  have hp : p ∈ c := hl ▸ List.mem_append_right l (List.mem_singleton_self p)
  simp only [fsIfregLseek,assertDbgFlags,tkDbgFlags,spec_bind,spec_check,spec_pure,spec_ite,hlast,
    spec_ok,implies_true,and_true]
  refine fun hboth hunknown => ⟨fun hbeyond => ⟨fun happend => ⟨fun hno => (by cases hno),
    fun _ => ?_⟩,fun _ => ?_⟩,fun _ => ?_⟩
  · -- a sector is hung behind the last one
    have hfits := hroom ⟨hboth,hunknown,hbeyond,happend⟩
    subst hl
    refine ⟨_,[m.fresh],rfl,⟨hf.sectors.addNext,hf.sized.concat hfits⟩,?_,toInt32_lt _⟩
    exact List.mem_append_left _ hp
  · exact hf.callEnds ⟨hp,hh.int⟩
  · exact hf.lseekMove hp _ _ _

/-- A counter that overflows counts no sectors. -/
theorem FileIn.lseek_wraps (hf : FileIn m d c) (hext : Extends d hndl ptr)
    (hfull : ¬d.maxsize+dataInSectorSize < 2^31) :
    Spec (fsIfregLseek m (some d) hndl ptr .seekEnd true)
      (fun x => ∃ d', x.2.2.1 = some d' ∧ d'.maxsize < 0) (fun _ => False) := by
  obtain ⟨l,p,-,hlast⟩ := hf.sectors.lastSector
  have hint := hf.sized.int
  have hneg : toInt32 (d.maxsize+dataInSectorSize) < 0 := by
    rw [toInt32,Int.bmod_def]
    rw [dataInSectorSize_eq] at *
    omega
  simp only [fsIfregLseek,assertDbgFlags,tkDbgFlags,spec_bind,spec_check,spec_pure,spec_ite,hlast,
    spec_ok,hext.both,hext.unknown,hext.beyond,hext.append]
  simpa [SectorChain.lseekMove] using hneg

/-! ### The steps -/

theorem RamInv.hasChain (hi : RamInv s c) : s.HasChain c where
  none := hi.none
  next d hd := (hi.file d hd).sectors.linked.chain
  first d hd := by
    have hc := (hi.file d hd).sectors.linked
    cases c with
    | nil => cases hc
    | cons p c =>
      rw [Option.some.inj hc.1]
      exact hc.2.1
  inverse a ha b hb := by
    cases hd : s.idata with
    | none =>
      rw [hi.none hd] at ha
      cases ha
    | some d => exact (hi.file d hd).sectors.linked.inverse (hi.file d hd).sectors.nodup ha hb
  maxsize d hd := (hi.file d hd).sized.eq
  csector i h hh := (hi.handles i h hh).csector

/-- A handle is there only when the file is. -/
theorem RamInv.opened (hi : RamInv s c) (hh : s.handles i = some hndl) :
    ∃ d, s.idata = some d ∧ FileIn s.store d c ∧ HndlIn hndl.data c := by
  have hin := hi.handles i hndl hh
  cases hd : s.idata with
  | none =>
    have hmem := hin.csector
    rw [hi.none hd] at hmem
    cases hmem
  | some d => exact ⟨d,rfl,hi.file d hd,hin⟩

theorem RamInv.update {m' : Store} {idata : Option InodeData} {o : OFlag} (hi : RamInv s c)
    (hx : CallEnds c (m',idata,h)) :
    ∃ c', RamInv ({ s with store := m', idata := idata }.setHandle i ⟨o,h⟩) (c ++ c') := by
  obtain ⟨d,c',hd,hf,hh⟩ := hx
  refine ⟨c',fun hnone => ?_,fun d' hd' => ?_,fun j h' hj => ?_⟩
  · cases hd.symm.trans hnone
  · obtain rfl := Option.some.inj (hd.symm.trans hd')
    exact hf
  · rw [RamState.setHandle_handles] at hj
    split at hj
    · rw [← Option.some.inj hj]
      exact hh
    · exact (hi.handles j h' hj).mono (List.subset_append_left c c')

theorem RamInv.openFile (hi : RamInv s c) {flags : OFlag} {accessflg : ℕ}
    (he : ramEnabled s (.openFile flags accessflg) = true) :
    Spec (ramNext s (.openFile flags accessflg)) (fun s' => ∃ c', RamInv s' (c ++ c'))
      (fun e => e = .assert) := by
  have hadd : ∀ {m : Store} {d : InodeData} {hndl : Handle} (c' : List ℕ), FileIn m d (c ++ c') →
      HndlIn hndl.data (c ++ c') → ∃ c', RamInv
        { ({ s with store := m, idata := some d } : RamState).setHandle s.nhandles hndl with
          nhandles := s.nhandles+1 } (c ++ c') := by
    intro m d hndl c' hf hh
    refine ⟨c',nofun,fun d' hd' => ?_,fun j h' hj => ?_⟩
    · obtain rfl := Option.some.inj hd'
      exact hf
    · have hj : (if j = s.nhandles then some hndl else s.handles j) = some h' := by
        rw [← hj]
        exact (RamState.setHandle_handles _ _ _ _).symm
      split at hj
      · rw [← Option.some.inj hj]
        exact hh
      · exact (hi.handles j h' hj).mono (List.subset_append_left c c')
  cases hd : s.idata with
  | none =>
    have hcreat : flags.creat = true := by simpa [ramEnabled,hd] using he
    simp only [ramNext,hd,spec_bind]
    refine (open_first s.store hcreat accessflg).imp ?_
    rintro _ ⟨d,h,rfl,hf,hh⟩
    rw [hi.none hd] at hadd ⊢
    exact hadd [s.store.fresh] hf hh
  | some d =>
    have hf := hi.file d hd
    simp only [ramNext,hd,spec_bind]
    refine (hf.open_spec flags accessflg).imp ?_
    rintro ⟨r,_⟩ ⟨rfl,hr⟩
    cases r with
    | error e =>
      refine ⟨[],?_⟩
      rw [List.append_nil,← hd]
      exact hi
    | ok h =>
      rw [← List.append_nil c] at hf hr
      exact hadd [] hf (hr h rfl)

/-- A call that finds what it needs keeps the chain. -/
theorem RamInv.step (hi : RamInv s c) (he : ramEnabled s l = true) (hc : s.Safe l) :
    Spec (ramNext s l) (fun s' => ∃ c', RamInv s' (c ++ c')) (fun e => e = .assert) := by
  cases l with
  | openFile flags accessflg => exact hi.openFile he
  | write i buf =>
    rw [ramEnabled,Bool.and_eq_true,decide_eq_true_eq] at he
    obtain ⟨hndl,hh⟩ := Option.isSome_iff_exists.mp he.1
    obtain ⟨d,hd,hf,hin⟩ := hi.opened hh
    simp only [ramNext,hh,hd,spec_bind]
    exact (hf.write_spec hin he.2 (hc d hndl hd hh)).imp fun x hx => hi.update hx
  | read i len beyond =>
    rw [ramEnabled,Bool.and_eq_true] at he
    obtain ⟨hndl,hh⟩ := Option.isSome_iff_exists.mp he.1
    obtain ⟨d,hd,hf,hin⟩ := hi.opened hh
    simp only [ramNext,hh,hd,spec_bind]
    refine (fsIfregRead_spec hf.sectors hin len beyond).imp fun x hx => ?_
    have hmoved := hi.update (i:=i) (o:=hndl.oflag) (hf.callEnds hx)
    rwa [← hd] at hmoved
  | lseekEnd i ptr =>
    obtain ⟨hndl,hh⟩ := Option.isSome_iff_exists.mp he
    obtain ⟨d,hd,hf,hin⟩ := hi.opened hh
    simp only [ramNext,hh,hd,spec_bind]
    exact (hf.lseek_spec hin (hc d hndl hd hh)).imp fun x hx => hi.update hx

/-- A call that does not find it breaks the chain. -/
theorem RamInv.breaks (hi : RamInv s c) (hc : ¬s.Safe l) :
    ¬Spec (ramNext s l) (fun s' => ∃ c c', s.HasChain c ∧ s'.HasChain (c ++ c'))
      (fun e => e = .assert) := by
  intro hkept
  cases l with
  | openFile flags accessflg => exact hc trivial
  | read i len beyond => exact hc trivial
  | write i buf =>
    refine hc fun d hndl hd hh happ => ?_
    by_contra hout
    have hover := (hi.file d hd).write_outside (hi.handles i hndl hh) happ hout
    simp only [ramNext,hh,hd,spec_bind] at hkept
    cases hrun : fsIfregWrite s.store (some d) hndl buf with
    | ok x => exact hover.of_ok hrun
    | error e => exact hover.of_error hrun (hkept.of_error hrun)
  | lseekEnd i ptr =>
    refine hc fun d hndl hd hh hext => ?_
    by_contra hfull
    have hwraps := (hi.file d hd).lseek_wraps hext hfull
    simp only [ramNext,hh,hd,spec_bind] at hkept
    cases hrun : fsIfregLseek s.store (some d) hndl ptr .seekEnd true with
    | error e => exact hwraps.of_error hrun
    | ok x =>
      obtain ⟨d',hd',hneg⟩ := hwraps.of_ok hrun
      obtain ⟨c1,c2,-,hchain⟩ := hkept.of_ok hrun
      have hsize := hchain.maxsize d' hd'
      rw [dataInSectorSize_eq] at hsize
      omega

theorem RamInv.chainKept_iff (hi : RamInv s c) : ChainKept s l ↔ ChainSafe s l := by
  constructor
  · intro hkept he
    by_contra hc
    exact hi.breaks hc (hkept he)
  · intro hc he
    refine (hi.step he (hc he)).imp ?_
    rintro s' ⟨c',hi'⟩
    exact ⟨c,c',hi.hasChain,hi'.hasChain⟩

theorem ramInit_inv (mem : ℕ → SectorT) : RamInv (ramInit mem) [] :=
  ⟨fun _ => rfl,nofun,nofun⟩

end

/-- Along a run every call keeps the chain if and only if each finds what it needs. -/
theorem ramRun_chainKept_iff (mem : ℕ → SectorT) (ls : List RamLabel) :
    ramMachine.Along ChainKept (ramInit mem) ls ↔ ramMachine.Along ChainSafe (ramInit mem) ls := by
  have hinit : ∃ c, RamInv (ramInit mem) c := ⟨[],ramInit_inv mem⟩
  have hstep : ∀ s l s', (∃ c, RamInv s c) → ChainSafe s l → ramMachine.Step s l s' →
      ∃ c, RamInv s' c := by
    rintro s l s' ⟨c,hi⟩ hc hs
    obtain ⟨c',hi'⟩ := (hi.step hs.1 (hc hs.1)).of_ok hs.2
    exact ⟨c ++ c',hi'⟩
  constructor
  · refine ramMachine.along_of_invariant (I:=fun s => ∃ c, RamInv s c) ?_ ?_ hinit
    · rintro s l s' ⟨c,hi⟩ hkept hs
      exact hstep s l s' ⟨c,hi⟩ (hi.chainKept_iff.mp hkept) hs
    · rintro s l ⟨c,hi⟩
      exact hi.chainKept_iff.mp
  · refine ramMachine.along_of_invariant (I:=fun s => ∃ c, RamInv s c) hstep ?_ hinit
    rintro s l ⟨c,hi⟩
    exact hi.chainKept_iff.mpr

/-- A handle for reading, writing and appending. -/
def appending : OFlag := ⟨true,false,true,true,false,false⟩

/-- The file is created and its first sector filled. The next write goes on in a second sector and
leaves `ptr` at the end of the first, where the last one copies to. -/
def staleSteps : List RamLabel :=
  [.openFile appending 0,.write 0 (List.replicate 40 1),.write 0 [2]]

theorem ramRun_not_chainKept : ¬∀ ls : List RamLabel,
    ramMachine.Along ChainKept (ramInit fun _ => .cleared) ls := by
  intro hkept
  obtain ⟨s,hr,hs⟩ : ∃ s, ramMachine.run (ramInit fun _ => .cleared) staleSteps = some s ∧
      (ramEnabled s (.write 0 [3]) && match ramNext s (.write 0 [3]) with
        | .error e => decide (e = .overrun)
        | .ok _ => false) = true := by
    have hany : (ramMachine.run (ramInit fun _ => .cleared) staleSteps).any (fun s =>
        ramEnabled s (.write 0 [3]) && match ramNext s (.write 0 [3]) with
          | .error e => decide (e = .overrun)
          | .ok _ => false) = true := by decide +kernel
    simpa only [Option.any_eq_true] using hany
  have hlast := Machine.Along.at_end ramMachine (hkept (staleSteps ++ [.write 0 [3]])) hr
  rw [Bool.and_eq_true] at hs
  have hspec := hlast hs.1
  cases hn : ramNext s (.write 0 [3]) with
  | ok s' =>
    rw [hn] at hs
    cases hs.2
  | error e =>
    rw [hn,decide_eq_true_eq] at hs
    rw [hn,hs.2] at hspec
    cases hspec

end SectorChain

end Tinker

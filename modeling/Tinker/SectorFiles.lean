import Tinker.Parts
import Tinker.SectorRefinesRun

/-! All files of the RAM disk in one memory. A call goes to one file and may change its sectors and
those that it takes from `malloc`; the files do not get into each other's way. -/
namespace Tinker

open Outcome Parts

/-- What a call returns. -/
inductive FileReply
  | opened (r : Except FsErr Unit)
  | wrote (r : Except FsErr ℕ)
  | got (r : Except FsErr (List Byte))
  | closed

namespace SectorChain

/-- Calls with the address of their handle; `calloc` gives the one of an `open`. -/
inductive DiskCall
  | openFile (i : ℕ) (flags : OFlag) (accessflg : ℕ)
  | write (i : ℕ) (buf : List Byte)
  | read (i len : ℕ) (beyond : ℕ → ℤ → Byte)
  | close (i : ℕ)

/-- The data of the inodes, the handles with their inodes, and what the calls have returned. An
`open` that fails keeps its handle in use. -/
structure DiskState where
  store : Store
  idata : ℕ → Option InodeData
  handles : ℕ → Option (ℕ × Handle)
  used : ℕ → Bool
  told : List (ℕ × FileReply)

/-- No file has been opened. -/
def diskInit (mem : ℕ → SectorT) : DiskState := ⟨⟨mem,0⟩,fun _ => none,fun _ => none,fun _ => false,[]⟩

namespace DiskState

/-- The handle at `i`, when it is one of `inode`. -/
def handle (s : DiskState) (inode i : ℕ) : Option Handle :=
  (s.handles i).bind fun x => if x.1 = inode then some x.2 else none

def setFile (s : DiskState) (inode : ℕ) (store : Store) (idata : Option InodeData) : DiskState :=
  { s with store := store, idata := Function.update s.idata inode idata }

def setHandle (s : DiskState) (inode i : ℕ) (h : Handle) : DiskState :=
  { s with handles := Function.update s.handles i (some (inode,h)) }

def setUsed (s : DiskState) (i : ℕ) (b : Bool) : DiskState :=
  { s with used := Function.update s.used i b }

def freeHandle (s : DiskState) (i : ℕ) : DiskState :=
  { s with handles := Function.update s.handles i none }

def tell (s : DiskState) (inode : ℕ) (r : FileReply) : DiskState :=
  { s with told := s.told ++ [(inode,r)] }

end DiskState

/-- A length is an `int`, and `calloc` gives a handle that is not in use. -/
def diskEnabled (s : DiskState) : ℕ × DiskCall → Bool
  | (_,.openFile i _ _) => !s.used i
  | (inode,.write i buf) => (s.handle inode i).isSome && decide (buf.length < 2^31)
  | (inode,.read i len _) => (s.handle inode i).isSome && decide (len < 2^31)
  | (inode,.close i) => (s.handle inode i).isSome

def diskNext (s : DiskState) : ℕ × DiskCall → Except FsFault DiskState
  | (inode,.openFile i flags accessflg) => do
    let (r,m,idata) ← fsIfregOpen s.store (s.idata inode) flags accessflg
    let s := (s.setFile inode m idata).setUsed i true
    match r with
    | .ok h => return (s.setHandle inode i h).tell inode (.opened (.ok ()))
    | .error e => return s.tell inode (.opened (.error e))
  | (inode,.write i buf) => do
    let some hndl := s.handle inode i | throw .null
    let (r,m,idata,h) ← fsIfregWrite s.store (s.idata inode) hndl buf
    return ((s.setFile inode m idata).setHandle inode i { hndl with data := h }).tell inode (.wrote r)
  | (inode,.read i len beyond) => do
    let some hndl := s.handle inode i | throw .null
    let (r,h) ← fsIfregRead s.store (s.idata inode) hndl len beyond
    return (s.setHandle inode i { hndl with data := h }).tell inode (.got r)
  | (inode,.close i) =>
    -- `fs_ifreg_close` frees the handle and leaves the file
    return ((s.freeHandle i).setUsed i false).tell inode .closed

def diskMachine : Machine DiskState (ℕ × DiskCall) FsFault where
  enabled := diskEnabled
  next := diskNext

/-! ### A file alone -/

/-- One file by the list of its sectors, with its handles. -/
structure LoneFile where
  idata : Option IfregData
  handles : ℕ → Option FHandle
  told : List FileReply

def loneInit : LoneFile := ⟨none,fun _ => none,[]⟩

def LoneFile.setHandle (s : LoneFile) (i : ℕ) (h : FHandle) : LoneFile :=
  { s with handles := Function.update s.handles i (some h) }

def LoneFile.freeHandle (s : LoneFile) (i : ℕ) : LoneFile :=
  { s with handles := Function.update s.handles i none }

def LoneFile.tell (s : LoneFile) (r : FileReply) : LoneFile := { s with told := s.told ++ [r] }

def loneEnabled (s : LoneFile) : DiskCall → Bool
  | .openFile i _ _ => (s.handles i).isNone
  | .write i buf => (s.handles i).isSome && decide (buf.length < 2^31)
  | .read i len _ => (s.handles i).isSome && decide (len < 2^31)
  | .close i => (s.handles i).isSome

def loneNext (s : LoneFile) : DiskCall → Except FsFault LoneFile
  | .openFile i flags accessflg => do
    let (r,idata) ← Tinker.fsIfregOpen s.idata flags accessflg
    let s := { s with idata := idata }
    match r with
    | .ok h => return (s.setHandle i h).tell (.opened (.ok ()))
    | .error e => return s.tell (.opened (.error e))
  | .write i buf => do
    let some hndl := s.handles i | throw .null
    let (r,idata,h) ← Tinker.fsIfregWrite s.idata hndl buf
    return ({ s with idata := idata }.setHandle i h).tell (.wrote r)
  | .read i len _ => do
    let some hndl := s.handles i | throw .null
    let (r,h) ← Tinker.fsIfregRead s.idata hndl len
    return (s.setHandle i h).tell (.got r)
  | .close i => return (s.freeHandle i).tell .closed

def loneMachine : Machine LoneFile DiskCall FsFault where
  enabled := loneEnabled
  next := loneNext

/-- The counters of a call are `int`s. -/
def LoneFile.Fits (s : LoneFile) : DiskCall → Prop
  | .openFile _ _ _ | .close _ => True
  | .write i buf => ∀ h ∈ s.handles i, ((buf.length+h.data.didx : ℕ) : ℤ) ≤ maxMaxsize
  | .read i len _ => ∀ h ∈ s.handles i, len+h.data.didx < 2^31

instance decidableLoneFits (s : LoneFile) (k : DiskCall) : Decidable (s.Fits k) := by
  cases k <;> unfold LoneFile.Fits <;> infer_instance

/-! ### What a call may change -/

variable {m m1 m2 : Store} {first tsect p : ℕ} {c c' l1 l2 : List ℕ}

/-- Only the sectors `c` and new ones may be other ones than before. -/
structure Confined (c : List ℕ) (m m' : Store) : Prop where
  fresh : m.fresh ≤ m'.fresh
  same : ∀ a < m.fresh, a ∉ c → m'.mem a = m.mem a

theorem Confined.refl (c : List ℕ) (m : Store) : Confined c m m := ⟨Nat.le_refl _,fun _ _ _ => rfl⟩

theorem Confined.trans (h : Confined c m m1) (hnew : ∀ a ∈ c', m.fresh ≤ a)
    (h' : Confined (c ++ c') m1 m2) : Confined c m m2 where
  fresh := Nat.le_trans h.fresh h'.fresh
  same a ha hc := by
    have hout : a ∉ c ++ c' := by
      intro hmem
      rcases List.mem_append.mp hmem with hin | hin
      · exact hc hin
      · exact Nat.not_le_of_lt ha (hnew a hin)
    rw [h'.same a (Nat.lt_of_lt_of_le ha h.fresh) hout]
    exact h.same a ha hc

/-- A copy into a sector of the chain changes no link, and no sector of another chain. -/
theorem copyIn_confined (hp : p ∈ c) (off : ℤ) (k : ℕ) (buf : List Byte) :
    Spec (m.copyIn p off k buf) (fun x => SameLinks m x.1 ∧ Confined c m x.1) (fun _ => True) := by
  have hlinks : Spec (m.copyIn p off k buf) (fun x => SameLinks m x.1) (fun _ => True) :=
    (copyIn_spec m p off k buf).mono (fun _ hx => hx.1) fun _ _ => trivial
  apply hlinks.and
  simp only [Store.copyIn,spec_bind,spec_check,spec_pure]
  refine ⟨fun _ => ⟨Nat.le_refl _,fun a _ ha => ?_⟩,fun _ => trivial⟩
  have hne : a ≠ p := by
    rintro rfl
    exact ha hp
  exact Function.update_of_ne hne _ _

theorem addNext_confined (hp : p ∈ c) : Confined c m (m.addNext p) where
  fresh := Nat.le_succ _
  same a ha hc := by
    have hne : a ≠ p := by
      rintro rfl
      exact hc hp
    rw [Store.addNext]
    dsimp only
    rw [Function.update_of_ne (Nat.ne_of_lt ha),Function.update_of_ne hne]

theorem newSector_confined (c : List ℕ) (m : Store) : Confined c m m.newSector where
  fresh := Nat.le_succ _
  same _ ha _ := Function.update_of_ne (Nat.ne_of_lt ha) _ _

/-- A call has left the chain with sectors behind its end that are new, and other chains alone. -/
def Grown (first : ℕ) (c : List ℕ) (m m' : Store) : Prop :=
  Confined c m m' ∧ ∃ c', Sectors m' first (c ++ c') ∧ ∀ a ∈ c', m.fresh ≤ a

theorem Grown.refl (hs : Sectors m first c) : Grown first c m m := by
  refine ⟨Confined.refl c m,[],?_,fun a ha => absurd ha List.not_mem_nil⟩
  rwa [List.append_nil]

/-- The room is made with new sectors. -/
theorem grow_grown {need : ℤ} (fuel : ℕ) (maxsize : ℤ) (hs : Sectors m first (l1 ++ tsect :: l2)) :
    Spec (grow need fuel tsect m maxsize) (fun x => Grown first (l1 ++ tsect :: l2) m x.1)
      (fun _ => True) := by
  induction fuel generalizing m tsect l1 l2 maxsize with
  | zero =>
    simp only [grow,spec_ite,spec_ok,spec_error,implies_true,and_true]
    exact fun _ => Grown.refl hs
  | succ fuel ih =>
    simp only [grow,spec_ite,spec_ok]
    refine ⟨fun _ => Grown.refl hs,fun _ => ?_⟩
    have hbehind := hs.linked.chain.behind
    cases l2 with
    | cons t l2 =>
      rw [hbehind.1]
      rw [List.append_cons] at hs ⊢
      exact ih maxsize hs
    | nil =>
      have hnext : m.next tsect = none := hbehind
      rw [hnext]
      have htsect : tsect ∈ l1 ++ [tsect] := by simp
      refine (ih _ hs.addNext).imp ?_
      rintro ⟨m1,_⟩ ⟨hconf,c',hs1,hnew⟩
      have hfresh : ∀ a ∈ [m.fresh], m.fresh ≤ a := by simp
      refine ⟨(addNext_confined htsect).trans hfresh hconf,m.fresh :: c',?_,fun a ha => ?_⟩
      · rwa [List.append_assoc] at hs1
      · rcases List.mem_cons.mp ha with rfl | ha
        · exact Nat.le_refl _
        · exact Nat.le_of_succ_le (hnew a ha)

/-- The copies of a write are to sectors of the chain. -/
theorem copySectors_confined {fuel slen nleft n : ℕ} {h : HndlData} {buf : List Byte}
    (hs : Sectors m first c) (hc : h.csector ∈ c) :
    Spec (copySectors Store.copyIn fuel slen nleft h m buf n)
      (fun w => Confined c m w.store ∧ Sectors w.store first c) (fun _ => True) := by
  induction fuel generalizing slen nleft h m buf n with
  | zero => trivial
  | succ fuel ih =>
    simp only [copySectors,spec_ite,spec_ok,spec_bind,spec_pure]
    refine ⟨fun _ => ⟨Confined.refl c m,hs⟩,fun _ => ⟨fun _ => ?_,fun _ => ?_⟩⟩
    · refine (copyIn_confined hc h.sidx slen buf).imp ?_
      rintro ⟨m1,buf1⟩ ⟨hlinks,hconf⟩
      have hs1 := hs.sameLinks hlinks
      cases hnext : m1.next h.csector with
      | none => exact ⟨hconf,hs1⟩
      | some t =>
        refine (ih hs1 (hs1.linked.chain.next_mem hc hnext)).imp fun w hw => ⟨?_,hw.2⟩
        have hmore := hw.1
        rw [← List.append_nil c] at hmore
        exact hconf.trans (fun a ha => absurd ha List.not_mem_nil) hmore
    · refine (copyIn_confined hc h.sidx nleft buf).imp ?_
      rintro ⟨m1,buf1⟩ ⟨hlinks,hconf⟩
      exact ⟨hconf,hs.sameLinks hlinks⟩

variable {d : InodeData} {h : HndlData} {buf : List Byte}

theorem writeAppend_grown (hs : Sectors m d.sectors c) (hc : h.csector ∈ c) (hp : h.ptr.1 ∈ c) :
    Spec (writeAppend m d h buf) (fun x => Grown x.2.1.sectors c m x.1) (fun _ => True) := by
  have hroom : Spec (grow (toInt32 (buf.length+h.didx)) ((toInt32 (buf.length+h.didx)).toNat+m.fresh)
      h.csector m d.maxsize) (fun x => Grown d.sectors c m x.1) (fun _ => True) := by
    obtain ⟨l1,l2,rfl⟩ := List.append_of_mem hc
    exact grow_grown _ _ hs
  simp only [writeAppend,spec_bind,spec_ite,spec_pure,spec_check]
  refine hroom.imp ?_
  rintro ⟨m1,maxsize⟩ ⟨hconf,c',hs1,hnew⟩
  constructor
  · intro _
    refine (copyIn_confined (List.mem_append_left c' hp) h.ptr.2 buf.length buf).imp ?_
    rintro ⟨m2,_⟩ ⟨hlinks,hconf2⟩
    exact ⟨hconf.trans hnew hconf2,c',hs1.sameLinks hlinks,hnew⟩
  · intro _
    refine (copySectors_confined hs1 (List.mem_append_left c' hc)).imp ?_
    rintro w ⟨hconf2,hs2⟩
    simp only [implies_true,and_true]
    exact fun _ _ _ => ⟨hconf.trans hnew hconf2,c',hs2,hnew⟩

/-- A write changes nothing but its own file. -/
theorem fsIfregWrite_grown (hndl : Handle) (buf : List Byte) (hs : Sectors m d.sectors c)
    (hc : hndl.data.csector ∈ c) (hp : hndl.data.ptr.1 ∈ c) :
    Spec (fsIfregWrite m (some d) hndl buf)
      (fun x => ∃ d', x.2.2.1 = some d' ∧ Grown d'.sectors c m x.2.1) (fun _ => True) := by
  have hsame : ∃ d', some d = some d' ∧ Grown d'.sectors c m m := ⟨d,rfl,Grown.refl hs⟩
  simp only [fsIfregWrite,spec_bind,spec_check,spec_pure,spec_ite,implies_true,and_true]
  refine (assertDbgFlags_spec hndl.oflag).mono (fun _ _ => ?_) fun _ _ => trivial
  refine ⟨fun _ => hsame,fun _ _ => ⟨fun _ => hsame,fun _ => ?_⟩⟩
  exact (writeAppend_grown hs hc hp).imp fun x hx => ⟨x.2.1,rfl,hx⟩

/-- An open makes the first sector of a file, or leaves the file as it is. -/
theorem fsIfregOpen_grown {idata : Option InodeData} (hnone : idata = none → c = [])
    (hf : ∀ d, idata = some d → FileIn m d c) (flags : OFlag) (accessflg : ℕ) :
    Spec (fsIfregOpen m idata flags accessflg)
      (fun x => ∃ d', x.2.2 = some d' ∧ Grown d'.sectors c m x.2.1) (fun _ => True) := by
  cases hd : idata with
  | none =>
    rw [hnone hd]
    cases hcreat : flags.creat with
    | false =>
      simp only [fsIfregOpen,hcreat,Bool.false_eq_true,if_false]
      trivial
    | true =>
      refine (open_first m hcreat accessflg).mono ?_ fun _ _ => trivial
      rintro _ ⟨d,h,rfl,hfile,-⟩
      have hnew : ∀ a ∈ [m.fresh], m.fresh ≤ a := by simp
      exact ⟨d,rfl,newSector_confined [] m,[m.fresh],hfile.sectors,hnew⟩
  | some d =>
    refine ((hf d hd).open_spec flags accessflg).mono ?_ fun _ _ => trivial
    rintro ⟨r,_⟩ ⟨rfl,-⟩
    exact ⟨d,rfl,Grown.refl (hf d hd).sectors⟩

end SectorChain

end Tinker

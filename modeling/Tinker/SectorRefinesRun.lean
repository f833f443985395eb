import Tinker.SectorRefines

/-! Files by the list of their sectors, over the same calls through the same handles as files by the
addresses of their sectors. -/
namespace Tinker

open Outcome

/-- A file with the handles it has been opened through. -/
structure FileState where
  idata : Option IfregData
  handles : ℕ → Option FHandle
  nhandles : ℕ

/-- Before the file is opened for the first time. -/
def fileInit : FileState := ⟨none,fun _ => none,0⟩

/-- Calls with the number of their handle, where they take one. -/
inductive FileCall
  | openFile (flags : OFlag) (accessflg : ℕ)
  | write (i : ℕ) (buf : List Byte)
  | read (i len : ℕ)

/-- The first call is an `open` with `O_CREAT`; a length is an `int`. -/
def fileEnabled (s : FileState) : FileCall → Bool
  | .openFile flags _ => s.idata.isSome || flags.creat
  | .write i buf => (s.handles i).isSome && decide (buf.length < 2^31)
  | .read i len => (s.handles i).isSome && decide (len < 2^31)

def FileState.setHandle (s : FileState) (i : ℕ) (h : FHandle) : FileState :=
  { s with handles := Function.update s.handles i (some h) }

def fileNext (s : FileState) : FileCall → Except FsFault FileState
  | .openFile flags accessflg => do
    let (r,idata) ← fsIfregOpen s.idata flags accessflg
    let s := { s with idata := idata }
    match r with
    | .ok h => return { s.setHandle s.nhandles h with nhandles := s.nhandles+1 }
    | .error _ => return s
  | .write i buf => do
    let some hndl := s.handles i | throw .null
    let (_,idata,h) ← fsIfregWrite s.idata hndl buf
    return { s with idata := idata }.setHandle i h
  | .read i len => do
    let some hndl := s.handles i | throw .null
    let (_,h) ← fsIfregRead s.idata hndl len
    return s.setHandle i h

def fileMachine : Machine FileState FileCall FsFault where
  enabled := fileEnabled
  next := fileNext

/-- The counters of a call are `int`s. -/
def FileState.Fits (s : FileState) : FileCall → Prop
  | .openFile _ _ => True
  | .write i buf => ∀ h, s.handles i = some h →
      ((buf.length+h.data.didx : ℕ) : ℤ) ≤ SectorChain.maxMaxsize
  | .read i len => ∀ h, s.handles i = some h → len+h.data.didx < 2^31

instance decidableFileFits (s : FileState) (l : FileCall) : Decidable (s.Fits l) :=
  match l with
  | .openFile _ _ => isTrue trivial
  | .write i buf => decidable_of_iff (∀ h ∈ s.handles i,
      ((buf.length+h.data.didx : ℕ) : ℤ) ≤ SectorChain.maxMaxsize) Iff.rfl
  | .read i len => decidable_of_iff (∀ h ∈ s.handles i, len+h.data.didx < 2^31) Iff.rfl

namespace SectorChain

/-- A call with what lies around the sectors in memory. -/
def ramLabel : FileCall × (ℕ → ℤ → Byte) → RamLabel
  | (.openFile flags accessflg,_) => .openFile flags accessflg
  | (.write i buf,_) => .write i buf
  | (.read i len,beyond) => .read i len beyond

/-- A file and its handles, in both models. -/
structure StateModels (c : List ℕ) (s : RamState) (S : FileState) : Prop where
  file : FileModels s.store s.idata c S.idata
  handles : ∀ i, Option.Rel (HandleModels c) (s.handles i) (S.handles i)
  nhandles : s.nhandles = S.nhandles

section

variable {c c' : List ℕ} {s : RamState} {S : FileState} {m : Store} {idata : Option InodeData}
  {Idata : Option IfregData} {h : Handle} {H : FHandle} {i : ℕ} {k : FileCall × (ℕ → ℤ → Byte)}

/-- A call has left another file, and the handles as they were. -/
theorem StateModels.setFile (hs : StateModels c s S) (hf : FileModels m idata (c ++ c') Idata) :
    StateModels (c ++ c') { s with store := m, idata := idata } { S with idata := Idata } where
  file := hf
  handles j := rel_imp (hs.handles j) fun _ _ hh => hh.append c'
  nhandles := hs.nhandles

theorem StateModels.setHandle (hs : StateModels c s S) (i : ℕ) (hh : HandleModels c h H) :
    StateModels c (s.setHandle i h) (S.setHandle i H) where
  file := hs.file
  handles j := by
    rw [RamState.setHandle,FileState.setHandle]
    simp only [Function.update_apply]
    split_ifs
    · exact .some hh
    · exact hs.handles j
  nhandles := hs.nhandles

/-- Both models are in related states, wherever the sectors are. -/
def Related (s : RamState) (S : FileState) : Prop := ∃ c, StateModels c s S

theorem StateModels.openFile (hs : StateModels c s S) (flags : OFlag) (accessflg : ℕ)
    (beyond : ℕ → ℤ → Byte) :
    Alike Related (ramNext s (ramLabel (.openFile flags accessflg,beyond)))
      (fileNext S (.openFile flags accessflg)) := by
  refine (hs.file.open flags accessflg).bind ?_
  rintro ⟨r,m,idata⟩ ⟨R,Idata⟩ ⟨c',hf,hr⟩
  have hs' := hs.setFile hf
  cases r with
  | ok h =>
    cases R with
    | ok H =>
      have hset := hs'.setHandle s.nhandles hr
      rw [← hs.nhandles]
      exact ⟨_,hset.file,hset.handles,rfl⟩
    | error e => cases hr
  | error e =>
    cases R with
    | ok H => cases hr
    | error e' => exact ⟨_,hs'⟩

/-- A handle of one model is a handle of the other, and then there is a file. -/
theorem StateModels.handle (hs : StateModels c s S) (i : ℕ) :
    s.handles i = none ∧ S.handles i = none ∨
      ∃ o h H d D, s.handles i = some ⟨o,h⟩ ∧ S.handles i = some ⟨o,H⟩ ∧ s.idata = some d ∧
        S.idata = some D ∧ HndlModels c h H ∧ Models s.store d c D := by
  have hi := hs.handles i
  obtain ⟨hfile,hnone⟩ := hs.file
  generalize s.handles i = x at hi ⊢
  generalize S.handles i = X at hi ⊢
  cases hi with
  | none => exact Or.inl ⟨rfl,rfl⟩
  | @some hndl Hndl hi =>
    rcases hndl with ⟨o,h⟩
    rcases Hndl with ⟨O,H⟩
    obtain rfl : o = O := hi.oflag
    generalize s.idata = y at hfile hnone ⊢
    generalize S.idata = Y at hfile ⊢
    cases hfile with
    | none =>
      have hc := hi.data.csector
      rw [hnone rfl] at hc
      cases hc
    | some hm => exact Or.inr ⟨o,h,H,_,_,rfl,rfl,rfl,rfl,hi.data,hm⟩

theorem StateModels.write (hs : StateModels c s S) {i : ℕ} {buf : List Byte}
    (hfits : S.Fits (.write i buf)) (beyond : ℕ → ℤ → Byte) :
    Alike Related (ramNext s (ramLabel (.write i buf,beyond))) (fileNext S (.write i buf)) := by
  rw [ramLabel,ramNext,fileNext]
  rcases hs.handle i with ⟨hi,hI⟩ | ⟨o,h,H,d,D,hi,hI,hd,hD,hh,hm⟩
  · rw [hi,hI]
    rfl
  · simp only [hi,hI,hd,hD]
    refine (hm.write hh (hfits _ hI)).bind ?_
    rintro ⟨r,m,idata,h'⟩ ⟨R,Idata,H'⟩ ⟨-,hflag,d',D',c',rfl,rfl,hm',hh'⟩
    exact ⟨_,(hs.setFile hm'.fileModels).setHandle i ⟨hflag.symm,hh'⟩⟩

theorem StateModels.read (hs : StateModels c s S) {i len : ℕ} (hfits : S.Fits (.read i len))
    (beyond : ℕ → ℤ → Byte) :
    Alike Related (ramNext s (ramLabel (.read i len,beyond))) (fileNext S (.read i len)) := by
  rw [ramLabel,ramNext,fileNext]
  rcases hs.handle i with ⟨hi,hI⟩ | ⟨o,h,H,d,D,hi,hI,hd,hD,hh,hm⟩
  · rw [hi,hI]
    rfl
  · simp only [hi,hI,hd,hD]
    refine (hm.read hh (hfits _ hI) beyond).bind ?_
    rintro ⟨r,h'⟩ ⟨R,H'⟩ ⟨-,hflag,hh'⟩
    exact ⟨_,hs.setHandle i ⟨hflag.symm,hh'⟩⟩

/-- The same calls are offered. -/
theorem Related.enabled (hs : Related s S) (k : FileCall × (ℕ → ℤ → Byte)) :
    ramMachine.enabled s (ramLabel k) = fileMachine.enabled S k.1 := by
  obtain ⟨c,hs⟩ := hs
  obtain ⟨call,beyond⟩ := k
  cases call with
  | openFile flags accessflg => exact congrArg (· || flags.creat) (rel_isSome hs.file.file)
  | write i buf => exact congrArg (· && decide (buf.length < 2^31)) (rel_isSome (hs.handles i))
  | read i len => exact congrArg (· && decide (len < 2^31)) (rel_isSome (hs.handles i))

/-- A call does the same. -/
theorem Related.next (hs : Related s S) (k : FileCall × (ℕ → ℤ → Byte)) (hfits : S.Fits k.1) :
    Alike Related (ramMachine.next s (ramLabel k)) (fileMachine.next S k.1) := by
  obtain ⟨c,hs⟩ := hs
  obtain ⟨call,beyond⟩ := k
  cases call with
  | openFile flags accessflg => exact hs.openFile flags accessflg beyond
  | write i buf => exact hs.write hfits beyond
  | read i len => exact hs.read hfits beyond

theorem related_init (mem : ℕ → SectorT) : Related (ramInit mem) fileInit :=
  ⟨[],⟨.none,fun _ => rfl⟩,fun _ => .none,rfl⟩

/-- Both models offer the same next calls, and do the same in each or stop with the same fault. -/
def GoAlike (s : RamState) (S : FileState) : Prop :=
  ∀ k : FileCall × (ℕ → ℤ → Byte), ramEnabled s (ramLabel k) = fileEnabled S k.1 ∧
    (S.Fits k.1 → Alike Related (ramNext s (ramLabel k)) (fileNext S k.1))

/-- Over any calls whose counters are `int`s both models stop, or both go on to the same file, where
they do the same again. -/
theorem ramRun_alike (mem : ℕ → SectorT) (ks : List (FileCall × (ℕ → ℤ → Byte)))
    (hfits : fileMachine.Along FileState.Fits fileInit (ks.map Prod.fst)) :
    Option.Rel (fun s S => Related s S ∧ GoAlike s S)
      (ramMachine.run (ramInit mem) (ks.map ramLabel))
      (fileMachine.run fileInit (ks.map Prod.fst)) := by
  have hruns := Machine.run_alike (M:=ramMachine) (fun _ _ k hs => hs.enabled k)
    (fun _ _ k hs _ hk => hs.next k hk) (related_init mem) hfits
  exact rel_imp hruns fun s S hs => ⟨hs,fun k => ⟨hs.enabled k,hs.next k⟩⟩

/-- Two sectors are written, the last one in part, and read back. -/
def shortCalls : List (FileCall × (ℕ → ℤ → Byte)) :=
  [(.openFile appending 0,fun _ _ => 0),(.write 0 (List.replicate 50 1),fun _ _ => 0),
    (.openFile appending 0,fun _ _ => 0),(.read 1 45,fun _ _ => 0)]

theorem ramRun_alike_short : ∃ s S,
    ramMachine.run (ramInit fun _ => .cleared) (shortCalls.map ramLabel) = some s ∧
      fileMachine.run fileInit (shortCalls.map Prod.fst) = some S ∧ Related s S ∧ GoAlike s S := by
  obtain ⟨S,hrun,-⟩ := fileMachine.exists_run (fun S => S.nhandles = 2) fileInit
    (shortCalls.map Prod.fst) (by decide +kernel)
  have halike := ramRun_alike (fun _ => .cleared) shortCalls (by decide +kernel)
  rw [hrun] at halike
  generalize ramMachine.run (ramInit fun _ => .cleared) (shortCalls.map ramLabel) = x at halike
  cases halike with
  | some hrel => exact ⟨_,S,rfl,hrun,hrel⟩

end

end SectorChain

end Tinker

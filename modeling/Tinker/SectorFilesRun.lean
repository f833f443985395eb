import Tinker.SectorFiles

/-! Calls on many files in any order. Each file answers as it does alone, by the list of its sectors,
when only its own calls are made. -/
namespace Tinker

open Outcome Parts

namespace SectorChain

/-- A file among the others and the file alone. -/
structure PartModels (c : List ℕ) (s : DiskState) (q : ℕ) (P : LoneFile) : Prop where
  file : FileModels s.store (s.idata q) c P.idata
  handles : ∀ i, Option.Rel (HandleModels c) (s.handle q i) (P.handles i)
  told : only q s.told = P.told

/-- The files have their sectors for themselves. -/
structure DiskModels (c : ℕ → List ℕ) (s : DiskState) (p : ℕ → LoneFile) : Prop where
  part : ∀ q, PartModels (c q) s q (p q)
  apart : ∀ q q', q ≠ q' → (c q).Disjoint (c q')
  used : ∀ i, (s.handles i).isSome = true → s.used i = true

/-- Nothing of a file has changed, but for memory. -/
structure Untouched (q : ℕ) (s s' : DiskState) : Prop where
  idata : s'.idata q = s.idata q
  handle : ∀ i, s'.handle q i = s.handle q i
  told : only q s'.told = only q s.told

section

variable {c : ℕ → List ℕ} {s s' : DiskState} {p : ℕ → LoneFile} {P : LoneFile} {q q' i : ℕ}
  {m m' : Store} {cs cs' : List ℕ} {idata : Option InodeData} {Idata : Option IfregData}
  {h : Handle} {H : FHandle} {r : FileReply}

/-- What a call on another file does to memory leaves a file as it is. -/
theorem FileModels.confined (hm : FileModels m idata cs Idata) (hconf : Confined cs' m m')
    (hapart : cs.Disjoint cs') : FileModels m' idata cs Idata := by
  refine ⟨rel_imp hm.file fun d D hd => ?_,hm.none⟩
  obtain ⟨⟨hs,hsized⟩,hmax,hdsize,hsectors⟩ := hd
  have hsame : ∀ a ∈ cs, m'.mem a = m.mem a := fun a ha =>
    hconf.same a (hs.alloc a ha) (hapart ha)
  refine ⟨⟨⟨?_,hs.nodup,fun a ha => ?_⟩,hsized⟩,hmax,hdsize,?_⟩
  · exact hs.linked.congr (fun a ha => congrArg SectorT.next (hsame a ha))
      fun a ha => congrArg SectorT.prev (hsame a ha)
  · exact Nat.lt_of_lt_of_le (hs.alloc a ha) hconf.fresh
  · rw [hsectors]
    exact List.map_congr_left fun a ha => congrArg SectorT.data (hsame a ha).symm

/-- The sectors that a call has added are new. -/
theorem FileModels.fresh {d : InodeData} (hm : FileModels m' (some d) (cs ++ cs') Idata)
    (hg : Grown d.sectors cs m m') : ∀ a ∈ cs', m.fresh ≤ a := by
  obtain ⟨-,l,hs,hnew⟩ := hg
  cases Idata with
  | none => cases hm.file
  | some D =>
    cases hm.file with
    | some hd =>
      have heq := hd.file.sectors.linked.chain.unique hs.linked.chain
      rw [List.append_cancel_left heq]
      exact hnew

/-- A call on one file. -/
theorem DiskModels.step (hs : DiskModels c s p) {t : DiskState} {d : InodeData}
    (hd : t.idata q = some d) (hg : Grown d.sectors (c q) s.store t.store)
    (hpart : PartModels (c q ++ cs) t q P)
    (hothers : ∀ q', q' ≠ q → Untouched q' s t)
    (hused : ∀ i, (t.handles i).isSome = true → t.used i = true) :
    ∃ c', DiskModels c' t (Function.update p q P) := by
  have hfile := hpart.file
  rw [hd] at hfile
  have hnew := hfile.fresh hg
  have hfar : ∀ q', q' ≠ q → (c q ++ cs).Disjoint (c q') := by
    intro q' hq a ha ha'
    rcases List.mem_append.mp ha with hin | hin
    · exact hs.apart q q' (Ne.symm hq) hin ha'
    · obtain ⟨hold,hnone⟩ := (hs.part q').file
      cases hd' : s.idata q' with
      | none =>
        rw [hnone hd'] at ha'
        cases ha'
      | some d' =>
        rw [hd'] at hold
        generalize (p q').idata = Idata at hold
        cases hold with
        | some hm =>
          exact absurd (hm.file.sectors.alloc a ha') (Nat.not_lt_of_le (hnew a hin))
  refine ⟨Function.update c q (c q ++ cs),fun q' => ?_,fun q' q2 hne => ?_,hused⟩
  · by_cases hq : q' = q
    · subst hq
      rw [Function.update_self,Function.update_self]
      exact hpart
    · rw [Function.update_of_ne hq,Function.update_of_ne hq]
      have hold := hs.part q'
      have hsame := hothers q' hq
      refine ⟨?_,fun i => ?_,hsame.told.trans hold.told⟩
      · rw [hsame.idata]
        exact hold.file.confined hg.1 (hs.apart q' q hq)
      · rw [hsame.handle]
        exact hold.handles i
  · by_cases hq : q' = q
    · subst hq
      rw [Function.update_self,Function.update_of_ne (Ne.symm hne)]
      exact hfar q2 (Ne.symm hne)
    · rw [Function.update_of_ne hq]
      by_cases hq2 : q2 = q
      · subst hq2
        rw [Function.update_self]
        exact (hfar q' hq).symm
      · rw [Function.update_of_ne hq2]
        exact hs.apart q' q2 hne

/-! ### What the calls do to the state -/

theorem DiskState.handle_setHandle (s : DiskState) (q i : ℕ) (h : Handle) (q' j : ℕ) :
    (s.setHandle q i h).handle q' j =
      if j = i then if q = q' then some h else none else s.handle q' j := by
  rw [handle,setHandle]
  dsimp only
  rw [Function.update_apply]
  split_ifs with hj hq
  · rw [Option.bind_some,if_pos hq]
  · rw [Option.bind_some,if_neg hq]
  · rfl

theorem DiskState.handle_eq_some : s.handle q i = some h ↔ s.handles i = some (q,h) := by
  rw [handle,Option.bind_eq_some_iff]
  constructor
  · rintro ⟨⟨q',h'⟩,hi,hx⟩
    split at hx
    · next heq =>
      cases hx
      rw [hi,← heq]
    · cases hx
  · intro hi
    exact ⟨_,hi,if_pos rfl⟩

/-- A handle belongs to one inode. -/
theorem DiskState.handle_of_ne (hi : s.handle q i = some h) (hq : q' ≠ q) : s.handle q' i = none := by
  rw [DiskState.handle_eq_some] at hi
  rw [DiskState.handle,hi,Option.bind_some,if_neg (Ne.symm hq)]

theorem Untouched.setFile (s : DiskState) (hq : q' ≠ q) (m : Store) (idata : Option InodeData) :
    Untouched q' s (s.setFile q m idata) :=
  ⟨Function.update_of_ne hq _ _,fun _ => rfl,rfl⟩

theorem Untouched.setHandle (hs : Untouched q' s s') (hq : q' ≠ q) (hfree : s.handle q' i = none)
    (h : Handle) : Untouched q' s (s'.setHandle q i h) where
  idata := hs.idata
  handle j := by
    rw [DiskState.handle_setHandle,hs.handle]
    split_ifs with hj hqq
    · exact absurd hqq.symm hq
    · rw [hj,hfree]
    · rfl
  told := hs.told

theorem Untouched.tell (hs : Untouched q' s s') (hq : q' ≠ q) (r : FileReply) :
    Untouched q' s (s'.tell q r) where
  idata := hs.idata
  handle := hs.handle
  told := by
    rw [DiskState.tell]
    dsimp only
    rw [only_append,only_cons_of_ne (Ne.symm hq),only_nil,List.append_nil]
    exact hs.told

theorem PartModels.setFile (hp : PartModels cs s q P)
    (hm : FileModels m idata (cs ++ cs') Idata) :
    PartModels (cs ++ cs') (s.setFile q m idata) q { P with idata := Idata } where
  file := by
    rw [DiskState.setFile]
    dsimp only
    rw [Function.update_self]
    exact hm
  handles i := rel_imp (hp.handles i) fun _ _ hh => hh.append cs'
  told := hp.told

theorem PartModels.setHandle (hp : PartModels cs s q P) (i : ℕ) (hh : HandleModels cs h H) :
    PartModels cs (s.setHandle q i h) q (P.setHandle i H) where
  file := hp.file
  handles j := by
    rw [DiskState.handle_setHandle,LoneFile.setHandle]
    dsimp only
    rw [Function.update_apply]
    by_cases hj : j = i
    · rw [if_pos hj,if_pos rfl,if_pos hj]
      exact .some hh
    · rw [if_neg hj,if_neg hj]
      exact hp.handles j
  told := hp.told

theorem PartModels.tell (hp : PartModels cs s q P) (r : FileReply) :
    PartModels cs (s.tell q r) q (P.tell r) where
  file := hp.file
  handles := hp.handles
  told := by
    rw [DiskState.tell,LoneFile.tell]
    dsimp only
    rw [only_append,only_cons_self,only_nil,hp.told]

theorem isSome_setHandle (hused : ∀ j, (s.handles j).isSome = true → s.used j = true)
    (hi : s.used i = true) (q : ℕ) (h : Handle) (j : ℕ)
    (hj : ((s.setHandle q i h).handles j).isSome = true) : s.used j = true := by
  rw [DiskState.setHandle] at hj
  dsimp only at hj
  rw [Function.update_apply] at hj
  split_ifs at hj with hji
  · rw [hji]
    exact hi
  · exact hused j hj

/-! ### The calls -/

/-- The files, wherever their sectors are. -/
def Shared (s : DiskState) (p : ℕ → LoneFile) : Prop := ∃ c, DiskModels c s p

/-- A handle among the others and the same one alone. -/
theorem PartModels.handle (hp : PartModels cs s q P) (i : ℕ) :
    s.handle q i = none ∧ P.handles i = none ∨
      ∃ o h H d D, s.handle q i = some ⟨o,h⟩ ∧ P.handles i = some ⟨o,H⟩ ∧ s.idata q = some d ∧
        P.idata = some D ∧ HndlModels cs h H ∧ Models s.store d cs D :=
  StateModels.handle (s:=⟨s.store,s.idata q,s.handle q,0⟩) (S:=⟨P.idata,P.handles,0⟩)
    ⟨hp.file,hp.handles,rfl⟩ i

theorem DiskModels.used_of_handle (hs : DiskModels c s p) (hi : s.handle q i = some h) :
    s.used i = true := by
  rw [DiskState.handle_eq_some] at hi
  exact hs.used i (by rw [hi]; rfl)

theorem DiskModels.write (hs : DiskModels c s p) {buf : List Byte}
    (hfits : (p q).Fits (.write i buf)) :
    Alike (fun s' P => Shared s' (Function.update p q P)) (diskNext s (q,.write i buf))
      (loneNext (p q) (.write i buf)) := by
  rw [diskNext,loneNext]
  rcases (hs.part q).handle i with ⟨hi,hI⟩ | ⟨o,h,H,d,D,hi,hI,hd,hD,hh,hm⟩
  · rw [hi,hI]
    rfl
  · simp only [hi,hI,hd,hD]
    have hgrown := fsIfregWrite_grown ⟨o,h⟩ buf hm.file.sectors
      (List.mem_of_getElem? hh.csector) (List.mem_of_getElem? hh.ptr)
    refine ((hm.write hh (hfits _ hI)).and_spec hgrown).bind ?_
    rintro ⟨r,m,idata,h'⟩ ⟨R,Idata,H'⟩ ⟨⟨rfl,hflag,d',D',c',rfl,rfl,hm',hh'⟩,d2,hd2,hg⟩
    cases hd2
    have hpart := ((hs.part q).setFile hm'.fileModels).setHandle (h:=⟨o,h'⟩) (H:=H') i
      ⟨hflag.symm,hh'⟩
    apply hs.step (Function.update_self q _ s.idata) hg (hpart.tell (.wrote r))
    · intro q' hq
      exact ((Untouched.setFile s hq m _).setHandle hq (DiskState.handle_of_ne hi hq) _).tell hq _
    · exact isSome_setHandle (s:=s.setFile q m _) hs.used (hs.used_of_handle hi) q _

theorem DiskModels.read (hs : DiskModels c s p) {len : ℕ} {beyond : ℕ → ℤ → Byte}
    (hfits : (p q).Fits (.read i len beyond)) :
    Alike (fun s' P => Shared s' (Function.update p q P)) (diskNext s (q,.read i len beyond))
      (loneNext (p q) (.read i len beyond)) := by
  rw [diskNext,loneNext]
  rcases (hs.part q).handle i with ⟨hi,hI⟩ | ⟨o,h,H,d,D,hi,hI,hd,hD,hh,hm⟩
  · rw [hi,hI]
    rfl
  · simp only [hi,hI,hd,hD]
    refine (hm.read hh (hfits _ hI) beyond).bind ?_
    rintro ⟨r,h'⟩ ⟨R,H'⟩ ⟨rfl,hflag,hh'⟩
    have hpart := ((hs.part q).setHandle (h:=⟨o,h'⟩) (H:=H') i ⟨hflag.symm,hh'⟩).tell (.got r)
    rw [← List.append_nil (c q)] at hpart
    apply hs.step (t:=(s.setHandle q i _).tell q _) (q:=q) hd (Grown.refl hm.file.sectors) hpart
    · intro q' hq
      have hsame : Untouched q' s s := ⟨rfl,fun _ => rfl,rfl⟩
      exact (hsame.setHandle hq (DiskState.handle_of_ne hi hq) _).tell hq _
    · exact isSome_setHandle hs.used (hs.used_of_handle hi) q _

theorem DiskModels.openFile (hs : DiskModels c s p) (hfree : s.used i = false) (flags : OFlag)
    (accessflg : ℕ) :
    Alike (fun s' P => Shared s' (Function.update p q P)) (diskNext s (q,.openFile i flags accessflg))
      (loneNext (p q) (.openFile i flags accessflg)) := by
  have hfile := (hs.part q).file
  have hin : ∀ d, s.idata q = some d → FileIn s.store d (c q) := by
    intro d hd
    have hrel := hfile.file
    rw [hd] at hrel
    generalize (p q).idata = Idata at hrel
    cases hrel with
    | some hm => exact hm.file
  have hgrown := fsIfregOpen_grown hfile.none hin flags accessflg
  rw [diskNext,loneNext]
  refine ((hfile.open flags accessflg).and_spec hgrown).bind ?_
  rintro ⟨r,m,idata⟩ ⟨R,Idata⟩ ⟨⟨c',hf,hr⟩,d,hd,hg⟩
  cases hd
  have hset := (hs.part q).setFile hf
  have hpart : PartModels (c q ++ c') ((s.setFile q m (some d)).setUsed i true) q
      { p q with idata := Idata } := ⟨hset.file,hset.handles,hset.told⟩
  have hothers : ∀ q' ≠ q, Untouched q' s ((s.setFile q m (some d)).setUsed i true) := by
    intro q' hq
    have hsame := Untouched.setFile s hq m (some d)
    exact ⟨hsame.idata,hsame.handle,hsame.told⟩
  have hi : ((s.setFile q m (some d)).setUsed i true).used i = true := by
    rw [DiskState.setUsed]
    exact Function.update_self ..
  have hused : ∀ j, (((s.setFile q m (some d)).setUsed i true).handles j).isSome = true →
      ((s.setFile q m (some d)).setUsed i true).used j = true := by
    intro j hj
    have hold := hs.used j hj
    have hne : j ≠ i := by
      rintro rfl
      cases hold.symm.trans hfree
    exact (Function.update_of_ne hne true s.used).trans hold
  cases r with
  | ok h =>
    cases R with
    | ok H =>
      apply hs.step (Function.update_self q _ s.idata) hg ((hpart.setHandle i hr).tell _)
      · intro q' hq
        have hnone : s.handle q' i = none := by
          rw [Option.eq_none_iff_forall_ne_some]
          intro h' hh'
          cases (hs.used_of_handle hh').symm.trans hfree
        exact ((hothers q' hq).setHandle hq hnone _).tell hq _
      · exact isSome_setHandle hused hi q _
    | error e => cases hr
  | error e =>
    cases R with
    | ok H => cases hr
    | error e' =>
      obtain rfl : e = e' := hr
      apply hs.step (Function.update_self q _ s.idata) hg (hpart.tell _)
      · intro q' hq
        exact (hothers q' hq).tell hq _
      · exact hused

theorem DiskState.handle_freeHandle (s : DiskState) (i q j : ℕ) :
    (s.freeHandle i).handle q j = if j = i then none else s.handle q j := by
  rw [handle,freeHandle]
  dsimp only
  rw [Function.update_apply]
  split_ifs
  · rfl
  · rfl

theorem DiskModels.close (hs : DiskModels c s p) (hi : s.handle q i = some h) :
    Alike (fun s' P => Shared s' (Function.update p q P)) (diskNext s (q,.close i))
      (loneNext (p q) (.close i)) := by
  have hold := hs.part q
  rcases hold.handle i with ⟨hnone,-⟩ | ⟨o,h,H,d,D,-,-,hd,-,-,hm⟩
  · cases hi.symm.trans hnone
  · have hpart : PartModels (c q ++ []) ((s.freeHandle i).setUsed i false) q
        ((p q).freeHandle i) := by
      rw [List.append_nil]
      refine ⟨hold.file,fun j => ?_,hold.told⟩
      have hj : ((s.freeHandle i).setUsed i false).handle q j = _ := s.handle_freeHandle i q j
      rw [hj,LoneFile.freeHandle]
      dsimp only
      rw [Function.update_apply]
      split_ifs
      · exact .none
      · exact hold.handles j
    apply hs.step (t:=((s.freeHandle i).setUsed i false).tell q .closed) (q:=q) hd
      (Grown.refl hm.file.sectors) (hpart.tell _)
    · intro q' hq
      have hsame : Untouched q' s ((s.freeHandle i).setUsed i false) := by
        refine ⟨rfl,fun j => ?_,rfl⟩
        refine (s.handle_freeHandle i q' j).trans ?_
        split_ifs with hji
        · rw [hji]
          exact (DiskState.handle_of_ne hi hq).symm
        · rfl
      exact hsame.tell hq _
    · intro j hj
      change (Function.update s.handles i none j).isSome = true at hj
      by_cases hji : j = i
      · rw [hji,Function.update_self] at hj
        cases hj
      · rw [Function.update_of_ne hji] at hj
        exact (Function.update_of_ne hji false s.used).trans (hs.used j hj)

/-- A call that the system offers is offered by its file alone. -/
theorem Shared.enabled (hs : Shared s p) {k : DiskCall}
    (hen : diskEnabled s (q,k) = true) : loneEnabled (p q) k = true := by
  obtain ⟨c,hs⟩ := hs
  have hsome := fun i => rel_isSome ((hs.part q).handles i)
  cases k with
  | openFile i flags accessflg =>
    have hnone : s.handle q i = none := by
      rw [Option.eq_none_iff_forall_ne_some]
      intro h hh
      rw [diskEnabled,hs.used_of_handle hh] at hen
      cases hen
    have hi := hsome i
    rw [hnone] at hi
    rw [loneEnabled,Option.isNone_iff_eq_none,← Option.not_isSome_iff_eq_none,← hi]
    exact Bool.false_ne_true
  | write i buf =>
    rw [loneEnabled,← hsome]
    exact hen
  | read i len beyond =>
    rw [loneEnabled,← hsome]
    exact hen
  | close i =>
    rw [loneEnabled,← hsome]
    exact hen

/-- A call does to its file what it does to it alone. -/
theorem Shared.next (hs : Shared s p) {k : DiskCall}
    (hen : diskEnabled s (q,k) = true) (hfits : (p q).Fits k) :
    Alike (fun s' P => Shared s' (Function.update p q P)) (diskNext s (q,k)) (loneNext (p q) k) := by
  obtain ⟨c,hs⟩ := hs
  cases k with
  | openFile i flags accessflg =>
    exact hs.openFile (by simpa [diskEnabled] using hen) flags accessflg
  | write i buf => exact hs.write hfits
  | read i len beyond => exact hs.read hfits
  | close i =>
    obtain ⟨h,hh⟩ := Option.isSome_iff_exists.mp hen
    exact hs.close hh

theorem shared_init (mem : ℕ → SectorT) : Shared (diskInit mem) fun _ => loneInit := by
  refine ⟨fun _ => [],fun q => ⟨⟨.none,fun _ => rfl⟩,fun i => .none,rfl⟩,fun q q' _ a ha => ?_,?_⟩
  · cases ha
  · intro i hi
    cases hi

end

/-- In whatever order the calls on the files come, each file has answered as it does alone when only
its own calls are made, and so it does to the next call, or stops with the same fault. -/
theorem diskRun_apart (mem : ℕ → SectorT) {ls : List (ℕ × DiskCall)} {s : DiskState}
    (hfits : ∀ q, loneMachine.Along LoneFile.Fits loneInit (only q ls))
    (hrun : diskMachine.run (diskInit mem) ls = some s) :
    ∃ p : ℕ → LoneFile, ∀ q, loneMachine.run loneInit (only q ls) = some (p q) ∧
      only q s.told = (p q).told ∧ ∀ k, diskEnabled s (q,k) = true → (p q).Fits k →
        loneEnabled (p q) k = true ∧ Alike (fun s' P => only q s'.told = P.told ∧
          ∀ q' ≠ q, only q' s'.told = (p q').told) (diskNext s (q,k)) (loneNext (p q) k) := by
  obtain ⟨p,hs,hruns⟩ := Machine.run_parts (M:=diskMachine) (N:=loneMachine) (R:=Shared)
    (fun _ _ _ _ hs => hs.enabled) (fun _ _ _ _ hs => hs.next) (shared_init mem) hfits hrun
  refine ⟨p,fun q => ⟨hruns q,?_,fun k hen hk => ⟨hs.enabled hen,(hs.next hen hk).imp ?_⟩⟩⟩
  · obtain ⟨c,hs⟩ := hs
    exact (hs.part q).told
  · rintro s' P ⟨c,hs'⟩
    refine ⟨?_,fun q' hq => ?_⟩
    · have hq := (hs'.part q).told
      rwa [Function.update_self] at hq
    · have hq' := (hs'.part q').told
      rwa [Function.update_of_ne hq] at hq'

/-- Two files are written in turns, across the ends of their sectors, and the first is read. -/
def turns : List (ℕ × DiskCall) :=
  [(0,.openFile 8 appending 0),(1,.openFile 9 appending 0),(0,.write 8 (List.replicate 40 1)),
    (1,.write 9 (List.replicate 50 2)),(1,.close 9),(0,.openFile 9 appending 0),
    (0,.write 8 (List.replicate 60 3)),(0,.read 9 50 fun _ _ => 0)]

theorem turns_only (q : ℕ) : only q turns = if q = 0 then only 0 turns
    else if q = 1 then only 1 turns else [] := by
  by_cases h0 : q = 0
  · rw [if_pos h0,h0]
  · by_cases h1 : q = 1
    · rw [if_neg h0,if_pos h1,h1]
    · simp [turns,only_cons,Ne.symm h0,Ne.symm h1,h0,h1]

theorem diskRun_apart_turns : ∃ s P, diskMachine.run (diskInit fun _ => .cleared) turns = some s ∧
    loneMachine.run loneInit (only 0 turns) = some P ∧ only 0 s.told = P.told ∧
      P.told.length = 5 := by
  obtain ⟨s,hrun,-⟩ := diskMachine.exists_run (fun s => s.store.fresh = 5)
    (diskInit fun _ => .cleared) turns (by decide +kernel)
  obtain ⟨P,hlone,hlen⟩ := loneMachine.exists_run (fun P => P.told.length = 5) loneInit
    (only 0 turns) (by decide +kernel)
  have hfits : ∀ q, loneMachine.Along LoneFile.Fits loneInit (only q turns) := by
    intro q
    rw [turns_only]
    split_ifs
    · decide +kernel
    · decide +kernel
    · trivial
  obtain ⟨p,hp⟩ := diskRun_apart (fun _ => .cleared) hfits hrun
  obtain ⟨hlone',htold,-⟩ := hp 0
  rw [hlone] at hlone'
  rw [← Option.some.inj hlone'] at htold
  exact ⟨s,P,hrun,hlone,htold,hlen⟩

end SectorChain

end Tinker

import Tinker.InodeLookup

/-! Opening files: `fs_open` looks the path up or makes an inode, and the driver of a regular file
allocates its data. Each of them tests the flags on its own. -/
namespace Tinker

open Linked Outcome

namespace InodeTree

/-- `inode->idata`. -/
def setIdata (t : InodeTree) (q : ℕ) (d : Option IfregData) : InodeTree :=
  { t with node := fun p => if p = q then { t.node p with idata := d } else t.node p }

section

variable (lim : Limits) (beyond : ℕ → List Char)
  (devOpen : ℕ → OFlag → Except FsFault (Except FsErr FHandle))

/-- `inode->iohandle->open`, with the access flags or what stands in their place. The functions of
the other file types are assertions that fail, those of a driver are its own. -/
def openNode (t : InodeTree) (q : ℕ) (oflag : OFlag) (accessflgs : ℕ) :
    Except FsFault (Except FsErr (ℕ × FHandle) × InodeTree) :=
  match (t.node q).iohandle with
  | some .ifreg => do
    let (r,idata) ← fsIfregOpen (t.node q).idata oflag accessflgs
    return (r.map fun h => (q,h),t.setIdata q idata)
  | some (.dev dev) => do
    let r ← devOpen dev oflag
    return (r.map fun h => (q,h),t)
  | _ => throw .assert

/-- `fs_open`: the inode and the handle. -/
def fsOpen (t : InodeTree) (filename : List Char) (oflag : OFlag) :
    Except FsFault (Except FsErr (ℕ × FHandle) × InodeTree) := do
  assertDbgFlags oflag
  let inode ← t.isearch lim beyond 0 filename
  match inode with
  | none =>
    if oflag.creat then
      -- `filename[strnlen(filename, PATH_MAX)]` is the terminator, not the last character
      let last := (filename ++ [nul])[min filename.length lim.pathMax]?
      let mode := if last = some '/' then isaIfdir else isaIfreg
      let (rc,t) ← t.imknod lim beyond 0 filename mode 0
      match rc with
      | .error e => return (.error e,t)
      | .ok _ =>
        let some inode ← t.isearch lim beyond 0 filename | throw .null
        t.openNode devOpen inode oflag 0
    else return (.error .eNoent,t)
  | some inode =>
    if !t.named lim beyond inode (igetname filename) then
      check ((t.node inode).mount = true) .assert
      -- the inode stands where the driver looks for the access flags of a new file
      t.openNode devOpen inode oflag (inode+1)
    else if oflag.creat || oflag.excl then return (.error .eExist,t)
    else t.openNode devOpen inode oflag 0

end

end InodeTree

structure OpenCall where
  path : AbsPath
  oflag : OFlag
  beyond : ℕ → List Char

inductive FsLabel
  | mknod (c : MknodCall) | fopen (c : OpenCall)
  | write (i : ℕ) (buf : List Byte) | read (i len : ℕ)

/-- The tree, what was created, and the handles that were given out, each with its inode. -/
structure FsState extends MknodState where
  handles : List (ℕ × FHandle)

namespace FsState

def init : FsState := ⟨.init,[]⟩

/-- The state behind a call of `fs_open`; a new inode is one that was created under this path. -/
def opened (s : FsState) (c : OpenCall) (r : Except FsErr (ℕ × FHandle) × InodeTree) : FsState where
  tree := r.2
  created := if s.tree.size < r.2.size then s.created ++ [(tokens c.path.chars,s.tree.size)]
    else s.created
  handles := s.handles ++ r.1.toOption.toList

/-- The handle with its inode, where that is a regular file. -/
def regular (s : FsState) (i : ℕ) : Option (ℕ × FHandle) :=
  (s.handles[i]?).filter fun h => (s.tree.node h.1).iohandle = some .ifreg

end FsState

/-- Any calls of `mknod`, `fs_open`, `fs_write` and `fs_read`, the last two on regular files. -/
def fsMachine (lim : Limits) (devOpen : ℕ → OFlag → Except FsFault (Except FsErr FHandle)) :
    Machine FsState FsLabel FsFault where
  enabled := fun s l => match l with
    | .mknod _ | .fopen _ => true
    | .write i _ | .read i _ => (s.regular i).isSome
  next := fun s l => match l with
    | .mknod c => (s.tree.imknod lim c.beyond 0 c.path.chars c.mode c.dev).map fun r =>
        { s with toMknodState := s.after c r }
    | .fopen c => (s.tree.fsOpen lim c.beyond devOpen c.path.chars c.oflag).map (s.opened c)
    | .write i buf => match s.regular i with
      | none => .ok s
      | some (q,h) => (fsIfregWrite (s.tree.node q).idata h buf).map fun r =>
          { s with tree := s.tree.setIdata q r.2.1, handles := s.handles.set i (q,r.2.2) }
    | .read i len => match s.regular i with
      | none => .ok s
      | some (q,h) => (fsIfregRead (s.tree.node q).idata h len).map fun r =>
          { s with handles := s.handles.set i (q,r.2) }

/-- A regular file, as `fs_ifreg.c` serves it. -/
def IsRegular (n : Inode) : Prop := n.iohandle = some .ifreg

/-- The handle stands at position 0. -/
def FHandle.AtStart (h : FHandle) : Prop := h.data = ⟨(0,0),0,0,0⟩

/-- What `fs_open` is to do: an existing regular file is refused just where both flags are set, and
opened otherwise; a new path that can be made is made, one inode, and opened. -/
structure OpenRight (lim : Limits) (devOpen : ℕ → OFlag → Except FsFault (Except FsErr FHandle))
    (s : MknodState) (c : OpenCall) : Prop where
  refused : ∀ q, s.lookup (tokens c.path.chars) = some q → IsRegular (s.tree.node q) →
    ((∃ t, s.tree.fsOpen lim c.beyond devOpen c.path.chars c.oflag = .ok (.error .eExist,t)) ↔
      c.oflag.creat = true ∧ c.oflag.excl = true)
  opens : ∀ q, s.lookup (tokens c.path.chars) = some q → IsRegular (s.tree.node q) →
    ¬(c.oflag.creat = true ∧ c.oflag.excl = true) →
    ∃ h t, s.tree.fsOpen lim c.beyond devOpen c.path.chars c.oflag = .ok (.ok (q,h),t) ∧
      h.AtStart ∧ t.size = s.tree.size
  creates : s.lookup (tokens c.path.chars) = none → c.oflag.creat = true →
    s.expected lim ⟨c.path,isaIfreg,0,c.beyond⟩ = .ok () →
    ∃ h t, s.tree.fsOpen lim c.beyond devOpen c.path.chars c.oflag = .ok (.ok (s.tree.size,h),t) ∧
      h.AtStart ∧ t.size = s.tree.size+1

/-- The path can be searched and made, and the flags are those `tk_dbg_flags` knows. -/
structure OpenFits (lim : Limits) (s : MknodState) (c : OpenCall) : Prop where
  both : ¬(c.oflag.rdwr = true ∧ c.oflag.wronly = true)
  unknown : c.oflag.unknown = false
  short : c.path.chars.length < lim.pathMax
  terminated : s.Terminated c.beyond (tokens c.path.chars)
  findable : s.Findable (tokens c.path.chars)
  parent : c.oflag.creat = true → s.CallFits lim ⟨c.path,isaIfreg,0,c.beyond⟩
  fresh : (c.beyond s.tree.size).takeWhile (· ≠ nul) = []

/-- Both flags or none of them, and without them the file has its data; no `/` behind its name. -/
def OpenAgrees (s : MknodState) (c : OpenCall) : Prop :=
  ∀ q, s.lookup (tokens c.path.chars) = some q → IsRegular (s.tree.node q) →
    igetname c.path.chars ≠ [] ∧ c.oflag.creat = c.oflag.excl ∧
      (c.oflag.creat = false → (s.tree.node q).idata.isSome = true)

/-- What the calls of a run are to meet. -/
def FsFits (lim : Limits) (s : FsState) : FsLabel → Prop
  | .mknod c => s.CallFits lim c
  | .fopen c => OpenFits lim s.toMknodState c
  | .write .. | .read .. => True

namespace InodeTree

variable {t : InodeTree} {children : ℕ → List ℕ} {q : ℕ} {d : Option IfregData}

theorem setIdata_node (t : InodeTree) (q : ℕ) (d : Option IfregData) (p : ℕ) :
    (t.setIdata q d).node p =
      { t.node p with idata := if p = q then d else (t.node p).idata } := by
  simp only [setIdata]
  split <;> rfl

theorem setIdata_next (t : InodeTree) (q : ℕ) (d : Option IfregData) :
    (t.setIdata q d).next = t.next := by
  funext p
  rw [next,setIdata_node]
  rfl

@[simp] theorem setIdata_size (t : InodeTree) (q : ℕ) (d : Option IfregData) :
    (t.setIdata q d).size = t.size := rfl

/-- The data of a file is no part of the tree. -/
theorem Wf.setIdata (h : Wf t children) (q : ℕ) (d : Option IfregData) :
    Wf (t.setIdata q d) children where
  pos := h.pos
  root_belong := by simpa only [setIdata_node,setIdata_size] using h.root_belong
  root_next := by simpa only [setIdata_node,setIdata_size] using h.root_next
  down := by simpa only [setIdata_node,setIdata_size] using h.down
  chain := by simpa only [setIdata_next,setIdata_size] using h.chain
  sorted := h.sorted
  mem := by simpa only [setIdata_node,setIdata_size] using h.mem
  belong_lt := by simpa only [setIdata_node,setIdata_size] using h.belong_lt
  ids := by simpa only [setIdata_node,setIdata_size] using h.ids
  icntr := h.icntr
  ilid := h.ilid
  mount := by simpa only [setIdata_node,setIdata_size] using h.mount

end InodeTree

namespace MknodState.Tidy

variable {lim : Limits} {s : MknodState} {children : ℕ → List ℕ} {path : ℕ → List (List Char)}

theorem setIdata (h : Tidy lim s children path) (q : ℕ) (d : Option IfregData) :
    Tidy lim ⟨s.tree.setIdata q d,s.created⟩ children path where
  toWf := h.toWf.setIdata q d
  root_name := by simpa only [InodeTree.setIdata_node,InodeTree.setIdata_size] using h.root_name
  path_root := h.path_root
  path_eq := by simpa only [InodeTree.setIdata_node,InodeTree.setIdata_size] using h.path_eq
  name := by simpa only [InodeTree.setIdata_node,InodeTree.setIdata_size] using h.name
  lookup_iff := h.lookup_iff

section

variable {beyond : ℕ → List Char} {p : AbsPath} {q : ℕ}

/-- The name of an inode is what follows the last slash, where something does. -/
theorem named_igetname (h : Tidy lim s children path) (hterm : s.Terminated beyond (tokens p.chars))
    (hq : s.lookup (tokens p.chars) = some q) (hpos : 0 < q) :
    s.tree.named lim beyond q (igetname p.chars) = true ↔ igetname p.chars ≠ [] := by
  obtain ⟨hlt,hpath⟩ := (h.lookup_iff _ q).mp hq
  obtain ⟨hname,hnul,-⟩ := h.name q hlt hpos
  by_cases hempty : igetname p.chars = []
  · refine iff_of_false (fun hnamed => ?_) (not_not.mpr hempty)
    rw [InodeTree.named,decide_eq_true_eq,hempty,List.take_nil,List.take_eq_nil_iff] at hnamed
    obtain hzero | hnil := hnamed
    · exact lim.nameMax_pos.ne' hzero
    · cases hchars : (s.tree.node q).name with
      | nil => exact hname hchars
      | cons c l =>
        have hc : c ≠ nul := by
          rintro rfl
          exact hnul (hchars ▸ List.mem_cons_self)
        rw [Inode.cname,hchars,List.cons_append,List.takeWhile_cons_of_pos (by simpa using hc)] at hnil
        cases hnil
  · have hsplit := tokens_igetpath p
    rw [if_neg hempty] at hsplit
    rw [h.path_eq q hlt hpos,hsplit] at hpath
    obtain ⟨hparent,hlast⟩ := List.append_inj' hpath rfl
    have hb := (h.belong_lt q hpos hlt).trans hlt
    have hmet : s.Met (tokens p.chars) q (igetname p.chars) :=
      ⟨_,_,by rw [hsplit,hparent],h.lookup_path hb,Or.inl rfl⟩
    rw [h.named_iff hterm hempty hlt fun _ => hmet]
    exact iff_of_true ⟨hpos,List.singleton_inj.mp hlast⟩ hempty

/-- The root has no name, and no path to it ends with one. -/
theorem named_root (h : Tidy lim s children path) (hq : s.lookup (tokens p.chars) = some 0) :
    igetname p.chars = [] ∧ s.tree.named lim beyond 0 (igetname p.chars) = true := by
  have hpath := ((h.lookup_iff _ 0).mp hq).2
  have hsplit := tokens_igetpath p
  rw [← hpath,h.path_root] at hsplit
  have hempty : igetname p.chars = [] := by
    by_contra hne
    rw [if_neg hne] at hsplit
    exact List.append_ne_nil_of_right_ne_nil _ (List.cons_ne_nil _ _) hsplit.symm
  have hname : (s.tree.node 0).cname (beyond 0) = [] := by
    rw [Inode.cname,h.root_name]
    rfl
  rw [InodeTree.named,hname,hempty]
  exact ⟨rfl,decide_eq_true rfl⟩

variable (devOpen : ℕ → OFlag → Except FsFault (Except FsErr FHandle)) {c : OpenCall}
  {t' : InodeTree} {b : ℕ}

/-- Opening what is there. -/
theorem fsOpen_some (h : Tidy lim s children path) (hc : OpenFits lim s c)
    (hq : s.lookup (tokens c.path.chars) = some q) :
    s.tree.fsOpen lim c.beyond devOpen c.path.chars c.oflag =
      if 0 < q ∧ igetname c.path.chars = [] then .error .assert
      else if c.oflag.creat || c.oflag.excl then .ok (.error .eExist,s.tree)
      else s.tree.openNode devOpen q c.oflag 0 := by
  have hfind := h.isearch_eq hc.short hc.terminated (proper_tokens c.path) hc.findable
  rw [InodeTree.fsOpen,assertDbgFlags_eq hc.both hc.unknown]
  simp only [hfind,hq,bind,Except.bind]
  obtain rfl | hpos := Nat.eq_zero_or_pos q
  · have hnot : ¬(0 < 0 ∧ igetname c.path.chars = []) := fun hboth => Nat.lt_irrefl 0 hboth.1
    rw [if_neg hnot,(h.named_root hq).2]
    rfl
  · have hnamed := h.named_igetname hc.terminated hq hpos
    have hmount := h.mount q ((h.lookup_iff _ q).mp hq).1
    by_cases hempty : igetname c.path.chars = []
    · have hno : s.tree.named lim c.beyond q (igetname c.path.chars) = false :=
        Bool.eq_false_iff.mpr fun hyes => hnamed.mp hyes hempty
      have hboth : 0 < q ∧ igetname c.path.chars = [] := ⟨hpos,hempty⟩
      rw [if_pos hboth,hno,hmount]
      rfl
    · have hnot : ¬(0 < q ∧ igetname c.path.chars = []) := fun hboth => hempty hboth.2
      rw [if_neg hnot,hnamed.mpr hempty]
      rfl

/-- A path that was just made is searched as before, and found. -/
theorem isearch_made (h : Tidy lim s children path) (hc : OpenFits lim s c)
    (hm : Made lim s ⟨c.path,isaIfreg,0,c.beyond⟩ children t' b) :
    t'.isearch lim c.beyond 0 c.path.chars = .ok (some s.tree.size) := by
  have hu := hm.hung
  have hnew := h.made hm
  have hlook : MknodState.lookup ⟨t',s.created ++ [(tokens c.path.chars,s.tree.size)]⟩
      (tokens c.path.chars) = some s.tree.size := by
    rw [lookup_created,hm.fresh,if_pos rfl]
    rfl
  have hterm : MknodState.Terminated ⟨t',s.created ++ [(tokens c.path.chars,s.tree.size)]⟩ c.beyond
      (tokens c.path.chars) := by
    rintro q hq hpos ⟨nd,⟨pre,r,hpre,hr,hwhere⟩,hname⟩
    simp only [hu.size] at hq
    obtain hq | rfl := Nat.lt_succ_iff_lt_or_eq.mp hq
    · -- what is in front of a component is not the new path
      have hne : pre ≠ tokens c.path.chars := by
        rintro rfl
        have := hpre.length_le
        rw [List.length_append,List.length_singleton] at this
        omega
      rw [lookup_created,if_neg hne,Option.or_none] at hr
      have hrlt := ((h.lookup_iff _ r).mp hr).1
      simp only [hu.belong_eq hrlt,hu.old q hq,hu.size] at hwhere hname
      refine hc.terminated q hq hpos ⟨nd,⟨pre,r,hpre,hr,hwhere.imp_right ?_⟩,hname⟩
      rintro ⟨hrpos,hle,hbelong,hno⟩
      refine ⟨hrpos,hle,hbelong,fun k hk hkpos => ?_⟩
      rw [← hu.belong_eq hk]
      exact hno k (Nat.lt_succ_of_lt hk) hkpos
    · exact hc.fresh
  have hfind := hnew.isearch_eq hc.short hterm (proper_tokens c.path) (Or.inl (by rw [hlook]; rfl))
  rw [hfind,hlook]

/-- What is not there is not opened without `O_CREAT`. -/
theorem fsOpen_none (h : Tidy lim s children path) (hc : OpenFits lim s c)
    (hnone : s.lookup (tokens c.path.chars) = none) (hcreat : c.oflag.creat = false) :
    s.tree.fsOpen lim c.beyond devOpen c.path.chars c.oflag = .ok (.error .eNoent,s.tree) := by
  have hfind := h.isearch_eq hc.short hc.terminated (proper_tokens c.path) hc.findable
  rw [InodeTree.fsOpen,assertDbgFlags_eq hc.both hc.unknown]
  simp only [hfind,hnone,hcreat,Bool.false_eq_true,if_false]
  rfl

/-- Opening what is not there makes a regular file, or fails as `imknod` does. -/
theorem fsOpen_creat (h : Tidy lim s children path) (hc : OpenFits lim s c)
    (hnone : s.lookup (tokens c.path.chars) = none) (hcreat : c.oflag.creat = true) :
    (∃ e, s.expected lim ⟨c.path,isaIfreg,0,c.beyond⟩ = .error e ∧
      s.tree.fsOpen lim c.beyond devOpen c.path.chars c.oflag = .ok (.error e,s.tree)) ∨
    s.expected lim ⟨c.path,isaIfreg,0,c.beyond⟩ = .ok () ∧
      ∃ t' b, Made lim s ⟨c.path,isaIfreg,0,c.beyond⟩ children t' b ∧
        s.tree.fsOpen lim c.beyond devOpen c.path.chars c.oflag =
          t'.openNode devOpen s.tree.size c.oflag 0 := by
  have hfind := h.isearch_eq hc.short hc.terminated (proper_tokens c.path) hc.findable
  have hlast : (c.path.chars ++ [nul])[min c.path.chars.length lim.pathMax]? = some nul := by
    rw [Nat.min_eq_left (Nat.le_of_lt hc.short)]
    exact List.getElem?_concat_length
  have hslash : ¬some nul = some '/' := by decide
  obtain ⟨t',hrun,hout⟩ := h.imknod_eq (hc.parent hcreat)
  rw [InodeTree.fsOpen,assertDbgFlags_eq hc.both hc.unknown]
  simp only [hfind,hnone,hcreat,if_true,hlast,if_neg hslash]
  rw [hrun]
  obtain ⟨hfail,rfl⟩ | ⟨hok,b,hm⟩ := hout
  · cases hexp : s.expected lim ⟨c.path,isaIfreg,0,c.beyond⟩ with
    | ok _ => exact absurd hexp hfail
    | error e => exact Or.inl ⟨e,rfl,rfl⟩
  · have hagain := h.isearch_made hc hm
    refine Or.inr ⟨hok,t',b,hm,?_⟩
    rw [hok]
    simp only [bind,Except.bind,hagain]

end

end MknodState.Tidy

/-- What all calls keep; no driver serves the root. -/
def Ordered (lim : Limits) (s : MknodState) : Prop :=
  (∃ children path, MknodState.Tidy lim s children path) ∧ (s.tree.node 0).iohandle = none

namespace Ordered

variable {lim : Limits} {s : MknodState} {q : ℕ}
  {devOpen : ℕ → OFlag → Except FsFault (Except FsErr FHandle)}

theorem ordered_init (lim : Limits) : Ordered lim .init :=
  ⟨⟨_,_,MknodState.Tidy.tidy_init lim⟩,rfl⟩

theorem setIdata (h : Ordered lim s) (q : ℕ) (d : Option IfregData) :
    Ordered lim ⟨s.tree.setIdata q d,s.created⟩ := by
  obtain ⟨⟨children,path,htidy⟩,hroot⟩ := h
  refine ⟨⟨children,path,htidy.setIdata q d⟩,?_⟩
  rw [InodeTree.setIdata_node]
  exact hroot

theorem made {children : ℕ → List ℕ} {path : ℕ → List (List Char)} {c : MknodCall} {t' : InodeTree}
    {b : ℕ} (h : MknodState.Tidy lim s children path) (hroot : (s.tree.node 0).iohandle = none)
    (hm : MknodState.Tidy.Made lim s c children t' b) :
    Ordered lim ⟨t',s.created ++ [(tokens c.path.chars,s.tree.size)]⟩ := by
  refine ⟨⟨_,_,h.made hm⟩,?_⟩
  rw [hm.hung.old 0 h.pos]
  exact hroot

/-- What a driver does on the way changes no more than the data of the file. -/
theorem openNode (h : Ordered lim s) (q : ℕ) (oflag : OFlag) (accessflgs : ℕ) :
    Spec (s.tree.openNode devOpen q oflag accessflgs)
      (fun r => r.2.size = s.tree.size ∧ Ordered lim ⟨r.2,s.created⟩) fun _ => True := by
  rw [InodeTree.openNode]
  split
  · rw [spec_bind]
    exact spec_of_forall fun r => ⟨rfl,h.setIdata q r.2⟩
  · rw [spec_bind]
    exact spec_of_forall fun _ => ⟨rfl,h⟩
  · trivial

/-- One call of `imknod`. -/
theorem mknod (h : Ordered lim s) {c : MknodCall} (hc : s.CallFits lim c) :
    Spec (s.tree.imknod lim c.beyond 0 c.path.chars c.mode c.dev)
      (fun r => Ordered lim (s.after c r)) fun _ => True := by
  obtain ⟨⟨children,path,htidy⟩,hroot⟩ := h
  obtain ⟨t',hrun,hout⟩ := htidy.imknod_eq hc
  rw [hrun,spec_ok]
  obtain ⟨hfail,rfl⟩ | ⟨hok,b,hm⟩ := hout
  · cases hexp : s.expected lim c with
    | error e => exact ⟨⟨children,path,htidy⟩,hroot⟩
    | ok _ => exact absurd hexp hfail
  · rw [hok]
    exact made htidy hroot hm

/-- One call of `fs_open`. -/
theorem fsOpen {s : FsState} (h : Ordered lim s.toMknodState) {c : OpenCall}
    (hc : OpenFits lim s.toMknodState c) :
    Spec (s.tree.fsOpen lim c.beyond devOpen c.path.chars c.oflag)
      (fun r => Ordered lim (s.opened c r).toMknodState) fun _ => True := by
  have hsame : ∀ r : Except FsErr (ℕ × FHandle) × InodeTree, r.2.size = s.tree.size ∧
      Ordered lim ⟨r.2,s.created⟩ → Ordered lim (s.opened c r).toMknodState := by
    rintro r ⟨hsize,hr⟩
    rw [FsState.opened]
    simp only [hsize,Nat.lt_irrefl,if_false]
    exact hr
  have hall := h
  obtain ⟨⟨children,path,htidy⟩,hroot⟩ := hall
  cases hlook : s.lookup (tokens c.path.chars) with
  | some q =>
    rw [htidy.fsOpen_some devOpen hc hlook]
    split
    · trivial
    split
    · exact hsame _ ⟨rfl,h⟩
    · exact (h.openNode q c.oflag 0).imp hsame
  | none =>
    cases hcreat : c.oflag.creat with
    | false =>
      rw [htidy.fsOpen_none devOpen hc hlook hcreat]
      exact hsame _ ⟨rfl,h⟩
    | true =>
      obtain ⟨e,-,hrun⟩ | ⟨-,t',b,hm,hrun⟩ := htidy.fsOpen_creat devOpen hc hlook hcreat
      · rw [hrun]
        exact hsame _ ⟨rfl,h⟩
      · rw [hrun]
        refine ((made htidy hroot hm).openNode _ _ _).imp fun r hr => ?_
        have hmore : s.tree.size < r.2.size := by
          rw [hr.1,hm.hung.size]
          exact Nat.lt_succ_self _
        rw [FsState.opened]
        simp only [hmore,if_true]
        exact hr.2

/-- One call of any kind. -/
theorem step {s s' : FsState} {l : FsLabel} (h : Ordered lim s.toMknodState) (hl : FsFits lim s l)
    (hs : (fsMachine lim devOpen).Step s l s') : Ordered lim s'.toMknodState := by
  have hnext := hs.2
  cases l with
  | mknod c =>
    obtain ⟨r,hrun,rfl⟩ := map_eq_ok.mp hnext
    exact (h.mknod hl).of_ok hrun
  | fopen c =>
    obtain ⟨r,hrun,rfl⟩ := map_eq_ok.mp hnext
    exact (h.fsOpen hl).of_ok hrun
  | write i buf =>
    simp only [fsMachine] at hnext
    split at hnext
    · cases hnext
      exact h
    · obtain ⟨r,-,rfl⟩ := map_eq_ok.mp hnext
      exact h.setIdata _ r.2.1
  | read i len =>
    simp only [fsMachine] at hnext
    split at hnext
    · cases hnext
      exact h
    · obtain ⟨r,-,rfl⟩ := map_eq_ok.mp hnext
      exact h

/-- Along a run. -/
theorem run {s : FsState} {ls : List FsLabel}
    (hl : (fsMachine lim devOpen).Along (FsFits lim) .init ls)
    (hr : (fsMachine lim devOpen).run .init ls = some s) : Ordered lim s.toMknodState :=
  (fsMachine lim devOpen).run_invariant (I := fun s => Ordered lim s.toMknodState)
    (fun _ _ _ h hl hs => h.step hl hs) (ordered_init lim) hl hr

variable (devOpen : ℕ → OFlag → Except FsFault (Except FsErr FHandle)) {c : OpenCall}

/-- Opening a regular file that is there. -/
theorem fsOpen_regular (h : Ordered lim s) (hc : OpenFits lim s c)
    (hq : s.lookup (tokens c.path.chars) = some q) (hreg : IsRegular (s.tree.node q)) :
    s.tree.fsOpen lim c.beyond devOpen c.path.chars c.oflag =
      if igetname c.path.chars = [] then .error .assert
      else if c.oflag.creat || c.oflag.excl then .ok (.error .eExist,s.tree)
      else match (s.tree.node q).idata with
        | none => .error .null
        | some d => .ok (.ok (q,⟨c.oflag,⟨(0,0),0,0,0⟩⟩),s.tree.setIdata q (some d)) := by
  obtain ⟨⟨children,path,htidy⟩,hroot⟩ := h
  have hpos : 0 < q := by
    refine Nat.pos_of_ne_zero ?_
    rintro rfl
    cases hroot.symm.trans hreg
  rw [htidy.fsOpen_some devOpen hc hq]
  simp only [hpos,true_and]
  split
  · rfl
  split
  · rfl
  · next hflags =>
    have hcreat : c.oflag.creat = false := by
      rw [Bool.or_eq_true,not_or] at hflags
      exact Bool.eq_false_iff.mpr hflags.1
    rw [InodeTree.openNode,show (s.tree.node q).iohandle = some .ifreg from hreg]
    simp only [fsIfregOpen,hcreat]
    cases (s.tree.node q).idata with
    | none => rfl
    | some d => rfl

/-- Opening a path that is not there and can be made. -/
theorem fsOpen_new (h : Ordered lim s) (hc : OpenFits lim s c)
    (hnone : s.lookup (tokens c.path.chars) = none) (hcreat : c.oflag.creat = true)
    (hexp : s.expected lim ⟨c.path,isaIfreg,0,c.beyond⟩ = .ok ()) :
    ∃ t, s.tree.fsOpen lim c.beyond devOpen c.path.chars c.oflag =
      .ok (.ok (s.tree.size,⟨c.oflag,⟨(0,0),0,0,0⟩⟩),t) ∧ t.size = s.tree.size+1 := by
  obtain ⟨⟨children,path,htidy⟩,-⟩ := h
  obtain ⟨e,he,-⟩ | ⟨-,t',b,hm,hrun⟩ := htidy.fsOpen_creat devOpen hc hnone hcreat
  · cases he.symm.trans hexp
  · rw [hrun,InodeTree.openNode]
    have hio : (t'.node s.tree.size).iohandle = some .ifreg := by
      rw [hm.hung.new]
      rfl
    have hidata : (t'.node s.tree.size).idata = none := by rw [hm.hung.new]
    rw [hio]
    simp only [hidata,fsIfregOpen,hcreat]
    exact ⟨_,rfl,hm.hung.size⟩

end Ordered

/-- Along every run whose calls fit, `fs_open` does what it is to do on exactly those calls where
both flags are set or none of them, and without them the file has its data. -/
theorem fsRun_opens_iff (lim : Limits)
    (devOpen : ℕ → OFlag → Except FsFault (Except FsErr FHandle)) {s : FsState} {ls : List FsLabel}
    (hl : (fsMachine lim devOpen).Along (FsFits lim) .init ls)
    (hr : (fsMachine lim devOpen).run .init ls = some s) (c : OpenCall)
    (hc : OpenFits lim s.toMknodState c) :
    OpenRight lim devOpen s.toMknodState c ↔ OpenAgrees s.toMknodState c := by
  have h := Ordered.run hl hr
  constructor
  · intro hright q hq hreg
    have hrefused := hright.refused q hq hreg
    have hopens := hright.opens q hq hreg
    rw [h.fsOpen_regular devOpen hc hq hreg] at hrefused hopens
    have hname : igetname c.path.chars ≠ [] := by
      intro hempty
      rw [if_pos hempty] at hrefused hopens
      by_cases hflags : c.oflag.creat = true ∧ c.oflag.excl = true
      · obtain ⟨t,ht⟩ := hrefused.mpr hflags
        cases ht
      · obtain ⟨hndl,t,ht,-⟩ := hopens hflags
        cases ht
    rw [if_neg hname] at hopens
    -- with one flag alone the file is refused, and it is not to be
    have heq : c.oflag.creat = c.oflag.excl := by
      by_contra hne
      have hone : (c.oflag.creat || c.oflag.excl) = true := by
        cases hcreat : c.oflag.creat with
        | true => rfl
        | false =>
          rw [hcreat] at hne
          exact Bool.eq_true_of_not_eq_false fun hexcl => hne hexcl.symm
      rw [if_pos hone] at hopens
      obtain ⟨hndl,t,ht,-⟩ := hopens fun hboth => hne (hboth.1.trans hboth.2.symm)
      cases ht
    refine ⟨hname,heq,fun hcreat => ?_⟩
    have hnone : ¬(c.oflag.creat || c.oflag.excl) = true := by
      rw [← heq,hcreat]
      exact Bool.false_ne_true
    rw [if_neg hnone] at hopens
    obtain ⟨hndl,t,ht,-⟩ := hopens fun hboth => Bool.false_ne_true (hcreat.symm.trans hboth.1)
    cases hdata : (s.tree.node q).idata with
    | some d => rfl
    | none =>
      rw [hdata] at ht
      cases ht
  · intro hagrees
    refine ⟨fun q hq hreg => ?_,fun q hq hreg hflags => ?_,fun hnone hcreat hexp => ?_⟩
    · obtain ⟨hname,heq,-⟩ := hagrees q hq hreg
      rw [h.fsOpen_regular devOpen hc hq hreg,if_neg hname,← heq,Bool.or_self,and_self]
      constructor
      · rintro ⟨t,ht⟩
        split at ht
        · assumption
        · split at ht <;> cases ht
      · intro hcreat
        exact ⟨_,if_pos hcreat⟩
    · obtain ⟨hname,heq,hdata⟩ := hagrees q hq hreg
      rw [← heq,and_self] at hflags
      obtain ⟨d,hd⟩ := Option.isSome_iff_exists.mp (hdata (Bool.eq_false_iff.mpr hflags))
      rw [h.fsOpen_regular devOpen hc hq hreg,if_neg hname,← heq,Bool.or_self,if_neg hflags,hd]
      exact ⟨_,_,rfl,rfl,rfl⟩
    · obtain ⟨t,ht,hsize⟩ := h.fsOpen_new devOpen hc hnone hcreat hexp
      exact ⟨_,t,ht,rfl,hsize⟩

/-- `O_RDWR | O_APPEND | O_CREAT`. -/
def creatCall : OpenCall := ⟨⟨['/','f'],rfl,by decide⟩,⟨true,false,true,true,false,false⟩,fun _ => []⟩

/-- The same path with `O_RDONLY`. -/
def plainCall : OpenCall := { creatCall with oflag := ⟨false,false,false,false,false,false⟩ }

def noDriver : ℕ → OFlag → Except FsFault (Except FsErr FHandle) := fun _ _ => .error .assert

/-- A file that was made with `O_CREAT` is opened without it. -/
theorem fsRun_opens_iff_same :
    ∃ s, (fsMachine smallLimits noDriver).run .init [.fopen creatCall] = some s ∧
      OpenRight smallLimits noDriver s.toMknodState plainCall := by
  have hruns : ((fsMachine smallLimits noDriver).run .init [.fopen creatCall]).any (fun s =>
      decide (s.Findable (tokens plainCall.path.chars) ∧
        ∀ q ∈ s.lookup (tokens plainCall.path.chars), (s.tree.node q).idata.isSome = true)) =
      true := by decide
  obtain ⟨s,hs,hs'⟩ := (Option.any_eq_true _ _).mp hruns
  obtain ⟨hfind,hdata⟩ := of_decide_eq_true hs'
  have hclear : ∀ s : MknodState, s.Terminated (fun _ => []) (tokens creatCall.path.chars) :=
    fun _ _ _ _ _ => rfl
  have hnew : OpenFits smallLimits .init creatCall := ⟨by decide,rfl,by decide,hclear _,by decide,
    fun _ _ _ => ⟨hclear _,by decide,by decide⟩,rfl⟩
  have hsame : OpenFits smallLimits s.toMknodState plainCall := ⟨by decide,rfl,by decide,hclear _,
    hfind,fun h => (by cases h),rfl⟩
  have hl : (fsMachine smallLimits noDriver).Along (FsFits smallLimits) .init [.fopen creatCall] :=
    ⟨hnew,fun _ _ => trivial⟩
  refine ⟨s,hs,(fsRun_opens_iff smallLimits noDriver hl hs plainCall hsame).mpr fun q hq _ => ?_⟩
  exact ⟨by decide,rfl,fun _ => hdata q hq⟩

/-- A file that was made by `mknod` has no data. -/
theorem not_fsRun_opens : ¬∀ lim devOpen ls s, (fsMachine lim devOpen).run .init ls = some s →
    ∀ c, OpenRight lim devOpen s.toMknodState c := by
  intro h
  have hruns : ((fsMachine smallLimits noDriver).run .init
      [.mknod ⟨plainCall.path,isaIfreg,0,fun _ => []⟩]).any (fun s =>
        decide (s.lookup (tokens plainCall.path.chars) = some 1 ∧
          (s.tree.node 1).iohandle = some .ifreg) &&
        !(s.tree.fsOpen smallLimits plainCall.beyond noDriver plainCall.path.chars
          plainCall.oflag).toBool) = true := by decide
  obtain ⟨s,hs,hs'⟩ := (Option.any_eq_true _ _).mp hruns
  rw [Bool.and_eq_true,decide_eq_true_eq] at hs'
  obtain ⟨⟨hlook,hreg⟩,hfails⟩ := hs'
  obtain ⟨hndl,t,ht,-⟩ := (h _ _ _ s hs plainCall).opens 1 hlook hreg (by decide)
  rw [ht] at hfails
  cases hfails

end Tinker

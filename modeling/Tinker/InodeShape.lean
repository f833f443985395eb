import Tinker.Inode
import Tinker.Linked
import Tinker.Machine

/-! The shape of the inode tree: whatever inode `isearch` takes for the parent, hanging a new one
below it leaves a tree. -/
namespace Tinker

open Linked Outcome

/-- A call of `imknod` from the root, with the memory it finds behind the names. -/
structure MknodCall where
  path : AbsPath
  mode : ℕ
  dev : ℕ
  beyond : ℕ → List Char

/-- The tree, and for each inode but the root the components of the path it was created with. -/
structure MknodState where
  tree : InodeTree
  created : List (List (List Char) × ℕ)

namespace MknodState

def init : MknodState := ⟨.init,[]⟩

/-- The state behind a call with the given outcome. -/
def after (s : MknodState) (c : MknodCall) : Except FsErr Unit × InodeTree → MknodState
  | (.error _,t) => ⟨t,s.created⟩
  | (.ok _,t) => ⟨t,s.created ++ [(tokens c.path.chars,s.tree.size)]⟩

end MknodState

/-- Any calls of `imknod`, one after the other. -/
def mknodMachine (lim : Limits) : Machine MknodState MknodCall FsFault where
  enabled := fun _ _ => true
  next := fun s c => (s.tree.imknod lim c.beyond 0 c.path.chars c.mode c.dev).map (s.after c)

namespace InodeTree

def next (t : InodeTree) (p : ℕ) : Option ℕ := (t.node p).next

/-- The shape of the tree as a reader of the pointers sees it. -/
structure Shape (t : InodeTree) : Prop where
  /-- A sibling chain ends, and does not come back to an inode. -/
  siblings : ∀ p < t.size, ∃ l, Chain t.next (some p) l ∧ l.Nodup
  /-- Below an inode is itself or the head of a chain, that of the inodes belonging to it. -/
  children : ∀ p < t.size, ∃ l, ((t.node p).down = p ∧ l = [] ∨
    Chain t.next (some (t.node p).down) l) ∧
    ∀ q, q ∈ l ↔ 0 < q ∧ q < t.size ∧ (t.node q).belong = p
  belong : ∀ p < t.size, (t.node p).belong < t.size
  root : ∀ p < t.size, ∃ k, (fun q => (t.node q).belong)^[k] p = 0
  ids : ∀ p < t.size, ∀ q < t.size, (t.node p).id = (t.node q).id → p = q
  count : t.icntr = t.size
  /-- Every walk along `next` ends. -/
  walks : ∀ lim beyond s mode dev, t.isearch lim beyond 0 s ≠ .error .diverges ∧
    t.imknod lim beyond 0 s mode dev ≠ .error .diverges

/-- The tree with the children of each inode. -/
structure Wf (t : InodeTree) (children : ℕ → List ℕ) : Prop where
  pos : 0 < t.size
  root_belong : (t.node 0).belong = 0
  root_next : (t.node 0).next = none
  down : ∀ p < t.size, (t.node p).down = (children p).head?.getD p
  chain : ∀ p < t.size, Chain t.next (children p).head? (children p)
  sorted : ∀ p, (children p).Pairwise (· < ·)
  mem : ∀ p q, q ∈ children p ↔ 0 < q ∧ q < t.size ∧ (t.node q).belong = p
  belong_lt : ∀ q, 0 < q → q < t.size → (t.node q).belong < q
  ids : ∀ p < t.size, (t.node p).id = p
  icntr : t.icntr = t.size
  ilid : t.ilid = t.size
  mount : ∀ p < t.size, (t.node p).mount = false

section

variable {t : InodeTree} {children : ℕ → List ℕ} {lim : Limits} {beyond : ℕ → List Char} {p q : ℕ}
  {nd s : List Char} {nds : List (List Char)} {l : List ℕ} {ci : Option ℕ} {fuel : ℕ}

theorem wf_init : Wf .init fun _ => [] where
  pos := Nat.one_pos
  root_belong := rfl
  root_next := rfl
  down := fun _ hp => (Nat.lt_one_iff.mp hp).symm
  chain := fun _ _ => rfl
  sorted := fun _ => List.Pairwise.nil
  mem := fun _ _ => ⟨fun h => absurd h List.not_mem_nil,fun h =>
    absurd h.1 (Nat.not_lt.mpr (Nat.le_of_lt_succ h.2.1))⟩
  belong_lt := fun _ h0 h1 => absurd h0 (Nat.not_lt.mpr (Nat.le_of_lt_succ h1))
  ids := fun _ hp => (Nat.lt_one_iff.mp hp).symm
  icntr := rfl
  ilid := rfl
  mount := fun _ _ => rfl

/-- The walk for a name finds the first inode of the chain that has it. -/
theorem seekName_eq (hl : Chain t.next ci l) (hfuel : l.length ≤ fuel) :
    t.seekName lim beyond nd fuel ci = .ok (l.find? fun p => t.named lim beyond p nd) := by
  induction l generalizing ci fuel with
  | nil =>
    rw [chain_nil.mp hl,seekName]
    rfl
  | cons p l ih =>
    obtain ⟨rfl,hrest⟩ := hl
    cases fuel with
    | zero => exact absurd hfuel (Nat.not_succ_le_zero _)
    | succ fuel =>
      rw [seekName,List.find?_cons]
      cases t.named lim beyond p nd with
      | true => rfl
      | false => exact ih hrest (Nat.le_of_succ_le_succ hfuel)

/-- The walk to the end finds the last inode of the chain. -/
theorem seekLast_eq (hl : Chain t.next (some p) (l ++ [q])) (hfuel : l.length ≤ fuel) :
    t.seekLast fuel p = .ok q := by
  induction l generalizing p fuel with
  | nil =>
    obtain ⟨hp,hnext⟩ := hl
    rw [seekLast,Option.some.inj hp,show (t.node q).next = none from hnext]
  | cons r l ih =>
    obtain ⟨hp,hrest⟩ := hl
    rw [← Option.some.inj hp] at hrest
    have hne : (l ++ [q]).head? = (t.node p).next := hrest.head?
    cases hnext : (t.node p).next with
    | none =>
      rw [hnext,List.head?_eq_none_iff] at hne
      exact absurd hne (by simp)
    | some n =>
      cases fuel with
      | zero => exact absurd hfuel (Nat.not_succ_le_zero _)
      | succ fuel =>
        rw [seekLast,hnext]
        exact ih (hnext ▸ hrest : Chain t.next (some n) (l ++ [q])) (Nat.le_of_succ_le_succ hfuel)

namespace Wf

theorem nodup (h : Wf t children) (p : ℕ) : (children p).Nodup := (h.sorted p).imp Nat.ne_of_lt

/-- From any inode on there is a chain, and none longer than there are inodes. -/
theorem exists_chain (h : Wf t children) (hp : p < t.size) :
    ∃ l, Chain t.next (some p) l ∧ l.Nodup ∧ ∀ q ∈ l, q < t.size := by
  obtain rfl | hpos := Nat.eq_zero_or_pos p
  · refine ⟨[0],⟨rfl,h.root_next⟩,List.nodup_singleton 0,fun q hq => ?_⟩
    rw [List.mem_singleton.mp hq]
    exact hp
  · have hb : (t.node p).belong < t.size := (h.belong_lt p hpos hp).trans hp
    obtain ⟨l,hl,hchain⟩ := (h.chain _ hb).suffix ((h.mem _ p).mpr ⟨hpos,hp,rfl⟩)
    exact ⟨l,hchain,(h.nodup _).sublist hl.sublist,fun q hq => ((h.mem _ q).mp (hl.subset hq)).2.1⟩

theorem length_le (hnd : l.Nodup) (hl : ∀ q ∈ l, q < t.size) : l.length ≤ t.size := by
  have hsub : l ⊆ List.range t.size := fun q hq => List.mem_range.mpr (hl q hq)
  calc l.length ≤ (List.range t.size).length := (List.subperm_of_subset hnd hsub).length_le
    _ = t.size := List.length_range

/-- Down from an inode is one of them. -/
theorem down_lt (h : Wf t children) (hp : p < t.size) : (t.node p).down < t.size := by
  rw [h.down p hp]
  cases hc : children p with
  | nil => exact hp
  | cons q l => exact ((h.mem p q).mp (hc ▸ List.mem_cons_self)).2.1

/-- The search ends, at NULL or an inode, unless it reads through NULL. -/
theorem searchTokens_ends (h : Wf t children) (hci : ∀ p, ci = some p → p < t.size) :
    Spec (t.searchTokens lim beyond nds ci) (fun r => ∀ p, r = some p → p < t.size)
      (fun e => e = .null) := by
  induction nds generalizing ci with
  | nil => exact hci
  | cons nd nds ih =>
    cases ci with
    | none => rfl
    | some p =>
      obtain ⟨l,hl,hnd,hlt⟩ := h.exists_chain (h.down_lt (hci p rfl))
      rw [searchTokens]
      simp only [h.mount p (hci p rfl),Bool.false_eq_true,if_false]
      rw [seekName_eq hl (length_le hnd hlt)]
      exact ih fun q hq => hlt q (List.mem_of_find?_eq_some hq)

variable {t' : InodeTree} {b mode dev : ℕ} {name : List Char}

/-- What hanging a new inode below `b` writes. -/
structure Hung (t t' : InodeTree) (children : ℕ → List ℕ) (name : List Char) (mode dev b : ℕ) :
    Prop where
  size : t'.size = t.size+1
  icntr : t'.icntr = t.icntr+1
  ilid : t'.ilid = t.ilid+1
  new : t'.node t.size =
    ⟨t.ilid,name,mode,false,b,none,t.size,none,iohandleOf mode dev⟩
  old : ∀ p < t.size, t'.node p = { t.node p with
    next := if (children b).getLast? = some p then some t.size else (t.node p).next
    down := if p = b ∧ children b = [] then t.size else (t.node p).down }

theorem children_of_le (h : Wf t children) (hp : t.size ≤ p) : children p = [] := by
  refine List.eq_nil_iff_forall_not_mem.mpr fun q hq => ?_
  obtain ⟨hpos,hlt,hbelong⟩ := (h.mem p q).mp hq
  have := h.belong_lt q hpos hlt
  omega

/-- The last child is one of them, and no child of another inode. -/
theorem getLast?_mem (h : Wf t children) (hq : (children b).getLast? = some q) :
    0 < q ∧ q < t.size ∧ (t.node q).belong = b :=
  (h.mem b q).mp (List.mem_of_getLast? hq)

namespace Hung

variable (hu : Hung t t' children name mode dev b) (h : Wf t children)
include hu

theorem belong_eq (hp : p < t.size) : (t'.node p).belong = (t.node p).belong := by
  rw [hu.old p hp]

theorem next_new : t'.next t.size = none := by
  rw [InodeTree.next,hu.new]

theorem next_eq (hp : p < t.size) (hne : (children b).getLast? ≠ some p) : t'.next p = t.next p := by
  rw [InodeTree.next,hu.old p hp]
  exact if_neg hne

theorem next_last (hp : p < t.size) (hlast : (children b).getLast? = some p) :
    t'.next p = some t.size := by
  rw [InodeTree.next,hu.old p hp]
  exact if_pos hlast

include h

theorem next_root : t'.next 0 = none := by
  rw [hu.next_eq h.pos fun hlast => absurd (h.getLast?_mem hlast).1 (Nat.lt_irrefl 0)]
  exact h.root_next

theorem mem_children (hb : b < t.size) (p q : ℕ) :
    q ∈ Function.update children b (children b ++ [t.size]) p ↔
      0 < q ∧ q < t'.size ∧ (t'.node q).belong = p := by
  have hmem : q ∈ Function.update children b (children b ++ [t.size]) p ↔
      q ∈ children p ∨ p = b ∧ q = t.size := by
    by_cases hp : p = b
    · rw [hp,Function.update_self,List.mem_append,List.mem_singleton]
      simp
    · rw [Function.update_of_ne hp]
      simp [hp]
  rw [hmem,h.mem,hu.size]
  obtain hq | rfl | hq := Nat.lt_trichotomy q t.size
  · rw [hu.belong_eq hq]
    omega
  · have := h.pos
    rw [hu.new]
    simp only [eq_comm (a := b),Nat.lt_irrefl,false_and,and_false,false_or,and_true]
    omega
  · omega

/-- The chains of the other inodes are as they were, and that of `b` ends with the new one. -/
theorem chain_children (hb : b < t.size) (hp : p < t'.size) :
    Chain t'.next (Function.update children b (children b ++ [t.size]) p).head?
      (Function.update children b (children b ++ [t.size]) p) := by
  obtain rfl | hpb := eq_or_ne p b
  · rw [Function.update_self]
    have hchain := h.chain p hb
    obtain hnil | ⟨l,last,hl⟩ := List.eq_nil_or_concat (children p)
    · rw [hnil]
      exact ⟨rfl,hu.next_new⟩
    · rw [List.concat_eq_append] at hl
      have hlast : (children p).getLast? = some last := by rw [hl,List.getLast?_concat]
      have hlt := (h.getLast?_mem hlast).2.1
      have hnd := h.nodup p
      rw [hl] at hchain hnd ⊢
      have hhead : (l ++ [last] ++ [t.size]).head? = (l ++ [last]).head? := by
        cases l <;> rfl
      rw [hhead]
      refine hchain.concat (fun q hq => ?_) (hu.next_last hlt hlast) hu.next_new
      have hqmem : q ∈ children p := hl ▸ List.mem_append_left _ hq
      refine hu.next_eq ((h.mem p q).mp hqmem).2.1 fun heq => ?_
      rw [hlast,Option.some.injEq] at heq
      exact (List.disjoint_of_nodup_append hnd) hq (heq ▸ List.mem_singleton_self last)
  · rw [Function.update_of_ne hpb]
    rw [hu.size] at hp
    obtain hp | rfl := Nat.lt_succ_iff_lt_or_eq.mp hp
    · refine (h.chain p hp).congr fun q hq => ?_
      obtain ⟨-,hq,hqp⟩ := (h.mem p q).mp hq
      exact hu.next_eq hq fun hlast => hpb (hqp.symm.trans (h.getLast?_mem hlast).2.2)
    · rw [h.children_of_le (Nat.le_refl _)]
      rfl

theorem down_children (hb : b < t.size) (hp : p < t'.size) : (t'.node p).down =
    (Function.update children b (children b ++ [t.size]) p).head?.getD p := by
  rw [hu.size] at hp
  obtain hp | rfl := Nat.lt_succ_iff_lt_or_eq.mp hp
  · rw [hu.old p hp]
    have hdown := h.down p hp
    obtain rfl | hpb := eq_or_ne p b
    · rw [Function.update_self]
      cases hc : children p with
      | nil => simp
      | cons q l => simpa [hc] using hdown
    · rw [Function.update_of_ne hpb]
      simpa [hpb] using hdown
  · rw [Function.update_of_ne (Nat.ne_of_gt hb),h.children_of_le (Nat.le_refl _),hu.new]
    rfl

theorem sorted_children (p : ℕ) :
    (Function.update children b (children b ++ [t.size]) p).Pairwise (· < ·) := by
  obtain rfl | hpb := eq_or_ne p b
  · rw [Function.update_self]
    refine List.pairwise_append.mpr ⟨h.sorted p,List.pairwise_singleton _ _,fun q hq r hr => ?_⟩
    rw [List.mem_singleton.mp hr]
    exact ((h.mem p q).mp hq).2.1
  · rw [Function.update_of_ne hpb]
    exact h.sorted p

end Hung

/-- A new inode below any of them leaves a tree. -/
theorem hung (h : Wf t children) (hb : b < t.size) (hu : Hung t t' children name mode dev b) :
    Wf t' (Function.update children b (children b ++ [t.size])) where
  pos := hu.size ▸ Nat.succ_pos _
  root_belong := (hu.belong_eq h.pos).trans h.root_belong
  root_next := hu.next_root h
  down p hp := hu.down_children h hb hp
  chain p hp := hu.chain_children h hb hp
  sorted := hu.sorted_children h
  mem := hu.mem_children h hb
  belong_lt q hpos hq := by
    rw [hu.size] at hq
    obtain hq | rfl := Nat.lt_succ_iff_lt_or_eq.mp hq
    · rw [hu.belong_eq hq]
      exact h.belong_lt q hpos hq
    · rw [hu.new]
      exact hb
  ids p hp := by
    rw [hu.size] at hp
    obtain hp | rfl := Nat.lt_succ_iff_lt_or_eq.mp hp
    · rw [hu.old p hp]
      exact h.ids p hp
    · rw [hu.new]
      exact h.ilid
  icntr := by rw [hu.icntr,hu.size,h.icntr]
  ilid := by rw [hu.ilid,hu.size,h.ilid]
  mount p hp := by
    rw [hu.size] at hp
    obtain hp | rfl := Nat.lt_succ_iff_lt_or_eq.mp hp
    · rw [hu.old p hp]
      exact h.mount p hp
    · rw [hu.new]

theorem newNode_old (hp : p < t.size) :
    (t.newNode name mode dev b).node p = t.node p :=
  Function.update_of_ne (Nat.ne_of_lt hp) ..

theorem hang_spec (h : Wf t children) (hb : b < t.size) (name : List Char) (mode dev : ℕ) :
    ∃ t', t.hang name mode dev b = .ok t' ∧ Hung t t' children name mode dev b := by
  have hdown := h.down b hb
  rw [hang]
  obtain hnil | ⟨l,last,hl⟩ := List.eq_nil_or_concat (children b)
  · have hself : (t.node b).down = b := by rw [hdown,hnil]; rfl
    refine ⟨(t.newNode name mode dev b).setDown b t.size,?_,rfl,rfl,rfl,?_,fun p hp => ?_⟩
    · simp only [hself]
      rw [if_neg (not_not.mpr rfl)]
      rfl
    · exact (Function.update_of_ne (Nat.ne_of_gt hb) ..).trans (Function.update_self ..)
    · rw [hnil]
      obtain rfl | hpb := eq_or_ne p b
      · simp [setDown,newNode_old hp]
      · simp [setDown,hpb,newNode_old hp]
  · rw [List.concat_eq_append] at hl
    have hlast : (children b).getLast? = some last := by rw [hl,List.getLast?_concat]
    have hlt := (h.getLast?_mem hlast).2.1
    have hhead : (children b).head? = some (t.node b).down := by
      rw [hdown]
      cases hc : children b with
      | nil => exact absurd (hl.symm.trans hc) (by simp)
      | cons q l => rfl
    have hne : (t.node b).down ≠ b := by
      obtain ⟨hpos,hlt,hbelong⟩ := (h.mem b _).mp (List.mem_of_mem_head? hhead)
      have := h.belong_lt _ hpos hlt
      omega
    have hchain : Chain (t.newNode name mode dev b).next (some (t.node b).down) (l ++ [last]) := by
      have := h.chain b hb
      rw [hhead,hl] at this
      refine this.congr fun q hq => ?_
      rw [InodeTree.next,newNode_old ((h.mem b q).mp (hl ▸ hq)).2.1]
      rfl
    have hfuel : l.length ≤ (t.newNode name mode dev b).size := by
      have hle := length_le (h.nodup b) fun q hq => ((h.mem b q).mp hq).2.1
      rw [hl,List.length_append] at hle
      exact Nat.le_succ_of_le (Nat.le_of_add_right_le hle)
    refine ⟨(t.newNode name mode dev b).setNext last t.size,?_,rfl,rfl,rfl,?_,fun p hp => ?_⟩
    · simp only [if_pos hne,seekLast_eq hchain hfuel]
      rfl
    · exact (Function.update_of_ne (Nat.ne_of_gt hlt) ..).trans (Function.update_self ..)
    · have hcons : children b ≠ [] := by simp [hl]
      obtain rfl | hpl := eq_or_ne p last
      · simp [setNext,newNode_old hp,hlast,hcons]
      · simp [setNext,hpl,newNode_old hp,hlast,hcons,Ne.symm hpl]

theorem isearch_ends (h : Wf t children) (lim : Limits) (beyond : ℕ → List Char) (s : List Char) :
    Spec (t.isearch lim beyond 0 s) (fun r => ∀ p, r = some p → p < t.size)
      (fun e => e = .null ∨ e = .overrun) := by
  rw [isearch,spec_bind,spec_check]
  refine ⟨fun _ => ?_,fun _ => Or.inr rfl⟩
  refine (h.searchTokens_ends fun p hp => ?_).mono (fun _ => id) fun _ => Or.inl
  rw [← Option.some.inj hp]
  exact h.pos

/-- A call changes nothing, or hangs a new inode below one of the others. -/
theorem imknod_does (h : Wf t children) (lim : Limits) (beyond : ℕ → List Char) (s : List Char)
    (mode dev : ℕ) : Spec (t.imknod lim beyond 0 s mode dev) (fun r => (∃ e, r = (.error e,t)) ∨
      r.1 = .ok () ∧ ∃ b < t.size, Hung t r.2 children (igetname s) mode dev b)
      (fun e => e = .null ∨ e = .overrun) := by
  rw [imknod]
  by_cases hpath : s.length < lim.pathMax
  · by_cases hname : (igetname s).length < lim.nameMax
    · simp only [hpath,hname,not_true,if_false]
      rw [spec_bind]
      refine (h.isearch_ends lim beyond s).imp fun found _ => ?_
      cases found with
      | some p => exact Or.inl ⟨_,rfl⟩
      | none =>
        simp only [Option.isSome_none,Bool.false_eq_true,if_false]
        rw [spec_bind]
        refine (h.isearch_ends lim beyond (igetpath s)).imp fun belong hbelong => ?_
        cases belong with
        | none => exact Or.inl ⟨_,rfl⟩
        | some b =>
          simp only
          rw [spec_ite]
          refine ⟨fun _ => Or.inl ⟨_,rfl⟩,fun _ => ?_⟩
          obtain ⟨t',ht',hu⟩ := h.hang_spec (hbelong b rfl) (igetname s) mode dev
          rw [ht']
          exact Or.inr ⟨rfl,b,hbelong b rfl,hu⟩
    · simp only [hpath,hname,not_true,not_false_iff,if_false,if_true]
      exact Or.inl ⟨_,rfl⟩
  · simp only [hpath,not_false_iff,if_true]
    exact Or.inl ⟨_,rfl⟩

theorem reaches_root (h : Wf t children) (hp : p < t.size) :
    ∃ k, (fun q => (t.node q).belong)^[k] p = 0 := by
  induction p using Nat.strong_induction_on with
  | _ p ih =>
    obtain rfl | hpos := Nat.eq_zero_or_pos p
    · exact ⟨0,rfl⟩
    · have hlt := h.belong_lt p hpos hp
      obtain ⟨k,hk⟩ := ih _ hlt (hlt.trans hp)
      exact ⟨k+1,hk⟩

theorem shape (h : Wf t children) : t.Shape where
  siblings p hp := by
    obtain ⟨l,hl,hnd,-⟩ := h.exists_chain hp
    exact ⟨l,hl,hnd⟩
  children p hp := by
    refine ⟨children p,?_,h.mem p⟩
    have hchain := h.chain p hp
    rw [h.down p hp]
    cases hc : children p with
    | nil => exact Or.inl ⟨rfl,rfl⟩
    | cons q l =>
      rw [hc] at hchain
      exact Or.inr hchain
  belong p hp := by
    obtain rfl | hpos := Nat.eq_zero_or_pos p
    · rw [h.root_belong]
      exact hp
    · exact (h.belong_lt p hpos hp).trans hp
  root p hp := h.reaches_root hp
  ids p hp q hq hid := by rwa [h.ids p hp,h.ids q hq] at hid
  count := h.icntr
  walks lim beyond s mode dev := by
    refine ⟨fun hrun => ?_,fun hrun => ?_⟩
    · obtain he | he := (h.isearch_ends lim beyond s).of_error hrun <;> cases he
    · obtain he | he := (h.imknod_does lim beyond s mode dev).of_error hrun <;> cases he

end Wf

variable {lim : Limits} {ms ms' : MknodState} {c : MknodCall}

/-- One call. -/
theorem wf_step (h : ∃ children, Wf ms.tree children) (hs : (mknodMachine lim).Step ms c ms') :
    ∃ children, Wf ms'.tree children := by
  obtain ⟨children,hwf⟩ := h
  obtain ⟨-,hnext⟩ := hs
  have hdoes := hwf.imknod_does lim c.beyond c.path.chars c.mode c.dev
  simp only [mknodMachine] at hnext
  cases hrun : ms.tree.imknod lim c.beyond 0 c.path.chars c.mode c.dev with
  | error e =>
    rw [hrun] at hnext
    cases hnext
  | ok r =>
    rw [hrun] at hnext hdoes
    cases hnext
    obtain ⟨e,rfl⟩ | ⟨hok,b,hb,hu⟩ := hdoes
    · exact ⟨children,hwf⟩
    · obtain ⟨_ | _,t'⟩ := r
      · cases hok
      · exact ⟨_,hwf.hung hb hu⟩

end

end InodeTree

/-- The inodes are a tree after any calls of `imknod`. -/
theorem mknodRun_shape (lim : Limits) {s : MknodState} {calls : List MknodCall}
    (hr : (mknodMachine lim).run .init calls = some s) : s.tree.Shape := by
  obtain ⟨children,h⟩ := (mknodMachine lim).run_invariant_of_step
    (fun _ _ _ hi hs => InodeTree.wf_step hi hs) ⟨_,InodeTree.wf_init⟩ hr
  exact h.shape

def smallLimits : Limits := ⟨20,10,Nat.succ_pos 9⟩

/-- `mknod("/a", S_IFDIR, 0)` and `mknod("/a/b", S_IFREG, 0)`. -/
def twoCalls : List MknodCall :=
  [⟨⟨['/','a'],rfl,by decide⟩,isaIfdir,0,fun _ => []⟩,
    ⟨⟨['/','a','/','b'],rfl,by decide⟩,isaIfreg,0,fun _ => []⟩]

/-- An inode below the root and one below that. -/
theorem mknodRun_shape_two :
    ∃ s, (mknodMachine smallLimits).run .init twoCalls = some s ∧ s.tree.Shape := by
  have hruns : ((mknodMachine smallLimits).run .init twoCalls).isSome = true := by decide
  obtain ⟨s,hs⟩ := Option.isSome_iff_exists.mp hruns
  exact ⟨s,hs,mknodRun_shape smallLimits hs⟩

end Tinker

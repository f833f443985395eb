import Mathlib.Data.List.Infix
import Tinker.InodeShape

/-! Looking up the paths that `imknod` has created. Where a parent has no children yet, the search
goes on with the parent itself and the siblings behind it. -/
namespace Tinker

open Linked Outcome

/-- `S_ISDIR`. -/
def isDir (mode : ℕ) : Bool := decide (mode &&& 0o170000 = isaIfdir)

namespace MknodState

/-- The inode created under these components; the root is there from the start. -/
def lookup (s : MknodState) (comps : List (List Char)) : Option ℕ :=
  if comps = [] then some 0 else s.created.lookup comps

/-- The search for the components compares the name of `q` with `nd`: `q` belongs to the inode before
`nd`, or that has no children and `q` is the inode itself or comes behind it. -/
def Met (s : MknodState) (comps : List (List Char)) (q : ℕ) (nd : List Char) : Prop :=
  ∃ pre b, pre ++ [nd] <+: comps ∧ s.lookup pre = some b ∧ ((s.tree.node q).belong = b ∨
    0 < b ∧ b ≤ q ∧ (s.tree.node q).belong = (s.tree.node b).belong ∧
      ∀ r < s.tree.size, 0 < r → (s.tree.node r).belong ≠ b)

/-- Behind each name that a component begins with when they are compared, the memory holds a
terminator. -/
def Terminated (s : MknodState) (beyond : ℕ → List Char) (comps : List (List Char)) : Prop :=
  ∀ q < s.tree.size, 0 < q → (∃ nd, s.Met comps q nd ∧ (s.tree.node q).name <+: nd) →
    (beyond q).takeWhile (· ≠ nul) = []

/-- A search below `b` does not stay where it is: `b` is the root or has children, or neither `b` nor
a sibling created after it has the name. -/
def Apart (s : MknodState) (b : ℕ) (nd : List Char) : Prop :=
  b = 0 ∨ (∃ q < s.tree.size, 0 < q ∧ (s.tree.node q).belong = b) ∨
    ∀ r < s.tree.size, b ≤ r → (s.tree.node r).belong = (s.tree.node b).belong →
      (s.tree.node r).name ≠ nd

/-- A path that exists, or whose parent does and is searched rightly. -/
def Findable (s : MknodState) (comps : List (List Char)) : Prop :=
  (s.lookup comps).isSome = true ∨
    ∃ b ∈ s.lookup comps.dropLast, ∀ nd ∈ comps.getLast?, s.Apart b nd

instance (s : MknodState) (b : ℕ) (nd : List Char) : Decidable (s.Apart b nd) :=
  inferInstanceAs (Decidable (_ ∨ (∃ q, q < s.tree.size ∧ _) ∨ ∀ r, r < s.tree.size → _))

instance (s : MknodState) (comps : List (List Char)) : Decidable (s.Findable comps) :=
  inferInstanceAs (Decidable (_ ∨ ∃ b ∈ s.lookup comps.dropLast, ∀ nd ∈ comps.getLast?, _))

/-- What `imknod` is to return. -/
def expected (lim : Limits) (s : MknodState) (c : MknodCall) : Except FsErr Unit :=
  if lim.pathMax ≤ c.path.chars.length ∨ lim.nameMax ≤ (igetname c.path.chars).length then
    .error .eNametoolong
  else if (s.lookup (tokens c.path.chars)).isSome then .error .eExist
  else
    match s.lookup (tokens (igetpath c.path.chars)) with
    | none => .error .eNoent
    | some b => if isDir (s.tree.node b).mode then .ok () else .error .eNotdir

/-- A path short enough is searched rightly, and does not lie below an inode that is no directory. -/
def CallFits (lim : Limits) (s : MknodState) (c : MknodCall) : Prop :=
  c.path.chars.length < lim.pathMax → (igetname c.path.chars).length < lim.nameMax →
    s.Terminated c.beyond (tokens c.path.chars) ∧ s.Findable (tokens c.path.chars) ∧
      (s.lookup (tokens c.path.chars) = none →
        ∀ b ∈ s.lookup (tokens (igetpath c.path.chars)), isDir (s.tree.node b).mode = true)

/-- Lookups and calls go as they should. -/
structure Kept (lim : Limits) (s : MknodState) : Prop where
  search : ∀ (p : AbsPath) beyond, p.chars.length < lim.pathMax →
    s.Terminated beyond (tokens p.chars) → s.Findable (tokens p.chars) →
    s.tree.isearch lim beyond 0 p.chars = .ok (s.lookup (tokens p.chars))
  call : ∀ c, s.CallFits lim c →
    ∃ t', s.tree.imknod lim c.beyond 0 c.path.chars c.mode c.dev = .ok (s.expected lim c,t') ∧
      (s.expected lim c ≠ .ok () → t' = s.tree)

end MknodState

section

variable {s u w : List Char} {nd : List Char}

theorem segments_ne_nil (s : List Char) : segments s ≠ [] := by
  induction s with
  | nil => exact List.cons_ne_nil _ _
  | cons c s ih =>
    rw [segments]
    split
    · exact List.cons_ne_nil _ _
    · cases hs : segments s with
      | nil => exact absurd hs ih
      | cons w ws => exact List.cons_ne_nil _ _

theorem segments_append (s u : List Char) : segments (s ++ '/' :: u) = segments s ++ segments u := by
  induction s with
  | nil => rfl
  | cons c s ih =>
    rw [List.cons_append,segments,segments,ih]
    split
    · rfl
    · cases hs : segments s with
      | nil => exact absurd hs (segments_ne_nil s)
      | cons w ws => rfl

theorem segments_of_notMem (h : '/' ∉ s) : segments s = [s] := by
  induction s with
  | nil => rfl
  | cons c s ih =>
    have hc : c ≠ '/' := fun hc => h (hc ▸ List.mem_cons_self)
    rw [segments,if_neg hc,ih fun hs => h (List.mem_cons_of_mem c hs)]
    rfl

/-- The components of a string consist of its characters. -/
theorem mem_of_mem_segments (hw : w ∈ segments s) {c : Char} (hc : c ∈ w) : c ∈ s := by
  induction s generalizing w with
  | nil =>
    rw [List.mem_singleton.mp hw] at hc
    exact hc
  | cons d s ih =>
    rw [segments] at hw
    split at hw
    · obtain rfl | hw := List.mem_cons.mp hw
      · exact absurd hc List.not_mem_nil
      · exact List.mem_cons_of_mem d (ih hw hc)
    · cases hs : segments s with
      | nil => exact absurd hs (segments_ne_nil s)
      | cons v vs =>
        rw [hs,List.modifyHead_cons] at hw
        obtain rfl | hw := List.mem_cons.mp hw
        · obtain rfl | hc := List.mem_cons.mp hc
          · exact List.mem_cons_self
          · exact List.mem_cons_of_mem d (ih (hs ▸ List.mem_cons_self) hc)
        · exact List.mem_cons_of_mem d (ih (hs ▸ List.mem_cons_of_mem v hw) hc)

theorem tokens_ne_nil (h : nd ∈ tokens s) : nd ≠ [] := by
  simpa using (List.mem_filter.mp h).2

theorem nul_notMem_of_mem_tokens (hs : nul ∉ s) (h : nd ∈ tokens s) : nul ∉ nd :=
  fun hc => hs (mem_of_mem_segments (List.mem_filter.mp h).1 hc)

theorem slash_notMem_igetname (s : List Char) : '/' ∉ igetname s := fun h => by
  simpa using List.mem_rtakeWhile_imp h

/-- A path is its parent's and a name, which is empty behind a slash. -/
theorem tokens_igetpath (p : AbsPath) : tokens p.chars = tokens (igetpath p.chars) ++
    if igetname p.chars = [] then [] else [igetname p.chars] := by
  have hsplit : igetpath p.chars ++ igetname p.chars = p.chars :=
    List.rdropWhile_append_rtakeWhile
  have hslash : '/' ∈ p.chars := List.mem_of_mem_head? p.absolute
  have hne : igetpath p.chars ≠ [] := fun h => by
    simpa using List.rdropWhile_eq_nil_iff.mp h '/' hslash
  have hlast : (igetpath p.chars).getLast hne = '/' := by
    have hstop := List.rdropWhile_last_not (· ≠ '/') p.chars hne
    rwa [decide_eq_true_eq,not_not] at hstop
  have hpath : igetpath p.chars = (igetpath p.chars).dropLast ++ '/' :: [] := by
    rw [← hlast,List.dropLast_append_getLast]
  have htokens : ∀ u, tokens ((igetpath p.chars).dropLast ++ '/' :: u) =
      (segments (igetpath p.chars).dropLast).filter (· ≠ []) ++ tokens u := fun u => by
    rw [tokens,segments_append,List.filter_append]
    rfl
  have hname : tokens (igetname p.chars) =
      if igetname p.chars = [] then [] else [igetname p.chars] := by
    rw [tokens,segments_of_notMem (slash_notMem_igetname _)]
    by_cases hn : igetname p.chars = [] <;> simp [hn]
  calc tokens p.chars
      = tokens ((igetpath p.chars).dropLast ++ '/' :: igetname p.chars) := by
        rw [← List.singleton_append,← List.append_assoc,← hpath,hsplit]
    _ = tokens (igetpath p.chars) ++ tokens (igetname p.chars) := by
        rw [htokens]
        congr 1
        conv_rhs => rw [hpath,htokens]
        exact (List.append_nil _).symm
    _ = _ := by rw [hname]

end

namespace MknodState

open InodeTree

/-- The tree with the path of each inode; what has been created is what there is. -/
structure Tidy (lim : Limits) (s : MknodState) (children : ℕ → List ℕ)
    (path : ℕ → List (List Char)) : Prop extends Wf s.tree children where
  root_name : (s.tree.node 0).name = [nul]
  path_root : path 0 = []
  path_eq : ∀ q < s.tree.size, 0 < q →
    path q = path (s.tree.node q).belong ++ [(s.tree.node q).name]
  name : ∀ q < s.tree.size, 0 < q → (s.tree.node q).name ≠ [] ∧ nul ∉ (s.tree.node q).name ∧
    (s.tree.node q).name.length < lim.nameMax
  lookup_iff : ∀ comps q, s.lookup comps = some q ↔ q < s.tree.size ∧ path q = comps

/-- Components as `strtok` returns them. -/
def Proper (comps : List (List Char)) : Prop := ∀ nd ∈ comps, nd ≠ [] ∧ nul ∉ nd

theorem proper_tokens (p : AbsPath) : Proper (tokens p.chars) := fun _ hnd =>
  ⟨tokens_ne_nil hnd,nul_notMem_of_mem_tokens p.noNul hnd⟩

section

variable {lim : Limits} {s : MknodState} {children : ℕ → List ℕ} {path : ℕ → List (List Char)}
  {beyond : ℕ → List Char} {comps comps' : List (List Char)} {nd : List Char} {b q r : ℕ}

theorem Terminated.mono (h : s.Terminated beyond comps) (hsub : comps' <+: comps) :
    s.Terminated beyond comps' := by
  rintro q hq hpos ⟨nd,⟨pre,b,hnd,hb⟩,hname⟩
  exact h q hq hpos ⟨nd,⟨pre,b,hnd.trans hsub,hb⟩,hname⟩

namespace Tidy

theorem tidy_init (lim : Limits) : Tidy lim .init (fun _ => []) fun _ => [] where
  toWf := wf_init
  root_name := rfl
  path_root := rfl
  path_eq q hq hpos := absurd hpos (Nat.not_lt.mpr (Nat.le_of_lt_succ hq))
  name q hq hpos := absurd hpos (Nat.not_lt.mpr (Nat.le_of_lt_succ hq))
  lookup_iff comps q := by
    rw [lookup]
    split
    · next h =>
      rw [h,Option.some.injEq,eq_comm (a := 0)]
      exact ⟨fun hq => ⟨hq ▸ Nat.one_pos,rfl⟩,fun hq => Nat.lt_one_iff.mp hq.1⟩
    · next h => exact ⟨fun hq => (by cases hq),fun hq => absurd hq.2.symm h⟩

theorem lookup_path (h : Tidy lim s children path) (hq : q < s.tree.size) :
    s.lookup (path q) = some q := (h.lookup_iff _ q).mpr ⟨hq,rfl⟩

theorem path_inj (h : Tidy lim s children path) (hq : q < s.tree.size) (hr : r < s.tree.size)
    (heq : path q = path r) : q = r := by
  have hboth := h.lookup_path hq
  rw [heq,h.lookup_path hr] at hboth
  exact (Option.some.inj hboth).symm

/-- Where the memory is as it should be, `strncmp` compares names. -/
theorem named_iff (h : Tidy lim s children path) (hterm : s.Terminated beyond comps)
    (hne : nd ≠ []) (hq : q < s.tree.size) (hmet : 0 < q → s.Met comps q nd) :
    s.tree.named lim beyond q nd = true ↔ 0 < q ∧ (s.tree.node q).name = nd := by
  have hmax := lim.nameMax_pos
  rw [named,decide_eq_true_eq]
  obtain rfl | hpos := Nat.eq_zero_or_pos q
  · have hroot : (s.tree.node 0).cname (beyond 0) = [] := by
      rw [Inode.cname,h.root_name]
      rfl
    rw [hroot,List.take_nil]
    refine iff_of_false (fun heq => ?_) fun hlt => Nat.lt_irrefl 0 hlt.1
    obtain hzero | hnil := List.take_eq_nil_iff.mp heq.symm
    · omega
    · exact hne hnil
  · obtain ⟨-,hname,hlen⟩ := h.name q hq hpos
    have hcname : (s.tree.node q).cname (beyond q) =
        (s.tree.node q).name ++ (beyond q).takeWhile (· ≠ nul) :=
      List.takeWhile_append_of_pos fun c hc => by
        rw [decide_eq_true_eq]
        rintro rfl
        exact hname hc
    rw [hcname]
    have hshort : (s.tree.node q).name <+: nd →
        ((s.tree.node q).name ++ (beyond q).takeWhile (· ≠ nul)).take lim.nameMax =
          (s.tree.node q).name := fun hpre => by
      rw [hterm q hq hpos ⟨nd,hmet hpos,hpre⟩,List.append_nil,List.take_of_length_le (Nat.le_of_lt hlen)]
    constructor
    · intro heq
      have hpre : (s.tree.node q).name <+: nd.take lim.nameMax := by
        rw [← heq]
        exact List.prefix_take_iff.mpr ⟨List.prefix_append _ _,Nat.le_of_lt hlen⟩
      have heq' := hshort (hpre.trans (List.take_prefix _ _))
      rw [heq] at heq'
      have hndlen : nd.length ≤ lim.nameMax := by
        have := congrArg List.length heq'
        rw [List.length_take] at this
        omega
      rw [List.take_of_length_le hndlen] at heq'
      exact ⟨hpos,heq'.symm⟩
    · rintro ⟨-,rfl⟩
      rw [hshort (List.prefix_refl _),List.take_of_length_le (Nat.le_of_lt hlen)]

/-- The chain that is searched for a name below `b`: its children, or without any of them `b` itself
and what comes behind it. -/
theorem exists_below (h : Wf s.tree children) (hb : b < s.tree.size) :
    ∃ l, Chain s.tree.next (some (s.tree.node b).down) l ∧ l.length ≤ s.tree.size ∧
      (children b ≠ [] ∧ l = children b ∨ children b = [] ∧ ∀ q ∈ l, q < s.tree.size ∧
        (b = 0 ∧ q = 0 ∨ 0 < b ∧ b ≤ q ∧ (s.tree.node q).belong = (s.tree.node b).belong)) := by
  have hdown := h.down b hb
  have hshort : ∀ l p, l <:+ children p → l.length ≤ s.tree.size := fun l p hl =>
    Wf.length_le ((h.nodup p).sublist hl.sublist) fun q hq => ((h.mem p q).mp (hl.subset hq)).2.1
  obtain hnil | hcons := eq_or_ne (children b) []
  · rw [hnil] at hdown
    rw [show (s.tree.node b).down = b from hdown]
    obtain rfl | hpos := Nat.eq_zero_or_pos b
    · refine ⟨[0],⟨rfl,h.root_next⟩,h.pos,Or.inr ⟨hnil,fun q hq => ?_⟩⟩
      rw [List.mem_singleton.mp hq]
      exact ⟨hb,Or.inl ⟨rfl,rfl⟩⟩
    · have hp := (h.belong_lt b hpos hb).trans hb
      obtain ⟨l,hl,hchain⟩ := (h.chain _ hp).suffix ((h.mem _ b).mpr ⟨hpos,hb,rfl⟩)
      refine ⟨l,hchain,hshort l _ hl,Or.inr ⟨hnil,fun q hq => ?_⟩⟩
      obtain ⟨-,hlt,hbelong⟩ := (h.mem _ q).mp (hl.subset hq)
      refine ⟨hlt,Or.inr ⟨hpos,?_,hbelong⟩⟩
      cases l with
      | nil => exact absurd hq List.not_mem_nil
      | cons r l =>
        obtain rfl := Option.some.inj hchain.1
        obtain rfl | hq := List.mem_cons.mp hq
        · exact Nat.le_refl _
        · exact Nat.le_of_lt (List.rel_of_pairwise_cons ((h.sorted _).sublist hl.sublist) hq)
  · refine ⟨children b,?_,hshort _ b (List.suffix_refl _),Or.inl ⟨hcons,rfl⟩⟩
    have hchain := h.chain b hb
    rw [hdown]
    cases hc : children b with
    | nil => exact absurd hc hcons
    | cons q l =>
      rw [hc] at hchain
      exact hchain

/-- A child is found by its name. -/
theorem seekName_child (h : Tidy lim s children path) (hterm : s.Terminated beyond comps)
    (hne : nd ≠ []) (hq : q < s.tree.size) (hpos : 0 < q) (hname : (s.tree.node q).name = nd)
    (hpre : path (s.tree.node q).belong ++ [nd] <+: comps) :
    s.tree.seekName lim beyond nd s.tree.size (some (s.tree.node (s.tree.node q).belong).down) =
      .ok (some q) := by
  have hb := (h.belong_lt q hpos hq).trans hq
  have hmem := (h.mem _ q).mpr ⟨hpos,hq,rfl⟩
  obtain ⟨l,hchain,hlen,hl⟩ := exists_below h.toWf hb
  rw [seekName_eq hchain hlen]
  obtain ⟨-,rfl⟩ | ⟨hnil,-⟩ := hl
  · have hmet : ∀ r, (s.tree.node r).belong = (s.tree.node q).belong → s.Met comps r nd :=
      fun r hr => ⟨_,_,hpre,h.lookup_path hb,Or.inl hr⟩
    have hnamed := (h.named_iff hterm hne hq fun _ => hmet q rfl).mpr ⟨hpos,hname⟩
    cases hfind : (children (s.tree.node q).belong).find? fun p => s.tree.named lim beyond p nd with
    | none => exact absurd hnamed (List.find?_eq_none.mp hfind q hmem)
    | some r =>
      obtain ⟨hrpos,hr,hrb⟩ := (h.mem _ r).mp (List.mem_of_find?_eq_some hfind)
      have hrnamed : s.tree.named lim beyond r nd = true := by simpa using List.find?_some hfind
      have hrname := (h.named_iff hterm hne hr fun _ => hmet r hrb).mp hrnamed
      have hpath : path r = path q := by
        rw [h.path_eq r hr hrpos,h.path_eq q hq hpos,hrb,hrname.2,hname]
      rw [h.path_inj hr hq hpath]
  · exact absurd hmem (hnil ▸ List.not_mem_nil)

/-- A name that no child has is not found, where the search does not stay with the parent. -/
theorem seekName_none (h : Tidy lim s children path) (hterm : s.Terminated beyond comps)
    (hne : nd ≠ []) (hb : b < s.tree.size) (hpre : path b ++ [nd] <+: comps)
    (hapart : s.Apart b nd) (hno : s.lookup (path b ++ [nd]) = none) :
    s.tree.seekName lim beyond nd s.tree.size (some (s.tree.node b).down) = .ok none := by
  obtain ⟨l,hchain,hlen,hl⟩ := exists_below h.toWf hb
  rw [seekName_eq hchain hlen]
  refine congrArg Except.ok (List.find?_eq_none.mpr fun q hq hnamed => ?_)
  obtain ⟨hcons,rfl⟩ | ⟨hnil,hall⟩ := hl
  · obtain ⟨hpos,hlt,hqb⟩ := (h.mem b q).mp hq
    have hpath := h.path_eq q hlt hpos
    have hmet : s.Met comps q nd := ⟨_,b,hpre,h.lookup_path hb,Or.inl hqb⟩
    rw [hqb,((h.named_iff hterm hne hlt fun _ => hmet).mp hnamed).2] at hpath
    rw [← hpath,h.lookup_path hlt] at hno
    cases hno
  · obtain ⟨hlt,hwhere⟩ := hall q hq
    have hchildless : ∀ r < s.tree.size, 0 < r → (s.tree.node r).belong ≠ b := fun r hr hpos hrb =>
      absurd ((h.mem b r).mpr ⟨hpos,hr,hrb⟩) (hnil ▸ List.not_mem_nil)
    have hmet : 0 < q → s.Met comps q nd := by
      intro hpos
      obtain ⟨-,rfl⟩ | ⟨hbpos,hle,hbelong⟩ := hwhere
      · exact absurd hpos (Nat.lt_irrefl 0)
      · exact ⟨_,b,hpre,h.lookup_path hb,Or.inr ⟨hbpos,hle,hbelong,hchildless⟩⟩
    obtain ⟨hpos,hname⟩ := (h.named_iff hterm hne hlt hmet).mp hnamed
    obtain ⟨-,rfl⟩ | ⟨hbpos,hle,hbelong⟩ := hwhere
    · exact Nat.lt_irrefl 0 hpos
    obtain rfl | ⟨r,hr,hrpos,hrb⟩ | hdiff := hapart
    · exact Nat.lt_irrefl 0 hbpos
    · exact hchildless r hr hrpos hrb
    · exact hdiff q hlt hle hbelong hname

theorem searchTokens_cons (h : Wf s.tree children) (hb : b < s.tree.size)
    (nds : List (List Char)) : s.tree.searchTokens lim beyond (nd :: nds) (some b) = (do
      let ci ← s.tree.seekName lim beyond nd s.tree.size (some (s.tree.node b).down)
      s.tree.searchTokens lim beyond nds ci) := by
  rw [searchTokens]
  simp only [h.mount b hb,Bool.false_eq_true,if_false]

/-- The search follows the path of an inode, and goes on from there. -/
theorem searchTokens_path (h : Tidy lim s children path) (hterm : s.Terminated beyond comps)
    (hq : q < s.tree.size) (hsub : path q <+: comps)
    (nds : List (List Char)) : s.tree.searchTokens lim beyond (path q ++ nds) (some 0) =
      s.tree.searchTokens lim beyond nds (some q) := by
  induction q using Nat.strong_induction_on generalizing nds with
  | _ q ih =>
    obtain rfl | hpos := Nat.eq_zero_or_pos q
    · rw [h.path_root]
      rfl
    · have hlt := h.belong_lt q hpos hq
      have hpath := h.path_eq q hq hpos
      rw [hpath] at hsub ⊢
      rw [List.append_assoc,ih _ hlt (hlt.trans hq) ((List.prefix_append _ _).trans hsub),
        List.singleton_append,searchTokens_cons h.toWf (hlt.trans hq),
        h.seekName_child hterm (h.name q hq hpos).1 hq hpos rfl hsub]
      rfl

/-- A search for components that can be found is right. -/
theorem searchTokens_eq (h : Tidy lim s children path) (hterm : s.Terminated beyond comps)
    (hcomps : Proper comps) (hfind : s.Findable comps) :
    s.tree.searchTokens lim beyond comps (some 0) = .ok (s.lookup comps) := by
  cases hlook : s.lookup comps with
  | some q =>
    obtain ⟨hq,rfl⟩ := (h.lookup_iff comps q).mp hlook
    have hsearch := h.searchTokens_path hterm hq (List.prefix_refl _) []
    rw [List.append_nil] at hsearch
    exact hsearch
  | none =>
    obtain hsome | ⟨b,hb,hapart⟩ := hfind
    · rw [hlook] at hsome
      cases hsome
    have hne : comps ≠ [] := by
      rintro rfl
      cases hlook
    obtain ⟨hlt,hpath⟩ := (h.lookup_iff _ b).mp hb
    have hsplit : path b ++ [comps.getLast hne] = comps := by
      rw [hpath,List.dropLast_append_getLast]
    have hpre : path b ++ [comps.getLast hne] <+: comps :=
      ⟨[],by rw [List.append_nil,hsplit]⟩
    have hsearch := h.searchTokens_path hterm hlt ((List.prefix_append _ _).trans hpre)
      [comps.getLast hne]
    rw [hsplit,searchTokens_cons h.toWf hlt,h.seekName_none hterm
      (hcomps _ (List.getLast_mem hne)).1 hlt hpre (hapart _ (List.getLast?_eq_some_getLast hne))
      (hsplit.symm ▸ hlook)] at hsearch
    exact hsearch

theorem isearch_eq (h : Tidy lim s children path) {p : List Char} (hlen : p.length < lim.pathMax)
    (hterm : s.Terminated beyond (tokens p)) (hcomps : Proper (tokens p))
    (hfind : s.Findable (tokens p)) :
    s.tree.isearch lim beyond 0 p = .ok (s.lookup (tokens p)) := by
  rw [isearch,check,if_pos hlen]
  exact h.searchTokens_eq hterm hcomps hfind

variable {c : MknodCall}

/-- The inode that a successful call hangs into the tree. -/
structure Made (lim : Limits) (s : MknodState) (c : MknodCall) (children : ℕ → List ℕ)
    (t' : InodeTree) (b : ℕ) : Prop where
  parent : s.lookup (tokens (igetpath c.path.chars)) = some b
  tokens_eq : tokens c.path.chars = tokens (igetpath c.path.chars) ++ [igetname c.path.chars]
  fresh : s.lookup (tokens c.path.chars) = none
  short : (igetname c.path.chars).length < lim.nameMax
  hung : Wf.Hung s.tree t' children (igetname c.path.chars) c.mode c.dev b

/-- A call that fits returns what it is to return, and makes an inode or leaves all as it was. -/
theorem imknod_eq (h : Tidy lim s children path) (hc : s.CallFits lim c) :
    ∃ t', s.tree.imknod lim c.beyond 0 c.path.chars c.mode c.dev = .ok (s.expected lim c,t') ∧
      (s.expected lim c ≠ .ok () ∧ t' = s.tree ∨
        s.expected lim c = .ok () ∧ ∃ b, Made lim s c children t' b) := by
  rw [imknod,expected]
  by_cases hlong : lim.pathMax ≤ c.path.chars.length
  · refine ⟨s.tree,?_,Or.inl ⟨?_,rfl⟩⟩
    · rw [if_pos (Nat.not_lt.mpr hlong),if_pos (Or.inl hlong)]
      rfl
    · rw [if_pos (Or.inl hlong)]
      exact fun he => (by cases he)
  rw [Nat.not_le] at hlong
  rw [if_neg (not_not.mpr hlong)]
  by_cases hname : lim.nameMax ≤ (igetname c.path.chars).length
  · refine ⟨s.tree,?_,Or.inl ⟨?_,rfl⟩⟩
    · simp only [if_pos (Nat.not_lt.mpr hname),if_pos (Or.inr hname)]
      rfl
    · rw [if_pos (Or.inr hname)]
      exact fun he => (by cases he)
  rw [Nat.not_le] at hname
  obtain ⟨hterm,hfind,hdir⟩ := hc hlong hname
  have hproper := proper_tokens c.path
  have hshort : ¬(lim.pathMax ≤ c.path.chars.length ∨
      lim.nameMax ≤ (igetname c.path.chars).length) := by omega
  simp only [if_neg (not_not.mpr hname),if_neg hshort,h.isearch_eq hlong hterm hproper hfind]
  have hpathlen : (igetpath c.path.chars).length < lim.pathMax :=
    Nat.lt_of_le_of_lt (List.rdropWhile_prefix _ _).length_le hlong
  cases hlook : s.lookup (tokens c.path.chars) with
  | some q => exact ⟨s.tree,rfl,Or.inl ⟨fun he => (by cases he),rfl⟩⟩
  | none =>
    have hsplit := tokens_igetpath c.path
    by_cases hempty : igetname c.path.chars = []
    · -- behind a last slash the parent's path is the same one
      rw [if_pos hempty,List.append_nil] at hsplit
      have hparent := h.isearch_eq (p := igetpath c.path.chars) hpathlen (hsplit ▸ hterm)
        (hsplit ▸ hproper) (hsplit ▸ hfind)
      rw [← hsplit,hlook] at hparent
      refine ⟨s.tree,?_,Or.inl ⟨?_,rfl⟩⟩
      · simp only [hparent,← hsplit,hlook]
        rfl
      · simp only [← hsplit,hlook]
        exact fun he => (by cases he)
    · rw [if_neg hempty] at hsplit
      obtain hsome | ⟨b,hb,-⟩ := hfind
      · rw [hlook] at hsome
        cases hsome
      rw [hsplit,List.dropLast_concat] at hb
      have hb' : s.lookup (tokens (igetpath c.path.chars)) = some b := hb
      have hsub : tokens (igetpath c.path.chars) <+: tokens c.path.chars := by
        rw [hsplit]
        exact List.prefix_append _ _
      have hparent := h.isearch_eq (p := igetpath c.path.chars) hpathlen (hterm.mono hsub)
        (fun nd hnd => hproper nd (hsub.subset hnd)) (Or.inl (by rw [hb']; rfl))
      rw [hb'] at hparent
      have hmode := hdir hlook b hb
      obtain ⟨hlt,-⟩ := (h.lookup_iff _ b).mp hb'
      obtain ⟨t',hhang,hu⟩ := h.hang_spec hlt (igetname c.path.chars) c.mode c.dev
      have hor : ¬(s.tree.node b).mode ||| isaIfdir = 0 := fun hzero =>
        absurd (Nat.or_eq_zero_iff.mp hzero).2 (by decide)
      refine ⟨t',?_,Or.inr ⟨?_,b,hb',hsplit,hlook,hname,hu⟩⟩
      · simp only [hparent,hb',hmode,bind,Except.bind,if_neg hor,hhang]
        rfl
      · simp only [hb',hmode]
        rfl

theorem lookup_created (t' : InodeTree) (comps' : List (List Char)) (n : ℕ)
    (comps : List (List Char)) :
    MknodState.lookup ⟨t',s.created ++ [(comps',n)]⟩ comps =
      (s.lookup comps).or (if comps = comps' then some n else none) := by
  rw [lookup,lookup]
  by_cases hnil : comps = []
  · rw [if_pos hnil,if_pos hnil]
    rfl
  · rw [if_neg hnil,if_neg hnil,List.lookup_append,List.lookup_cons]
    by_cases hcomps : comps = comps'
    · simp [hcomps]
    · have hbeq : (comps == comps') = false := beq_eq_false_iff_ne.mpr hcomps
      simp [hcomps,hbeq]

/-- A new inode with a name of its own. -/
theorem made {t' : InodeTree} (h : Tidy lim s children path) (hm : Made lim s c children t' b) :
    Tidy lim ⟨t',s.created ++ [(tokens c.path.chars,s.tree.size)]⟩
      (Function.update children b (children b ++ [s.tree.size]))
      (Function.update path s.tree.size (tokens c.path.chars)) := by
  obtain ⟨hlt,hpath⟩ := (h.lookup_iff _ b).mp hm.parent
  have hu := hm.hung
  have hpos := h.pos
  have hbelong : ∀ q < s.tree.size, (s.tree.node q).belong < s.tree.size := fun q hq => by
    obtain rfl | hqpos := Nat.eq_zero_or_pos q
    · rw [h.root_belong]
      exact hq
    · exact (h.belong_lt q hqpos hq).trans hq
  have hname : (t'.node s.tree.size).name = igetname c.path.chars := by rw [hu.new]
  have hold : ∀ q < s.tree.size, (t'.node q).name = (s.tree.node q).name := fun q hq => by
    rw [hu.old q hq]
  have hpathold : ∀ q < s.tree.size,
      Function.update path s.tree.size (tokens c.path.chars) q = path q := fun q hq =>
    Function.update_of_ne (Nat.ne_of_lt hq) ..
  refine ⟨h.toWf.hung hlt hu,?_,?_,?_,?_,?_⟩
  · exact (hold 0 hpos).trans h.root_name
  · exact (hpathold 0 hpos).trans h.path_root
  · intro q hq hqpos
    rw [hu.size] at hq
    obtain hq | rfl := Nat.lt_succ_iff_lt_or_eq.mp hq
    · simp only [hold q hq,hu.belong_eq hq,hpathold q hq,hpathold _ (hbelong q hq)]
      exact h.path_eq q hq hqpos
    · simp only [hname,Function.update_self]
      rw [hu.new]
      simp only [hpathold b hlt]
      rw [hpath]
      exact hm.tokens_eq
  · intro q hq hqpos
    rw [hu.size] at hq
    obtain hq | rfl := Nat.lt_succ_iff_lt_or_eq.mp hq
    · simp only [hold q hq]
      exact h.name q hq hqpos
    · simp only [hname]
      have hmem : igetname c.path.chars ∈ tokens c.path.chars := by
        rw [hm.tokens_eq]
        exact List.mem_append_right _ List.mem_cons_self
      obtain ⟨hne,hnul⟩ := proper_tokens c.path _ hmem
      exact ⟨hne,hnul,hm.short⟩
  · intro comps q
    rw [lookup_created,hu.size]
    by_cases hcomps : comps = tokens c.path.chars
    · rw [hcomps,hm.fresh,if_pos rfl,Option.none_or,Option.some.injEq]
      constructor
      · rintro rfl
        exact ⟨Nat.lt_succ_self _,Function.update_self ..⟩
      · rintro ⟨hq,hqpath⟩
        obtain hq | rfl := Nat.lt_succ_iff_lt_or_eq.mp hq
        · rw [hpathold q hq] at hqpath
          have hfresh := hm.fresh
          rw [← hqpath,h.lookup_path hq] at hfresh
          cases hfresh
        · rfl
    · rw [if_neg hcomps,Option.or_none,h.lookup_iff]
      constructor
      · rintro ⟨hq,hqpath⟩
        exact ⟨Nat.lt_succ_of_lt hq,(hpathold q hq).trans hqpath⟩
      · rintro ⟨hq,hqpath⟩
        obtain hq | rfl := Nat.lt_succ_iff_lt_or_eq.mp hq
        · exact ⟨hq,(hpathold q hq).symm.trans hqpath⟩
        · rw [Function.update_self] at hqpath
          exact absurd hqpath.symm hcomps

theorem step (h : Tidy lim s children path) (hc : s.CallFits lim c) {s' : MknodState}
    (hs : (mknodMachine lim).Step s c s') : ∃ children path, Tidy lim s' children path := by
  obtain ⟨t',hrun,hout⟩ := h.imknod_eq hc
  have hnext := hs.2
  simp only [mknodMachine,hrun,Except.map] at hnext
  obtain ⟨hfail,rfl⟩ | ⟨hok,b,hm⟩ := hout
  · cases hexp : s.expected lim c with
    | error e =>
      rw [hexp] at hnext
      cases hnext
      exact ⟨children,path,h⟩
    | ok _ => exact absurd hexp hfail
  · rw [hok] at hnext
    cases hnext
    exact ⟨_,_,h.made hm⟩

theorem kept (h : Tidy lim s children path) : s.Kept lim where
  search p beyond hlen hterm hfind := h.isearch_eq hlen hterm (proper_tokens p) hfind
  call c hc := by
    obtain ⟨t',hrun,hout⟩ := h.imknod_eq hc
    refine ⟨t',hrun,fun hfail => ?_⟩
    obtain ⟨-,ht'⟩ | ⟨hok,-⟩ := hout
    · exact ht'
    · exact absurd hok hfail

end Tidy

end

end MknodState

/-- In every run whose calls fit, paths that can be found are found, and a call that fits returns
what it is to return. -/
theorem mknodRun_kept (lim : Limits) {s : MknodState} {calls : List MknodCall}
    (hc : (mknodMachine lim).Along (fun s c => s.CallFits lim c) .init calls)
    (hr : (mknodMachine lim).run .init calls = some s) : s.Kept lim := by
  have hstep : ∀ s c s', (∃ children path, MknodState.Tidy lim s children path) →
      s.CallFits lim c → (mknodMachine lim).Step s c s' →
      ∃ children path, MknodState.Tidy lim s' children path := by
    rintro s c s' ⟨children,path,h⟩ hc hs
    exact h.step hc hs
  obtain ⟨children,path,h⟩ := (mknodMachine lim).run_invariant hstep
    ⟨_,_,MknodState.Tidy.tidy_init lim⟩ hc hr
  exact h.kept

/-- A directory and a file in it, where the memory behind the names is clear. -/
theorem mknodRun_kept_two :
    ∃ s, (mknodMachine smallLimits).run .init twoCalls = some s ∧ s.Kept smallLimits := by
  have hruns : ((mknodMachine smallLimits).run .init twoCalls).isSome = true := by decide
  obtain ⟨s,hs⟩ := Option.isSome_iff_exists.mp hruns
  have hfits : (mknodMachine smallLimits).Along (fun s c => s.Findable (tokens c.path.chars) ∧
      ∀ b ∈ s.lookup (tokens (igetpath c.path.chars)), isDir (s.tree.node b).mode = true)
      .init twoCalls := by decide
  have hclear : ∀ c ∈ twoCalls, c.beyond = fun _ => [] := by
    intro c hc
    simp only [twoCalls,List.mem_cons,List.not_mem_nil,or_false] at hc
    obtain rfl | rfl := hc <;> rfl
  have hboth := Machine.Along.and_forall _ hfits hclear
  have hcalls : (mknodMachine smallLimits).Along (fun s c => s.CallFits smallLimits c) .init
      twoCalls := by
    refine (mknodMachine smallLimits).along_of_invariant (I := fun _ => True)
      (fun _ _ _ _ _ _ => trivial) (fun s c _ hc => ?_) trivial hboth
    obtain ⟨⟨hfind,hdir⟩,hbeyond⟩ := hc
    refine fun _ _ => ⟨fun q _ _ _ => ?_,hfind,fun _ => hdir⟩
    rw [hbeyond]
    rfl
  exact ⟨s,hs,mknodRun_kept smallLimits hcalls hs⟩

/-- With the root alone, a path of two components leads through NULL. -/
theorem not_mknodRun_kept : ¬∀ lim calls s, (mknodMachine lim).run .init calls = some s →
    ∀ (p : AbsPath) beyond, p.chars.length < lim.pathMax →
      s.tree.isearch lim beyond 0 p.chars = .ok (s.lookup (tokens p.chars)) := by
  intro h
  have hroot := h smallLimits [] .init rfl ⟨['/','x','/','y'],rfl,by decide⟩ (fun _ => []) (by decide)
  exact absurd hroot (by decide)

end Tinker

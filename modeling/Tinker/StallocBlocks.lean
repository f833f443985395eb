import Tinker.Stalloc

/-! The pool as a list of free blocks. `malloc` takes the first block that has the room and `free`
puts a block among the others, and the headers in the memory keep saying which blocks there are. -/
namespace Tinker

open Memory Outcome Tiles FirstFit

namespace MemPool

/-- A pointer that may be the null pointer. -/
def ptr (v : ℕ) : Option ℕ := if v = 0 then none else some v

def nextPtr (s : MemPool) (a : ℕ) : Option ℕ := ptr (s.next a)

/-- The block whose header is at `a`. -/
def span (w : ℕ) (s : MemPool) (a : ℕ) : Span := ⟨a,hlen w+s.len w a⟩

/-- The pool from `lo` to `hi` is cut into the blocks `fl`, which are free and hang together in this
order, and the blocks `us`, which are in use. -/
structure Well (w lo hi : ℕ) (s : MemPool) (fl us : List Span) : Prop where
  tiled : Tiled lo hi (fl ++ us)
  linked : Linked.Chain s.nextPtr (ptr s.mp) (fl.map Span.pos)
  sized : ∀ t ∈ fl ++ us, s.span w t.pos = t
  lo_pos : 0 < lo
  hi_le : hi ≤ 2^32
  small : hi-lo < 2^(8*w)

variable {w lo hi size n : ℕ} {q : Option ℕ} {s s' s2 : MemPool} {t u : Span}
  {fl fl' us us' l r : List Span} {as : List ℕ}

theorem ptr_of_pos {v : ℕ} (hv : 0 < v) : ptr v = some v := if_neg (by omega)

theorem hlen_pos : 0 < hlen w := Nat.add_pos_left (by decide) w

theorem minBlock_pos : 0 < minBlock w := Nat.mul_pos hlen_pos (by decide)

theorem hlen_le_of_span (h : s.span w t.pos = t) : hlen w ≤ t.size := by
  rw [← h]
  exact Nat.le_add_right _ _

theorem len_of_span (h : s.span w t.pos = t) : s.len w t.pos = t.size-hlen w := by
  have hsize : hlen w+s.len w t.pos = t.size := congrArg Span.size h
  omega

theorem span_of_len (h : s'.len w t.pos = s.len w t.pos) (ht : s.span w t.pos = t) :
    s'.span w t.pos = t := by
  rw [span,h]
  exact ht

/-- Blocks apart have headers apart. -/
theorem clear_of_apart (ht : hlen w ≤ t.size) (hu : hlen w ≤ u.size) (h : t.Apart u) :
    Clear w t.pos u.pos := by
  rcases h with hle | hle
  · exact Or.inl (by unfold Span.stop at hle; omega)
  · exact Or.inr (by unfold Span.stop at hle; omega)

namespace Well

theorem hlen_le (h : Well w lo hi s fl us) (ht : t ∈ fl ++ us) : hlen w ≤ t.size :=
  hlen_le_of_span (h.sized t ht)

theorem clear (h : Well w lo hi s fl us) (ht : t ∈ fl ++ us) (hu : u ∈ fl ++ us) (hne : t ≠ u) :
    Clear w t.pos u.pos :=
  clear_of_apart (h.hlen_le ht) (h.hlen_le hu) (h.tiled.apart_of_ne ht hu hne)

theorem apart_used (h : Well w lo hi s fl us) (ht : t ∈ fl) (hu : u ∈ us) : t.Apart u :=
  (List.pairwise_append.mp h.tiled.apart).2.2 t ht u hu

/-- The block that splits the list of all is none of the others. -/
theorem ne_of_split (h : Well w lo hi s fl us) (hsplit : fl ++ us = l ++ t :: r) (hu : u ∈ l ++ r) :
    t ≠ u := by
  have hnodup := h.tiled.nodup
  rw [hsplit] at hnodup
  have hnot := (List.nodup_middle.mp hnodup).notMem
  rintro rfl
  exact hnot hu

theorem clear_of_split (h : Well w lo hi s fl us) (hsplit : fl ++ us = l ++ t :: r)
    (hu : u ∈ l ++ r) : Clear w t.pos u.pos := by
  refine h.clear ?_ ?_ (h.ne_of_split hsplit hu)
  · rw [hsplit]
    exact List.mem_append_right l List.mem_cons_self
  · rw [hsplit]
    exact List.perm_middle.mem_iff.mpr (List.mem_cons_of_mem t hu)

theorem pos_pos (h : Well w lo hi s fl us) (ht : t ∈ fl ++ us) : 0 < t.pos :=
  Nat.lt_of_lt_of_le h.lo_pos (h.tiled.within ht).1

theorem pos_lt (h : Well w lo hi s fl us) (ht : t ∈ fl ++ us) : t.pos < 2^32 := by
  have hin := (h.tiled.within ht).2
  have hsize := h.tiled.size_pos t ht
  have hle := h.hi_le
  unfold Span.stop at hin
  omega

theorem length_lt (h : Well w lo hi s fl us) : fl.length < addresses := by
  have hle := h.tiled.length_le
  have hpos := h.lo_pos
  have hhi := h.hi_le
  rw [List.length_append] at hle
  unfold addresses
  omega

/-- The null pointer and only it is at the end of the free blocks. -/
theorem next_of_head (hl : Linked.Chain s.nextPtr (ptr n) (r.map Span.pos))
    (hpos : ∀ t ∈ r, 0 < t.pos) : n = (r.head?.map Span.pos).getD 0 := by
  cases r with
  | nil =>
    by_contra hne
    rw [List.map_nil,Linked.chain_nil,ptr_of_pos (Nat.pos_of_ne_zero hne)] at hl
    cases hl
  | cons t r =>
    have hhead := hl.1
    by_cases hn : n = 0
    · rw [hn] at hhead
      cases hhead
    · rw [ptr_of_pos (Nat.pos_of_ne_zero hn)] at hhead
      exact Option.some.inj hhead

end Well

/-- The last of the blocks that a walk from `q` has passed. -/
def lastLink (q : Option ℕ) (l : List Span) : Option ℕ := l.foldl (fun _ t => some t.pos) q

theorem lastLink_concat (q : Option ℕ) (l : List Span) (t : Span) :
    lastLink q (l ++ [t]) = some t.pos := by
  rw [lastLink,List.foldl_append]
  rfl

/-- The loop of `malloc` stops at the first block that has the room. -/
theorem findBlock_spec (hl : Linked.Chain s.nextPtr (ptr (s.link q)) (fl.map Span.pos))
    (hs : ∀ t ∈ fl, s.span w t.pos = t) (hpos : ∀ t ∈ fl, 0 < t.pos) (hn : fl.length < n) :
    Spec (findBlock w s size n q)
      (fun x => x = none ∧ (∀ t ∈ fl, t.size < hlen w+size) ∨
        ∃ l t r, fl = l ++ t :: r ∧ (∀ u ∈ l, u.size < hlen w+size) ∧ hlen w+size ≤ t.size ∧
          x = some (lastLink q l,t.pos)) (fun _ => False) := by
  induction fl generalizing n q with
  | nil =>
    obtain ⟨n,rfl⟩ := Nat.exists_eq_add_of_lt hn
    have hzero : s.link q = 0 := Well.next_of_head (r:=[]) hl fun t ht => (by cases ht)
    simp only [findBlock,hzero,if_true]
    exact Or.inl ⟨rfl,fun t ht => (by cases ht)⟩
  | cons t ts ih =>
    obtain ⟨n,rfl⟩ := Nat.exists_eq_add_of_lt hn
    have htpos := hpos t List.mem_cons_self
    have hlink : s.link q = t.pos := Well.next_of_head hl hpos
    have hlen := len_of_span (hs t List.mem_cons_self)
    have hle := hlen_le_of_span (hs t List.mem_cons_self)
    simp only [findBlock,hlink,if_neg (Nat.ne_of_gt htpos),hlen,spec_ite,spec_ok]
    constructor
    · intro hfits
      exact Or.inr ⟨[],t,ts,rfl,fun u hu => (by cases hu),by omega,rfl⟩
    · intro hsmall
      have hrest := ih (n:=(t :: ts).length+n) (q:=some t.pos) hl.2
        (fun u hu => hs u (List.mem_cons_of_mem t hu))
        (fun u hu => hpos u (List.mem_cons_of_mem t hu)) (by simp; omega)
      apply hrest.imp
      rintro x (⟨rfl,hall⟩ | ⟨l,u,r,rfl,hl,hu,rfl⟩)
      · exact Or.inl ⟨rfl,List.forall_mem_cons.mpr ⟨by omega,hall⟩⟩
      · exact Or.inr ⟨t :: l,u,r,rfl,List.forall_mem_cons.mpr ⟨by omega,hl⟩,hu,rfl⟩

/-- A block that is still there is where it was, if only headers beside it have changed. -/
theorem Outside.span (h : Outside w as s s') (ht : s.span w t.pos = t)
    (hclear : ∀ a ∈ as, Clear w a t.pos) : s'.span w t.pos = t :=
  span_of_len (h.header hclear).2 ht

theorem Outside.nextPtr (h : Outside w as s s') (hclear : ∀ a ∈ as, Clear w a t.pos) :
    s'.nextPtr t.pos = s.nextPtr t.pos := by
  rw [MemPool.nextPtr,(h.header hclear).1,MemPool.nextPtr]

theorem Outside.chain {ci : Option ℕ} (h : Outside w as s s')
    (hl : Linked.Chain s.nextPtr ci (l.map Span.pos))
    (hclear : ∀ t ∈ l, ∀ a ∈ as, Clear w a t.pos) :
    Linked.Chain s'.nextPtr ci (l.map Span.pos) := by
  apply hl.congr
  intro p hp
  obtain ⟨t,ht,rfl⟩ := List.mem_map.mp hp
  exact h.nextPtr (hclear t ht)

/-- Every byte of the blocks `us` is as it was. -/
def Keeps (us : List Span) (s s' : MemPool) : Prop :=
  ∀ t ∈ us, ∀ x, t.pos ≤ x → x < t.stop → s'.mem x = s.mem x

theorem Outside.keeps (h : Outside w as s s')
    (hapart : ∀ t ∈ us, ∀ a ∈ as, ∃ u : Span, u.Apart t ∧ u.pos = a ∧ hlen w ≤ u.size) :
    Keeps us s s' := by
  intro t ht x hle hlt
  refine h x fun a ha => ?_
  obtain ⟨u,hu,rfl,hsize⟩ := hapart t ht a ha
  unfold Span.Apart Span.stop at hu
  unfold Span.stop at hlt
  omega

namespace Well

/-- A block is taken out from among the free ones. -/
theorem takesOut (h : Well w lo hi s (l ++ t :: r) us) :
    Well w lo hi (s.setLink (s.next t.pos) (lastLink none l)) (l ++ r) (t :: us) ∧
      Outside w (l.map Span.pos) s (s.setLink (s.next t.pos) (lastLink none l)) := by
  have hperm : (l ++ t :: r ++ us).Perm (l ++ r ++ t :: us) := by
    simp only [List.append_assoc,List.cons_append]
    exact List.Perm.append_left l List.perm_middle.symm
  have htiled := h.tiled.perm hperm
  have hlinked := h.linked
  rw [List.map_append,List.map_cons] at hlinked
  have hbehind : Linked.Chain s.nextPtr (ptr (s.next t.pos)) (r.map Span.pos) := hlinked.behind
  obtain rfl | ⟨l0,q,rfl⟩ := List.eq_nil_or_concat' l
  · exact ⟨⟨htiled,hbehind,fun u hu => h.sized u (hperm.mem_iff.mpr hu),h.lo_pos,h.hi_le,h.small⟩,
      fun x hx => rfl⟩
  · rw [lastLink_concat]
    have hout := setNext_outside w s q.pos (s.next t.pos)
    have hq : q ∈ l0 ++ [q] ++ t :: r ++ us := by simp
    have hclear : ∀ u ∈ l0 ++ [q] ++ t :: r ++ us, u ≠ q → ∀ a ∈ [q.pos], Clear w a u.pos := by
      intro u hu hne a ha
      rw [List.mem_singleton.mp ha]
      exact h.clear hq hu hne.symm
    have hnodup := h.tiled.nodup
    simp only [List.append_assoc,List.cons_append,List.nil_append,List.nodup_append,List.nodup_cons,
      List.mem_cons,List.mem_append] at hnodup
    have hnext : s.next t.pos < 2^32 := by
      rw [next_of_head hbehind fun u hu => h.pos_pos (by simp [hu])]
      cases r with
      | nil => exact Nat.two_pow_pos 32
      | cons u r => exact h.pos_lt (t:=u) (by simp)
    refine ⟨⟨htiled,?_,?_,h.lo_pos,h.hi_le,h.small⟩,hout.mono (by simp)⟩
    · rw [List.append_assoc,List.map_append,List.cons_append,List.map_cons,List.nil_append]
      simp only [List.map_append,List.map_cons,List.map_nil,List.append_assoc,List.cons_append,
        List.nil_append] at hlinked
      apply hlinked.splice
      · intro p hp
        obtain ⟨u,hu,rfl⟩ := List.mem_map.mp hp
        refine hout.nextPtr (hclear u (by simp [hu]) ?_)
        rintro rfl
        exact hnodup.2.2 u hu u (Or.inl rfl) rfl
      · show Linked.Chain _ (ptr ((s.setNext q.pos (s.next t.pos)).next q.pos)) _
        rw [next_setNext hnext]
        apply hout.chain hbehind
        intro u hu
        refine hclear u (by simp [hu]) ?_
        rintro rfl
        exact hnodup.2.1.1 (Or.inr (Or.inl hu))
    · intro u hu
      have hmem := hperm.mem_iff.mpr hu
      by_cases huq : u = q
      · rw [huq]
        exact span_of_len len_setNext (h.sized q hq)
      · exact hout.span (h.sized u hmem) (hclear u hmem huq)

/-- The end of a free block is taken, with a header of its own. -/
theorem cutsOff {k : ℕ} (h : Well w lo hi s (l ++ t :: r) us) (hk : hlen w < k)
    (hsum : t.size = k+(hlen w+size))
    (htiled : Tiled lo hi (l ++ ⟨t.pos,k⟩ :: r ++ ⟨t.pos+k,hlen w+size⟩ :: us)) :
    Well w lo hi ((s.setLen w t.pos (k-hlen w)).setLen w (t.pos+k) size) (l ++ ⟨t.pos,k⟩ :: r)
        (⟨t.pos+k,hlen w+size⟩ :: us) ∧
      Outside w [t.pos,t.pos+k] s ((s.setLen w t.pos (k-hlen w)).setLen w (t.pos+k) size) := by
  have ht : t ∈ l ++ t :: r ++ us := by simp
  have hin := h.tiled.within ht
  have hsmall := h.small
  have hfirst := setLen_outside w s t.pos (k-hlen w)
  have hsecond := setLen_outside w (s.setLen w t.pos (k-hlen w)) (t.pos+k) size
  have hout : Outside w [t.pos,t.pos+k] s
      ((s.setLen w t.pos (k-hlen w)).setLen w (t.pos+k) size) :=
    (hfirst.mono (by simp)).trans (hsecond.mono (by simp))
  -- the new header stands beside the old one
  have hbeside : ∀ a ∈ [t.pos+k], Clear w a t.pos := by
    intro a ha
    rw [List.mem_singleton.mp ha]
    exact Or.inr (by omega)
  have hclear : ∀ u ∈ l ++ t :: r ++ us, u ≠ t → ∀ a ∈ [t.pos,t.pos+k], Clear w a u.pos := by
    intro u hu hne a ha
    have hapart := h.tiled.apart_of_ne ht hu hne.symm
    have hle := h.hlen_le hu
    unfold Span.Apart Span.stop at hapart
    unfold Clear
    simp only [List.mem_cons,List.not_mem_nil,or_false] at ha
    rcases ha with rfl | rfl <;> omega
  have hnodup := h.tiled.nodup
  simp only [List.append_assoc,List.cons_append,List.nodup_append,List.nodup_cons,List.mem_cons,
    List.mem_append] at hnodup
  have hl : ∀ u ∈ l, u ≠ t := fun u hu => hnodup.2.2 u hu t (Or.inl rfl)
  have hr : ∀ u, u ∈ r ∨ u ∈ us → u ≠ t := by
    rintro u hu rfl
    exact hnodup.2.1.1 hu
  refine ⟨⟨htiled,?_,?_,h.lo_pos,h.hi_le,h.small⟩,hout⟩
  · have hlinked := h.linked
    rw [List.map_append,List.map_cons] at hlinked ⊢
    apply hlinked.splice
    · intro p hp
      obtain ⟨u,hu,rfl⟩ := List.mem_map.mp hp
      exact hout.nextPtr (hclear u (by simp [hu]) (hl u hu))
    · rw [hsecond.nextPtr hbeside,MemPool.nextPtr,next_setLen]
      apply hout.chain hlinked.behind
      exact fun u hu => hclear u (by simp [hu]) (hr u (Or.inl hu))
  · have hold : ∀ u ∈ l ++ t :: r ++ us, u ≠ t →
        MemPool.span w ((s.setLen w t.pos (k-hlen w)).setLen w (t.pos+k) size) u.pos = u :=
      fun u hu hne => hout.span (h.sized u hu) (hclear u hu hne)
    have hrest : MemPool.span w ((s.setLen w t.pos (k-hlen w)).setLen w (t.pos+k) size) t.pos =
        ⟨t.pos,k⟩ := by
      rw [MemPool.span,(hsecond.header hbeside).2,len_setLen (by unfold Span.stop at hin; omega)]
      exact Span.ext rfl (by dsimp only; omega)
    have hnew : MemPool.span w ((s.setLen w t.pos (k-hlen w)).setLen w (t.pos+k) size) (t.pos+k) =
        ⟨t.pos+k,hlen w+size⟩ := by
      rw [MemPool.span,len_setLen (by unfold Span.stop at hin; omega)]
    intro u hu
    simp only [List.append_assoc,List.cons_append,List.mem_append,List.mem_cons] at hu
    rcases hu with hu | rfl | hu | rfl | hu
    · exact hold u (by simp [hu]) (hl u hu)
    · exact hrest
    · exact hold u (by simp [hu]) (hr u (Or.inl hu))
    · exact hnew
    · exact hold u (by simp [hu]) (hr u (Or.inr hu))

/-- `malloc` takes what the list of free blocks gives. -/
theorem malloc_spec (h : Well w lo hi s fl us) (size : ℕ) :
    Spec (malloc w s size) (fun x =>
      take (hlen w) (minBlock w) (evenSize w size) fl = none ∧ x = (0,s) ∨
      ∃ u fl', take (hlen w) (minBlock w) (evenSize w size) fl = some (u,fl') ∧
        x.1 = u.pos+hlen w ∧ Well w lo hi x.2 fl' (u :: us) ∧ Keeps us s x.2)
      (fun _ => False) := by
  have hpos : ∀ t ∈ fl, 0 < t.pos := fun t ht => h.pos_pos (List.mem_append_left us ht)
  simp only [malloc,spec_bind]
  refine (findBlock_spec (q:=none) h.linked
    (fun t ht => h.sized t (List.mem_append_left us ht)) hpos h.length_lt).imp ?_
  rintro x (⟨rfl,hall⟩ | ⟨l,t,r,rfl,hl,ht,rfl⟩)
  · exact Or.inl ⟨take_eq_none_iff.mpr hall,rfl⟩
  · have hmem : t ∈ l ++ t :: r ++ us := by simp
    have htake : take (hlen w) (minBlock w) (evenSize w size) (l ++ t :: r) = _ := take_first hl ht
    simp only [len_of_span (h.sized t hmem),spec_ite,spec_pure]
    refine ⟨fun hk => ?_,fun hk => ?_⟩
    · rw [if_pos hk] at htake
      obtain ⟨hwell,hout⟩ := h.takesOut
      refine Or.inr ⟨t,l ++ r,htake,rfl,hwell,hout.keeps fun v hv a ha => ?_⟩
      obtain ⟨u,hu,rfl⟩ := List.mem_map.mp ha
      exact ⟨u,h.apart_used (by simp [hu]) hv,rfl,h.hlen_le (by simp [hu])⟩
    · rw [if_neg hk] at htake
      have hleast : minBlock w = hlen w*4 := rfl
      have hh : 0 < hlen w := hlen_pos
      obtain ⟨hwell,hout⟩ := h.cutsOff (k:=t.size-hlen w-evenSize w size)
        (by omega) (by omega) (take_tiled htake hlen_pos minBlock_pos h.tiled)
      have hq : t.pos+hlen w+(t.size-hlen w-evenSize w size-hlen w) =
          t.pos+(t.size-hlen w-evenSize w size) := by omega
      rw [hq]
      refine Or.inr ⟨_,_,htake,rfl,hwell,hout.keeps fun v hv a ha => ?_⟩
      simp only [List.mem_cons,List.not_mem_nil,or_false] at ha
      rcases ha with rfl | rfl
      · exact ⟨t,h.apart_used (by simp) hv,rfl,h.hlen_le hmem⟩
      · have hnew := (List.pairwise_append.mp hwell.tiled.apart).2.1
        exact ⟨_,(List.pairwise_cons.mp hnew).1 v hv,rfl,Nat.le_add_right _ _⟩

end Well

/-! ### Taking a block back -/

/-- The loop of `free` stops where the list has the place of the block. -/
theorem findPlace_spec {q : Span} (hl : Linked.Chain s.nextPtr (some q.pos) ((q :: r).map Span.pos))
    (hpos : ∀ u ∈ r, 0 < u.pos) (hn : (q :: r).length ≤ n) (t : Span) :
    Spec (findPlace s t.pos n q.pos) (fun x => ∃ l q' r', q :: r = l ++ q' :: r' ∧
      x = (q'.pos,(r'.head?.map Span.pos).getD 0) ∧ give t (q :: r) = l ++ joinDown q' (joinUp t r'))
      (fun _ => False) := by
  induction r generalizing n q with
  | nil =>
    obtain ⟨n,rfl⟩ := Nat.exists_eq_add_of_le hn
    have hnext : s.next q.pos = 0 := Well.next_of_head (r:=[]) hl.2 hpos
    rw [List.length_singleton,Nat.add_comm,findPlace]
    simp only [hnext,true_or,if_true]
    exact ⟨[],q,[],rfl,rfl,rfl⟩
  | cons p ts ih =>
    obtain ⟨n,rfl⟩ := Nat.exists_eq_add_of_le hn
    have hnext : s.next q.pos = p.pos := Well.next_of_head hl.2 hpos
    have hppos := hpos p List.mem_cons_self
    rw [List.length_cons,Nat.add_right_comm,findPlace]
    simp only [hnext,Nat.ne_of_gt hppos,false_or,spec_ite,spec_ok]
    constructor
    · intro hlt
      exact ⟨[],q,p :: ts,rfl,rfl,by rw [give,if_pos hlt,List.nil_append]⟩
    · intro hlt
      have hchain := hl.2
      rw [hchain.1] at hchain
      refine (ih (n:=(p :: ts).length+n) hchain (fun u hu => hpos u (List.mem_cons_of_mem p hu))
        (Nat.le_add_right _ n)).imp ?_
      rintro x ⟨l,q',r',hsplit,rfl,hgive⟩
      refine ⟨q :: l,q',r',by rw [hsplit,List.cons_append],rfl,?_⟩
      rw [give,if_neg hlt,hgive,List.cons_append]

theorem mergeUp_mp (w : ℕ) (s : MemPool) (p0 p : ℕ) : (s.mergeUp w p0 p).mp = s.mp := by
  rw [mergeUp]
  split <;> rfl

theorem mergeDown_mp (w : ℕ) (s : MemPool) (q p0 : ℕ) : (s.mergeDown w q p0).mp = s.mp := by
  rw [mergeDown]
  split <;> rfl

/-- B3: the block takes in the free one that it meets, and leads to those behind. -/
theorem mergeUp_spec {p : ℕ} (hl : Linked.Chain s.nextPtr (ptr p) (r.map Span.pos))
    (ht : s.span w t.pos = t) (hr : ∀ u ∈ r, s.span w u.pos = u)
    (hpos : ∀ u ∈ r, 0 < u.pos ∧ u.pos < 2^32) (hclear : ∀ u ∈ r, Clear w t.pos u.pos)
    (hsmall : (joinUp t r).1.size < 2^(8*w)) :
    Outside w [t.pos] s (s.mergeUp w t.pos p) ∧
      (s.mergeUp w t.pos p).span w t.pos = (joinUp t r).1 ∧
      Linked.Chain (s.mergeUp w t.pos p).nextPtr ((s.mergeUp w t.pos p).nextPtr t.pos)
        ((joinUp t r).2.map Span.pos) := by
  have hsame : ∀ u ∈ r, ∀ a ∈ [t.pos], Clear w a u.pos := by
    intro u hu a ha
    rw [List.mem_singleton.mp ha]
    exact hclear u hu
  -- where the block is linked to `p` only
  have hplain : p < 2^32 → (joinUp t r) = (t,r) →
      Outside w [t.pos] s (s.setNext t.pos p) ∧ (s.setNext t.pos p).span w t.pos = (joinUp t r).1 ∧
      Linked.Chain (s.setNext t.pos p).nextPtr ((s.setNext t.pos p).nextPtr t.pos)
        ((joinUp t r).2.map Span.pos) := by
    intro hp hjoin
    have hout := setNext_outside w s t.pos p
    rw [hjoin]
    refine ⟨hout,span_of_len len_setNext ht,?_⟩
    rw [nextPtr,next_setNext hp]
    exact hout.chain hl hsame
  cases r with
  | nil =>
    have hp : p = 0 := Well.next_of_head (r:=[]) hl fun u hu => (by cases hu)
    subst hp
    rw [mergeUp,if_neg (fun h => h.1 rfl)]
    exact hplain (Nat.two_pow_pos 32) rfl
  | cons u r =>
    obtain rfl : p = u.pos := Well.next_of_head hl fun v hv => (hpos v hv).1
    have hupos := hpos u List.mem_cons_self
    have hlenT := len_of_span ht
    have hlenU := len_of_span (hr u List.mem_cons_self)
    have hleT := hlen_le_of_span ht
    have hleU := hlen_le_of_span (hr u List.mem_cons_self)
    have hmeet_iff : u.pos ≠ 0 ∧ t.pos+s.len w t.pos+hlen w = u.pos ↔ t.stop = u.pos := by
      unfold Span.stop
      omega
    rw [mergeUp]
    simp only [hmeet_iff]
    by_cases hmeet : t.stop = u.pos
    · rw [if_pos hmeet]
      simp only [joinUp,if_pos hmeet] at hsmall ⊢
      have hfirst := setLen_outside w s t.pos ((s.len w t.pos+s.len w u.pos+hlen w) % 2^(8*w))
      have hnext : (s.setLen w t.pos ((s.len w t.pos+s.len w u.pos+hlen w) % 2^(8*w))).next u.pos =
          s.next u.pos := (hfirst.header (hsame u List.mem_cons_self)).1
      have hrest : Linked.Chain s.nextPtr (ptr (s.next u.pos)) (r.map Span.pos) := hl.2
      have hlt : s.next u.pos < 2^32 := by
        rw [Well.next_of_head hrest fun v hv => (hpos v (List.mem_cons_of_mem u hv)).1]
        cases r with
        | nil => exact Nat.two_pow_pos 32
        | cons v r => exact (hpos v (by simp)).2
      have hsum : s.len w t.pos+s.len w u.pos+hlen w = t.size+u.size-hlen w := by omega
      rw [hnext]
      have hout := hfirst.trans (setNext_outside w
        (s.setLen w t.pos ((s.len w t.pos+s.len w u.pos+hlen w) % 2^(8*w))) t.pos (s.next u.pos))
      refine ⟨hout,?_,?_⟩
      · rw [span,len_setNext,len_setLen (Nat.mod_lt _ (Nat.two_pow_pos _)),hsum,
          Nat.mod_eq_of_lt (by omega)]
        exact Span.ext rfl (by dsimp only; omega)
      · rw [nextPtr,next_setNext hlt]
        exact hout.chain hrest fun v hv => hsame v (List.mem_cons_of_mem u hv)
    · rw [if_neg hmeet]
      exact hplain hupos.2 (by rw [joinUp,if_neg hmeet])

/-- B4: the free block before takes in the block where they meet, and leads to it elsewhere. -/
theorem mergeDown_spec {q : Span} {x : Span × List Span}
    (hl : Linked.Chain s.nextPtr (s.nextPtr x.1.pos) (x.2.map Span.pos))
    (hq : s.span w q.pos = q) (hx : ∀ u ∈ x.1 :: x.2, s.span w u.pos = u)
    (hpos : ∀ u ∈ x.1 :: x.2, 0 < u.pos ∧ u.pos < 2^32)
    (hclear : ∀ u ∈ x.1 :: x.2, Clear w q.pos u.pos) (hsmall : q.size+x.1.size < 2^(8*w)) :
    Outside w [q.pos] s (s.mergeDown w q.pos x.1.pos) ∧
      (∀ u ∈ joinDown q x, (s.mergeDown w q.pos x.1.pos).span w u.pos = u) ∧
      Linked.Chain (s.mergeDown w q.pos x.1.pos).nextPtr (some q.pos)
        ((joinDown q x).map Span.pos) := by
  have hsame : ∀ u ∈ x.1 :: x.2, ∀ a ∈ [q.pos], Clear w a u.pos := by
    intro u hu a ha
    rw [List.mem_singleton.mp ha]
    exact hclear u hu
  have hrest : ∀ u ∈ x.2, ∀ a ∈ [q.pos], Clear w a u.pos :=
    fun u hu => hsame u (List.mem_cons_of_mem x.1 hu)
  have hxpos := hpos x.1 List.mem_cons_self
  have hlenQ := len_of_span hq
  have hlenX := len_of_span (hx x.1 List.mem_cons_self)
  have hleQ := hlen_le_of_span hq
  have hleX := hlen_le_of_span (hx x.1 List.mem_cons_self)
  have hmeet_iff : q.pos+s.len w q.pos+hlen w = x.1.pos ↔ q.stop = x.1.pos := by
    unfold Span.stop
    omega
  rw [mergeDown]
  simp only [hmeet_iff]
  by_cases hmeet : q.stop = x.1.pos
  · rw [if_pos hmeet,joinDown,if_pos hmeet]
    have hfirst := setLen_outside w s q.pos ((s.len w q.pos+s.len w x.1.pos+hlen w) % 2^(8*w))
    have hnext : (s.setLen w q.pos ((s.len w q.pos+s.len w x.1.pos+hlen w) % 2^(8*w))).next x.1.pos =
        s.next x.1.pos := (hfirst.header (hsame x.1 List.mem_cons_self)).1
    have hlt : s.next x.1.pos < 2^32 := by
      rw [Well.next_of_head hl fun v hv => (hpos v (List.mem_cons_of_mem _ hv)).1]
      cases hx2 : x.2 with
      | nil => exact Nat.two_pow_pos 32
      | cons v r => exact (hpos v (by simp [hx2])).2
    have hsum : s.len w q.pos+s.len w x.1.pos+hlen w = q.size+x.1.size-hlen w := by omega
    rw [hnext]
    have hout := hfirst.trans (setNext_outside w
      (s.setLen w q.pos ((s.len w q.pos+s.len w x.1.pos+hlen w) % 2^(8*w))) q.pos (s.next x.1.pos))
    refine ⟨hout,List.forall_mem_cons.mpr ⟨?_,fun u hu => ?_⟩,rfl,?_⟩
    · rw [span,len_setNext,len_setLen (Nat.mod_lt _ (Nat.two_pow_pos _)),hsum,
        Nat.mod_eq_of_lt (by omega)]
      exact Span.ext rfl (by dsimp only; omega)
    · exact hout.span (hx u (List.mem_cons_of_mem _ hu)) (hrest u hu)
    · rw [nextPtr,next_setNext hlt]
      exact hout.chain hl hrest
  · rw [if_neg hmeet,joinDown,if_neg hmeet]
    have hout := setNext_outside w s q.pos x.1.pos
    refine ⟨hout,?_,rfl,?_,?_⟩
    · exact List.forall_mem_cons.mpr ⟨span_of_len len_setNext hq,
        fun u hu => hout.span (hx u hu) (hsame u hu)⟩
    · rw [nextPtr,next_setNext hxpos.2,ptr_of_pos hxpos.1]
    · rw [hout.nextPtr (hsame x.1 List.mem_cons_self)]
      exact hout.chain hl hrest

namespace Well

/-- A block that is put behind the free block `q` is joined with its neighbours. -/
theorem merges {q : Span} (h : Well w lo hi s (l ++ q :: r) (t :: us)) :
    Well w lo hi ((s.mergeUp w t.pos ((r.head?.map Span.pos).getD 0)).mergeDown w q.pos t.pos)
        (l ++ joinDown q (joinUp t r)) us ∧
      Outside w [t.pos,q.pos] s
        ((s.mergeUp w t.pos ((r.head?.map Span.pos).getD 0)).mergeDown w q.pos t.pos) := by
  have hmem : ∀ u, u = t ∨ u = q ∨ u ∈ l ∨ u ∈ r ∨ u ∈ us → u ∈ l ++ q :: r ++ t :: us := by
    rintro u (rfl | rfl | hu | hu | hu) <;> simp [*]
  have hbounds : ∀ u, u = t ∨ u = q ∨ u ∈ l ∨ u ∈ r ∨ u ∈ us → 0 < u.pos ∧ u.pos < 2^32 :=
    fun u hu => ⟨h.pos_pos (hmem u hu),h.pos_lt (hmem u hu)⟩
  have hclearT : ∀ u, u = q ∨ u ∈ l ∨ u ∈ r ∨ u ∈ us → Clear w t.pos u.pos :=
    fun u hu => h.clear_of_split rfl (by simp only [List.mem_append,List.mem_cons]; tauto)
  have hclearQ : ∀ u, u = t ∨ u ∈ l ∨ u ∈ r ∨ u ∈ us → Clear w q.pos u.pos :=
    fun u hu => h.clear_of_split (l:=l) (r:=r ++ t :: us) (by simp)
      (by simp only [List.mem_append,List.mem_cons]; tauto)
  have hplaced := place_tiled h.tiled
  have hsizes : (joinUp t r).1.size < 2^(8*w) ∧ q.size+(joinUp t r).1.size < 2^(8*w) := by
    have hqin := hplaced.within (t:=q) (by simp)
    have hxin := hplaced.within (t:=(joinUp t r).1) (by simp)
    have hapart := (List.pairwise_cons.mp hplaced.apart).1 _ List.mem_cons_self
    have hsmall := h.small
    unfold Span.Apart Span.stop at hapart
    unfold Span.stop at hqin hxin
    omega
  have hlinked := h.linked
  rw [List.map_append,List.map_cons] at hlinked
  have hbehind := hlinked.behind
  have hnext : s.next q.pos = (r.head?.map Span.pos).getD 0 :=
    next_of_head hbehind fun u hu => (hbounds u (by tauto)).1
  rw [nextPtr,hnext] at hbehind
  -- first the block and what lies above it
  obtain ⟨hout1,hspan1,hchain1⟩ := mergeUp_spec hbehind (h.sized t (hmem t (by tauto)))
    (fun u hu => h.sized u (hmem u (by tauto))) (fun u hu => hbounds u (by tauto))
    (fun u hu => hclearT u (by tauto)) hsizes.1
  have hstay1 : ∀ u, u = q ∨ u ∈ l ∨ u ∈ r ∨ u ∈ us →
      (s.mergeUp w t.pos ((r.head?.map Span.pos).getD 0)).span w u.pos = u := by
    intro u hu
    refine hout1.span (h.sized u (hmem u (by tauto))) fun a ha => ?_
    rw [List.mem_singleton.mp ha]
    exact hclearT u hu
  -- then the free block below
  have hx : ∀ u ∈ (joinUp t r).1 :: (joinUp t r).2, u = (joinUp t r).1 ∨ u ∈ r := by
    intro u hu
    exact (List.mem_cons.mp hu).imp_right joinUp_mem
  have hmp := mergeUp_mp w s t.pos ((r.head?.map Span.pos).getD 0)
  generalize s.mergeUp w t.pos ((r.head?.map Span.pos).getD 0) = s1 at *
  rw [← joinUp_pos t r] at hchain1 hspan1
  obtain ⟨hout2,hspan2,hchain2⟩ := mergeDown_spec (q:=q) (x:=joinUp t r) hchain1
    (hstay1 q (Or.inl rfl))
    (fun u hu => (hx u hu).elim (fun he => he ▸ hspan1) fun hr => hstay1 u (by tauto))
    (fun u hu => (hx u hu).elim (fun he => by rw [he,joinUp_pos]; exact hbounds t (Or.inl rfl))
      fun hr => hbounds u (by tauto))
    (fun u hu => (hx u hu).elim (fun he => by rw [he,joinUp_pos]; exact hclearQ t (Or.inl rfl))
      fun hr => hclearQ u (by tauto)) hsizes.2
  rw [joinUp_pos] at hout2 hspan2 hchain2
  have hup : Outside w [t.pos,q.pos] _ _ := hout1.mono (by simp)
  have hout := hup.trans (hout2.mono (by simp))
  have hstay : ∀ u, u ∈ l ∨ u ∈ us → ∀ a ∈ [t.pos,q.pos], Clear w a u.pos := by
    intro u hu a ha
    simp only [List.mem_cons,List.not_mem_nil,or_false] at ha
    rcases ha with rfl | rfl
    · exact hclearT u (by tauto)
    · exact hclearQ u (by tauto)
  refine ⟨⟨?_,?_,?_,h.lo_pos,h.hi_le,h.small⟩,hout⟩
  · apply (joinDown_tiled hplaced).perm
    rw [← List.append_assoc]
    exact List.perm_append_comm.append_right us
  · have hjoined : ∃ ps, (joinDown q (joinUp t r)).map Span.pos = q.pos :: ps := by
      rw [joinDown]
      split <;> exact ⟨_,rfl⟩
    obtain ⟨ps,hps⟩ := hjoined
    rw [List.map_append,hps,mergeDown_mp,hmp]
    rw [hps] at hchain2
    apply hlinked.splice
    · intro p hp
      obtain ⟨u,hu,rfl⟩ := List.mem_map.mp hp
      exact hout.nextPtr (hstay u (Or.inl hu))
    · exact hchain2.2
  · intro u hu
    simp only [List.append_assoc,List.mem_append] at hu
    rcases hu with hu | hu | hu
    · exact hout.span (h.sized u (hmem u (by tauto))) (hstay u (Or.inl hu))
    · exact hspan2 u hu
    · exact hout.span (h.sized u (hmem u (by tauto))) (hstay u (Or.inr hu))

/-- `free` puts the block where the list does. Where no block is free, what the header of the block
has for `next` is left as it is. -/
theorem free_spec (h : Well w lo hi s fl (t :: us)) (hstale : fl = [] → s.next t.pos = 0) :
    Spec (free w s (t.pos+hlen w)) (fun s' => Well w lo hi s' (give t fl) us ∧ Keeps us s s')
      (fun _ => False) := by
  have htpos := h.pos_pos (t:=t) (by simp)
  have hne : ¬t.pos+hlen w = 0 := by omega
  have hmp := next_of_head h.linked fun u hu => h.pos_pos (List.mem_append_left _ hu)
  simp only [free,if_neg hne,Nat.add_sub_cancel]
  cases fl with
  | nil =>
    have hzero : s.mp = 0 := hmp
    simp only [hzero,if_true,spec_pure]
    refine ⟨⟨h.tiled,⟨ptr_of_pos htpos,?_⟩,h.sized,h.lo_pos,h.hi_le,h.small⟩,
      fun v hv x hle hlt => rfl⟩
    show ptr (s.next t.pos) = none
    rw [hstale rfl]
    rfl
  | cons q0 ts =>
    have hhead : s.mp = q0.pos := hmp
    have hq0 := h.pos_pos (t:=q0) (by simp)
    have hlinked := h.linked
    rw [hhead,ptr_of_pos hq0] at hlinked
    simp only [hhead,if_neg (Nat.ne_of_gt hq0),spec_bind]
    refine (findPlace_spec hlinked (fun u hu => h.pos_pos (by simp [hu]))
      (Nat.le_of_lt h.length_lt) t).imp ?_
    rintro x ⟨l,q,r,hsplit,rfl,hgive⟩
    rw [hgive]
    rw [hsplit] at h
    obtain ⟨hwell,hout⟩ := h.merges
    refine ⟨hwell,hout.keeps fun v hv a ha => ?_⟩
    simp only [List.mem_cons,List.not_mem_nil,or_false] at ha
    rcases ha with rfl | rfl
    · have hlast := (List.pairwise_append.mp h.tiled.apart).2.1
      exact ⟨t,(List.pairwise_cons.mp hlast).1 v hv,rfl,h.hlen_le (by simp)⟩
    · exact ⟨q,h.apart_used (by simp) (List.mem_cons_of_mem t hv),rfl,h.hlen_le (by simp)⟩

/-- A pool begins as one free block. -/
theorem init {pool : ℕ} (s : MemPool) (hpool : 0 < pool) (hend : pool+size ≤ 2^32)
    (hlow : hlen w ≤ size) (hhigh : size < 2^(8*w)) :
    Well w pool (pool+size) (initMempool w s pool size) [⟨pool,size⟩] [] := by
  have hh : 0 < hlen w := hlen_pos
  have hlen : (size+(2^(8*w)-hlen w)) % 2^(8*w) = size-hlen w := by
    rw [show size+(2^(8*w)-hlen w) = size-hlen w+2^(8*w) by omega,Nat.add_mod_right,
      Nat.mod_eq_of_lt (by omega)]
  refine ⟨?_,⟨ptr_of_pos hpool,?_⟩,?_,hpool,hend,by omega⟩
  · have htiled : Tiled pool (pool+size) _ := tiled_one (by omega)
    rwa [Nat.add_sub_cancel_left] at htiled
  · rw [MemPool.nextPtr,initMempool,next_setLen,next_setNext (Nat.two_pow_pos 32)]
    rfl
  · intro t ht
    obtain rfl := List.mem_singleton.mp ht
    rw [MemPool.span,initMempool,hlen,len_setLen (by omega)]
    exact Span.ext rfl (by dsimp only; omega)

/-- Which list the blocks in use come in does not matter. -/
theorem perm (h : Well w lo hi s fl us) (hp : us.Perm us') : Well w lo hi s fl us' where
  tiled := h.tiled.perm (hp.append_left fl)
  linked := h.linked
  sized t ht := h.sized t ((hp.append_left fl).mem_iff.mpr ht)
  lo_pos := h.lo_pos
  hi_le := h.hi_le
  small := h.small

/-- The bytes of a block in use are in no header. -/
theorem poke_header (h : Well w lo hi s fl us) (ht : t ∈ us) {a : ℕ} {b : List Byte}
    (hlo : t.pos+hlen w ≤ a) (hhi : a+b.length ≤ t.stop) (hu : u ∈ fl ++ us) :
    MemPool.next { s with mem := Memory.poke s.mem a b } u.pos = s.next u.pos ∧
      MemPool.len w { s with mem := Memory.poke s.mem a b } u.pos = s.len w u.pos := by
  have hclear : u.pos+hlen w ≤ a ∨ a+b.length ≤ u.pos := by
    by_cases hut : u = t
    · exact Or.inl (hut ▸ hlo)
    · have hapart := h.tiled.apart_of_ne hu (List.mem_append_right fl ht) hut
      have hle := h.hlen_le hu
      unfold Span.Apart Span.stop at hapart
      unfold Span.stop at hhi
      omega
  unfold hlen at hclear
  constructor
  · rw [MemPool.next,peek_poke_of_apart (by omega),MemPool.next]
  · rw [MemPool.len,peek_poke_of_apart (by omega),MemPool.len]

/-- What a program does with its blocks leaves the pool as it is. -/
theorem poke (h : Well w lo hi s fl us) (ht : t ∈ us) {a : ℕ} {b : List Byte}
    (hlo : t.pos+hlen w ≤ a) (hhi : a+b.length ≤ t.stop) :
    Well w lo hi { s with mem := Memory.poke s.mem a b } fl us := by
  have hsame := fun u hu => h.poke_header (u:=u) ht hlo hhi hu
  refine ⟨h.tiled,?_,fun u hu => span_of_len (hsame u hu).2 (h.sized u hu),h.lo_pos,h.hi_le,h.small⟩
  apply h.linked.congr
  intro p hp
  obtain ⟨u,hu,rfl⟩ := List.mem_map.mp hp
  rw [MemPool.nextPtr,(hsame u (List.mem_append_left us hu)).1,MemPool.nextPtr]

end Well

end MemPool

end Tinker

import Tinker.Tiles

/-! Free spans in a list: the first one that has the room is given out, or its end is, and a span
that comes back is joined with the free ones it meets. `hd` bytes of a span are its header. -/
namespace FirstFit

open Tiles

variable {hd least size lo hi : ℕ} {s t u : Span} {fl fl' us l r : List Span}

/-- A span with room for `size` bytes, and the free ones without it. A rest that is shorter than
`least` is not worth keeping. -/
def take (hd least size : ℕ) : List Span → Option (Span × List Span)
  | [] => none
  | t :: ts =>
    if hd+size ≤ t.size then
      let k := t.size-hd-size
      if k < least then some (t,ts) else some (⟨t.pos+k,hd+size⟩,⟨t.pos,k⟩ :: ts)
    else (take hd least size ts).map fun x => (x.1,t :: x.2)

/-- A span in front of others, joined with the first one where they meet. -/
def joinUp (t : Span) : List Span → Span × List Span
  | [] => (t,[])
  | p :: ts => if t.stop = p.pos then (⟨t.pos,t.size+p.size⟩,ts) else (t,p :: ts)

/-- The same with a span before it. -/
def joinDown (q : Span) (x : Span × List Span) : List Span :=
  if q.stop = x.1.pos then ⟨q.pos,q.size+x.1.size⟩ :: x.2 else q :: x.1 :: x.2

/-- The span `t` among the free ones. It is never put before the first of them. -/
def give (t : Span) : List Span → List Span
  | [] => [t]
  | [q] => joinDown q (t,[])
  | q :: p :: ts => if t.pos < p.pos then joinDown q (joinUp t (p :: ts)) else q :: give t (p :: ts)

/-- In the order of their addresses, and no two of them meet. -/
def Spaced (fl : List Span) : Prop := fl.Pairwise fun s t => s.stop < t.pos

/-! ### Giving out -/

/-- What is given out, and what is left of the free spans. -/
theorem take_cases (h : take hd least size fl = some (u,fl')) : ∃ l t r, fl = l ++ t :: r ∧
    (∀ s ∈ l, s.size < hd+size) ∧ hd+size ≤ t.size ∧
    (t.size-hd-size < least ∧ u = t ∧ fl' = l ++ r ∨
      least ≤ t.size-hd-size ∧ u = ⟨t.pos+(t.size-hd-size),hd+size⟩ ∧
        fl' = l ++ ⟨t.pos,t.size-hd-size⟩ :: r) := by
  induction fl generalizing fl' with
  | nil => cases h
  | cons t ts ih =>
    by_cases hfits : hd+size ≤ t.size
    · simp only [take,if_pos hfits] at h
      refine ⟨[],t,ts,rfl,fun s hs => absurd hs List.not_mem_nil,hfits,?_⟩
      by_cases hk : t.size-hd-size < least
      · rw [if_pos hk,Option.some.injEq,Prod.mk.injEq] at h
        exact Or.inl ⟨hk,h.1.symm,h.2.symm⟩
      · rw [if_neg hk,Option.some.injEq,Prod.mk.injEq] at h
        exact Or.inr ⟨Nat.le_of_not_lt hk,h.1.symm,h.2.symm⟩
    · simp only [take,if_neg hfits,Option.map_eq_some_iff,Prod.mk.injEq] at h
      obtain ⟨⟨u',fl2⟩,htake,rfl,rfl⟩ := h
      obtain ⟨l,t',r,rfl,hsmall,hle,hcases⟩ := ih htake
      refine ⟨t :: l,t',r,rfl,?_,hle,?_⟩
      · exact List.forall_mem_cons.mpr ⟨Nat.lt_of_not_le hfits,hsmall⟩
      · obtain ⟨hk,hu,rfl⟩ | ⟨hk,hu,rfl⟩ := hcases
        · exact Or.inl ⟨hk,hu,rfl⟩
        · exact Or.inr ⟨hk,hu,rfl⟩

/-- The first free span with the room is the one that is used. -/
theorem take_first (hl : ∀ s ∈ l, s.size < hd+size) (ht : hd+size ≤ t.size) :
    take hd least size (l ++ t :: r) =
      if t.size-hd-size < least then some (t,l ++ r)
      else some (⟨t.pos+(t.size-hd-size),hd+size⟩,l ++ ⟨t.pos,t.size-hd-size⟩ :: r) := by
  induction l with
  | nil => rw [List.nil_append,take,if_pos ht,List.nil_append,List.nil_append]
  | cons s l ih =>
    have hs := hl s List.mem_cons_self
    rw [List.cons_append,take,if_neg (by omega),ih fun s hs => hl s (List.mem_cons_of_mem _ hs)]
    split <;> rfl

/-- Nothing is given out where no free span has the room, and only there. -/
theorem take_eq_none_iff : take hd least size fl = none ↔ ∀ s ∈ fl, s.size < hd+size := by
  induction fl with
  | nil => exact iff_of_true rfl fun s hs => absurd hs List.not_mem_nil
  | cons t ts ih =>
    rw [List.forall_mem_cons,take]
    split
    · apply iff_of_false
      · dsimp only
        split <;> exact Option.some_ne_none _
      · omega
    · rw [Option.map_eq_none_iff,ih]
      exact ⟨fun h => ⟨by omega,h⟩,And.right⟩

theorem take_size (h : take hd least size fl = some (u,fl')) : hd+size ≤ u.size := by
  obtain ⟨l,t,r,-,-,hle,⟨-,rfl,-⟩ | ⟨-,rfl,-⟩⟩ := take_cases h
  · exact hle
  · exact Nat.le_refl _

theorem take_tiled (h : take hd least size fl = some (u,fl')) (hhd : 0 < hd) (hleast : 0 < least)
    (ht : Tiled lo hi (fl ++ us)) : Tiled lo hi (fl' ++ u :: us) := by
  obtain ⟨l,t,r,rfl,-,hle,⟨-,rfl,rfl⟩ | ⟨hk,rfl,rfl⟩⟩ := take_cases h
  · apply ht.perm
    simp only [List.append_assoc,List.cons_append]
    exact List.Perm.append_left l List.perm_middle.symm
  · have hfirst : Tiled lo hi (t :: (l ++ r ++ us)) := by
      apply ht.perm
      simp only [List.append_assoc,List.cons_append]
      exact List.perm_middle
    have hwhole : t = ⟨t.pos,t.size-hd-size+(hd+size)⟩ := by
      obtain ⟨pos,n⟩ := t
      simp only [Span.mk.injEq,true_and] at *
      omega
    rw [hwhole] at hfirst
    apply ((tiled_cut_iff (by omega) (by omega)).mpr hfirst).perm
    simp only [List.append_assoc,List.cons_append]
    refine (List.Perm.cons _ ?_).trans List.perm_middle.symm
    rw [← List.append_assoc,← List.append_assoc]
    exact List.perm_middle.symm

theorem take_spaced (h : take hd least size fl = some (u,fl')) (hs : Spaced fl) : Spaced fl' := by
  obtain ⟨l,t,r,rfl,-,hle,⟨-,-,rfl⟩ | ⟨-,-,rfl⟩⟩ := take_cases h
  · exact hs.sublist ((List.sublist_cons_self t r).append_left l)
  · simp only [Spaced,List.pairwise_append,List.pairwise_cons,List.forall_mem_cons,Span.stop] at hs ⊢
    refine ⟨hs.1,⟨fun s hr => ?_,hs.2.1.2⟩,hs.2.2⟩
    have hlt := hs.2.1.1 s hr
    omega

/-- What is given out starts and ends on a border where all free spans do. -/
theorem take_dvd {d : ℕ} (h : take hd least size fl = some (u,fl')) (hhd : d ∣ hd) (hsize : d ∣ size)
    (hall : ∀ t ∈ fl, d ∣ t.pos ∧ d ∣ t.size) : ∀ t ∈ u :: fl', d ∣ t.pos ∧ d ∣ t.size := by
  obtain ⟨l,t,r,rfl,-,hle,⟨-,rfl,rfl⟩ | ⟨-,rfl,rfl⟩⟩ := take_cases h
  · intro s hs
    apply hall s
    simp only [List.mem_cons,List.mem_append] at hs ⊢
    tauto
  · have ht := hall t (by simp)
    have hrest : d ∣ t.size-hd-size := (Nat.dvd_sub (Nat.dvd_sub ht.2 hhd) hsize)
    refine List.forall_mem_cons.mpr ⟨⟨Nat.dvd_add ht.1 hrest,Nat.dvd_add hhd hsize⟩,fun s hs => ?_⟩
    simp only [List.mem_cons,List.mem_append] at hs
    rcases hs with hs | rfl | hs
    · exact hall s (by simp [hs])
    · exact ⟨ht.1,hrest⟩
    · exact hall s (by simp [hs])

theorem Spaced.apart (h : Spaced fl) (hs : s ∈ fl) (ht : t ∈ fl) (hne : s ≠ t) :
    s.stop < t.pos ∨ t.stop < s.pos := by
  have hsym : fl.Pairwise fun s t => s.stop < t.pos ∨ t.stop < s.pos := h.imp Or.inl
  have : Std.Symm fun s t : Span => s.stop < t.pos ∨ t.stop < s.pos := ⟨fun _ _ h => h.symm⟩
  exact hsym.forall hs ht hne

/-- Free spans that do not meet: a stretch of free addresses lies in one of them. -/
theorem Spaced.exists_of_gap {a k : ℕ} (hs : Spaced fl) (hk : 0 < k)
    (hgap : ∀ x, a ≤ x → x < a+k → ∃ t ∈ fl, t.pos ≤ x ∧ x < t.stop) :
    ∃ t ∈ fl, t.pos ≤ a ∧ a+k ≤ t.stop := by
  obtain ⟨t,hmem,hle,hlt⟩ := hgap a (Nat.le_refl a) (by omega)
  refine ⟨t,hmem,hle,?_⟩
  by_contra hshort
  obtain ⟨u,humem,hule,hult⟩ := hgap t.stop (Nat.le_of_lt hlt) (Nat.lt_of_not_le hshort)
  have hne : t ≠ u := by
    rintro rfl
    omega
  have hfar := hs.apart hmem humem hne
  have hsum : t.stop = t.pos+t.size := rfl
  omega

/-! ### Taking back -/

/-- Where a span goes among the free ones, if there are any. -/
theorem give_cases (t : Span) (hne : fl ≠ []) : ∃ l q r, fl = l ++ q :: r ∧
    (∀ s ∈ (l ++ [q]).tail, s.pos ≤ t.pos) ∧ (∀ p ∈ r.head?, t.pos < p.pos) ∧
    give t fl = l ++ joinDown q (joinUp t r) := by
  induction fl using give.induct t with
  | case1 => exact absurd rfl hne
  | case2 q =>
    exact ⟨[],q,[],rfl,fun s hs => absurd hs List.not_mem_nil,fun p hp => (by cases hp),rfl⟩
  | case3 q p ts hlt =>
    refine ⟨[],q,p :: ts,rfl,fun s hs => absurd hs List.not_mem_nil,?_,?_⟩
    · rintro p' ⟨⟩
      exact hlt
    · rw [give,if_pos hlt,List.nil_append]
  | case4 q p ts hlt ih =>
    obtain ⟨l,q',r,hfl,hle,hhead,hgive⟩ := ih (List.cons_ne_nil p ts)
    refine ⟨q :: l,q',r,by rw [hfl,List.cons_append],?_,hhead,?_⟩
    · cases l with
      | nil =>
        obtain ⟨rfl,-⟩ := List.cons_eq_cons.mp hfl
        intro s hs
        obtain rfl := List.mem_singleton.mp hs
        exact Nat.le_of_not_lt hlt
      | cons p' l =>
        obtain ⟨rfl,-⟩ := List.cons_eq_cons.mp hfl
        exact List.forall_mem_cons.mpr ⟨Nat.le_of_not_lt hlt,hle⟩
    · rw [give,if_neg hlt,hgive,List.cons_append]

theorem joinUp_tiled (h : Tiled lo hi (t :: (r ++ us))) :
    Tiled lo hi ((joinUp t r).1 :: ((joinUp t r).2 ++ us)) := by
  cases r with
  | nil => exact h
  | cons p ts =>
    rw [joinUp]
    split
    · rename_i hmeet
      have hp : p = ⟨t.pos+t.size,p.size⟩ := Span.ext hmeet.symm rfl
      have hsizes := h.size_pos
      simp only [List.cons_append,List.forall_mem_cons] at hsizes
      apply (tiled_cut_iff hsizes.1 hsizes.2.1).mp
      rwa [List.cons_append,hp] at h
    · exact h

theorem joinDown_tiled {q : Span} {x : Span × List Span}
    (h : Tiled lo hi (q :: x.1 :: (x.2 ++ us))) : Tiled lo hi (joinDown q x ++ us) := by
  rw [joinDown]
  split
  · rename_i hmeet
    have hx : x.1 = ⟨q.pos+q.size,x.1.size⟩ := Span.ext hmeet.symm rfl
    have hsizes := h.size_pos
    simp only [List.forall_mem_cons] at hsizes
    apply (tiled_cut_iff hsizes.1 hsizes.2.1).mp
    rwa [hx] at h
  · exact h

/-- A span is joined with the free ones behind the place where it goes. -/
theorem place_tiled {q : Span} (h : Tiled lo hi (l ++ q :: r ++ t :: us)) :
    Tiled lo hi (q :: (joinUp t r).1 :: ((joinUp t r).2 ++ (l ++ us))) := by
  have hfirst : Tiled lo hi (t :: (r ++ q :: (l ++ us))) := by
    apply h.perm
    calc List.Perm (l ++ q :: r ++ t :: us) (t :: (l ++ q :: r ++ us)) := List.perm_middle
      List.Perm _ (t :: (q :: r ++ (l ++ us))) := by
        rw [← List.append_assoc (q :: r)]
        exact (List.perm_append_comm.append_right us).cons t
      List.Perm _ (t :: (r ++ q :: (l ++ us))) := List.perm_middle.symm.cons t
  apply (joinUp_tiled hfirst).perm
  exact (List.perm_middle.cons _).trans (List.Perm.swap _ _ _)

theorem joinUp_mem (h : u ∈ (joinUp t r).2) : u ∈ r := by
  cases r with
  | nil => exact h
  | cons p ts =>
    rw [joinUp] at h
    split at h
    · exact List.mem_cons_of_mem p h
    · exact h

theorem joinUp_dvd {d : ℕ} (ht : d ∣ t.pos ∧ d ∣ t.size) (hall : ∀ s ∈ r, d ∣ s.pos ∧ d ∣ s.size) :
    ∀ s ∈ (joinUp t r).1 :: (joinUp t r).2, d ∣ s.pos ∧ d ∣ s.size := by
  cases r with
  | nil => exact List.forall_mem_cons.mpr ⟨ht,hall⟩
  | cons p ts =>
    rw [List.forall_mem_cons] at hall
    rw [joinUp]
    split
    · exact List.forall_mem_cons.mpr ⟨⟨ht.1,Nat.dvd_add ht.2 hall.1.2⟩,hall.2⟩
    · exact List.forall_mem_cons.mpr ⟨ht,List.forall_mem_cons.mpr hall⟩

theorem give_dvd {d : ℕ} (ht : d ∣ t.pos ∧ d ∣ t.size) (hall : ∀ s ∈ fl, d ∣ s.pos ∧ d ∣ s.size) :
    ∀ s ∈ give t fl, d ∣ s.pos ∧ d ∣ s.size := by
  by_cases hne : fl = []
  · subst hne
    exact List.forall_mem_cons.mpr ⟨ht,hall⟩
  · obtain ⟨l,q,r,rfl,-,-,hgive⟩ := give_cases t hne
    rw [List.forall_mem_append,List.forall_mem_cons] at hall
    have hup := joinUp_dvd ht hall.2.2
    rw [hgive,List.forall_mem_append,joinDown]
    refine ⟨hall.1,?_⟩
    split
    · rw [List.forall_mem_cons] at hup
      exact List.forall_mem_cons.mpr ⟨⟨hall.2.1.1,Nat.dvd_add hall.2.1.2 hup.1.2⟩,hup.2⟩
    · exact List.forall_mem_cons.mpr ⟨hall.2.1,hup⟩

theorem joinUp_pos (t : Span) (r : List Span) : (joinUp t r).1.pos = t.pos := by
  cases r with
  | nil => rfl
  | cons p ts =>
    rw [joinUp]
    split <;> rfl

theorem joinUp_spaced (hs : Spaced r) (hle : ∀ s ∈ r, t.stop ≤ s.pos) :
    Spaced ((joinUp t r).1 :: (joinUp t r).2) := by
  cases r with
  | nil => exact List.pairwise_singleton _ t
  | cons p ts =>
    obtain ⟨hp,hts⟩ := List.pairwise_cons.mp hs
    rw [joinUp]
    split
    · rename_i hmeet
      refine List.pairwise_cons.mpr ⟨fun s hs => ?_,hts⟩
      have hlt := hp s hs
      simp only [Span.stop] at hmeet hlt ⊢
      omega
    · rename_i hmeet
      refine List.pairwise_cons.mpr ⟨List.forall_mem_cons.mpr ⟨?_,fun s hs => ?_⟩,hs⟩
      · exact Nat.lt_of_le_of_ne (hle p List.mem_cons_self) hmeet
      · have hfirst := hle p List.mem_cons_self
        have hlt := hp s hs
        simp only [Span.stop] at hfirst hlt ⊢
        omega

theorem joinDown_spaced {q : Span} {x : Span × List Span} (hl : Spaced (l ++ [q]))
    (hx : Spaced (x.1 :: x.2)) (hle : q.stop ≤ x.1.pos) : Spaced (l ++ joinDown q x) := by
  have hrest := (List.pairwise_cons.mp hx).1
  simp only [Spaced,List.pairwise_append,List.pairwise_singleton,List.mem_singleton,forall_eq] at hl
  -- what comes before `q` ends before all that `q` does not
  have hbefore : ∀ s ∈ l, ∀ u : Span, q.pos ≤ u.pos → s.stop < u.pos :=
    fun s hs u hu => Nat.lt_of_lt_of_le (hl.2.2 s hs) hu
  have hq : q.pos ≤ q.stop := Nat.le_add_right _ _
  have hxpos : x.1.pos ≤ x.1.stop := Nat.le_add_right _ _
  rw [joinDown]
  split
  · rename_i hmeet
    refine List.pairwise_append.mpr ⟨hl.1,List.pairwise_cons.mpr ⟨fun s hs => ?_,?_⟩,?_⟩
    · have hlt := hrest s hs
      simp only [Span.stop] at hmeet hlt ⊢
      omega
    · exact (List.pairwise_cons.mp hx).2
    · refine fun s hs => List.forall_mem_cons.mpr ⟨hbefore s hs _ (Nat.le_refl _),fun u hu => ?_⟩
      exact hbefore s hs u (by have hlt := hrest u hu; omega)
  · rename_i hmeet
    have hlt := Nat.lt_of_le_of_ne hle hmeet
    have hfar : ∀ u ∈ x.1 :: x.2, q.stop < u.pos := by
      refine List.forall_mem_cons.mpr ⟨hlt,fun u hu => ?_⟩
      have hlt' := hrest u hu
      omega
    refine List.pairwise_append.mpr ⟨hl.1,List.pairwise_cons.mpr ⟨hfar,hx⟩,?_⟩
    refine fun s hs => List.forall_mem_cons.mpr ⟨hbefore s hs q (Nat.le_refl _),fun u hu => ?_⟩
    exact hbefore s hs u (by have hlt' := hfar u hu; omega)

/-- The free spans stay in order and apart just when the first of them lies below what comes
back. -/
theorem give_spaced_iff (h : Tiled lo hi (fl ++ t :: us)) (hs : Spaced fl) :
    Spaced (give t fl) ↔ ∀ q ∈ fl.head?, q.pos < t.pos := by
  have hapart : ∀ s ∈ fl, s.Apart t := fun s hs' =>
    (List.pairwise_append.mp h.apart).2.2 s hs' t List.mem_cons_self
  have hpos : ∀ s ∈ fl, 0 < s.size := fun s hs' => h.size_pos s (List.mem_append_left _ hs')
  have htpos : 0 < t.size := h.size_pos t (List.mem_append_right _ List.mem_cons_self)
  constructor
  · intro hgive q hq
    by_contra hnot
    cases fl with
    | nil => cases hq
    | cons q' ts =>
      obtain rfl := Option.some.inj hq
      have hbelow := hapart q' List.mem_cons_self
      have hqpos := hpos q' List.mem_cons_self
      simp only [Span.Apart,Span.stop] at hbelow
      have hlist : give t (q' :: ts) = q' :: t :: ts := by
        cases ts with
        | nil =>
          have hmeet : ¬q'.stop = t.pos := by
            unfold Span.stop
            omega
          rw [give,joinDown,if_neg hmeet]
        | cons p ts =>
          have hp := (List.pairwise_cons.mp hs).1 p List.mem_cons_self
          unfold Span.stop at hp
          have hmeet : ¬q'.stop = t.pos := by
            unfold Span.stop
            omega
          have hmeet' : ¬t.stop = p.pos := by
            unfold Span.stop
            omega
          rw [give,if_pos (by omega),joinUp,if_neg hmeet',joinDown,if_neg hmeet]
      rw [hlist] at hgive
      have hlt := (List.pairwise_cons.mp hgive).1 t List.mem_cons_self
      unfold Span.stop at hlt
      omega
  · intro hhead
    by_cases hne : fl = []
    · subst hne
      exact List.pairwise_singleton _ t
    · obtain ⟨l,q,r,rfl,hle,hnext,hgive⟩ := give_cases t hne
      rw [hgive]
      obtain ⟨hl,hqr,hlq⟩ := List.pairwise_append.mp hs
      have hallle : ∀ s ∈ l ++ [q], s.pos ≤ t.pos := by
        cases l with
        | nil => exact List.forall_mem_cons.mpr ⟨Nat.le_of_lt (hhead q rfl),hle⟩
        | cons s l => exact List.forall_mem_cons.mpr ⟨Nat.le_of_lt (hhead s rfl),hle⟩
      have hbehind : ∀ s ∈ r, t.pos < s.pos := by
        cases r with
        | nil => exact fun s hs' => absurd hs' List.not_mem_nil
        | cons p r =>
          refine List.forall_mem_cons.mpr ⟨hnext p rfl,fun s hs' => ?_⟩
          have hp := (List.pairwise_cons.mp (List.pairwise_cons.mp hqr).2).1 s hs'
          have hlt := hnext p rfl
          unfold Span.stop at hp
          omega
      apply joinDown_spaced
      · refine List.pairwise_append.mpr ⟨hl,List.pairwise_singleton _ q,fun s hs' u hu => ?_⟩
        obtain rfl := List.mem_singleton.mp hu
        exact hlq s hs' u List.mem_cons_self
      · refine joinUp_spaced (List.pairwise_cons.mp hqr).2 fun s hs' => ?_
        have hmem : s ∈ l ++ q :: r :=
          List.mem_append_right _ (List.mem_cons_of_mem q hs')
        have hlt := hbehind s hs'
        have hsize := hpos s hmem
        obtain hleft | hright := hapart s hmem
        · unfold Span.stop at hleft
          omega
        · exact hright
      · have hmem : q ∈ l ++ q :: r := List.mem_append_right _ List.mem_cons_self
        have hqle := hallle q (List.mem_append_right _ (List.mem_singleton.mpr rfl))
        rw [joinUp_pos]
        obtain hleft | hright := hapart q hmem
        · exact hleft
        · unfold Span.stop at hright
          omega

end FirstFit

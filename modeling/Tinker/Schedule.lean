import Mathlib.Algebra.BigOperators.Group.Finset.Basic
import Mathlib.Algebra.BigOperators.Group.Finset.Sigma
import Mathlib.Algebra.Order.BigOperators.Group.Finset
import Mathlib.Data.Finset.Card
import Tinker.Kernel
import Tinker.Machine

/-! The schedule table, its back pointers and its counters.
`ScheduleInv k out` is well-formedness for all valid threads except those of `out`, which
are valid but not (or no longer) entered; every operation is a move of one thread
between the table, `out` and the free slots. -/
namespace Tinker

open Outcome

variable {cfg : Config}

/-! ### The compaction loop -/

/-- The index a thread holds after the loop has copied the cells `i+1 .. i+n` down. -/
def lastCopy (row : ℕ → Thid cfg) : ℕ → ℕ → Thid cfg → ℕ → ℕ
  | 0, _, _, d => d
  | n+1, i, x, d => lastCopy row n (i+1) x (if row (i+1) = x then i else d)

theorem lastCopy_of_ne {row : ℕ → Thid cfg} {n i d : ℕ} {x : Thid cfg}
    (h : ∀ j, i ≤ j → j < i+n → row (j+1) ≠ x) : lastCopy row n i x d = d := by
  induction n generalizing i d with
  | zero => rfl
  | succ n ih =>
    have hi : row (i+1) ≠ x := h i (le_refl i) (by omega)
    rw [lastCopy,if_neg hi]
    exact ih fun j hj hlt => h j (by omega) (by omega)

theorem lastCopy_of_last {row : ℕ → Thid cfg} {n i j d : ℕ} {x : Thid cfg}
    (hij : i ≤ j) (hj : j < i+n) (hx : row (j+1) = x)
    (h : ∀ j', j < j' → j' < i+n → row (j'+1) ≠ x) : lastCopy row n i x d = j := by
  induction n generalizing i d with
  | zero => omega
  | succ n ih =>
    rw [lastCopy]
    by_cases he : j = i
    · subst he
      rw [if_pos hx]
      exact lastCopy_of_ne fun j' hj' hlt => h j' (by omega) (by omega)
    · exact ih (by omega) (by omega) fun j' hj' hlt => h j' hj' (by omega)

/-- The state the compaction loop leaves, for a row with a cell to spare. -/
def compacted (k : Kernel cfg) (prio n i : ℕ) : Kernel cfg :=
  { k with
    schedule := fun p j =>
      if p = prio ∧ i ≤ j ∧ j < i+n then k.schedule p (j+1) else k.schedule p j
    pool := fun x => { k.pool x with idx := lastCopy (k.schedule prio) n i x (k.pool x).idx } }

theorem compactRow_eq {prio : ℕ} (hp : prio < cfg.maxPrioLevels) (n i : ℕ) (k : Kernel cfg)
    (hn : i+n < cfg.maxThreadsAtPrio) : compactRow prio n i k = .ok (compacted k prio n i) := by
  induction n generalizing i k with
  | zero =>
    have hs : (fun p j => if p = prio ∧ i ≤ j ∧ j < i+0 then k.schedule p (j+1)
        else k.schedule p j) = k.schedule := by
      funext p j; exact if_neg (by omega)
    simp only [compactRow,compacted,lastCopy,hs]
  | succ n ih =>
    have h1 : Kernel.InTable cfg prio (i+1) := ⟨hp,by omega⟩
    have h0 : Kernel.InTable cfg prio i := ⟨hp,by omega⟩
    simp only [compactRow,Kernel.readCell,Kernel.writeCell,if_pos h1,if_pos h0,bind,Except.bind]
    rw [ih _ _ (by omega)]
    have hne : ∀ j, i+1 ≤ j → j ≠ i := by omega
    simp only [compacted,Except.ok.injEq,Kernel.modTcb,Kernel.mk.injEq,and_true]
    constructor
    · funext x
      have hrow : ∀ m i' d, i+1 ≤ i' →
          lastCopy (fun i'' => if i'' = i then k.schedule prio (i+1) else k.schedule prio i'') m i' x d =
          lastCopy (k.schedule prio) m i' x d := by
        intro m
        induction m with
        | zero => intros; rfl
        | succ m ihm =>
          intro i' d hi'
          simp only [lastCopy,if_neg (show i'+1 ≠ i by omega)]
          exact ihm _ _ (by omega)
      simp only [true_and]
      rw [hrow _ _ _ (le_refl _)]
      by_cases hx : x = k.schedule prio (i+1)
      · subst hx; simp [lastCopy]
      · simp [lastCopy,Function.update_of_ne hx,Ne.symm hx]
    · funext p j
      by_cases hpp : p = prio
      · subst hpp
        rcases lt_trichotomy j i with hj | hj | hj
        · simp [show ¬ i+1 ≤ j by omega,show ¬ i ≤ j by omega,show j ≠ i by omega]
        · subst hj; simp
        · by_cases hjn : j < i+(n+1)
          · simp [show i+1 ≤ j by omega,show j < i+1+n by omega,show i ≤ j by omega,hjn,
              show j+1 ≠ i by omega]
          · simp [hjn,show ¬ j < i+1+n by omega,show j ≠ i by omega]
      · simp [hpp]

/-! ### The invariant -/

/-- A live cell of the table. -/
def LiveCell (k : Kernel cfg) (p i : ℕ) : Prop := p < cfg.maxPrioLevels ∧ i < k.procs p

instance (k : Kernel cfg) (p i : ℕ) : Decidable (LiveCell k p i) := instDecidableAnd

/-- The number of live cells. -/
def liveCells (k : Kernel cfg) : ℕ := ∑ p ∈ Finset.range cfg.maxPrioLevels, k.procs p

structure ScheduleInv (k : Kernel cfg) (out : Finset (Thid cfg)) : Prop where
  row_le : ∀ p < cfg.maxPrioLevels, k.procs p ≤ cfg.maxThreadsAtPrio
  live : ∀ p i, LiveCell k p i → (k.pool (k.schedule p i)).valid = true ∧
    (k.pool (k.schedule p i)).prio = p ∧ (k.pool (k.schedule p i)).idx = i ∧
    k.schedule p i ∉ out
  placed : ∀ t, (k.pool t).valid = true → t ∉ out →
    LiveCell k (k.pool t).prio (k.pool t).idx ∧ k.schedule (k.pool t).prio (k.pool t).idx = t
  out_valid : ∀ t ∈ out, (k.pool t).valid = true
  in_use : k.procsInUse = liveCells k + out.card
  curr : ∀ p < cfg.maxPrioLevels, (k.prioIdxs p).currIdx = 0 ∨ (k.prioIdxs p).currIdx < k.procs p

/-- The invariant reads only the table, the counters and three fields of a control block. -/
theorem ScheduleInv.congr {k k' : Kernel cfg} {out : Finset (Thid cfg)} (h : ScheduleInv k out)
    (hs : k'.schedule = k.schedule) (hi : k'.prioIdxs = k.prioIdxs)
    (hu : k'.procsInUse = k.procsInUse)
    (hp : ∀ t, (k'.pool t).valid = (k.pool t).valid ∧ (k'.pool t).prio = (k.pool t).prio ∧
      (k'.pool t).idx = (k.pool t).idx) : ScheduleInv k' out := by
  have hpr : k'.procs = k.procs := by funext p; simp [Kernel.procs,hi]
  have hv := fun t => (hp t).1
  have hpri := fun t => (hp t).2.1
  have hidx := fun t => (hp t).2.2
  constructor
  · simpa only [hpr] using h.row_le
  · simpa only [LiveCell,hpr,hs,hv,hpri,hidx] using h.live
  · simpa only [LiveCell,hpr,hs,hv,hpri,hidx] using h.placed
  · simpa only [hv] using h.out_valid
  · simpa only [liveCells,hpr,hu] using h.in_use
  · simpa only [hi,hpr] using h.curr

/-- Live cells and entered threads correspond one to one. -/
theorem ScheduleInv.card_valid {k : Kernel cfg} {out : Finset (Thid cfg)} (h : ScheduleInv k out) :
    (Finset.univ.filter fun t => (k.pool t).valid = true).card = k.procsInUse := by
  have hcard : ((Finset.univ.filter fun t => (k.pool t).valid = true) \ out).card =
      liveCells k := by
    have hsig : liveCells k = ((Finset.range cfg.maxPrioLevels).sigma
        fun p => Finset.range (k.procs p)).card := by
      simp [liveCells,Finset.card_sigma]
    rw [hsig]
    refine Finset.card_nbij' (fun t => ⟨(k.pool t).prio,(k.pool t).idx⟩)
      (fun c => k.schedule c.1 c.2) ?_ ?_ ?_ ?_
    · intro t ht
      simp only [Finset.coe_sdiff,Finset.coe_filter,Finset.mem_univ,true_and,Set.mem_sdiff,
        Set.mem_ofPred_eq,Finset.mem_coe] at ht
      have hpl := (h.placed t ht.1 ht.2).1
      simpa [LiveCell] using hpl
    · rintro ⟨p,i⟩ hc
      have hl : LiveCell k p i := by simpa [LiveCell] using hc
      have := h.live p i hl
      simp [this.1,this.2.2.2]
    · intro t ht
      simp only [Finset.coe_sdiff,Finset.coe_filter,Finset.mem_univ,true_and,Set.mem_sdiff,
        Set.mem_ofPred_eq,Finset.mem_coe] at ht
      exact (h.placed t ht.1 ht.2).2
    · rintro ⟨p,i⟩ hc
      have hl : LiveCell k p i := by simpa [LiveCell] using hc
      obtain ⟨_,hp,hi,_⟩ := h.live p i hl
      exact Sigma.ext hp (heq_of_eq hi)
  have hsub : out ⊆ Finset.univ.filter fun t => (k.pool t).valid = true := by
    intro t ht
    simpa using h.out_valid t ht
  have := Finset.card_sdiff_add_card_eq_card hsub
  have := h.in_use
  omega

/-! ### Moves of one thread -/

/-- Taking `t` out of its row does no harm: the row has a cell to spare, and the stale cell
one past the live part, which the loop copies down too, names no thread whose index
the copy would falsify. -/
def CleanRemoval (k : Kernel cfg) (t : Thid cfg) : Prop :=
  k.procs (k.pool t).prio < cfg.maxThreadsAtPrio ∧
  let x := k.schedule (k.pool t).prio (k.procs (k.pool t).prio)
  (k.pool x).valid = true → x = t ∨
    (k.pool x).prio ≠ (k.pool t).prio ∧ (k.pool x).idx+1 = k.procs (k.pool t).prio

instance (k : Kernel cfg) (t : Thid cfg) : Decidable (CleanRemoval k t) := instDecidableAnd

/-- The row of `t` compacted over it. -/
def takeOut (k : Kernel cfg) (t : Thid cfg) : Kernel cfg :=
  shortenRow (compacted k (k.pool t).prio (k.procs (k.pool t).prio-(k.pool t).idx) (k.pool t).idx)
    (k.pool t).prio

theorem takeOut_procs (k : Kernel cfg) (t : Thid cfg) (p : ℕ) :
    (takeOut k t).procs p = if p = (k.pool t).prio then k.procs p-1 else k.procs p := by
  simp only [takeOut,shortenRow,Kernel.procs,Kernel.modStat_prioIdxs]
  split
  · next h => subst h; rfl
  · rfl

theorem takeOut_currIdx (k : Kernel cfg) (t : Thid cfg) (p : ℕ) :
    ((takeOut k t).prioIdxs p).currIdx =
      if p = (k.pool t).prio ∧ k.procs p-1 ≤ (k.prioIdxs p).currIdx then 0
      else (k.prioIdxs p).currIdx := by
  simp only [takeOut,shortenRow,Kernel.modStat_prioIdxs]
  by_cases h : p = (k.pool t).prio
  · subst h; simp [compacted,Kernel.procs]
  · simp [h,compacted]

theorem takeOut_pool (k : Kernel cfg) (t x : Thid cfg) :
    (takeOut k t).pool x = { k.pool x with
      idx := lastCopy (k.schedule (k.pool t).prio)
        (k.procs (k.pool t).prio-(k.pool t).idx) (k.pool t).idx x (k.pool x).idx } := rfl

theorem takeOut_schedule (k : Kernel cfg) (t : Thid cfg) (p j : ℕ)
    (hi : (k.pool t).idx ≤ k.procs (k.pool t).prio) :
    (takeOut k t).schedule p j =
      if p = (k.pool t).prio ∧ (k.pool t).idx ≤ j ∧ j < k.procs (k.pool t).prio
      then k.schedule p (j+1) else k.schedule p j := by
  simp only [takeOut,shortenRow,Kernel.modStat_schedule,compacted,Nat.add_sub_cancel' hi]

theorem sum_pred {L P : ℕ} {f g : ℕ → ℕ} (hP : P < L) (hpos : 0 < f P)
    (hg : ∀ p, g p = if p = P then f p-1 else f p) :
    (∑ p ∈ Finset.range L, g p)+1 = ∑ p ∈ Finset.range L, f p := by
  have hm : P ∈ Finset.range L := Finset.mem_range.mpr hP
  rw [← Finset.add_sum_erase _ f hm,← Finset.add_sum_erase _ g hm]
  have he : ∑ p ∈ (Finset.range L).erase P, g p = ∑ p ∈ (Finset.range L).erase P, f p :=
    Finset.sum_congr rfl fun p hp => by rw [hg,if_neg (Finset.ne_of_mem_erase hp)]
  have := hg P
  rw [if_pos rfl] at this
  omega

theorem sum_succ {L P : ℕ} {f g : ℕ → ℕ} (hP : P < L)
    (hg : ∀ p, g p = if p = P then f p+1 else f p) :
    ∑ p ∈ Finset.range L, g p = (∑ p ∈ Finset.range L, f p)+1 := by
  refine (sum_pred (f:=g) (g:=f) hP ?_ ?_).symm
  · simp [hg]
  · intro p; rw [hg]; split <;> simp

section TakeOut

variable {k : Kernel cfg} {out : Finset (Thid cfg)} {t : Thid cfg}

/-- A valid thread other than `t` is not what the stale cell holds, unless the copy
happens to restore its index. -/
theorem ScheduleInv.idx_takeOut (h : ScheduleInv k out) (ht : (k.pool t).valid = true)
    (hto : t ∉ out) (hc : CleanRemoval k t) {u : Thid cfg} (hu : (k.pool u).valid = true)
    (hut : u ≠ t) (huo : u ∉ out) :
    ((takeOut k t).pool u).idx =
      if (k.pool u).prio = (k.pool t).prio ∧ (k.pool t).idx < (k.pool u).idx
      then (k.pool u).idx-1 else (k.pool u).idx := by
  obtain ⟨htl,hts⟩ := h.placed t ht hto
  obtain ⟨hul,hus⟩ := h.placed u hu huo
  have hlt := htl.2
  rw [takeOut_pool]
  -- a copy made inside the live part names the thread of that cell
  have hcell : ∀ j, j+1 < k.procs (k.pool t).prio → k.schedule (k.pool t).prio (j+1) = u →
      (k.pool u).prio = (k.pool t).prio ∧ (k.pool u).idx = j+1 := by
    intro j hj he
    obtain ⟨_,hp,hi,_⟩ := h.live (k.pool t).prio (j+1) ⟨htl.1,hj⟩
    rw [he] at hp hi
    exact ⟨hp,hi⟩
  by_cases hx : k.schedule (k.pool t).prio (k.procs (k.pool t).prio) = u
  · have hcl := hc.2
    simp only [hx] at hcl
    obtain hxt | ⟨hpn,hidx⟩ := hcl hu
    · exact absurd hxt hut
    · rw [if_neg fun hh => hpn hh.1]
      exact lastCopy_of_last (by omega) (by omega) (by rwa [hidx]) (by intros; omega)
  · by_cases hp : (k.pool u).prio = (k.pool t).prio
    · have hne : (k.pool u).idx ≠ (k.pool t).idx := by
        intro he
        apply hut
        rw [← hts,← hus,hp,he]
      have hlt' : (k.pool u).idx < k.procs (k.pool t).prio := hp ▸ hul.2
      by_cases hgt : (k.pool t).idx < (k.pool u).idx
      · rw [if_pos ⟨hp,hgt⟩]
        refine lastCopy_of_last (by omega) (by omega) ?_ ?_
        · rw [Nat.sub_add_cancel (by omega),← hp]; exact hus
        · intro j' hj' hj'' he
          by_cases hl : j'+1 < k.procs (k.pool t).prio
          · have := (hcell j' hl he).2; omega
          · exact hx (by rwa [show k.procs (k.pool t).prio = j'+1 by omega])
      · rw [if_neg fun hh => hgt hh.2]
        refine lastCopy_of_ne fun j hj hj' he => ?_
        by_cases hl : j+1 < k.procs (k.pool t).prio
        · have := (hcell j hl he).2; omega
        · exact hx (by rwa [show k.procs (k.pool t).prio = j+1 by omega])
    · rw [if_neg fun hh => hp hh.1]
      refine lastCopy_of_ne fun j hj hj' he => ?_
      by_cases hl : j+1 < k.procs (k.pool t).prio
      · exact hp (hcell j hl he).1
      · exact hx (by rwa [show k.procs (k.pool t).prio = j+1 by omega])

/-- Which cell of the old table a live cell comes from. -/
theorem ScheduleInv.takeOut_cell (h : ScheduleInv k out) (ht : (k.pool t).valid = true)
    (hto : t ∉ out) {p i : ℕ} (hp : p < cfg.maxPrioLevels) (hi : i < (takeOut k t).procs p) :
    ∃ j, j < k.procs p ∧ (takeOut k t).schedule p i = k.schedule p j ∧ k.schedule p j ≠ t ∧
      i = if p = (k.pool t).prio ∧ (k.pool t).idx < j then j-1 else j := by
  have hlt := (h.placed t ht hto).1.2
  have hsched := fun p j => takeOut_schedule k t p j hlt.le
  have hnt : ∀ j, j < k.procs p → k.schedule p j = t →
      p = (k.pool t).prio ∧ j = (k.pool t).idx := by
    intro j hj he
    obtain ⟨_,hpp,hii,_⟩ := h.live p j ⟨hp,hj⟩
    rw [he] at hpp hii
    exact ⟨hpp.symm,hii.symm⟩
  rw [takeOut_procs] at hi
  by_cases hpt : p = (k.pool t).prio
  · subst hpt
    rw [if_pos rfl] at hi
    by_cases hge : (k.pool t).idx ≤ i
    · refine ⟨i+1,by omega,?_,?_,?_⟩
      · rw [hsched,if_pos ⟨rfl,hge,by omega⟩]
      · intro he; have := (hnt (i+1) (by omega) he).2; omega
      · rw [if_pos ⟨rfl,by omega⟩]; omega
    · refine ⟨i,by omega,?_,?_,?_⟩
      · rw [hsched,if_neg (by omega)]
      · intro he; have := (hnt i (by omega) he).2; omega
      · rw [if_neg (by omega)]
  · rw [if_neg hpt] at hi
    refine ⟨i,hi,?_,?_,?_⟩
    · rw [hsched,if_neg fun hh => hpt hh.1]
    · intro he; exact hpt (hnt i hi he).1
    · rw [if_neg fun hh => hpt hh.1]

/-- Every other thread keeps its row, and its cell is one further to the front behind `t`. -/
theorem ScheduleInv.takeOut_placed (h : ScheduleInv k out) (ht : (k.pool t).valid = true)
    (hto : t ∉ out) (hc : CleanRemoval k t) {u : Thid cfg} (hu : (k.pool u).valid = true)
    (hut : u ≠ t) (huo : u ∉ out) :
    LiveCell (takeOut k t) (k.pool u).prio ((takeOut k t).pool u).idx ∧
      (takeOut k t).schedule (k.pool u).prio ((takeOut k t).pool u).idx = u := by
  obtain ⟨htl,hts⟩ := h.placed t ht hto
  obtain ⟨hul,hus⟩ := h.placed u hu huo
  have hlt := htl.2
  have hui := hul.2
  have hsched := fun p j => takeOut_schedule k t p j hlt.le
  have hne : (k.pool u).prio = (k.pool t).prio → (k.pool u).idx ≠ (k.pool t).idx := by
    intro hp he
    apply hut
    rw [← hts,← hus,hp,he]
  rw [h.idx_takeOut ht hto hc hu hut huo]
  by_cases hp : (k.pool u).prio = (k.pool t).prio
  · have := hne hp
    rw [hp] at hui
    by_cases hgt : (k.pool t).idx < (k.pool u).idx
    · rw [if_pos ⟨hp,hgt⟩]
      refine ⟨⟨hul.1,?_⟩,?_⟩
      · rw [takeOut_procs,if_pos hp,hp]; omega
      · rw [hsched,if_pos ⟨hp,by omega,by omega⟩,Nat.sub_add_cancel (by omega)]
        exact hus
    · rw [if_neg fun hh => hgt hh.2]
      refine ⟨⟨hul.1,?_⟩,?_⟩
      · rw [takeOut_procs,if_pos hp,hp]; omega
      · rw [hsched,if_neg (by omega)]; exact hus
  · rw [if_neg fun hh => hp hh.1]
    refine ⟨⟨hul.1,?_⟩,?_⟩
    · rw [takeOut_procs,if_neg hp]; exact hui
    · rw [hsched,if_neg fun hh => hp hh.1]; exact hus

theorem ScheduleInv.of_takeOut (h : ScheduleInv k out) (ht : (k.pool t).valid = true)
    (hto : t ∉ out) (hc : CleanRemoval k t) :
    ScheduleInv (takeOut k t) (insert t out) := by
  obtain ⟨htl,-⟩ := h.placed t ht hto
  have hlt := htl.2
  have hvalid : ∀ x, ((takeOut k t).pool x).valid = (k.pool x).valid := fun x => rfl
  constructor
  · intro p hp
    have := h.row_le p hp
    rw [takeOut_procs]; split <;> omega
  · rintro p i ⟨hp,hi⟩
    obtain ⟨j,hj,hs,hne,hij⟩ := h.takeOut_cell ht hto hp hi
    obtain ⟨hv,hpj,hjj,ho⟩ := h.live p j ⟨hp,hj⟩
    rw [hs]
    refine ⟨hv,hpj,?_,by simp [hne,ho]⟩
    rw [h.idx_takeOut ht hto hc hv hne ho,hpj,hjj]
    exact hij.symm
  · intro u hu huo
    rw [hvalid] at hu
    simp only [Finset.mem_insert,not_or] at huo
    exact h.takeOut_placed ht hto hc hu huo.1 huo.2
  · intro u hu
    rw [hvalid]
    obtain rfl | hu := Finset.mem_insert.mp hu
    · exact ht
    · exact h.out_valid u hu
  · have hsum := sum_pred (f:=k.procs) (g:=(takeOut k t).procs) htl.1 (by omega) (fun p => by
      rw [takeOut_procs])
    have hiu : (takeOut k t).procsInUse = k.procsInUse := rfl
    rw [hiu,h.in_use,Finset.card_insert_of_notMem hto]
    simp only [liveCells] at hsum ⊢
    omega
  · intro p hp
    have hcu := h.curr p hp
    rw [takeOut_procs,takeOut_currIdx]
    simp only [Kernel.procs] at hcu ⊢
    by_cases he : p = (k.pool t).prio
    · simp only [he,true_and,if_true] at hcu ⊢
      by_cases hle : (k.prioIdxs (k.pool t).prio).procsAtPrio-1 ≤
          (k.prioIdxs (k.pool t).prio).currIdx
      · exact Or.inl (if_pos hle)
      · rw [if_neg hle]; omega
    · simpa only [he,false_and,if_false] using hcu

end TakeOut

/-! ### Entering, freeing and allocating a thread -/

/-- A thread waiting outside the table is entered at the end of row `p`. -/
theorem ScheduleInv.of_enter {k k' : Kernel cfg} {out : Finset (Thid cfg)} {t : Thid cfg} {p : ℕ}
    (h : ScheduleInv k out) (ht : t ∈ out) (hp : p < cfg.maxPrioLevels)
    (hroom : k.procs p < cfg.maxThreadsAtPrio)
    (hs : ∀ p' i, k'.schedule p' i = if p' = p ∧ i = k.procs p then t else k.schedule p' i)
    (hi : ∀ p', k'.prioIdxs p' =
      if p' = p then ⟨k.procs p+1,(k.prioIdxs p).currIdx⟩ else k.prioIdxs p')
    (hu : k'.procsInUse = k.procsInUse)
    (hv : ∀ x, (k'.pool x).valid = (k.pool x).valid)
    (hpt : (k'.pool t).prio = p ∧ (k'.pool t).idx = k.procs p)
    (hpx : ∀ x, x ≠ t → (k'.pool x).prio = (k.pool x).prio ∧ (k'.pool x).idx = (k.pool x).idx) :
    ScheduleInv k' (out.erase t) := by
  have hpr : ∀ p', k'.procs p' = if p' = p then k.procs p'+1 else k.procs p' := by
    intro p'
    simp only [Kernel.procs,hi]
    split
    · next he => subst he; rfl
    · rfl
  have hnt : ∀ p' i, LiveCell k p' i → k.schedule p' i ≠ t := by
    intro p' i hl he
    exact (h.live p' i hl).2.2.2 (he ▸ ht)
  constructor
  · intro p' hp'
    have := h.row_le p' hp'
    rw [hpr]
    split
    · next he => subst he; omega
    · exact this
  · rintro p' i ⟨hp',hl⟩
    rw [hpr] at hl
    by_cases hnew : p' = p ∧ i = k.procs p
    · obtain ⟨rfl,rfl⟩ := hnew
      rw [hs,if_pos ⟨rfl,rfl⟩]
      exact ⟨by rw [hv]; exact h.out_valid t ht,hpt.1,hpt.2,Finset.notMem_erase t out⟩
    · have hl' : LiveCell k p' i := by
        refine ⟨hp',?_⟩
        split at hl
        · next he => subst he; simp only [true_and] at hnew; omega
        · exact hl
      rw [hs,if_neg hnew,hv]
      have hx := hpx _ (hnt p' i hl')
      rw [hx.1,hx.2]
      obtain ⟨ha,hb,hc,hd⟩ := h.live p' i hl'
      exact ⟨ha,hb,hc,fun hm => hd (Finset.mem_of_mem_erase hm)⟩
  · intro u hu' huo
    rw [hv] at hu'
    by_cases hut : u = t
    · subst hut
      rw [hpt.1,hpt.2,hs,if_pos ⟨rfl,rfl⟩]
      exact ⟨⟨hp,by rw [hpr,if_pos rfl]; omega⟩,rfl⟩
    · have huo' : u ∉ out := fun hm => huo (Finset.mem_erase.mpr ⟨hut,hm⟩)
      obtain ⟨hl,hse⟩ := h.placed u hu' huo'
      have hx := hpx u hut
      rw [hx.1,hx.2]
      refine ⟨⟨hl.1,?_⟩,?_⟩
      · rw [hpr]
        have := hl.2
        split
        · omega
        · exact this
      · rw [hs,if_neg]
        · exact hse
        · rintro ⟨he1,he2⟩
          have := hl.2
          rw [he1] at this
          omega
  · intro u hu'
    rw [hv]
    exact h.out_valid u (Finset.mem_of_mem_erase hu')
  · have hsum := sum_succ (f:=k.procs) (g:=k'.procs) hp hpr
    have hcard := Finset.card_erase_add_one ht
    have := h.in_use
    simp only [liveCells] at hsum this ⊢
    omega
  · intro p' hp'
    have := h.curr p' hp'
    rw [hpr,hi]
    split
    · next he => subst he; simp only; omega
    · exact this

/-- A thread outside the table is freed. -/
theorem ScheduleInv.of_free {k k' : Kernel cfg} {out : Finset (Thid cfg)} {t : Thid cfg}
    (h : ScheduleInv k out) (ht : t ∈ out) (hs : k'.schedule = k.schedule)
    (hi : k'.prioIdxs = k.prioIdxs) (hu : k'.procsInUse = k.procsInUse-1)
    (hvt : (k'.pool t).valid = false) (hx : ∀ x, x ≠ t → k'.pool x = k.pool x) :
    ScheduleInv k' (out.erase t) := by
  have hpr : k'.procs = k.procs := by funext p; simp [Kernel.procs,hi]
  have hne : ∀ {u}, (k'.pool u).valid = true → u ≠ t := by
    rintro u hu' rfl
    simp [hvt] at hu'
  constructor
  · rw [hpr]; exact h.row_le
  · rintro p i ⟨hp,hl⟩
    rw [hpr] at hl
    obtain ⟨ha,hb,hc,hd⟩ := h.live p i ⟨hp,hl⟩
    have hst : k.schedule p i ≠ t := fun he => hd (he ▸ ht)
    rw [hs,hx _ hst]
    exact ⟨ha,hb,hc,fun hm => hd (Finset.mem_of_mem_erase hm)⟩
  · intro u hu' huo
    have hut := hne hu'
    rw [hx u hut] at hu' ⊢
    obtain ⟨hl,hse⟩ := h.placed u hu' fun hm => huo (Finset.mem_erase.mpr ⟨hut,hm⟩)
    exact ⟨⟨hl.1,by rw [hpr]; exact hl.2⟩,by rw [hs]; exact hse⟩
  · intro u hu'
    obtain ⟨hut,hu'⟩ := Finset.mem_erase.mp hu'
    rw [hx u hut]
    exact h.out_valid u hu'
  · have hcard := Finset.card_erase_add_one ht
    have := h.in_use
    simp only [liveCells,hpr] at this ⊢
    omega
  · rw [hpr,hi]; exact h.curr

/-- A free slot becomes a valid thread that is not in the table yet. -/
theorem ScheduleInv.of_alloc {k k' : Kernel cfg} {out : Finset (Thid cfg)} {t : Thid cfg}
    (h : ScheduleInv k out) (ht : (k.pool t).valid = false) (hs : k'.schedule = k.schedule)
    (hi : k'.prioIdxs = k.prioIdxs) (hu : k'.procsInUse = k.procsInUse+1)
    (hvt : (k'.pool t).valid = true)
    (hx : ∀ x, x ≠ t → (k'.pool x).valid = (k.pool x).valid ∧ (k'.pool x).prio = (k.pool x).prio ∧
      (k'.pool x).idx = (k.pool x).idx) : ScheduleInv k' (insert t out) := by
  have hpr : k'.procs = k.procs := by funext p; simp [Kernel.procs,hi]
  have hto : t ∉ out := fun hm => by simp [h.out_valid t hm] at ht
  constructor
  · rw [hpr]; exact h.row_le
  · rintro p i ⟨hp,hl⟩
    rw [hpr] at hl
    obtain ⟨ha,hb,hc,hd⟩ := h.live p i ⟨hp,hl⟩
    have hst : k.schedule p i ≠ t := fun he => by simp [he,ht] at ha
    obtain ⟨h1,h2,h3⟩ := hx _ hst
    rw [hs,h1,h2,h3]
    exact ⟨ha,hb,hc,by simp [hst,hd]⟩
  · intro u hu' huo
    simp only [Finset.mem_insert,not_or] at huo
    obtain ⟨h1,h2,h3⟩ := hx u huo.1
    rw [h1] at hu'
    obtain ⟨hl,hse⟩ := h.placed u hu' huo.2
    rw [h2,h3]
    exact ⟨⟨hl.1,by rw [hpr]; exact hl.2⟩,by rw [hs]; exact hse⟩
  · intro u hu'
    by_cases hut : u = t
    · rw [hut]; exact hvt
    · rw [(hx u hut).1]
      exact h.out_valid u ((Finset.mem_insert.mp hu').resolve_left hut)
  · have := h.in_use
    rw [Finset.card_insert_of_notMem hto]
    simp only [liveCells,hpr] at this ⊢
    omega
  · rw [hpr,hi]; exact h.curr

end Tinker

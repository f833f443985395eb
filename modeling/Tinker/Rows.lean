import Mathlib.Data.List.Find
import Mathlib.Data.List.Nodup
import Mathlib.Data.List.Rotate
import Tinker.Dispatch
import Tinker.Ring
import Tinker.RoundRobin

/-! The rows of `__tk_schedule` as lists of threads: the search of the dispatcher goes through
them, and a thread that changes its priority or dies is taken out of one of them. -/
namespace Tinker

open Kernel Outcome

variable {cfg : Config}

/-- The live cells of row `p`. -/
def row (k : Kernel cfg) (p : ℕ) : List (Thid cfg) := (List.range (k.procs p)).map (k.schedule p)

/-- The live cells of row `p`, once round from `curr_idx`. -/
def visits (k : Kernel cfg) (p : ℕ) : List (Thid cfg) := (row k p).rotate (k.prioIdxs p).currIdx

def isReady (k : Kernel cfg) (t : Thid cfg) : Bool := decide ((k.pool t).state = .ready)

/-- Each row holds distinct valid threads under their own ids, and its index is inside. -/
structure RowsOk (k : Kernel cfg) : Prop where
  row_le : ∀ p < cfg.maxPrioLevels, k.procs p ≤ cfg.maxThreadsAtPrio
  nodup : ∀ p < cfg.maxPrioLevels, (row k p).Nodup
  own : ∀ p < cfg.maxPrioLevels, ∀ t ∈ row k p, (k.pool t).valid = true ∧ (k.pool t).thid = t
  curr : ∀ p < cfg.maxPrioLevels, (k.prioIdxs p).currIdx = 0 ∨ (k.prioIdxs p).currIdx < k.procs p

/-- No thread is in two rows. -/
def RowsApart (k : Kernel cfg) : Prop :=
  ∀ p < cfg.maxPrioLevels, ∀ q < cfg.maxPrioLevels, p ≠ q → (row k p).Disjoint (row k q)

/-- `t` is the first ready thread of the first row that has one, counted round from `curr_idx`,
or it is the idle thread and no row has one. -/
def Chosen (k : Kernel cfg) (t : Thid cfg) : Prop :=
  (∃ p < cfg.maxPrioLevels, isReady k t = true ∧
    (∃ before after, visits k p = before ++ t :: after ∧ ∀ u ∈ before, isReady k u = false) ∧
    ∀ q < p, ∀ u ∈ row k q, isReady k u = false) ∨
  t = k.idleThid ∧ ∀ p < cfg.maxPrioLevels, ∀ u ∈ row k p, isReady k u = false

/-- The same as far as the live cells and their threads go. -/
structure SameLive (k k' : Kernel cfg) : Prop where
  prioIdxs : ∀ p < cfg.maxPrioLevels, k'.prioIdxs p = k.prioIdxs p
  row : ∀ p < cfg.maxPrioLevels, row k' p = row k p
  pool : ∀ p < cfg.maxPrioLevels, ∀ t ∈ Tinker.row k p, k'.pool t = k.pool t
  idleThid : k'.idleThid = k.idleThid

section

variable {k k' : Kernel cfg} {p : ℕ}

@[simp] theorem row_length (k : Kernel cfg) (p : ℕ) : (row k p).length = k.procs p := by
  simp [row]

@[simp] theorem row_getElem {i : ℕ} (h : i < (row k p).length) : (row k p)[i] = k.schedule p i := by
  simp [row]

theorem mem_row {t : Thid cfg} : t ∈ row k p ↔ ∃ i < k.procs p, k.schedule p i = t := by
  simp [row]

theorem mem_visits {t : Thid cfg} : t ∈ visits k p ↔ t ∈ row k p := List.mem_rotate

/-- The cells the search of a row looks at. -/
theorem visits_eq (k : Kernel cfg) (p : ℕ) : visits k p = (List.range (k.procs p)).map
    fun e => k.schedule p (Ring.place (k.procs p) (k.prioIdxs p).currIdx e) := by
  refine List.ext_getElem (by simp [visits]) fun e h1 h2 => ?_
  simp [visits,List.getElem_rotate,Ring.place,Nat.add_comm]

/-- The search of `n` cells of a row, where they are live, valid and not the one seen last. -/
theorem runableAt_eq {m n idx : ℕ} {last : Option (Thid cfg)} {cells : List (Thid cfg)}
    (hp : p < cfg.maxPrioLevels) (hm : m ≤ cfg.maxThreadsAtPrio) (hidx : idx < m)
    (hcells : cells = (List.range n).map fun e => k.schedule p (Ring.place m idx e))
    (hown : ∀ t ∈ cells, (k.pool t).valid = true ∧ (k.pool t).thid = t) (hnd : cells.Nodup)
    (hlast : ∀ u, last = some u → u ∉ cells) :
    ∃ last', runableAt k p m n idx last = .ok (cells.find? (isReady k),last') ∧
      ∀ u, last' = some u → last = some u ∨ u ∈ cells := by
  induction n generalizing idx last cells with
  | zero =>
    subst hcells
    exact ⟨last,rfl,fun u hu => Or.inl hu⟩
  | succ n ih =>
    have hcons : cells = k.schedule p idx ::
        (List.range n).map fun e => k.schedule p (Ring.place m ((idx+1) % m) e) := by
      rw [hcells,List.range_succ_eq_map,List.map_cons,List.map_map,Ring.place_zero hidx]
      refine congrArg (List.cons _) (List.map_congr_left fun e _ => ?_)
      exact congrArg (k.schedule p) (Ring.place_succ m idx e).symm
    generalize ht : k.schedule p idx = t at hcons
    generalize hrest : (List.range n).map
      (fun e => k.schedule p (Ring.place m ((idx+1) % m) e)) = rest at hcons
    subst hcons
    obtain ⟨hv,hid⟩ := hown t List.mem_cons_self
    obtain ⟨htn,hnd⟩ := List.nodup_cons.mp hnd
    have hcell : Kernel.InTable cfg p idx := ⟨hp,by omega⟩
    have hne : last ≠ some t := fun he => hlast t he List.mem_cons_self
    simp only [runableAt,Kernel.readCell,if_pos hcell,ht,hid,check,hv,if_pos hne,if_true,bind,
      Except.bind,List.find?_cons]
    by_cases hr : (k.pool t).state = .ready
    · rw [if_pos hr,isReady,decide_eq_true hr]
      refine ⟨some t,rfl,fun u hu => Or.inr ?_⟩
      rw [Option.some.inj hu]
      exact List.mem_cons_self
    · rw [if_neg hr,isReady,decide_eq_false hr]
      have hlast' : ∀ u, some t = some u → u ∉ rest := by
        intro u hu
        rw [← Option.some.inj hu]
        exact htn
      obtain ⟨last',hrun,hl'⟩ := ih (Nat.mod_lt _ (Nat.zero_lt_of_lt hidx)) hrest.symm
        (fun u hu => hown u (List.mem_cons_of_mem _ hu)) hnd hlast'
      refine ⟨last',hrun,fun u hu => Or.inr ?_⟩
      obtain he | hmem := hl' u hu
      · rw [← Option.some.inj he]
        exact List.mem_cons_self
      · exact List.mem_cons_of_mem _ hmem

/-- The search of one row. -/
theorem RowsOk.runableAt (h : RowsOk k) (hp : p < cfg.maxPrioLevels) {last : Option (Thid cfg)}
    (hlast : ∀ u, last = some u → u ∉ visits k p) :
    ∃ last', runableAt k p (k.procs p) (k.procs p) (k.prioIdxs p).currIdx last =
        .ok ((visits k p).find? (isReady k),last') ∧
      ∀ u, last' = some u → last = some u ∨ u ∈ visits k p := by
  obtain h0 | hpos := Nat.eq_zero_or_pos (k.procs p)
  · refine ⟨last,?_,fun u hu => Or.inl hu⟩
    have hnil : visits k p = [] := by simp [visits,row,h0]
    rw [hnil,h0]
    rfl
  · refine runableAt_eq hp (h.row_le p hp) ?_ (visits_eq k p) (fun t ht => ?_) ?_ hlast
    · have := h.curr p hp
      omega
    · exact h.own p hp t (mem_visits.mp ht)
    · exact List.nodup_rotate.mpr (h.nodup p hp)

/-- The search of several rows is the search of the cells they visit. -/
theorem RowsOk.runableFrom (h : RowsOk k) {prios : List ℕ} {last : Option (Thid cfg)}
    (hp : ∀ p ∈ prios, p < cfg.maxPrioLevels) (hnd : (prios.flatMap (visits k)).Nodup)
    (hlast : ∀ u, last = some u → u ∉ prios.flatMap (visits k)) :
    runableFrom k prios last = .ok (((prios.flatMap (visits k)).find? (isReady k)).getD k.idleThid)
    := by
  induction prios generalizing last with
  | nil => rfl
  | cons p prios ih =>
    rw [List.flatMap_cons] at hnd hlast
    obtain ⟨-,hnd',hdis⟩ := List.nodup_append.mp hnd
    obtain ⟨last',hrun,hl'⟩ := h.runableAt (hp p List.mem_cons_self) fun u hu hm =>
      hlast u hu (List.mem_append_left _ hm)
    rw [Tinker.runableFrom,hrun,List.flatMap_cons,List.find?_append]
    cases hf : (visits k p).find? (isReady k) with
    | some t => rfl
    | none =>
      refine ih (fun q hq => hp q (List.mem_cons_of_mem _ hq)) hnd' fun u hu hm => ?_
      -- the thread seen last is of an earlier row
      obtain he | hmem := hl' u hu
      · exact hlast u he (List.mem_append_right _ hm)
      · exact hdis u hmem u hm rfl

theorem RowsOk.nodup_visits (h : RowsOk k) (ha : RowsApart k) :
    ((List.range cfg.maxPrioLevels).flatMap (visits k)).Nodup := by
  refine List.nodup_flatMap.mpr ⟨fun p hp => ?_,?_⟩
  · exact List.nodup_rotate.mpr (h.nodup p (List.mem_range.mp hp))
  · refine List.Pairwise.imp_of_mem ?_ List.pairwise_lt_range
    intro p q hp hq hlt t ht ht'
    exact ha p (List.mem_range.mp hp) q (List.mem_range.mp hq) (Nat.ne_of_lt hlt)
      (mem_visits.mp ht) (mem_visits.mp ht')

/-- `_tk_next_runable_thread` goes through the rows one after the other. -/
theorem RowsOk.next (h : RowsOk k) (ha : RowsApart k) : tkNextRunableThread k =
    .ok ((((List.range cfg.maxPrioLevels).flatMap (visits k)).find? (isReady k)).getD k.idleThid) :=
  h.runableFrom (fun _ hp => List.mem_range.mp hp) (h.nodup_visits ha) fun u hu => by cases hu

theorem chosen_first (k : Kernel cfg) : Chosen k
    ((((List.range cfg.maxPrioLevels).flatMap (visits k)).find? (isReady k)).getD k.idleThid) := by
  have hnone : ∀ p, (visits k p).find? (isReady k) = none →
      ∀ u ∈ row k p, isReady k u = false := fun p hf u hu =>
    Bool.eq_false_iff.mpr (List.find?_eq_none.mp hf u (mem_visits.mpr hu))
  rw [List.find?_flatMap]
  cases hf : (List.range cfg.maxPrioLevels).findSome? fun p => (visits k p).find? (isReady k) with
  | none =>
    refine Or.inr ⟨rfl,fun p hp => hnone p ?_⟩
    exact List.findSome?_eq_none_iff.mp hf p (List.mem_range.mpr hp)
  | some t =>
    obtain ⟨above,p,below,hrange,ht,habove⟩ := List.findSome?_eq_some_iff.mp hf
    obtain ⟨hr,before,after,hv,hb⟩ := List.find?_eq_some_iff_append.mp ht
    have hp : p ∈ List.range cfg.maxPrioLevels := by simp [hrange]
    refine Or.inl ⟨p,List.mem_range.mp hp,hr,⟨before,after,hv,fun u hu => by simpa using hb u hu⟩,?_⟩
    intro q hq
    have hqm : q ∈ above ++ p :: below := by
      rw [← hrange]
      exact List.mem_range.mpr (Nat.lt_trans hq (List.mem_range.mp hp))
    have hsorted : (above ++ p :: below).Pairwise (· < ·) := hrange ▸ List.pairwise_lt_range
    obtain hq' | hq' := List.mem_append.mp hqm
    · exact hnone q (habove q hq')
    · obtain rfl | hq' := List.mem_cons.mp hq'
      · exact absurd hq (Nat.lt_irrefl q)
      · have := (List.pairwise_cons.mp (List.pairwise_append.mp hsorted).2.1).1 q hq'
        omega

theorem SameLive.visits (h : SameLive k k') (hp : p < cfg.maxPrioLevels) :
    visits k' p = visits k p := by
  rw [Tinker.visits,Tinker.visits,h.row p hp,h.prioIdxs p hp]

theorem SameLive.rowsOk (h : SameLive k k') (hk : RowsOk k) : RowsOk k' where
  row_le := fun p hp => by
    rw [Kernel.procs,h.prioIdxs p hp]
    exact hk.row_le p hp
  nodup := fun p hp => by
    rw [h.row p hp]
    exact hk.nodup p hp
  own := fun p hp t ht => by
    rw [h.row p hp] at ht
    rw [h.pool p hp t ht]
    exact hk.own p hp t ht
  curr := fun p hp => by
    rw [Kernel.procs,h.prioIdxs p hp]
    exact hk.curr p hp

theorem SameLive.rowsApart (h : SameLive k k') (hk : RowsApart k) : RowsApart k' := by
  intro p hp q hq hne
  rw [h.row p hp,h.row q hq]
  exact hk p hp q hq hne

/-- What is chosen depends on the live cells only. -/
theorem SameLive.next (h : SameLive k k') (hk : RowsOk k) (ha : RowsApart k) :
    tkNextRunableThread k' = tkNextRunableThread k := by
  have hcells : (List.range cfg.maxPrioLevels).flatMap (Tinker.visits k') =
      (List.range cfg.maxPrioLevels).flatMap (Tinker.visits k) :=
    List.flatMap_congr fun p hp => h.visits (List.mem_range.mp hp)
  rw [(h.rowsOk hk).next (h.rowsApart ha),hk.next ha,hcells,h.idleThid]
  refine congrArg (fun o => Except.ok (o.getD k.idleThid)) (List.find?_congr fun t ht => ?_)
  obtain ⟨p,hp,ht⟩ := List.mem_flatMap.mp ht
  rw [isReady,isReady,h.pool p (List.mem_range.mp hp) t (mem_visits.mp ht)]

/-- The dispatcher's choice, where no thread is in two rows. -/
theorem tkNextRunableThread_chosen (h : RowsOk k) (ha : RowsApart k) :
    Spec (tkNextRunableThread k) (fun t => Chosen k t ∧
      ∀ k', SameLive k k' → tkNextRunableThread k' = .ok t) (fun _ => False) := by
  refine spec_total_iff.mpr ⟨_,h.next ha,chosen_first k,fun k' hs => ?_⟩
  rw [hs.next h ha]
  exact h.next ha

end

theorem ScheduleInv.row_nodup {k : Kernel cfg} {out : Finset (Thid cfg)} (h : ScheduleInv k out) :
    ∀ p < cfg.maxPrioLevels, (row k p).Nodup := by
  intro p hp
  refine List.Nodup.map_on ?_ List.nodup_range
  intro i hi j hj he
  have hi' := (h.live p i ⟨hp,List.mem_range.mp hi⟩).2.2.1
  have hj' := (h.live p j ⟨hp,List.mem_range.mp hj⟩).2.2.1
  rw [← hi',← hj',he]

/-- In a well-formed table the rows are as the search needs them. -/
theorem ScheduleInv.rowsOk {k : Kernel cfg} {out : Finset (Thid cfg)} (h : ScheduleInv k out)
    (hid : ∀ t, (k.pool t).valid = true → (k.pool t).thid = t) : RowsOk k where
  row_le := h.row_le
  nodup := h.row_nodup
  own := fun p hp t ht => by
    obtain ⟨i,hi,rfl⟩ := mem_row.mp ht
    have hv := (h.live p i ⟨hp,hi⟩).1
    exact ⟨hv,hid _ hv⟩
  curr := h.curr

theorem ScheduleInv.rowsApart {k : Kernel cfg} {out : Finset (Thid cfg)} (h : ScheduleInv k out) :
    RowsApart k := by
  intro p hp q hq hne t ht ht'
  obtain ⟨i,hi,rfl⟩ := mem_row.mp ht
  obtain ⟨j,hj,he⟩ := mem_row.mp ht'
  have hp' := (h.live p i ⟨hp,hi⟩).2.1
  have hq' := (h.live q j ⟨hq,hj⟩).2.1
  rw [he] at hq'
  exact hne (hp'.symm.trans hq')

theorem tkNextRunableThread_chosen_twoReady : Spec (tkNextRunableThread twoReady)
    (fun t => Chosen twoReady t ∧ ∀ k', SameLive twoReady k' → tkNextRunableThread k' = .ok t)
    (fun _ => False) :=
  tkNextRunableThread_chosen (twoReady_inv.rowsOk (by decide)) twoReady_inv.rowsApart

/-- A thread that sleeps is in the rows 0 and 1. -/
def inTwoRows : Kernel gnuArm :=
  { clearKernel with
    pool := fun t => { zombiTcb with thid := t, valid := true, state := .sleep }
    prioIdxs := fun p => if p < 2 then ⟨1,0⟩ else ⟨0,0⟩ }

theorem inTwoRows_rowsOk : RowsOk inTwoRows where
  row_le := by decide
  nodup := by decide
  own := by decide
  curr := by decide

/-- Distinct threads within each row are not enough for the assert on `last_thid`. -/
theorem tkNextRunableThread_not_chosen : ¬∀ k : Kernel gnuArm, RowsOk k →
    Spec (tkNextRunableThread k) (fun t => Chosen k t ∧
      ∀ k', SameLive k k' → tkNextRunableThread k' = .ok t) (fun _ => False) := by
  intro h
  obtain ⟨t,ht,-⟩ := spec_total_iff.mp (h inTwoRows inTwoRows_rowsOk)
  have hf : (tkNextRunableThread inTwoRows).toOption = none := by decide
  rw [ht] at hf
  cases hf

/-! ### Moves between rows -/

/-- The threads of the live cells know their places; thread 0 need not. -/
def RowsPlaced (k : Kernel cfg) : Prop := ∀ p < cfg.maxPrioLevels, ∀ i < k.procs p,
  k.schedule p i ≠ root → (k.pool (k.schedule p i)).prio = p ∧ (k.pool (k.schedule p i)).idx = i

/-- The cells behind the live ones hold 0. -/
def UnusedClear (k : Kernel cfg) : Prop := ∀ p < cfg.maxPrioLevels,
  ∀ i < cfg.maxThreadsAtPrio, k.procs p ≤ i → k.schedule p i = root

/-- Rows of distinct threads that know their places, with a cell to spare and 0 behind. -/
structure Packed (k : Kernel cfg) : Prop where
  room : ∀ p < cfg.maxPrioLevels, k.procs p < cfg.maxThreadsAtPrio
  nodup : ∀ p < cfg.maxPrioLevels, (row k p).Nodup
  placed : RowsPlaced k
  unused : UnusedClear k

/-- `t` is in the cell its control block names. -/
def InPlace (k : Kernel cfg) (t : Thid cfg) : Prop :=
  LiveCell k (k.pool t).prio (k.pool t).idx ∧ k.schedule (k.pool t).prio (k.pool t).idx = t

/-- What taking `t` out of its row asks of the table. -/
structure Removable (k : Kernel cfg) (t : Thid cfg) : Prop where
  place : InPlace k t
  room : k.procs (k.pool t).prio < cfg.maxThreadsAtPrio
  nodup : (row k (k.pool t).prio).Nodup
  placed : RowsPlaced k
  unused : UnusedClear k

/-- `t` has left its row, and it is at the end of row `new` where it was to go there. -/
structure RowsUpdated (k k' : Kernel cfg) (t : Thid cfg) (new : Option ℕ) : Prop where
  rows : ∀ p < cfg.maxPrioLevels, row k' p =
    if p = (k.pool t).prio then (row k p).erase t
    else if new = some p then row k p ++ [t] else row k p
  placed : RowsPlaced k'
  unused : UnusedClear k'

section

variable {k k' : Kernel cfg} {t : Thid cfg} {p : ℕ}

theorem Packed.removable (h : Packed k) (ht : InPlace k t) : Removable k t :=
  ⟨ht,h.room _ ht.1.1,h.nodup _ ht.1.1,h.placed,h.unused⟩

theorem InPlace.row_erase (h : InPlace k t) (hnd : (row k (k.pool t).prio).Nodup) :
    (row k (k.pool t).prio).erase t = (row k (k.pool t).prio).eraseIdx (k.pool t).idx := by
  have hlt : (k.pool t).idx < (row k (k.pool t).prio).length := by simpa using h.1.2
  have hcell : (row k (k.pool t).prio)[(k.pool t).idx] = t := by simpa using h.2
  have hfirst := hnd.idxOf_getElem _ hlt
  rw [hcell] at hfirst
  exact List.erase_eq_eraseIdx_of_idxOf hfirst

/-- The cell the thread's control block names is taken out. -/
theorem row_takeOut (hlt : (k.pool t).idx < k.procs (k.pool t).prio) (p : ℕ) : row (takeOut k t) p =
    if p = (k.pool t).prio then (row k p).eraseIdx (k.pool t).idx else row k p := by
  split
  · next hp =>
    subst hp
    refine List.ext_getElem ?_ fun i h1 h2 => ?_
    · rw [row_length,takeOut_procs,if_pos rfl,List.length_eraseIdx_of_lt (by simpa using hlt),
        row_length]
    · rw [row_length,takeOut_procs,if_pos rfl] at h1
      rw [row_getElem,takeOut_schedule k t _ _ hlt.le]
      by_cases hi : i < (k.pool t).idx
      · rw [if_neg (by omega),List.getElem_eraseIdx_of_lt h2 hi,row_getElem]
      · rw [if_pos ⟨rfl,by omega,by omega⟩,List.getElem_eraseIdx_of_ge h2 (by omega),row_getElem]
  · next hp =>
    have hcells : ∀ i, (takeOut k t).schedule p i = k.schedule p i := fun i => by
      rw [takeOut_schedule k t _ _ hlt.le,if_neg fun hh => hp hh.1]
    rw [row,row,takeOut_procs,if_neg hp]
    exact List.map_congr_left fun i _ => hcells i

/-- Where the control block names no live cell, the last one is. -/
theorem row_takeOut_of_le (hle : k.procs (k.pool t).prio ≤ (k.pool t).idx) (p : ℕ) :
    row (takeOut k t) p = if p = (k.pool t).prio then (row k p).dropLast else row k p := by
  have hcells : (takeOut k t).schedule = k.schedule := by
    rw [takeOut,Nat.sub_eq_zero_of_le hle]
    funext p i
    exact if_neg (by omega)
  rw [row,takeOut_procs,hcells]
  split
  · rw [row,List.dropLast_eq_take,List.length_map,List.length_range,← List.map_take,List.take_range,
      Nat.min_eq_left (Nat.sub_le _ _)]
  · rfl

theorem row_takeOut_sublist (k : Kernel cfg) (t : Thid cfg) (p : ℕ) :
    (row (takeOut k t) p).Sublist (row k p) := by
  obtain hlt | hle := Nat.lt_or_ge (k.pool t).idx (k.procs (k.pool t).prio)
  · rw [row_takeOut hlt]
    split
    · exact List.eraseIdx_sublist _ _
    · exact List.Sublist.refl _
  · rw [row_takeOut_of_le hle]
    split
    · exact List.dropLast_sublist _
    · exact List.Sublist.refl _

theorem Removable.row_takeOut (h : Removable k t) (p : ℕ) : row (takeOut k t) p =
    if p = (k.pool t).prio then (row k p).erase t else row k p := by
  rw [Tinker.row_takeOut h.place.1.2]
  split
  · next hp => rw [hp,h.place.row_erase h.nodup]
  · rfl

/-- What the loop writes into a control block other than thread 0's is the new place. -/
theorem Removable.idx_takeOut (h : Removable k t) {i : ℕ} (hp : p < cfg.maxPrioLevels)
    (hi : i < k.procs p) (hu : k.schedule p i ≠ root) :
    ((takeOut k t).pool (k.schedule p i)).idx =
      if p = (k.pool t).prio ∧ (k.pool t).idx < i then i-1 else i := by
  obtain ⟨hprio,hidx⟩ := h.placed p hp i hi hu
  have hlt := h.place.1.2
  have hmax := h.place.1.1
  -- the cells the loop reads, the one behind the row included
  have hcell : ∀ j, j ≤ k.procs (k.pool t).prio → k.schedule (k.pool t).prio j = k.schedule p i →
      p = (k.pool t).prio ∧ i = j := by
    intro j hj he
    obtain hj | rfl := Nat.lt_or_eq_of_le hj
    · obtain ⟨hp',hi'⟩ := h.placed _ hmax j hj (he ▸ hu)
      rw [he] at hp' hi'
      exact ⟨hprio.symm.trans hp',hidx.symm.trans hi'⟩
    · exact absurd (he.symm.trans (h.unused _ hmax _ h.room le_rfl)) hu
  rw [takeOut_pool]
  split
  · next hc =>
    obtain ⟨hpt,hgt⟩ := hc
    rw [← hpt] at hlt hcell ⊢
    refine lastCopy_of_last (by omega) (by omega) ?_ fun j hj hj' he => ?_
    · rw [Nat.sub_add_cancel (by omega)]
    · have := (hcell (j+1) (by omega) he).2
      omega
  · next hc =>
    refine (lastCopy_of_ne fun j hj hj' he => hc ?_).trans hidx
    obtain ⟨hpt,hij⟩ := hcell (j+1) (by omega) he
    exact ⟨hpt,by omega⟩

theorem Removable.placed_takeOut (h : Removable k t) : RowsPlaced (takeOut k t) := by
  intro p hp i hi hu
  have hlt := h.place.1.2
  have hsched := takeOut_schedule k t p i hlt.le
  have hprio : ∀ x, ((takeOut k t).pool x).prio = (k.pool x).prio := fun x => rfl
  rw [takeOut_procs] at hi
  rw [hprio]
  by_cases hc : p = (k.pool t).prio ∧ (k.pool t).idx ≤ i
  · obtain ⟨hpt,hge⟩ := hc
    rw [if_pos hpt] at hi
    rw [if_pos ⟨hpt,hge,by rw [← hpt]; omega⟩] at hsched
    rw [hsched] at hu ⊢
    refine ⟨(h.placed p hp (i+1) (by omega) hu).1,?_⟩
    rw [h.idx_takeOut hp (by omega) hu,if_pos ⟨hpt,by omega⟩,Nat.add_sub_cancel]
  · rw [if_neg fun hh => hc ⟨hh.1,hh.2.1⟩] at hsched
    have hi' : i < k.procs p := by
      split at hi
      · exact Nat.lt_of_lt_of_le hi (Nat.sub_le _ _)
      · exact hi
    rw [hsched] at hu ⊢
    refine ⟨(h.placed p hp i hi' hu).1,?_⟩
    rw [h.idx_takeOut hp hi' hu,if_neg fun hh => hc ⟨hh.1,Nat.le_of_lt hh.2⟩]

theorem Removable.unused_takeOut (h : Removable k t) : UnusedClear (takeOut k t) := by
  intro p hp i him hi
  rw [takeOut_procs] at hi
  rw [takeOut_schedule k t p i h.place.1.2.le]
  split
  · next hc =>
    obtain ⟨rfl,-,hlt⟩ := hc
    rw [if_pos rfl] at hi
    have := h.room
    exact h.unused _ hp (i+1) (by omega) (by omega)
  · next hc =>
    refine h.unused p hp i him ?_
    split at hi
    · next hpt =>
      subst hpt
      have := h.place.1.2
      omega
    · exact hi

/-- The thread is out of its row and goes nowhere. -/
theorem Removable.left (h : Removable k t) (hs : k'.schedule = (takeOut k t).schedule)
    (hi : k'.prioIdxs = (takeOut k t).prioIdxs)
    (hx : ∀ x, (k'.pool x).prio = ((takeOut k t).pool x).prio ∧
      (k'.pool x).idx = ((takeOut k t).pool x).idx) : RowsUpdated k k' t none where
  rows := fun p _ => by
    have hrow : row k' p = row (takeOut k t) p := by rw [row,row,Kernel.procs,Kernel.procs,hs,hi]
    rw [hrow,h.row_takeOut]
    simp
  placed := fun p hp i hlt hu => by
    rw [Kernel.procs,hi] at hlt
    rw [hs] at hu ⊢
    rw [(hx _).1,(hx _).2]
    exact h.placed_takeOut p hp i hlt hu
  unused := fun p hp i him hle => by
    rw [Kernel.procs,hi] at hle
    rw [hs]
    exact h.unused_takeOut p hp i him hle

/-- The part of `tk_delete_thread` that takes the thread out of its row. -/
theorem Removable.bury_eq (h : Removable k t) : bury k t = .ok
    ((takeOut { k with procsInUse := k.procsInUse-1 } t).modTcb t fun b => { b with valid := false }) := by
  obtain ⟨hp,hi⟩ := h.place.1
  have hroom := h.room
  have hcell : Kernel.InTable cfg (k.pool t).prio (k.pool t).idx := ⟨hp,by omega⟩
  have hfit : (k.pool t).idx+(k.procs (k.pool t).prio-(k.pool t).idx) < cfg.maxThreadsAtPrio := by
    omega
  simp only [Tinker.bury,Kernel.readCell,if_pos hcell,h.place.2,Kernel.readProcs,if_pos hp,check,
    if_true,bind,Except.bind]
  rw [compactRow_eq hp _ _ _ hfit]
  rfl

theorem Packed.bury (h : Packed k) (ht : InPlace k t) :
    Spec (bury k t) (fun k' => RowsUpdated k k' t none ∧ (k'.pool t).valid = false)
      (fun _ => False) := by
  rw [(h.removable ht).bury_eq,spec_ok]
  refine ⟨(h.removable ht).left rfl rfl fun x => ?_,by rw [Kernel.modTcb_pool,if_pos rfl]⟩
  rw [Kernel.modTcb_pool]
  split
  · next he =>
    subst he
    exact ⟨rfl,rfl⟩
  · exact ⟨rfl,rfl⟩

/-- `t` out of its row and at the end of row `new`. -/
def movedTo (k : Kernel cfg) (t : Thid cfg) (new : ℕ) : Kernel cfg :=
  (({ takeOut k t with
      schedule := fun p i => if p = new ∧ i = k.procs new then t else (takeOut k t).schedule p i }
    : Kernel cfg).modStat new fun s => { s with procsAtPrio := s.procsAtPrio+1 }).modTcb t
    fun b => { b with prio := new, idx := k.procs new }

section

variable {new : ℕ}

theorem movedTo_schedule (k : Kernel cfg) (t : Thid cfg) (new p i : ℕ) : (movedTo k t new).schedule p i =
    if p = new ∧ i = k.procs new then t else (takeOut k t).schedule p i := rfl

theorem movedTo_pool (k : Kernel cfg) (t : Thid cfg) (new : ℕ) (x : Thid cfg) :
    (movedTo k t new).pool x = if x = t then { k.pool t with prio := new, idx := k.procs new }
      else (takeOut k t).pool x := by
  rw [movedTo,Kernel.modTcb_pool]
  split <;> rfl

theorem movedTo_procs (hne : (k.pool t).prio ≠ new) (p : ℕ) : (movedTo k t new).procs p =
    if p = new then k.procs new+1 else (takeOut k t).procs p := by
  have hprocs : (takeOut k t).procs new = k.procs new := by
    rw [takeOut_procs,if_neg (Ne.symm hne)]
  rw [movedTo,Kernel.modTcb_procs,Kernel.procs,Kernel.modStat_prioIdxs]
  split
  · exact congrArg (·+1) hprocs
  · rfl

theorem row_movedTo (hne : (k.pool t).prio ≠ new) (p : ℕ) : row (movedTo k t new) p =
    if p = new then row k p ++ [t] else row (takeOut k t) p := by
  rw [row,movedTo_procs hne]
  split
  · next hp =>
    subst hp
    rw [List.range_succ,List.map_append,List.map_singleton,movedTo_schedule,if_pos ⟨rfl,rfl⟩]
    refine congrArg (· ++ [t]) (List.map_congr_left fun i hi => ?_)
    have hi := List.mem_range.mp hi
    rw [movedTo_schedule,if_neg (by omega),takeOut,shortenRow,Kernel.modStat_schedule]
    exact if_neg fun hh => hne hh.1.symm
  · next hp =>
    refine List.map_congr_left fun i _ => ?_
    rw [movedTo_schedule,if_neg fun hh => hp hh.1]

/-- `tk_change_prio` to another priority. -/
theorem InPlace.changePrio_eq (h : InPlace k t) (hold : k.procs (k.pool t).prio < cfg.maxThreadsAtPrio)
    (hv : (k.pool t).valid = true) (hnew : new < cfg.maxPrioLevels) (hne : (k.pool t).prio ≠ new)
    (hroom : k.procs new < cfg.maxThreadsAtPrio) :
    tkChangePrio k t new = .ok (movedTo k t new,changePrioYield k t new) := by
  obtain ⟨hp,hi⟩ := h.1
  have hprocs : (takeOut k t).procs new = k.procs new := by
    rw [takeOut_procs,if_neg (Ne.symm hne)]
  have hcell : Kernel.InTable cfg new (k.procs new) := ⟨hnew,hroom⟩
  have hok : changePrioErrors k t new (k.procs new) = 0 :=
    (changePrioErrors_eq_zero k t new _).mpr ⟨hv,by omega,hroom⟩
  have hpos : (0 : ℤ) ≤ new := Int.natCast_nonneg new
  have heq : Spec (tkChangePrio k t new) (fun r => r = (movedTo k t new,changePrioYield k t new))
      (fun _ => False) := by
    simp only [tkChangePrio,Int.toNat_natCast,Kernel.readProcs,if_pos hnew,if_pos hp,spec_bind,
      spec_check,spec_ok,hok,if_neg hne,hpos,not_true_eq_false,true_implies,false_implies,and_true]
    rw [compactRow_eq hp _ _ _ (by omega),spec_ok]
    change Spec ((takeOut k t).writeCell new ((takeOut k t).procs new) t) _ _
    rw [hprocs,Kernel.writeCell,if_pos hcell,spec_ok,movedTo,← hprocs]
    rfl
  obtain ⟨r,hr,rfl⟩ := spec_total_iff.mp heq
  exact hr

/-- The thread is out of its row and has entered at the end of another one. -/
theorem Removable.movedTo (h : Removable k t) (hne : (k.pool t).prio ≠ new) :
    RowsUpdated k (movedTo k t new) t (some new) := by
  have hnew : (takeOut k t).procs new = k.procs new := by
    rw [takeOut_procs,if_neg (Ne.symm hne)]
  -- the thread is in no row any more
  have hgone : ∀ p < cfg.maxPrioLevels, ∀ i < (takeOut k t).procs p, t ≠ root →
      (takeOut k t).schedule p i ≠ t := by
    intro p hp i hlt htr he
    have hpl := (h.placed_takeOut p hp i hlt (by rw [he]; exact htr)).1
    rw [he] at hpl
    have hpl : (k.pool t).prio = p := hpl
    have hmem : t ∈ row (takeOut k t) p := mem_row.mpr ⟨i,hlt,he⟩
    subst hpl
    rw [h.row_takeOut,if_pos rfl] at hmem
    exact h.nodup.not_mem_erase hmem
  refine ⟨fun p hp => ?_,fun p hp i hlt hu => ?_,fun p hp i him hle => ?_⟩
  · rw [row_movedTo hne,h.row_takeOut]
    by_cases hpn : p = new
    · rw [if_pos hpn,if_neg fun he => hne (he.symm.trans hpn),if_pos (congrArg some hpn.symm)]
    · rw [if_neg hpn,if_neg fun he => hpn (Option.some.inj he).symm]
  · rw [movedTo_schedule] at hu ⊢
    rw [movedTo_procs hne] at hlt
    by_cases hc : p = new ∧ i = k.procs new
    · rw [if_pos hc,movedTo_pool,if_pos rfl,hc.1,hc.2]
      exact ⟨rfl,rfl⟩
    · rw [if_neg hc] at hu ⊢
      have hlt' : i < (takeOut k t).procs p := by
        split at hlt
        · next hpn =>
          subst hpn
          have : i ≠ k.procs p := fun he => hc ⟨rfl,he⟩
          omega
        · exact hlt
      have hxt : (takeOut k t).schedule p i ≠ t := by
        intro he
        exact hgone p hp i hlt' (he ▸ hu) he
      rw [movedTo_pool,if_neg hxt]
      exact h.placed_takeOut p hp i hlt' hu
  · rw [movedTo_procs hne] at hle
    rw [movedTo_schedule]
    split at hle
    · next hpn =>
      subst hpn
      rw [if_neg (by omega)]
      exact h.unused_takeOut p hp i him (by omega)
    · next hpn =>
      rw [if_neg fun hh => hpn hh.1]
      exact h.unused_takeOut p hp i him hle

end

theorem Packed.changePrio (h : Packed k) (ht : InPlace k t) (hv : (k.pool t).valid = true)
    {newPrio : ℤ} (h0 : 0 ≤ newPrio) (hlt : newPrio < cfg.maxPrioLevels)
    (hne : newPrio ≠ (k.pool t).prio) :
    Spec (tkChangePrio k t newPrio) (fun r => RowsUpdated k r.1 t (some newPrio.toNat))
      (fun _ => False) := by
  obtain ⟨new,rfl⟩ := Int.eq_ofNat_of_zero_le h0
  have hne' : (k.pool t).prio ≠ new := by omega
  rw [ht.changePrio_eq (h.room _ ht.1.1) hv (by omega) hne' (h.room new (by omega)),spec_ok]
  exact (h.removable ht).movedTo hne'

theorem SameTable.row (h : SameTable k k') (p : ℕ) : row k' p = row k p := by
  rw [Tinker.row,Tinker.row,Kernel.procs,Kernel.procs,h.schedule,h.prioIdxs]

theorem SameTable.packed (h : SameTable k k') (hk : Packed k) : Packed k' := by
  have hprio := fun x => (h.pool x).2.1
  have hidx := fun x => (h.pool x).2.2
  refine ⟨?_,fun p hp => by rw [h.row]; exact hk.nodup p hp,?_,?_⟩
  · simpa only [Kernel.procs,h.prioIdxs] using hk.room
  · simpa only [RowsPlaced,Kernel.procs,h.prioIdxs,h.schedule,hprio,hidx] using hk.placed
  · simpa only [UnusedClear,Kernel.procs,h.prioIdxs,h.schedule] using hk.unused

theorem SameTable.inPlace (h : SameTable k k') (ht : InPlace k t) : InPlace k' t := by
  have hprio := fun x => (h.pool x).2.1
  have hidx := fun x => (h.pool x).2.2
  simpa only [InPlace,LiveCell,Kernel.procs,h.prioIdxs,h.schedule,hprio,hidx] using ht

/-- `tk_delete_thread` leaves the rows alone or takes the thread out of its row. -/
theorem Packed.deleteThread (h : Packed k) (ht : InPlace k t) (hv : (k.pool t).valid = true) :
    Spec (tkDeleteThread k t) (fun r => if (r.1.pool t).valid = true
      then ∀ p, row r.1 p = row k p else RowsUpdated k r.1 t none)
      (fun e => e = .assertParent ∨ e = .assertNoChilds) := by
  have hne : ¬(k.pool t).valid = false := by simp [hv]
  simp only [tkDeleteThread,if_neg hne,spec_bind]
  refine (killThread_spec k t).imp ?_
  rintro ⟨k1,buryIt⟩ ⟨hs,-⟩
  cases buryIt with
  | false =>
    have hv1 : (k1.pool t).valid = true := (hs.pool t).1.trans hv
    simp only [Bool.false_eq_true,if_false,spec_pure]
    rw [if_pos hv1]
    exact hs.row
  | true =>
    simp only [if_true,spec_bind,spec_pure]
    refine ((hs.packed h).bury (hs.inPlace ht)).mono ?_ fun _ => False.elim
    rintro k2 ⟨hu,hv2⟩
    rw [if_neg (by simp [hv2])]
    refine ⟨fun p hp => ?_,hu.placed,hu.unused⟩
    rw [hu.rows p hp,hs.row,(hs.pool t).2.1]

/-- What `tk_change_prio` and `tk_delete_thread` do to the rows. -/
theorem packed_rowsUpdated (h : Packed k) (ht : InPlace k t) (hv : (k.pool t).valid = true) :
    (∀ newPrio : ℤ, 0 ≤ newPrio → newPrio < cfg.maxPrioLevels → newPrio ≠ (k.pool t).prio →
      Spec (tkChangePrio k t newPrio) (fun r => RowsUpdated k r.1 t (some newPrio.toNat))
        (fun _ => False)) ∧
    Spec (bury k t) (fun k' => RowsUpdated k k' t none) (fun _ => False) ∧
    Spec (tkDeleteThread k t) (fun r => if (r.1.pool t).valid = true
      then ∀ p, row r.1 p = row k p else RowsUpdated k r.1 t none)
      (fun e => e = .assertParent ∨ e = .assertNoChilds) :=
  ⟨fun _ h0 hlt hne => h.changePrio ht hv h0 hlt hne,(h.bury ht).imp fun _ => And.left,
    h.deleteThread ht hv⟩

/-- A well-formed table with a cell to spare in each row and 0 in the unused cells. -/
theorem ScheduleInv.packed {out : Finset (Thid cfg)} (h : ScheduleInv k out)
    (hroom : ∀ p < cfg.maxPrioLevels, k.procs p < cfg.maxThreadsAtPrio) (hu : UnusedClear k) :
    Packed k where
  room := hroom
  nodup := h.row_nodup
  placed := fun p hp i hi _ => ⟨(h.live p i ⟨hp,hi⟩).2.1,(h.live p i ⟨hp,hi⟩).2.2.1⟩
  unused := hu

end

/-- Two threads at priority 1, the first of them dead. -/
def twoInRow : Kernel gnuArm :=
  { clearKernel with
    pool := fun t => { zombiTcb with
      valid := true
      state := if t = 1 then .zombi else .ready
      prio := 1
      idx := t.val-1 }
    schedule := fun p i => if p = 1 ∧ i = 0 then 1 else if p = 1 ∧ i = 1 then 2 else root
    prioIdxs := fun p => if p = 1 then ⟨2,0⟩ else ⟨0,0⟩ }

theorem twoInRow_packed : Packed twoInRow where
  room := by decide
  nodup := by decide
  placed := by unfold RowsPlaced; decide
  unused := by unfold UnusedClear; decide

theorem packed_rowsUpdated_twoInRow :
    (∀ newPrio : ℤ, 0 ≤ newPrio → newPrio < gnuArm.maxPrioLevels →
      newPrio ≠ (twoInRow.pool 1).prio → Spec (tkChangePrio twoInRow 1 newPrio)
        (fun r => RowsUpdated twoInRow r.1 1 (some newPrio.toNat)) (fun _ => False)) ∧
    Spec (bury twoInRow 1) (fun k' => RowsUpdated twoInRow k' 1 none) (fun _ => False) ∧
    Spec (tkDeleteThread twoInRow 1) (fun r => if (r.1.pool 1).valid = true
      then ∀ p, row r.1 p = row twoInRow p else RowsUpdated twoInRow r.1 1 none)
      (fun e => e = .assertParent ∨ e = .assertNoChilds) :=
  packed_rowsUpdated twoInRow_packed (by unfold InPlace; decide) rfl

end Tinker

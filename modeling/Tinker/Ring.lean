import Mathlib.Data.List.Rotate
import Mathlib.Data.Nat.ModEq
import Mathlib.Logic.Function.Basic
import Mathlib.Tactic.Common

/-! Circular buffers of `n` cells with an index to read from and one to write at.
`Holds` says which list the cells from `out` up to `inn` hold; the operations on cells and
indices are operations on that list. One cell stays free, so full and empty differ. -/
namespace Ring

variable {α : Type*} {n out inn : ℕ} {cells : ℕ → Option α} {l : List α}

/-- The index `i` places after `out`. -/
def place (n out i : ℕ) : ℕ := (out+i) % n

/-- One place on. -/
def succ (n i : ℕ) : ℕ := (i+1) % n

/-- One place back. -/
def pred (n i : ℕ) : ℕ := if i = 0 then n-1 else i-1

theorem place_lt (hn : 0 < n) (out i : ℕ) : place n out i < n := Nat.mod_lt _ hn

theorem place_zero (h : out < n) : place n out 0 = out := Nat.mod_eq_of_lt h

theorem succ_place (n out i : ℕ) : succ n (place n out i) = place n out (i+1) := by
  simp [succ,place,Nat.add_assoc]

theorem place_succ (n out i : ℕ) : place n (succ n out) i = place n out (i+1) := by
  simp only [succ,place,Nat.mod_add_mod]
  rw [Nat.add_assoc,Nat.add_comm 1 i]

theorem pred_place (hn : 0 < n) (out i : ℕ) : pred n (place n out (i+1)) = place n out i := by
  have hlt := Nat.mod_lt (out+i) hn
  have hstep : place n out (i+1) = if (out+i) % n+1 = n then 0 else (out+i) % n+1 := by
    rw [← succ_place,succ,place]
    split
    · next h => rw [h,Nat.mod_self]
    · exact Nat.mod_eq_of_lt (by omega)
  rw [hstep,pred,place]
  by_cases hw : (out+i) % n+1 = n
  · rw [if_pos hw,if_pos rfl]; omega
  · rw [if_neg hw,if_neg (Nat.succ_ne_zero _)]; rfl

theorem place_inj {i j : ℕ} (hi : i < n) (hj : j < n) (h : place n out i = place n out j) :
    i = j := by
  have hm : i ≡ j [MOD n] := Nat.ModEq.add_left_cancel' out h
  rwa [Nat.ModEq,Nat.mod_eq_of_lt hi,Nat.mod_eq_of_lt hj] at hm

/-- The places from any index on are all indices. -/
theorem places_perm (n out : ℕ) : ((List.range n).map (place n out)).Perm (List.range n) := by
  have hrotate : (List.range n).map (place n out) = (List.range n).rotate out := by
    apply List.ext_getElem
    · rw [List.length_map,List.length_rotate]
    · intro i _ _
      rw [List.getElem_map,List.getElem_rotate,List.getElem_range,List.getElem_range,
        List.length_range,place,Nat.add_comm]
  rw [hrotate]
  exact List.rotate_perm _ _

/-- The indices from `i` up to `stop`, `fuel` of them at most. -/
def walk (n stop : ℕ) : ℕ → ℕ → List ℕ
  | 0, _ => []
  | fuel+1, i => if i = stop then [] else i :: walk n stop fuel (succ n i)

/-- The cells from `idx` on are overwritten by the next ones until `idx` reaches `stop`. -/
def shift (n stop : ℕ) : ℕ → ℕ → (ℕ → Option α) → ℕ → Option α
  | 0, _, cells => cells
  | fuel+1, idx, cells =>
    if idx = stop then cells
    else shift n stop fuel (succ n idx) (Function.update cells idx (cells (succ n idx)))

structure Holds (n : ℕ) (cells : ℕ → Option α) (out inn : ℕ) (l : List α) : Prop where
  out_lt : out < n
  room : l.length < n
  inn_eq : inn = place n out l.length
  cell : ∀ i (h : i < l.length), cells (place n out i) = some l[i]

theorem Holds.pos (h : Holds n cells out inn l) : 0 < n := Nat.zero_lt_of_lt h.out_lt

theorem Holds.inn_lt (h : Holds n cells out inn l) : inn < n := by
  rw [h.inn_eq]; exact place_lt h.pos _ _

theorem Holds.nil (cells : ℕ → Option α) (h : out < n) : Holds n cells out out [] :=
  ⟨h,Nat.zero_lt_of_lt h,(place_zero h).symm,fun i hi => absurd hi (Nat.not_lt_zero i)⟩

theorem walk_place {len : ℕ} (hlen : len < n) (out fuel i : ℕ) (hi : i ≤ len)
    (hf : len ≤ fuel+i) :
    walk n (place n out len) fuel (place n out i) = (List.range' i (len-i)).map (place n out) := by
  induction fuel generalizing i with
  | zero =>
    have : i = len := by omega
    subst this
    simp [walk]
  | succ fuel ih =>
    rw [walk]
    by_cases he : i = len
    · subst he; simp
    · rw [if_neg fun h => he (place_inj (by omega) hlen h),succ_place,ih (i+1) (by omega) (by omega),
        show len-i = len-(i+1)+1 by omega,List.range'_succ,List.map_cons]

/-- How far one index is behind another. -/
theorem place_sub (hout : out < n) (hinn : inn < n) : place n out ((inn+n-out) % n) = inn := by
  rw [place,Nat.add_mod_mod,show out+(inn+n-out) = inn+n by omega,Nat.add_mod_right,
    Nat.mod_eq_of_lt hinn]

/-- What a loop from `out` up to `inn` finds is what the cells hold. -/
theorem holds_of_walk (hout : out < n) (hinn : inn < n)
    (h : (walk n inn n out).map cells = l.map some) : Holds n cells out inn l := by
  have hlt : (inn+n-out) % n < n := Nat.mod_lt _ (Nat.zero_lt_of_lt hout)
  have hwalk := walk_place hlt out n 0 (Nat.zero_le _) hlt.le
  rw [place_zero hout,place_sub hout hinn,Nat.sub_zero] at hwalk
  rw [hwalk] at h
  have hlen : (inn+n-out) % n = l.length := by simpa using congrArg List.length h
  rw [hlen] at h hlt
  refine ⟨hout,hlt,?_,fun i hi => ?_⟩
  · rw [← hlen]
    exact (place_sub hout hinn).symm
  · have hcell := congrArg (fun l => l[i]?) h
    simpa [hi] using hcell

/-- Walking from `out` to `inn` visits the held cells in order. -/
theorem Holds.walk_eq (h : Holds n cells out inn l) :
    walk n inn n out = (List.range l.length).map (place n out) := by
  have hw := walk_place h.room out n 0 (Nat.zero_le _) (by have := h.room; omega)
  rw [place_zero h.out_lt,← h.inn_eq] at hw
  rw [hw,List.range_eq_range',Nat.sub_zero]

theorem Holds.map_walk (h : Holds n cells out inn l) : (walk n inn n out).map cells = l.map some := by
  rw [h.walk_eq,List.map_map]
  refine List.ext_getElem (by simp) fun i h1 h2 => ?_
  simp only [List.length_map,List.length_range] at h1
  simp [h.cell i h1]

theorem Holds.push (h : Holds n cells out inn l) (hl : l.length+1 < n) (a : α) :
    Holds n (Function.update cells inn (some a)) out (succ n inn) (l ++ [a]) where
  out_lt := h.out_lt
  room := by simpa using hl
  inn_eq := by rw [h.inn_eq,succ_place,List.length_append,List.length_singleton]
  cell := by
    intro i hi
    rw [List.length_append,List.length_singleton] at hi
    by_cases he : i = l.length
    · subst he
      rw [h.inn_eq,Function.update_self]
      simp
    · have hne : place n out i ≠ inn := by
        rw [h.inn_eq]
        exact fun hp => he (place_inj (by omega) h.room hp)
      rw [Function.update_of_ne hne,h.cell i (by omega),List.getElem_append_left (by omega)]

theorem Holds.head {a : α} (h : Holds n cells out inn (a :: l)) : cells out = some a := by
  have := h.cell 0 (by simp)
  rwa [place_zero h.out_lt] at this

theorem Holds.pop {a : α} (h : Holds n cells out inn (a :: l)) :
    Holds n cells (succ n out) inn l where
  out_lt := Nat.mod_lt _ h.pos
  room := Nat.lt_of_succ_lt h.room
  inn_eq := by rw [h.inn_eq,place_succ]; rfl
  cell := by
    intro i hi
    rw [place_succ,h.cell (i+1) (by simpa using hi)]
    simp

/-- A cell outside the held ones may change. -/
theorem Holds.update (h : Holds n cells out inn l) {j : ℕ} {x : Option α}
    (hj : ∀ i < l.length, place n out i ≠ j) : Holds n (Function.update cells j x) out inn l where
  out_lt := h.out_lt
  room := h.room
  inn_eq := h.inn_eq
  cell := fun i hi => by rw [Function.update_of_ne (hj i hi)]; exact h.cell i hi

theorem Holds.dropLast (h : Holds n cells out inn l) (hl : l ≠ []) :
    Holds n cells out (pred n inn) l.dropLast where
  out_lt := h.out_lt
  room := by have := h.room; rw [List.length_dropLast]; omega
  inn_eq := by
    have := List.length_pos_of_ne_nil hl
    rw [h.inn_eq,List.length_dropLast,show l.length = l.length-1+1 by omega,pred_place h.pos]
    rfl
  cell := by
    intro i hi
    rw [List.getElem_dropLast]
    exact h.cell i _

theorem shift_place {len : ℕ} (hlen : len < n) (out fuel i : ℕ) (hi : i ≤ len)
    (hf : len ≤ fuel+i) (cells : ℕ → Option α) (m : ℕ) (hm : m < len) :
    shift n (place n out len) fuel (place n out i) cells (place n out m) =
      if m < i then cells (place n out m) else cells (place n out (m+1)) := by
  induction fuel generalizing i cells with
  | zero =>
    have : i = len := by omega
    subst this
    simp [shift,hm]
  | succ fuel ih =>
    rw [shift]
    by_cases he : i = len
    · subst he; simp [hm]
    · rw [if_neg fun h => he (place_inj (by omega) hlen h),succ_place,
        ih (i+1) (by omega) (by omega)]
      have hup : ∀ x < n, Function.update cells (place n out i) (cells (place n out (i+1)))
          (place n out x) = if x = i then cells (place n out (i+1)) else cells (place n out x) := by
        intro x hx
        by_cases hxi : x = i
        · subst hxi; simp
        · rw [if_neg hxi,Function.update_of_ne fun h => hxi (place_inj hx (by omega) h)]
      rw [hup m (by omega),hup (m+1) (by omega)]
      by_cases hmi : m = i
      · subst hmi; simp
      · simp only [if_neg hmi]
        split_ifs <;> first | rfl | omega

/-- Shifting the later cells down takes one entry out of the middle. -/
theorem Holds.eraseIdx (h : Holds n cells out inn l) {i : ℕ} (hi : i < l.length) :
    Holds n (shift n inn n (place n out i) cells) out (pred n inn) (l.eraseIdx i) where
  out_lt := h.out_lt
  room := by
    have := h.room
    have := List.length_eraseIdx_of_lt hi
    omega
  inn_eq := by
    rw [h.inn_eq,List.length_eraseIdx_of_lt hi,show l.length = l.length-1+1 by omega,pred_place h.pos]
    rfl
  cell := by
    intro m hm
    have hlen := List.length_eraseIdx_of_lt hi
    have hroom := h.room
    rw [h.inn_eq,shift_place h.room out n i hi.le (by omega) cells m (by omega),List.getElem_eraseIdx]
    split
    · exact h.cell m _
    · exact h.cell (m+1) _

/-- Slots filled with the values of `l` from `out` on; all of them may be filled. -/
structure Fills {β : Type*} (n : ℕ) (slots : ℕ → β) (out : ℕ) (l : List β) : Prop where
  out_lt : out < n
  room : l.length ≤ n
  slot : ∀ i (h : i < l.length), slots (place n out i) = l[i]

section

variable {β : Type*} {slots : ℕ → β} {l : List β}

theorem Fills.push (h : Fills n slots out l) (hl : l.length < n) (b : β) :
    Fills n (Function.update slots (place n out l.length) b) out (l ++ [b]) where
  out_lt := h.out_lt
  room := by rw [List.length_append,List.length_singleton]; omega
  slot := by
    intro i hi
    rw [List.length_append,List.length_singleton] at hi
    by_cases he : i = l.length
    · subst he; simp
    · rw [Function.update_of_ne fun hp => he (place_inj (by omega) hl hp),h.slot i (by omega),
        List.getElem_append_left (by omega)]

/-- A slot outside the filled ones may change. -/
theorem Fills.update (h : Fills n slots out l) {j : ℕ} {b : β}
    (hj : ∀ i < l.length, place n out i ≠ j) : Fills n (Function.update slots j b) out l where
  out_lt := h.out_lt
  room := h.room
  slot := fun i hi => by rw [Function.update_of_ne (hj i hi)]; exact h.slot i hi

theorem Fills.pop {b : β} (h : Fills n slots out (b :: l)) :
    slots out = b ∧ Fills n slots (succ n out) l := by
  refine ⟨?_,Nat.mod_lt _ (Nat.zero_lt_of_lt h.out_lt),Nat.le_of_succ_le h.room,fun i hi => ?_⟩
  · have := h.slot 0 (by simp)
    rwa [place_zero h.out_lt] at this
  · rw [place_succ,h.slot (i+1) (by simpa using hi)]
    simp

/-- One slot among the filled ones is written anew. -/
theorem Fills.set {a b : β} {l' : List β} (h : Fills n slots out (l ++ a :: l')) :
    Fills n (Function.update slots (place n out l.length) b) out (l ++ b :: l') := by
  have hlen : (l ++ b :: l').length = (l ++ a :: l').length := by simp
  have hroom := h.room
  rw [List.length_append,List.length_cons] at hroom
  refine ⟨h.out_lt,hlen ▸ h.room,fun i hi => ?_⟩
  rw [List.length_append,List.length_cons] at hi
  by_cases he : i = l.length
  · subst he
    simp
  · rw [Function.update_of_ne fun hp => he (place_inj (by omega) (by omega) hp),
      h.slot i (by rw [List.length_append,List.length_cons]; omega)]
    by_cases hlt : i < l.length
    · rw [List.getElem_append_left hlt,List.getElem_append_left hlt]
    · obtain ⟨j,rfl⟩ : ∃ j, i = l.length+(j+1) := ⟨i-l.length-1,by omega⟩
      simp

/-- Where all slots are filled, the first one may be taken for the last. -/
theorem Fills.rotate {b : β} (h : Fills n slots out (b :: l)) (hl : (b :: l).length = n) :
    Fills n slots (succ n out) (l ++ [b]) where
  out_lt := h.pop.2.out_lt
  room := by rw [List.length_append,List.length_singleton]; exact hl.le
  slot := by
    intro i hi
    rw [List.length_append,List.length_singleton] at hi
    rw [List.length_cons] at hl
    by_cases he : i < l.length
    · rw [List.getElem_append_left he]
      exact h.pop.2.slot i he
    · obtain rfl : i = l.length := by omega
      have hwrap : place n out (l.length+1) = out := by
        rw [place,hl,Nat.add_mod_right]
        exact Nat.mod_eq_of_lt h.out_lt
      rw [place_succ,hwrap,List.getElem_concat_length (by rfl)]
      exact h.pop.1

end

end Ring

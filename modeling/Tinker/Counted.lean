import Mathlib.Data.List.Basic
import Mathlib.Data.List.MinMax
import Mathlib.Logic.Function.Basic
import Tinker.Outcome

/-! Arrays with a counter of the cells in use.
`Lists` says which list the cells below the counter hold; appending a cell and closing the gap
of a removed one are operations on that list. `scan` finds the first entry of the least key. -/
namespace Counted

open Outcome

variable {α E : Type*} {cells : ℕ → Option α} {numb : ℕ} {l : List α}

/-- The entries of the cells in use. -/
def live (cells : ℕ → Option α) (numb : ℕ) : List α := (List.range numb).filterMap cells

structure Lists (cells : ℕ → Option α) (numb : ℕ) (l : List α) : Prop where
  numb_eq : numb = l.length
  cell : ∀ i (h : i < l.length), cells i = some l[i]

theorem Lists.nil (cells : ℕ → Option α) : Lists cells 0 [] :=
  ⟨rfl,fun _ hi => absurd hi (Nat.not_lt_zero _)⟩

theorem Lists.map_range (h : Lists cells numb l) : (List.range numb).map cells = l.map some := by
  rw [h.numb_eq]
  refine List.ext_getElem (by simp) fun i h1 h2 => ?_
  simp only [List.length_map,List.length_range] at h1
  simp [h.cell i h1]

theorem Lists.live_eq (h : Lists cells numb l) : live cells numb = l := by
  have hm : (List.range numb).filterMap cells = ((List.range numb).map cells).filterMap id := by
    rw [List.filterMap_map]
    rfl
  rw [live,hm,h.map_range,List.filterMap_map]
  simp

theorem Lists.push (h : Lists cells numb l) (a : α) :
    Lists (Function.update cells numb (some a)) (numb+1) (l ++ [a]) where
  numb_eq := by rw [h.numb_eq,List.length_append,List.length_singleton]
  cell := by
    intro i hi
    rw [List.length_append,List.length_singleton] at hi
    by_cases he : i = l.length
    · subst he
      rw [h.numb_eq,Function.update_self]
      simp
    · rw [Function.update_of_ne (by rw [h.numb_eq]; exact he),h.cell i (by omega),
        List.getElem_append_left (by omega)]

/-- `n` rounds of copying the next cell down, from cell `i` on; `size` cells may be read. -/
def closeGap (size : ℕ) (e : E) : ℕ → ℕ → (ℕ → Option α) → Except E (ℕ → Option α)
  | 0, _, cells => .ok cells
  | n+1, i, cells => do
    check (i+1 < size) e
    closeGap size e n (i+1) (Function.update cells i (cells (i+1)))

theorem closeGap_spec {size : ℕ} {e : E} (n i : ℕ) (hs : i+n < size) (cells : ℕ → Option α) :
    Spec (closeGap size e n i cells)
      (fun c => ∀ m, c m = if i ≤ m ∧ m < i+n then cells (m+1) else cells m) (fun _ => False) := by
  induction n generalizing i cells with
  | zero => exact fun m => (if_neg (by omega)).symm
  | succ n ih =>
    simp only [closeGap,spec_bind,spec_check]
    refine ⟨fun _ => (ih (i+1) (by omega) _).imp fun c hc m => ?_,fun hn => absurd hs (by omega)⟩
    rw [hc]
    by_cases hm : m = i
    · subst hm
      rw [if_neg (by omega),if_pos (by omega),Function.update_self]
    · rw [Function.update_of_ne hm]
      split_ifs <;> first
        | rfl
        | omega
        | exact Function.update_of_ne (by omega) _ _

/-- Closing a gap brings no new entries. -/
theorem closeGap_from {size : ℕ} {e : E} {n i : ℕ} : Spec (closeGap size e n i cells)
    (fun c => ∀ m a, c m = some a → ∃ j, cells j = some a) (fun _ => True) := by
  induction n generalizing i cells with
  | zero => exact fun m _ hm => ⟨m,hm⟩
  | succ n ih =>
    simp only [closeGap,spec_bind,spec_check]
    refine ⟨fun _ => ih.imp fun c hc m a hm => ?_,fun _ => trivial⟩
    obtain ⟨j,hj⟩ := hc m a hm
    rw [Function.update_apply] at hj
    split at hj
    · exact ⟨_,hj⟩
    · exact ⟨j,hj⟩

/-- Closing the gap takes one entry out and keeps the order of the rest. -/
theorem Lists.closeGap {pre post : List α} {a : α} (h : Lists cells numb (pre ++ a :: post))
    {size : ℕ} (e : E) (hs : numb < size) :
    Spec (closeGap size e (numb-pre.length) pre.length cells)
      (fun c => Lists c (numb-1) (pre ++ post)) (fun _ => False) := by
  have hn := h.numb_eq
  simp only [List.length_append,List.length_cons] at hn
  refine (closeGap_spec _ _ (by omega) cells).imp fun c hc => ⟨?_,fun i hi => ?_⟩
  · rw [List.length_append]; omega
  · rw [List.length_append] at hi
    rw [hc]
    by_cases hp : i < pre.length
    · rw [if_neg (by omega),h.cell i (by simp only [List.length_append,List.length_cons]; omega),
        List.getElem_append_left hp,List.getElem_append_left hp]
    · rw [if_pos (by omega),h.cell (i+1) (by simp only [List.length_append,List.length_cons]; omega),
        List.getElem_append_right (by omega),List.getElem_append_right (by omega)]
      simp only [show i+1-pre.length = i-pre.length+1 by omega,List.getElem_cons_succ]

/-- The index of the first entry whose key is the least one below `least`; `i` is the index of
the next entry. -/
def scan (key : α → ℕ) : List α → ℕ → Option ℕ → ℕ → Option ℕ
  | [], _, best, _ => best
  | a :: l, i, best, least =>
    if key a < least then scan key l (i+1) (some i) (key a) else scan key l (i+1) best least

/-- What `scan` finds is one of the entries, unless it was found before. -/
theorem scan_lt {key : α → ℕ} {l : List α} {i j least : ℕ} {best : Option ℕ}
    (h : scan key l i best least = some j) : best = some j ∨ j < i+l.length := by
  induction l generalizing i best least with
  | nil => exact Or.inl h
  | cons a l ih =>
    rw [List.length_cons]
    rw [scan] at h
    split at h
    · obtain he | hj := ih h
      · have := Option.some.inj he
        exact Or.inr (by omega)
      · exact Or.inr (by omega)
    · exact (ih h).imp_right fun hj => by omega

/-- `a` is the first entry of the least key. -/
structure FirstLeast (key : α → ℕ) (pre : List α) (a : α) (post : List α) : Prop where
  before : ∀ b ∈ pre, key a < key b
  after : ∀ b ∈ post, key a ≤ key b

theorem FirstLeast.argmin_eq {key : α → ℕ} {pre post : List α} {a : α}
    (h : FirstLeast key pre a post) : (pre ++ a :: post).argmin key = some a := by
  induction pre with
  | nil =>
    rw [List.nil_append,List.argmin_cons]
    cases hm : post.argmin key with
    | none => rfl
    | some b => exact if_neg (Nat.not_lt_of_le (h.after b (List.argmin_mem hm)))
  | cons b pre ih =>
    rw [List.cons_append,List.argmin_cons,
      ih ⟨fun c hc => h.before c (List.mem_cons_of_mem _ hc),h.after⟩]
    exact if_pos (h.before b List.mem_cons_self)

/-- An entry behind whose key is smaller takes over. -/
theorem FirstLeast.beaten {key : α → ℕ} {pre post : List α} {a b : α}
    (h : FirstLeast key pre a post) (hb : key b < key a) : FirstLeast key (pre ++ a :: post) b [] := by
  refine ⟨fun c hc => ?_,fun c hc => (by cases hc)⟩
  simp only [List.mem_append,List.mem_cons] at hc
  obtain hc | rfl | hc := hc
  · exact Nat.lt_trans hb (h.before c hc)
  · exact hb
  · exact Nat.lt_of_lt_of_le hb (h.after c hc)

/-- An entry behind whose key is not smaller does not. -/
theorem FirstLeast.stays {key : α → ℕ} {pre post : List α} {a b : α}
    (h : FirstLeast key pre a post) (hb : ¬key b < key a) : FirstLeast key pre a (post ++ [b]) := by
  refine ⟨h.before,fun c hc => ?_⟩
  obtain hc | hc := List.mem_append.mp hc
  · exact h.after c hc
  · rw [List.mem_singleton.mp hc]; exact Nat.le_of_not_lt hb

/-- Once an entry is found, `scan` ends with the first one of the least key. -/
theorem scan_found {key : α → ℕ} {pre post : List α} {a : α} (h : FirstLeast key pre a post)
    (l : List α) : ∃ pre' a' post', pre ++ a :: post ++ l = pre' ++ a' :: post' ∧
      scan key l (pre.length+1+post.length) (some pre.length) (key a) = some pre'.length ∧
      FirstLeast key pre' a' post' := by
  induction l generalizing pre a post with
  | nil => exact ⟨pre,a,post,List.append_nil _,rfl,h⟩
  | cons b l ih =>
    rw [scan]
    split
    · next hb =>
      obtain ⟨pre',a',post',he,hs,hf⟩ := ih (h.beaten hb)
      refine ⟨pre',a',post',by simpa using he,?_,hf⟩
      rw [← hs]
      simp [Nat.add_assoc,Nat.add_comm 1]
    · next hb =>
      obtain ⟨pre',a',post',he,hs,hf⟩ := ih (h.stays hb)
      refine ⟨pre',a',post',by simpa using he,?_,hf⟩
      rw [← hs]
      simp [Nat.add_assoc]

/-- Where every key is below the bound, `scan` finds the first entry of the least key. -/
theorem scan_eq (key : α → ℕ) {bound : ℕ} (hl : l ≠ []) (hb : ∀ a ∈ l, key a < bound) :
    ∃ pre a post, l = pre ++ a :: post ∧ scan key l 0 none bound = some pre.length ∧
      FirstLeast key pre a post := by
  cases l with
  | nil => exact absurd rfl hl
  | cons a l =>
    rw [scan,if_pos (hb a List.mem_cons_self)]
    have hone : FirstLeast key [] a [] := ⟨fun c hc => (by cases hc),fun c hc => (by cases hc)⟩
    exact scan_found hone l

end Counted

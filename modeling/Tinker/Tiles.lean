import Mathlib.Data.List.Nodup
import Mathlib.Data.List.Pairwise
import Mathlib.Data.List.Perm.Subperm
import Mathlib.Tactic.Common

/-! Spans that lie side by side over a range of addresses. What is said of them does not depend on
the order they are listed in, so a span can be cut, two that meet can be joined, and a span can go
from one list to another. -/
namespace Tiles

@[ext] structure Span where
  pos : ℕ
  size : ℕ
deriving DecidableEq

namespace Span

/-- The first address behind. -/
def stop (t : Span) : ℕ := t.pos+t.size

def Apart (s t : Span) : Prop := s.stop ≤ t.pos ∨ t.stop ≤ s.pos

instance : Std.Symm Apart := ⟨fun _ _ h => Or.symm h⟩

end Span

/-- Every address from `lo` up to `hi` is in just one of the spans, and no other address is. -/
structure Tiled (lo hi : ℕ) (ts : List Span) : Prop where
  size_pos : ∀ t ∈ ts, 0 < t.size
  apart : ts.Pairwise Span.Apart
  covers : ∀ x, lo ≤ x ∧ x < hi ↔ ∃ t ∈ ts, t.pos ≤ x ∧ x < t.stop

variable {lo hi p m n : ℕ} {s t : Span} {ts ts' : List Span}

theorem Tiled.perm (h : Tiled lo hi ts) (hp : ts.Perm ts') : Tiled lo hi ts' where
  size_pos t ht := h.size_pos t (hp.mem_iff.mpr ht)
  apart := (hp.pairwise_iff fun h => Or.symm h).mp h.apart
  covers x := by
    rw [h.covers x]
    simp only [hp.mem_iff]

/-- A range that is one span. -/
theorem tiled_one (hlt : lo < hi) : Tiled lo hi [⟨lo,hi-lo⟩] where
  size_pos t ht := by
    obtain rfl := List.mem_singleton.mp ht
    exact Nat.sub_pos_of_lt hlt
  apart := List.pairwise_singleton _ _
  covers x := by
    simp only [List.mem_singleton,exists_eq_left,Span.stop]
    omega

theorem Tiled.within (h : Tiled lo hi ts) (ht : t ∈ ts) : lo ≤ t.pos ∧ t.stop ≤ hi := by
  have hpos := h.size_pos t ht
  have hfirst := (h.covers t.pos).mpr ⟨t,ht,Nat.le_refl _,Nat.lt_add_of_pos_right hpos⟩
  have hlast := (h.covers (t.stop-1)).mpr ⟨t,ht,by unfold Span.stop; omega,by unfold Span.stop; omega⟩
  exact ⟨hfirst.1,by omega⟩

theorem Tiled.apart_of_ne (h : Tiled lo hi ts) (hs : s ∈ ts) (ht : t ∈ ts) (hne : s ≠ t) :
    s.Apart t :=
  h.apart.forall hs ht hne

theorem Tiled.eq_of_pos (h : Tiled lo hi ts) (hs : s ∈ ts) (ht : t ∈ ts) (hpos : s.pos = t.pos) :
    s = t := by
  by_contra hne
  have hsize := h.size_pos s hs
  have hsize' := h.size_pos t ht
  obtain hle | hle := h.apart_of_ne hs ht hne <;> unfold Span.stop at hle <;> omega

theorem Tiled.nodup (h : Tiled lo hi ts) : ts.Nodup := by
  apply h.apart.imp_of_mem
  rintro s t hs - hapart rfl
  have hsize := h.size_pos s hs
  obtain hle | hle := hapart <;> unfold Span.stop at hle <;> omega

/-- There are no more spans than addresses. -/
theorem Tiled.length_le (h : Tiled lo hi ts) : ts.length ≤ hi-lo := by
  have hnodup : (ts.map Span.pos).Nodup :=
    h.nodup.map_on fun s hs t ht heq => h.eq_of_pos hs ht heq
  have hsub : ts.map Span.pos ⊆ List.range' lo (hi-lo) := by
    intro x hx
    obtain ⟨t,ht,rfl⟩ := List.mem_map.mp hx
    have hin := h.within ht
    have hpos := h.size_pos t ht
    have hsum : t.stop = t.pos+t.size := rfl
    rw [List.mem_range'_1]
    omega
  have hle := (List.subperm_of_subset hnodup hsub).length_le
  rwa [List.length_map,List.length_range'] at hle

/-- A span is cut, or two that meet are joined. -/
theorem tiled_cut_iff (hm : 0 < m) (hn : 0 < n) :
    Tiled lo hi (⟨p,m⟩ :: ⟨p+m,n⟩ :: ts) ↔ Tiled lo hi (⟨p,m+n⟩ :: ts) := by
  -- to be apart from both parts is to be apart from the whole
  have hboth : ∀ t : Span, 0 < t.size →
      ((⟨p,m⟩ : Span).Apart t ∧ (⟨p+m,n⟩ : Span).Apart t ↔ (⟨p,m+n⟩ : Span).Apart t) := by
    intro t ht
    simp only [Span.Apart,Span.stop]
    omega
  have hin : ∀ x, (∃ t ∈ (⟨p,m⟩ : Span) :: ⟨p+m,n⟩ :: ts, t.pos ≤ x ∧ x < t.stop) ↔
      ∃ t ∈ (⟨p,m+n⟩ : Span) :: ts, t.pos ≤ x ∧ x < t.stop := by
    intro x
    simp only [List.exists_mem_cons_iff,Span.stop]
    rw [← or_assoc]
    apply or_congr_left
    omega
  constructor
  · rintro ⟨hpos,hapart,hcov⟩
    simp only [List.forall_mem_cons,List.pairwise_cons] at hpos hapart
    refine ⟨?_,?_,fun x => (hcov x).trans (hin x)⟩
    · exact List.forall_mem_cons.mpr ⟨Nat.add_pos_left hm n,hpos.2.2⟩
    · refine List.pairwise_cons.mpr ⟨fun t ht => ?_,hapart.2.2⟩
      exact (hboth t (hpos.2.2 t ht)).mp ⟨hapart.1.2 t ht,hapart.2.1 t ht⟩
  · rintro ⟨hpos,hapart,hcov⟩
    simp only [List.forall_mem_cons,List.pairwise_cons] at hpos hapart
    have hparts := fun t ht => (hboth t (hpos.2 t ht)).mpr (hapart.1 t ht)
    refine ⟨?_,?_,fun x => (hcov x).trans (hin x).symm⟩
    · exact List.forall_mem_cons.mpr ⟨hm,List.forall_mem_cons.mpr ⟨hn,hpos.2⟩⟩
    · refine List.pairwise_cons.mpr ⟨List.forall_mem_cons.mpr ⟨Or.inl (Nat.le_refl _),?_⟩,
        List.pairwise_cons.mpr ⟨fun t ht => (hparts t ht).2,hapart.2⟩⟩
      exact fun t ht => (hparts t ht).1

/-- Where no two spans meet there is one only. -/
theorem Tiled.eq_one (h : Tiled lo hi ts) (hlt : lo < hi)
    (hmeet : ∀ s ∈ ts, ∀ t ∈ ts, s.stop ≠ t.pos) : ts = [⟨lo,hi-lo⟩] := by
  obtain ⟨t,ht,hle,hlo⟩ := (h.covers lo).mp ⟨Nat.le_refl lo,hlt⟩
  have hin := h.within ht
  have hstop : t.stop = hi := by
    by_contra hne
    obtain ⟨u,hu,hule,hult⟩ := (h.covers t.stop).mp ⟨by omega,by omega⟩
    have htu : t ≠ u := by
      rintro rfl
      omega
    obtain hapart | hapart := h.apart_of_ne ht hu htu
    · exact hmeet t ht u hu (by omega)
    · omega
  have hall : ∀ s ∈ ts, s = t := by
    intro s hs
    by_contra hne
    have hsize := h.size_pos s hs
    have hins := h.within hs
    have hsum : s.stop = s.pos+s.size := rfl
    obtain hapart | hapart := h.apart_of_ne hs ht hne <;> omega
  have hone : t = ⟨lo,hi-lo⟩ := by
    obtain ⟨pos,size⟩ := t
    simp only [Span.stop,Span.mk.injEq] at *
    omega
  rw [← hone]
  apply List.perm_singleton.mp
  apply (List.perm_ext_iff_of_nodup h.nodup (List.nodup_singleton t)).mpr
  intro s
  rw [List.mem_singleton]
  exact ⟨hall s,fun hs => hs ▸ ht⟩

end Tiles

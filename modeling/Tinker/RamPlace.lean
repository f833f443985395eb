import Tinker.RamFileRun

/-! Handles in the middle of a file: where a read leaves them when it ends with the chain or with
what was asked for, and where a seek to the end of the file puts them. -/
namespace Tinker

open Memory Outcome

/-- The loop across sectors where the chain ends first: all of the chain is copied. -/
theorem copySectors_eof {σ : Type} {copy : ℕ → ℕ → ℕ → σ → σ} (I : ℕ → σ → Prop) {sectors : ℕ}
    (hcopy : ∀ c s k a, c < sectors → s+k ≤ dataInSectorSize → I (dataInSectorSize*c+s) a →
      I (dataInSectorSize*c+s+k) (copy c s k a))
    {rest nleft : ℕ} {h : IfregHandle} {a : σ} {n : ℕ} (hrest : h.csector+rest+1 = sectors)
    (hs : h.sidx ≤ dataInSectorSize) (hroom : dataInSectorSize*(rest+1) < h.sidx+nleft)
    (hi : I (dataInSectorSize*h.csector+h.sidx) a) :
    ∃ a', I (dataInSectorSize*sectors) a' ∧
      copySectors copy rest (dataInSectorSize-h.sidx) nleft h a n =
        ⟨⟨h.ptr,dataInSectorSize,h.didx+(dataInSectorSize*(rest+1)-h.sidx),h.csector+rest⟩,a',
          n+(dataInSectorSize*(rest+1)-h.sidx),true⟩ := by
  induction rest generalizing nleft h a n with
  | zero =>
    have hfull := hcopy h.csector h.sidx (dataInSectorSize-h.sidx) a (by omega) (by omega) hi
    rw [sector_next hs,Nat.add_zero,show h.csector+1 = sectors from hrest] at hfull
    rw [copySectors,if_neg (by omega),if_pos (by omega)]
    refine ⟨_,hfull,?_⟩
    simp only [Nat.zero_add,Nat.mul_one,Nat.add_zero,Nat.add_sub_cancel' hs]
  | succ rest ih =>
    have hfull := hcopy h.csector h.sidx (dataInSectorSize-h.sidx) a (by omega) (by omega) hi
    rw [sector_next hs] at hfull
    rw [Nat.mul_succ] at hroom
    have hroom' : dataInSectorSize*(rest+1) < 0+(nleft-(dataInSectorSize-h.sidx)) := by omega
    obtain ⟨a',ha',hloop⟩ := ih (h := ⟨h.ptr,0,h.didx+(dataInSectorSize-h.sidx),h.csector+1⟩)
      (n := n+(dataInSectorSize-h.sidx)) (by simp only; omega) (Nat.zero_le _) hroom' hfull
    refine ⟨a',ha',?_⟩
    rw [copySectors,if_neg (by omega),if_pos (by omega)]
    refine hloop.trans ?_
    rw [Nat.mul_succ _ (rest+1)]
    simp only [Moved.mk.injEq,IfregHandle.mk.injEq,true_and,and_true]
    omega

/-- The handle is at byte `i` of the file, or behind the last byte of a sector. -/
structure IfregHandle.At (h : IfregHandle) (d : IfregData) (i : ℕ) : Prop where
  didx : h.didx = i
  place : dataInSectorSize*h.csector+h.sidx = i
  sidx : h.sidx ≤ dataInSectorSize
  csector : h.csector < d.sectors.length

section

variable {o : OFlag} {d : IfregData} {h : IfregHandle} {len : ℕ}

/-- A read that goes beyond the chain ends with it. -/
theorem fsIfregRead_eof (hw : o.wronly = false) (hu : o.unknown = false) (hd : h.At d h.didx)
    (hdidx : h.didx ≤ d.dsize) (hroom : dataInSectorSize*d.sectors.length < h.didx+len) :
    fsIfregRead (some d) ⟨o,h⟩ len =
      .ok (.ok (peek d.byteAt h.didx (dataInSectorSize*d.sectors.length-h.didx)),
        ⟨o,⟨h.ptr,dataInSectorSize,dataInSectorSize*d.sectors.length,d.sectors.length-1⟩⟩) := by
  have hs := hd.sidx
  have hplace := hd.place
  have hc := hd.csector
  have hchain : h.csector+(d.sectors.length-(h.csector+1))+1 = d.sectors.length := by omega
  have hmul : dataInSectorSize*(h.csector+1) ≤ dataInSectorSize*d.sectors.length :=
    Nat.mul_le_mul_left _ hc
  have hrest : dataInSectorSize*(d.sectors.length-(h.csector+1)+1) =
      dataInSectorSize*d.sectors.length-dataInSectorSize*h.csector := by
    rw [← Nat.mul_sub]
    congr 1
    omega
  rw [Nat.mul_succ] at hmul
  have hover : dataInSectorSize*(d.sectors.length-(h.csector+1)+1) < h.sidx+len := by omega
  obtain ⟨out,⟨n,hn,rfl⟩,hloop⟩ := copySectors_eof (a := []) (n := 0) (ReadTo d h.didx)
    (fun _ _ _ _ _ hk => ReadTo.load hk) hchain hs hover ⟨0,hplace,rfl⟩
  obtain rfl : n = dataInSectorSize*d.sectors.length-h.didx := by omega
  rw [fsIfregRead,assertDbgFlags_eq (by simp [hw]) hu]
  simp only [hw,Bool.false_eq_true,if_false,if_neg (Nat.not_lt.mpr hdidx),
    if_neg (by omega : ¬len ≤ dataInSectorSize-h.sidx),hloop]
  rw [hrest,show h.didx+(dataInSectorSize*d.sectors.length-dataInSectorSize*h.csector-h.sidx) =
    dataInSectorSize*d.sectors.length by omega,show h.csector+(d.sectors.length-(h.csector+1)) =
    d.sectors.length-1 by omega]
  rfl

/-- A read in the middle of a file: it returns what there is up to `dsize`, and the handle moves on
by as much. -/
def ReadsExactly (d : IfregData) (o : OFlag) (h : IfregHandle) (len : ℕ) : Prop :=
  ∃ h', fsIfregRead (some d) ⟨o,h⟩ len =
      .ok (.ok (peek d.byteAt h.didx (min len (d.dsize-h.didx))),⟨o,h'⟩) ∧
    h'.At d (h.didx+min len (d.dsize-h.didx))

/-- A read that goes on into another sector leaves its last piece out of the indices. -/
theorem IfregHandle.behind_didx_lt (hs : h.sidx ≤ dataInSectorSize)
    (hlen : ¬h.sidx+len ≤ dataInSectorSize) : (h.behind len).didx < h.didx+len := by
  rw [behind,if_neg hlen]
  rw [dataInSectorSize_eq] at *
  simp only
  omega

/-- A read is exact if and only if it stays within a sector and within the file, or goes beyond the
end of a file that fills all its sectors. -/
theorem fsIfregRead_exact_iff (hw : o.wronly = false) (hu : o.unknown = false) (hsized : d.Sized)
    (hd : h.At d h.didx) (hdidx : h.didx ≤ d.dsize) (len : ℕ) :
    ReadsExactly d o h len ↔
      h.didx+len ≤ d.dsize ∧ len ≤ dataInSectorSize-h.sidx ∨
      d.dsize = d.maxsize ∧ d.maxsize < h.didx+len := by
  have hs := hd.sidx
  have hplace := hd.place
  have hmax : d.maxsize = dataInSectorSize*d.sectors.length := hsized
  have hmul : dataInSectorSize*(h.csector+1) ≤ dataInSectorSize*d.sectors.length :=
    Nat.mul_le_mul_left _ hd.csector
  rw [Nat.mul_succ] at hmul
  by_cases hroom : h.didx+len ≤ dataInSectorSize*d.sectors.length
  · have hread := fsIfregRead_eq hw hu hs hdidx hd.csector (hplace.symm ▸ hroom)
    rw [hplace] at hread
    constructor
    · rintro ⟨h',hrun,hat⟩
      rw [hread] at hrun
      simp only [Except.ok.injEq,Prod.mk.injEq,FHandle.mk.injEq,true_and] at hrun
      obtain ⟨hbytes,rfl⟩ := hrun
      have hlen : len = min len (d.dsize-h.didx) := by simpa using congrArg List.length hbytes
      left
      refine ⟨by omega,?_⟩
      by_contra hn
      have hlt : (h.behind len).didx < h.didx+len := IfregHandle.behind_didx_lt hs (by omega)
      have hat' := hat.didx
      rw [IfregHandle.afterRead,if_neg hn,← hlen] at hat'
      omega
    · rintro (⟨hle,hn⟩ | ⟨-,hlt⟩)
      · have hmin : min len (d.dsize-h.didx) = len := by omega
        refine ⟨_,hread.trans (by rw [hmin]),?_⟩
        rw [IfregHandle.afterRead,if_pos hn,hmin]
        exact ⟨rfl,by simp only; omega,by simp only; omega,hd.csector⟩
      · omega
  · have hread := fsIfregRead_eof hw hu hd hdidx (Nat.not_le.mp hroom)
    constructor
    · rintro ⟨h',hrun,-⟩
      rw [hread] at hrun
      simp only [Except.ok.injEq,Prod.mk.injEq] at hrun
      have hlen : dataInSectorSize*d.sectors.length-h.didx = min len (d.dsize-h.didx) := by
        simpa using congrArg List.length hrun.1
      right
      omega
    · rintro (⟨-,hn⟩ | ⟨hfull,-⟩)
      · omega
      · have hmin : min len (d.dsize-h.didx) = dataInSectorSize*d.sectors.length-h.didx := by omega
        refine ⟨_,hread.trans (by rw [hmin]),?_⟩
        have hc := hd.csector
        have hlast : dataInSectorSize*(d.sectors.length-1)+dataInSectorSize =
            dataInSectorSize*d.sectors.length := by
          rw [← Nat.mul_succ]
          congr 1
          omega
        exact ⟨by simp only; omega,by simp only; omega,by simp only; omega,by simp only; omega⟩

end

/-- A file of ten bytes. -/
def tenBytes : IfregData := ⟨40,10,[fun i => BitVec.ofNat 8 i]⟩

theorem fsIfregRead_exact_iff_rest : ReadsExactly tenBytes rdonlyFlags ⟨(0,0),4,4,0⟩ 6 :=
  (fsIfregRead_exact_iff rfl rfl (show tenBytes.Sized from rfl) ⟨rfl,rfl,by decide,by decide⟩
    (by decide) 6).mpr (by decide)

/-- A read of 20 bytes returns them all, 14 of them from behind the end of the file. -/
theorem fsIfregRead_not_exact : ¬∀ (d : IfregData) (o : OFlag) (h : IfregHandle) (len : ℕ),
    o.wronly = false → o.unknown = false → d.Sized → d.dsize ≤ d.maxsize → h.At d h.didx →
    h.didx ≤ d.dsize → ReadsExactly d o h len := by
  intro hall
  obtain ⟨h',hrun,-⟩ := hall tenBytes rdonlyFlags ⟨(0,0),4,4,0⟩ 20 rfl rfl rfl (by decide)
    ⟨rfl,rfl,by decide,by decide⟩ (by decide)
  have htwenty : fsIfregRead (some tenBytes) ⟨rdonlyFlags,⟨(0,0),4,4,0⟩⟩ 20 =
      .ok (.ok (tenBytes.load 0 4 20),⟨rdonlyFlags,⟨(0,0),24,24,0⟩⟩) := rfl
  rw [htwenty] at hrun
  simp only [Except.ok.injEq,Prod.mk.injEq] at hrun
  exact absurd (congrArg List.length hrun.1) (by decide)

end Tinker

import Tinker.SectorChainRun
import Tinker.Simulation

/-! The sectors by their addresses and the sectors as a list. As long as no index is outside of its
sector before a call and no counter overflows in it, a call does the same to both. -/
namespace Tinker

open Memory Outcome

namespace SectorChain

/-- The file whose sectors are `cs` is `D`, read along the chain. -/
structure Models (m : Store) (d : InodeData) (cs : List ℕ) (D : IfregData) : Prop where
  file : FileIn m d cs
  maxsize : d.maxsize = D.maxsize
  dsize : d.dsize = D.dsize
  sectors : D.sectors = cs.map fun a => (m.mem a).data

/-- The places of `H` in the list are the addresses of `h`. -/
structure HndlModels (cs : List ℕ) (h : HndlData) (H : IfregHandle) : Prop where
  csector : cs[H.csector]? = some h.csector
  ptr : cs[H.ptr.1]? = some h.ptr.1
  off : h.ptr.2 = H.ptr.2
  sidx : h.sidx = H.sidx
  didx : h.didx = H.didx
  inside : H.sidx ≤ dataInSectorSize

section

variable {m : Store} {d : InodeData} {cs cs' l l1 l2 : List ℕ} {D : IfregData} {h : HndlData}
  {H : IfregHandle} {a i p tsect off k : ℕ} {buf : List Byte}

theorem getElem?_append_of_some (ha : cs[i]? = some a) (cs' : List ℕ) :
    (cs ++ cs')[i]? = some a := by
  rw [List.getElem?_append_left (List.getElem?_eq_some_iff.mp ha).1]
  exact ha

theorem HndlModels.append (hh : HndlModels cs h H) (cs' : List ℕ) : HndlModels (cs ++ cs') h H :=
  ⟨getElem?_append_of_some hh.csector cs',getElem?_append_of_some hh.ptr cs',hh.off,hh.sidx,hh.didx,
    hh.inside⟩

theorem Models.length (hm : Models m d cs D) : D.sectors.length = cs.length := by
  rw [hm.sectors,List.length_map]

theorem Models.sector (hm : Models m d cs D) (ha : cs[i]? = some a) :
    D.sector i = (m.mem a).data := by
  rw [IfregData.sector,hm.sectors,List.getD_eq_getElem?_getD,List.getElem?_map,ha]
  rfl

/-- A copy to the data of a sector. -/
theorem Models.copyIn (hm : Models m d cs D) (ha : cs[i]? = some a) (hin : off+k ≤ dataInSectorSize)
    (buf : List Byte) : ∃ m', m.copyIn a off k buf = .ok (m',buf.drop k) ∧
      Models m' d cs (D.store i off (buf.take k)) := by
  have hspec := copyIn_spec m a off k buf
  have hinside : (0:ℤ) ≤ off ∧ (off:ℤ)+k ≤ dataInSectorSize := by omega
  have hrun : m.copyIn a off k buf = .ok (⟨Function.update m.mem a
      { m.mem a with data := poke (m.mem a).data off (buf.take k) },m.fresh⟩,buf.drop k) := by
    rw [Store.copyIn,check,if_pos hinside]
    rfl
  refine ⟨_,hrun,⟨(hm.file.sectors).sameLinks (hspec.of_ok hrun).1,hm.file.sized⟩,hm.maxsize,
    hm.dsize,?_⟩
  obtain ⟨hi,rfl⟩ := List.getElem?_eq_some_iff.mp ha
  apply List.ext_getElem
  · rw [IfregData.store_length,hm.length,List.length_map]
  · intro j hj hj'
    rw [List.length_map] at hj'
    simp only [IfregData.store,hm.sectors,List.getElem_modify,List.getElem_map]
    by_cases hij : i = j
    · subst hij
      rw [if_pos rfl,Function.update_self]
    · have hne : cs[j] ≠ cs[i] := fun he => hij (hm.file.sectors.nodup.getElem_inj_iff.mp he).symm
      rw [if_neg hij,Function.update_of_ne hne]

/-- A copy from the data of a sector. -/
theorem Models.copyOut (hm : Models m d cs D) (ha : cs[i]? = some a)
    (hin : off+k ≤ dataInSectorSize) (beyond : ℕ → ℤ → Byte) (out : List Byte) :
    m.copyOut beyond a off k out = .ok (m,out ++ D.load i off k) := by
  rw [Store.copyOut,IfregData.load,hm.sector ha,peek]
  refine congrArg (fun x => Except.ok (m,out ++ x)) (List.map_congr_left fun j hj => ?_)
  have hj := List.mem_range.mp hj
  have hinside : 0 ≤ (off:ℤ)+j ∧ (off:ℤ)+j < dataInSectorSize := by omega
  exact (if_pos hinside).trans (congrArg _ (by omega))

/-- The data of a sector behind the last one. -/
theorem Sectors.addNext_data {first : ℕ} (hs : Sectors m first (l ++ [p])) :
    (l ++ [p] ++ [m.fresh]).map (fun a => ((m.addNext p).mem a).data) =
      (l ++ [p]).map (fun a => (m.mem a).data) ++ [fun _ => 0] := by
  have hold : ∀ b ∈ l ++ [p], ((m.addNext p).mem b).data = (m.mem b).data := by
    intro b hb
    have hne : b ≠ m.fresh := Nat.ne_of_lt (hs.alloc b hb)
    rw [Store.addNext]
    simp only [Function.update_of_ne hne,Function.update_apply]
    split
    · next hbp => rw [hbp]
    · rfl
  rw [List.map_append,List.map_congr_left hold]
  simp only [List.map_cons,List.map_nil,Store.addNext,Function.update_self]
  rfl

/-- A sector behind the last one. -/
theorem Models.addNext (hm : Models m d (l ++ [p]) D) (hroom : d.maxsize+40 < 2^31) :
    Models (m.addNext p) { d with maxsize := toInt32 (d.maxsize+dataInSectorSize) }
      (l ++ [p] ++ [m.fresh]) D.addSector := by
  have hsized := hm.file.sized.concat (p:=m.fresh) hroom
  have hmax := hm.maxsize
  have hwrap : toInt32 (d.maxsize+dataInSectorSize) = d.maxsize+dataInSectorSize := by
    apply toInt32_of_int
    · rw [dataInSectorSize_eq]
      omega
    · rw [dataInSectorSize_eq]
      exact hroom
  refine ⟨⟨hm.file.sectors.addNext,hsized⟩,?_,hm.dsize,?_⟩
  · rw [IfregData.addSector,Nat.cast_add,← hmax]
    exact hwrap
  · rw [hm.file.sectors.addNext_data,IfregData.addSector,hm.sectors]

theorem grow_of_le {need maxsize : ℤ} (hle : need ≤ maxsize) (fuel tsect : ℕ) (m : Store) :
    grow need fuel tsect m maxsize = .ok (m,maxsize) := by
  cases fuel <;> exact if_pos hle

theorem ifregGrow_of_le {need : ℕ} (hle : need ≤ D.maxsize) (fuel tsect : ℕ) :
    IfregData.grow need fuel tsect D = .ok D := by
  cases fuel <;> exact if_pos hle

/-- Both loops make room with the same sectors. -/
theorem Models.grow {need fuel F : ℕ} (hm : Models m d (l1 ++ tsect :: l2) D)
    (hneed : (need:ℤ) ≤ maxMaxsize) (hF : need-D.maxsize+l2.length ≤ F)
    (hfuel : need-D.maxsize+l2.length ≤ fuel) : ∃ m' maxsize' cs' D',
    grow need fuel tsect m d.maxsize = .ok (m',maxsize') ∧
      IfregData.grow need F l1.length D = .ok D' ∧
      Models m' { d with maxsize := maxsize' } (l1 ++ tsect :: l2 ++ cs') D' := by
  induction F generalizing fuel m d D tsect l1 l2 with
  | zero =>
    have hle : need ≤ D.maxsize := by omega
    have hle' : (need:ℤ) ≤ d.maxsize := by rw [hm.maxsize]; omega
    refine ⟨m,d.maxsize,[],D,grow_of_le hle' _ _ _,ifregGrow_of_le hle _ _,?_⟩
    rwa [List.append_nil]
  | succ F ih =>
    by_cases hle : need ≤ D.maxsize
    · have hle' : (need:ℤ) ≤ d.maxsize := by rw [hm.maxsize]; omega
      refine ⟨m,d.maxsize,[],D,grow_of_le hle' _ _ _,ifregGrow_of_le hle _ _,?_⟩
      rwa [List.append_nil]
    have hle' : ¬(need:ℤ) ≤ d.maxsize := by rw [hm.maxsize]; omega
    obtain ⟨fuel,rfl⟩ := Nat.exists_eq_succ_of_ne_zero (show fuel ≠ 0 by omega)
    have hbehind := hm.file.sectors.linked.chain.behind
    rw [SectorChain.grow,IfregData.grow,if_neg hle,if_neg hle',hm.length,List.length_append]
    cases l2 with
    | cons t l2 =>
      rw [hbehind.1,if_pos (by rw [List.length_cons,List.length_cons]; omega)]
      rw [List.append_cons] at hm ⊢
      rw [List.length_cons] at hF hfuel
      have hstep := ih hm (by omega) (by omega : need-D.maxsize+l2.length ≤ fuel)
      rw [List.length_append,List.length_singleton] at hstep
      exact hstep
    | nil =>
      have hnext : m.next tsect = none := hbehind
      have heq := hm.file.sized.eq
      rw [dataInSectorSize_eq] at heq
      have hroom : d.maxsize+40 < 2^31 := by
        rw [maxMaxsize] at hneed
        omega
      have hadd : D.addSector.maxsize = D.maxsize+40 := rfl
      rw [hnext,if_neg (by rw [List.length_singleton]; omega)]
      rw [List.length_nil] at hF hfuel
      obtain ⟨m',maxsize',cs',D',hrun,hrun',hm'⟩ := ih (hm.addNext hroom)
        (by rw [hadd,List.length_nil]; omega)
        (by rw [hadd,List.length_nil]; omega : need-D.addSector.maxsize+([] : List ℕ).length ≤ fuel)
      rw [List.append_assoc (l1 ++ [tsect])] at hm'
      rw [List.length_append,List.length_singleton] at hrun'
      exact ⟨m',maxsize',_,D',hrun,hrun',hm'⟩

/-- The room for `need` bytes, from the sector of a handle on. -/
theorem Models.growFrom {need : ℕ} (hm : Models m d cs D) (hh : HndlModels cs h H)
    (hneed : (need:ℤ) ≤ maxMaxsize) : ∃ m' maxsize' cs' D',
    SectorChain.grow need ((need:ℤ).toNat+m.fresh) h.csector m d.maxsize = .ok (m',maxsize') ∧
      IfregData.grow need (need+D.sectors.length) H.csector D = .ok D' ∧
      Models m' { d with maxsize := maxsize' } (cs ++ cs') D' := by
  have hle := hm.file.sectors.length_le
  have hlen := hm.length
  obtain ⟨hi,he⟩ := List.getElem?_eq_some_iff.mp hh.csector
  have hsplit : cs = cs.take H.csector ++ h.csector :: cs.drop (H.csector+1) := by
    rw [← he,List.getElem_cons_drop,List.take_append_drop]
  have hplace : (cs.take H.csector).length = H.csector := by
    rw [List.length_take]
    omega
  have hrest : (cs.drop (H.csector+1)).length ≤ cs.length := by
    rw [List.length_drop]
    omega
  have hm0 := hm
  rw [hsplit] at hm0
  have hgrow := hm0.grow hneed (by omega : need-D.maxsize+_ ≤ need+D.sectors.length)
    (by omega : need-D.maxsize+_ ≤ (need:ℤ).toNat+m.fresh)
  rwa [← hsplit,hplace] at hgrow

/-- A loop that copies to or from sectors, in both models: `R` relates what it has come to, and the
links stay as they are. -/
structure CopyModels {σ : Type} (first : ℕ) (cs : List ℕ)
    (copy : Store → ℕ → ℤ → ℕ → List Byte → Except FsFault (Store × List Byte))
    (copyD : ℕ → ℕ → ℕ → σ → σ) (R : Store → List Byte → σ → Prop) : Prop where
  chain : ∀ {m buf A}, R m buf A → Linked.Chain m.next (some first) cs
  piece : ∀ {m buf A i a off k}, R m buf A → cs[i]? = some a → off+k ≤ dataInSectorSize →
    ∃ m' buf', copy m a off k buf = .ok (m',buf') ∧ R m' buf' (copyD i off k A)

/-- Where the two loops end. -/
structure MovedModels {σ : Type} (cs : List ℕ) (R : Store → List Byte → σ → Prop) (w : Moved)
    (W : Tinker.Moved σ) : Prop where
  copied : R w.store w.buf W.copied
  hdata : HndlModels cs w.hdata W.hdata
  n : w.n = W.n
  eof : w.eof = W.eof

theorem toInt32_natCast {n : ℕ} (hn : n < 2^31) : toInt32 n = n :=
  toInt32_of_int (by omega) (by omega)

theorem HndlModels.sectorLeft (hh : HndlModels cs h H) :
    sectorLeft h.sidx = dataInSectorSize-H.sidx := by
  have hin := hh.inside
  rw [SectorChain.sectorLeft,hh.sidx]
  rw [dataInSectorSize_eq] at *
  omega

/-- `len` bytes further on in the sector. -/
theorem HndlModels.forward (hh : HndlModels cs h H) (len : ℕ) (hin : H.sidx+len ≤ dataInSectorSize)
    (hlen : len+H.didx < 2^31) :
    HndlModels cs { h with sidx := toInt32 (h.sidx+len), didx := toInt32 (h.didx+len) }
      { H with sidx := H.sidx+len, didx := H.didx+len } := by
  have hsidx : toInt32 (h.sidx+len) = (H.sidx+len : ℕ) := by
    rw [hh.sidx,← Nat.cast_add]
    apply toInt32_natCast
    rw [dataInSectorSize_eq] at hin
    omega
  have hdidx : toInt32 (h.didx+len) = (H.didx+len : ℕ) := by
    rw [hh.didx,← Nat.cast_add]
    apply toInt32_natCast
    omega
  exact ⟨hh.csector,hh.ptr,hh.off,hsidx,hdidx,hin⟩

/-- As far on by `ptr` as in the sector. -/
theorem HndlModels.forwardPtr (hh : HndlModels cs h H) (len : ℕ)
    (hin : H.sidx+len ≤ dataInSectorSize) (hlen : len+H.didx < 2^31) :
    HndlModels cs
      ⟨(h.ptr.1,h.ptr.2+len),toInt32 (h.sidx+len),toInt32 (h.didx+len),h.csector⟩
      ⟨(H.ptr.1,H.ptr.2+len),H.sidx+len,H.didx+len,H.csector⟩ := by
  have hmoved := hh.forward len hin hlen
  refine ⟨hmoved.csector,hmoved.ptr,?_,hmoved.sidx,hmoved.didx,hmoved.inside⟩
  rw [hh.off,Nat.cast_add]

theorem CopyModels.next {σ : Type} {first : ℕ}
    {copy : Store → ℕ → ℤ → ℕ → List Byte → Except FsFault (Store × List Byte)}
    {copyD : ℕ → ℕ → ℕ → σ → σ} {R : Store → List Byte → σ → Prop}
    (hcopy : CopyModels first cs copy copyD R) {A : σ} (hr : R m buf A) (ha : cs[i]? = some a) :
    m.next a = cs[i+1]? := by
  obtain ⟨hi,rfl⟩ := List.getElem?_eq_some_iff.mp ha
  exact (hcopy.chain hr).next_getElem hi

/-- The two loops do the same round by round. -/
theorem copySectors_models {σ : Type} {first : ℕ}
    {copy : Store → ℕ → ℤ → ℕ → List Byte → Except FsFault (Store × List Byte)}
    {copyD : ℕ → ℕ → ℕ → σ → σ} {R : Store → List Byte → σ → Prop}
    (hcopy : CopyModels first cs copy copyD R) (rest fuel nleft n : ℕ) {A : σ} (hr : R m buf A)
    (hh : HndlModels cs h H) (hrest : H.csector+rest+1 = cs.length) (hpos : 0 < fuel)
    (hfuel : nleft+1 < fuel+(dataInSectorSize-H.sidx)) (hlen : nleft+H.didx < 2^31) :
    ∃ w, copySectors copy fuel (dataInSectorSize-H.sidx) nleft h m buf n = .ok w ∧
      MovedModels cs R w
        (Tinker.copySectors copyD rest (dataInSectorSize-H.sidx) nleft H A n) := by
  induction fuel generalizing rest nleft n A m buf h H with
  | zero => exact absurd hpos (Nat.lt_irrefl 0)
  | succ fuel ih =>
    have hin := hh.inside
    rw [copySectors,Tinker.copySectors]
    by_cases hnone : nleft = 0
    · rw [if_pos hnone,if_pos hnone]
      exact ⟨_,rfl,hr,hh,rfl,rfl⟩
    rw [if_neg hnone,if_neg hnone]
    by_cases hlt : dataInSectorSize-H.sidx < nleft
    · -- the rest of the sector, and on to the next one
      rw [if_pos hlt,if_pos hlt]
      obtain ⟨m1,buf1,hrun,hr1⟩ := hcopy.piece hr hh.csector
        (show H.sidx+(dataInSectorSize-H.sidx) ≤ dataInSectorSize by omega)
      have hmoved := hh.forward (dataInSectorSize-H.sidx) (by omega) (by omega)
      have hnext := hcopy.next hr1 hh.csector
      rw [hh.sidx,hrun]
      rw [hh.sidx] at hmoved
      simp only [bind,Except.bind]
      cases rest with
      | zero =>
        have hend : m1.next h.csector = none := by
          rw [hnext]
          exact List.getElem?_eq_none (by omega)
        rw [hend]
        exact ⟨_,rfl,hr1,hmoved,rfl,rfl⟩
      | succ rest =>
        have hb : H.csector+1 < cs.length := by omega
        have hlink : m1.next h.csector = some cs[H.csector+1] := by
          rw [hnext]
          exact List.getElem?_eq_getElem hb
        have hnew : HndlModels cs
            ⟨h.ptr,0,toInt32 (h.didx+(dataInSectorSize-H.sidx : ℕ)),cs[H.csector+1]⟩
            ⟨H.ptr,0,H.didx+(dataInSectorSize-H.sidx),H.csector+1⟩ :=
          ⟨List.getElem?_eq_getElem hb,hh.ptr,hh.off,rfl,hmoved.didx,Nat.zero_le _⟩
        rw [hlink]
        apply ih rest _ _ hr1 hnew
        · simp only
          omega
        · omega
        · rw [dataInSectorSize_eq] at *
          simp only
          omega
        · simp only
          omega
    · rw [if_neg hlt,if_neg hlt]
      obtain ⟨m1,buf1,hrun,hr1⟩ := hcopy.piece hr hh.csector
        (show H.sidx+nleft ≤ dataInSectorSize by omega)
      rw [hh.sidx,hrun]
      refine ⟨_,rfl,hr1,⟨hh.csector,hh.ptr,hh.off,?_,?_,hh.inside⟩,rfl,rfl⟩
      · exact Int.add_zero _
      · exact (Int.add_zero _).trans hh.didx

theorem copyIn_models (d : InodeData) (cs : List ℕ) :
    CopyModels d.sectors cs Store.copyIn
      (fun i s k (x : IfregData × List Byte) => (x.1.store i s (x.2.take k),x.2.drop k))
      (fun m buf x => Models m d cs x.1 ∧ buf = x.2) where
  chain hr := hr.1.file.sectors.linked.chain
  piece := by
    rintro m buf ⟨D,_⟩ i a off k ⟨hm,rfl⟩ ha hin
    obtain ⟨m',hrun,hm'⟩ := hm.copyIn ha hin buf
    exact ⟨m',_,hrun,hm',rfl⟩

theorem Models.copyOut_models (hm : Models m d cs D) (beyond : ℕ → ℤ → Byte) :
    CopyModels d.sectors cs (Store.copyOut beyond) (fun i s k out => out ++ D.load i s k)
      (fun m' buf out => m' = m ∧ buf = out) where
  chain := by
    rintro _ _ _ ⟨rfl,-⟩
    exact hm.file.sectors.linked.chain
  piece := by
    rintro _ buf _ i a off k ⟨rfl,rfl⟩ ha hin
    exact ⟨_,_,hm.copyOut ha hin beyond buf,rfl,rfl⟩

variable {o : OFlag}

/-- A read returns the same bytes. -/
theorem Models.read (hm : Models m d cs D) (hh : HndlModels cs h H) {len : ℕ}
    (hlen : len+H.didx < 2^31) (beyond : ℕ → ℤ → Byte) :
    Alike (fun x X => x.1 = X.1 ∧ X.2.oflag = o ∧ HndlModels cs x.2 X.2.data)
      (fsIfregRead m (some d) ⟨o,h⟩ len beyond) (Tinker.fsIfregRead (some D) ⟨o,H⟩ len) := by
  have hin := hh.inside
  have hbehind : d.dsize < h.didx ↔ D.dsize < H.didx := by
    rw [hm.dsize,hh.didx]
    exact Int.ofNat_lt
  simp only [fsIfregRead,Tinker.fsIfregRead]
  refine (Alike.refl _).bind fun _ _ _ => alike_ite Iff.rfl (fun _ => ?_) fun _ => ?_
  · exact ⟨rfl,rfl,hh⟩
  refine alike_ite hbehind (fun _ => ?_) fun _ => ?_
  · exact ⟨rfl,rfl,hh⟩
  rw [hh.sectorLeft]
  refine alike_ite Iff.rfl (fun hle => ?_) fun hgt => ?_
  · have hcopied := hm.copyOut hh.csector (show H.sidx+len ≤ dataInSectorSize by omega) beyond []
    rw [hh.sidx,hcopied]
    have hmoved := hh.forward len (by omega) hlen
    rw [hh.sidx] at hmoved
    exact ⟨rfl,rfl,hmoved⟩
  · have hc := (List.getElem?_eq_some_iff.mp hh.csector).1
    obtain ⟨w,hrun,hw⟩ := copySectors_models (hm.copyOut_models beyond)
      (D.sectors.length-(H.csector+1)) (len+2) len 0 ⟨rfl,rfl⟩ hh (by rw [hm.length]; omega)
      (by omega) (by omega) hlen
    rw [hrun]
    exact ⟨congrArg _ hw.copied.2,rfl,hw.hdata⟩

/-- What a write leaves, in both models. -/
def EndsModel (o : OFlag) (cs : List ℕ) (x : Store × Option InodeData × HndlData)
    (X : Option IfregData × FHandle) : Prop :=
  X.2.oflag = o ∧ ∃ d' D' cs', x.2.1 = some d' ∧ X.1 = some D' ∧ Models x.1 d' (cs ++ cs') D' ∧
    HndlModels (cs ++ cs') x.2.2 X.2.data

theorem Models.ends (hm : Models m d cs D) (hh : HndlModels cs h H) :
    EndsModel o cs (m,some d,h) (some D,⟨o,H⟩) := by
  refine ⟨rfl,d,D,[],rfl,rfl,?_⟩
  rw [List.append_nil]
  exact ⟨hm,hh⟩

/-- A write has left its counters. -/
theorem Models.endsWrite {maxsize : ℤ}
    (hm : Models m { d with maxsize := maxsize } (cs ++ cs') D) (hh : HndlModels (cs ++ cs') h H) :
    EndsModel o cs (m,some ⟨maxsize,h.didx,d.sectors⟩,h)
      (some { D with dsize := H.didx },⟨o,H⟩) :=
  ⟨rfl,_,_,cs',rfl,rfl,⟨⟨hm.file.sectors,hm.file.sized⟩,hm.maxsize,hh.didx,hm.sectors⟩,hh⟩

/-- A write returns the same, and leaves the same file. -/
theorem Models.write (hm : Models m d cs D) (hh : HndlModels cs h H)
    (hlen : ((buf.length+H.didx : ℕ) : ℤ) ≤ maxMaxsize) :
    Alike (fun x X => x.1 = X.1 ∧ EndsModel o cs x.2 X.2) (fsIfregWrite m (some d) ⟨o,h⟩ buf)
      (Tinker.fsIfregWrite (some D) ⟨o,H⟩ buf) := by
  have hin := hh.inside
  have hint : buf.length+H.didx < 2^31 := by
    rw [maxMaxsize] at hlen
    omega
  have hneed : toInt32 (buf.length+h.didx) = (buf.length+H.didx : ℕ) := by
    rw [hh.didx,← Nat.cast_add]
    exact toInt32_natCast hint
  have hbehind : d.dsize < toInt32 (buf.length+h.didx) ↔ D.dsize < buf.length+H.didx := by
    rw [hm.dsize,hneed]
    exact Int.ofNat_lt
  simp only [fsIfregWrite,Tinker.fsIfregWrite]
  refine (Alike.refl _).bind fun _ _ _ => alike_ite Iff.rfl (fun _ => ?_) fun _ => ?_
  · exact ⟨rfl,hm.ends hh⟩
  refine alike_check hbehind fun _ => alike_ite Iff.rfl (fun _ => ?_) fun _ => ?_
  · exact ⟨rfl,hm.ends hh⟩
  obtain ⟨m1,maxsize1,cs',D1,hgrow,hgrowD,hm1⟩ := hm.growFrom hh hlen
  have hh1 := hh.append cs'
  simp only [writeAppend,hneed,hgrow,hgrowD,hh.sectorLeft,ok_bind]
  by_cases hle : buf.length ≤ dataInSectorSize-H.sidx
  · simp only [if_pos hle]
    by_cases hroom : H.ptr.2+buf.length ≤ dataInSectorSize
    · obtain ⟨m2,hrun,hm2⟩ := hm1.copyIn hh1.ptr hroom buf
      have hafter := hh1.forwardPtr buf.length (by omega) hint
      rw [hh.off] at hafter ⊢
      rw [List.take_length] at hm2
      rw [hrun,check,if_pos hroom]
      exact ⟨rfl,hm2.endsWrite hafter⟩
    · have hout : ¬(0 ≤ h.ptr.2 ∧ h.ptr.2+buf.length ≤ (dataInSectorSize : ℤ)) := by
        rw [hh.off]
        omega
      rw [Store.copyIn,check,check,if_neg hroom,if_neg hout]
      rfl
  · simp only [if_neg hle,bind_assoc]
    have hc := (List.getElem?_eq_some_iff.mp hh1.csector).1
    obtain ⟨w,hrun,hw⟩ := copySectors_models (copyIn_models _ (cs ++ cs'))
      (D1.sectors.length-(H.csector+1)) (buf.length+2) buf.length 0 (A:=(D1,buf)) ⟨hm1,rfl⟩ hh1
      (by rw [hm1.length]; omega) (by omega) (by omega) hint
    have hwc := (List.getElem?_eq_some_iff.mp hw.hdata.csector).1
    have hnext := (copyIn_models _ (cs ++ cs')).next hw.copied hw.hdata.csector
    rw [hrun,ok_bind]
    refine alike_check ?_ fun _ => alike_check ?_ fun _ => alike_check ?_ fun hn => ?_
    · rw [hw.eof]
    · have hlen1 := hm1.length
      rw [hnext,List.getElem?_eq_none_iff]
      omega
    · rw [hw.n]
    · exact ⟨congrArg Except.ok (hn.symm.trans hw.n),hw.copied.1.endsWrite hw.hdata⟩

/-- A handle with its flags, in both models. -/
structure HandleModels (cs : List ℕ) (h : Handle) (H : FHandle) : Prop where
  oflag : h.oflag = H.oflag
  data : HndlModels cs h.data H.data

theorem HandleModels.append {h : Handle} {H : FHandle} (hh : HandleModels cs h H) (cs' : List ℕ) :
    HandleModels (cs ++ cs') h H := ⟨hh.oflag,hh.data.append cs'⟩

/-- A file that may not have been opened yet, in both models. -/
structure FileModels (m : Store) (idata : Option InodeData) (cs : List ℕ)
    (Idata : Option IfregData) : Prop where
  file : Option.Rel (fun d D => Models m d cs D) idata Idata
  none : idata = none → cs = []

theorem Models.fileModels (hm : Models m d cs D) : FileModels m (some d) cs (some D) :=
  ⟨.some hm,nofun⟩

/-- A handle at the first byte of a file. -/
theorem Models.handle (hm : Models m d cs D) (flags : OFlag) :
    HandleModels cs ⟨flags,(d.sectors,0),0,0,d.sectors⟩ ⟨flags,(0,0),0,0,0⟩ := by
  have hchain := hm.file.sectors.linked.chain
  have hfirst : cs[0]? = some d.sectors := by
    rw [← List.head?_eq_getElem?]
    exact hchain.head?
  exact ⟨rfl,⟨hfirst,hfirst,rfl,rfl,rfl,Nat.zero_le _⟩⟩

/-- The first sector of a file. -/
theorem models_newSector (m : Store) :
    Models m.newSector ⟨dataInSectorSize,0,m.fresh⟩ [m.fresh]
      ⟨dataInSectorSize,0,[fun _ => 0]⟩ := by
  refine ⟨⟨Sectors.newSector m,rfl,show (40:ℤ) < 2^31 by decide⟩,rfl,rfl,?_⟩
  simp only [List.map_cons,List.map_nil,Store.newSector,Function.update_self]
  rfl

/-- What an open leaves and gives, in both models. -/
def OpenModels (cs : List ℕ) (x : Except FsErr Handle × Store × Option InodeData)
    (X : Except FsErr FHandle × Option IfregData) : Prop :=
  ∃ cs', FileModels x.2.1 x.2.2 (cs ++ cs') X.2 ∧ Alike (HandleModels (cs ++ cs')) x.1 X.1

/-- A file that is there is left as it is. -/
theorem Models.again (hm : Models m d cs D) (flags : OFlag) : Alike (OpenModels cs)
    (if flags.creat && !flags.append then .ok (.error .eInval,m,some d)
      else .ok (.ok ⟨flags,(d.sectors,0),0,0,d.sectors⟩,m,some d) : Except FsFault _)
    (if flags.creat && !flags.append then .ok (.error .eInval,some D)
      else .ok (.ok ⟨flags,(0,0),0,0,0⟩,some D)) := by
  have hfile : FileModels m (some d) (cs ++ []) (some D) := by
    rw [List.append_nil]
    exact hm.fileModels
  exact alike_ite Iff.rfl (fun _ => ⟨[],hfile,rfl⟩) fun _ =>
    ⟨[],hfile,(hm.handle flags).append []⟩

/-- An open leaves the same file, or makes it, and gives the same handle. -/
theorem FileModels.open {idata : Option InodeData} {Idata : Option IfregData}
    (hm : FileModels m idata cs Idata) (flags : OFlag) (accessflg : ℕ) :
    Alike (OpenModels cs) (fsIfregOpen m idata flags accessflg)
      (Tinker.fsIfregOpen Idata flags accessflg) := by
  obtain ⟨hfile,hnone⟩ := hm
  simp only [fsIfregOpen,Tinker.fsIfregOpen]
  cases hfile with
  | none =>
    rw [hnone rfl]
    cases flags.creat with
    | false => exact rfl
    | true =>
      have hnew := models_newSector m
      exact alike_check Iff.rfl fun _ => ⟨[m.fresh],hnew.fileModels,hnew.handle flags⟩
  | some hm =>
    have hagain := hm.again flags
    exact alike_ite Iff.rfl (fun _ => alike_check Iff.rfl fun _ => hagain) fun _ => hagain

end

end SectorChain

end Tinker

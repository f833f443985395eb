import Mathlib.Data.List.Infix
import Mathlib.Data.List.SplitLengths
import Tinker.RamFile

/-! Writing a file through one handle and reading it through another. The indices of a handle are
right as long as it is in the first sector; behind the first piece across a boundary they are not. -/
namespace Tinker

open Memory Outcome

/-- Why a caller stops. -/
inductive FileStop
  | fault (f : FsFault) | err (e : FsErr)

/-- What a call returns, unless it faults or returns -1. -/
def returned {α σ : Type} : Except FsFault (Except FsErr α × σ) → Except FileStop (α × σ)
  | .error f => .error (.fault f)
  | .ok (.error e,_) => .error (.err e)
  | .ok (.ok a,s) => .ok (a,s)

def writeAll : Option IfregData → FHandle → List (List Byte) →
    Except FileStop (List ℕ × Option IfregData × FHandle)
  | idata, hndl, [] => .ok ([],idata,hndl)
  | idata, hndl, buf :: bufs => do
    let (n,idata,hndl) ← returned (fsIfregWrite idata hndl buf)
    let (ns,idata,hndl) ← writeAll idata hndl bufs
    return (n :: ns,idata,hndl)

def readAll (idata : Option IfregData) : FHandle → List ℕ →
    Except FileStop (List (List Byte) × FHandle)
  | hndl, [] => .ok ([],hndl)
  | hndl, len :: lens => do
    let (out,hndl) ← returned (fsIfregRead idata hndl len)
    let (outs,hndl) ← readAll idata hndl lens
    return (out :: outs,hndl)

/-- A new file is opened and written, and read through a fresh handle. -/
def appendThenRead (wflag rflag : OFlag) (bufs : List (List Byte)) (lens : List ℕ) :
    Except FileStop (List ℕ × List (List Byte)) := do
  let (hndl,idata) ← returned (fsIfregOpen none wflag 0)
  let (rets,idata,_) ← writeAll idata hndl bufs
  let (hndl,idata) ← returned (fsIfregOpen idata rflag 0)
  let (outs,_) ← readAll idata hndl lens
  return (rets,outs)

/-- Each write returns its length, and what the reads return is what was written. -/
def ReadsBack (wflag rflag : OFlag) (bufs : List (List Byte)) (lens : List ℕ) : Prop :=
  Spec (appendThenRead wflag rflag bufs lens)
    (fun r => r.1 = bufs.map List.length ∧ r.2.flatten = bufs.flatten) (fun _ => False)

/-- After each call there are at most the bytes of the first sector behind it, or all. -/
def FirstSector (lens : List ℕ) : Prop :=
  ∀ l ∈ lens.inits, l.sum ≤ dataInSectorSize ∨ l.sum = lens.sum

instance (wflag rflag : OFlag) (bufs : List (List Byte)) (lens : List ℕ) :
    Decidable (ReadsBack wflag rflag bufs lens) :=
  decidableSpec _ _ _

instance (lens : List ℕ) : Decidable (FirstSector lens) :=
  inferInstanceAs (Decidable (∀ l ∈ lens.inits, _))

section

variable {lens pre post : List ℕ} {n p r : ℕ}

/-- Calls stay within `n` bytes, or there is a first one that goes beyond. -/
theorem exists_crossing (lens : List ℕ) (hp : p ≤ n) :
    p+lens.sum ≤ n ∨ ∃ pre r post, lens = pre ++ r :: post ∧ p+pre.sum ≤ n ∧ n < p+pre.sum+r := by
  induction lens generalizing p with
  | nil => exact Or.inl hp
  | cons len lens ih =>
    by_cases hlen : p+len ≤ n
    · obtain hsum | ⟨pre,r,post,rfl,hpre,hr⟩ := ih hlen
      · exact Or.inl (by rw [List.sum_cons]; omega)
      · refine Or.inr ⟨len :: pre,r,post,rfl,?_,?_⟩
        · rw [List.sum_cons]
          omega
        · rw [List.sum_cons]
          omega
    · exact Or.inr ⟨[],len,lens,rfl,by simpa using hp,by simpa using hlen⟩

theorem firstSector_of_sum_le (h : lens.sum ≤ dataInSectorSize) : FirstSector lens := by
  intro l hl
  obtain ⟨rest,rfl⟩ := (List.mem_inits l lens).mp hl
  rw [List.sum_append] at h
  exact Or.inl (by omega)

/-- The first call beyond the sector has to be the last one that moves anything. -/
theorem firstSector_iff (hlens : lens = pre ++ r :: post) (hpre : pre.sum ≤ dataInSectorSize)
    (hr : dataInSectorSize < pre.sum+r) : FirstSector lens ↔ post.sum = 0 := by
  have hsum : lens.sum = pre.sum+r+post.sum := by
    rw [hlens,List.sum_append,List.sum_cons,Nat.add_assoc]
  constructor
  · intro h
    have hinit : pre ++ [r] ∈ lens.inits := (List.mem_inits _ _).mpr ⟨post,by simp [hlens]⟩
    have := h _ hinit
    rw [List.sum_append,List.sum_singleton] at this
    omega
  · intro hpost l hl
    obtain ⟨rest,hrest⟩ := (List.mem_inits l lens).mp hl
    obtain ⟨mid,rfl,-⟩ | ⟨mid,rfl,hmid⟩ := List.append_eq_append_iff.mp (hrest.trans hlens)
    · rw [List.sum_append] at hpre
      exact Or.inl (by omega)
    · cases mid with
      | nil => exact Or.inl (by simpa using hpre)
      | cons m mid =>
        rw [List.cons_append,List.cons.injEq] at hmid
        have hmidsum : mid.sum+rest.sum = post.sum := by rw [hmid.2,List.sum_append]
        rw [← hmid.1,hsum,List.sum_append,List.sum_cons]
        exact Or.inr (by omega)

end

section

variable {d d' : IfregData} {h h' : IfregHandle} {o wflag rflag : OFlag} {hndl : FHandle}
  {buf : List Byte} {bufs : List (List Byte)} {lens pre post : List ℕ} {p T : ℕ}

theorem writeAll_append (idata : Option IfregData) (hndl : FHandle) (xs ys : List (List Byte)) :
    writeAll idata hndl (xs ++ ys) = (do
      let (ns,idata,hndl) ← writeAll idata hndl xs
      let (ms,idata,hndl) ← writeAll idata hndl ys
      return (ns ++ ms,idata,hndl)) := by
  induction xs generalizing idata hndl with
  | nil => cases h : writeAll idata hndl ys <;> simp [writeAll,h,bind,Except.bind,pure,Except.pure]
  | cons x xs ih =>
    rw [List.cons_append,writeAll,writeAll]
    simp only [ih,bind_assoc]
    rfl

theorem readAll_append (idata : Option IfregData) (hndl : FHandle) (xs ys : List ℕ) :
    readAll idata hndl (xs ++ ys) = (do
      let (as,hndl) ← readAll idata hndl xs
      let (bs,hndl) ← readAll idata hndl ys
      return (as ++ bs,hndl)) := by
  induction xs generalizing hndl with
  | nil => cases h : readAll idata hndl ys <;> simp [readAll,h,bind,Except.bind,pure,Except.pure]
  | cons x xs ih =>
    rw [List.cons_append,readAll,readAll]
    simp only [ih,bind_assoc]
    rfl

/-- The handle after `p` bytes in the first sector, where `ptr` has moved `q` bytes. -/
def IfregHandle.within (q p : ℕ) : IfregHandle := ⟨(0,q),p,p,0⟩

@[simp] theorem IfregHandle.within_sidx (q p : ℕ) : (within q p).sidx = p := rfl
@[simp] theorem IfregHandle.within_didx (q p : ℕ) : (within q p).didx = p := rfl
@[simp] theorem IfregHandle.within_csector (q p : ℕ) : (within q p).csector = 0 := rfl

theorem readAll_within (ho : ReadFlags o) (hp : p+lens.sum ≤ dataInSectorSize)
    (hdsize : p+lens.sum ≤ d.dsize) (hc : 0 < d.sectors.length) :
    ∃ outs, readAll (some d) ⟨o,.within 0 p⟩ lens = .ok (outs,⟨o,.within 0 (p+lens.sum)⟩) ∧
      outs.flatten = peek d.byteAt p lens.sum := by
  induction lens generalizing p with
  | nil => exact ⟨[],rfl,rfl⟩
  | cons len lens ih =>
    rw [List.sum_cons] at hp hdsize
    obtain ⟨outs,hrun,houts⟩ := ih (p := p+len) (by omega) (by omega)
    have hroom : dataInSectorSize*0+p+len ≤ dataInSectorSize*d.sectors.length :=
      Nat.le_trans (by omega) (Nat.le_mul_of_pos_right _ hc)
    have hread := fsIfregRead_eq (h := .within 0 p) ho.wronly ho.unknown
      (by simp only [IfregHandle.within_sidx]; omega)
      (by simp only [IfregHandle.within_didx]; omega) hc hroom
    have hafter : (IfregHandle.within 0 p).afterRead len = .within 0 (p+len) := by
      rw [IfregHandle.afterRead,if_pos (by simp only [IfregHandle.within_sidx]; omega)]
      rfl
    rw [hafter] at hread
    simp only [IfregHandle.within_csector,IfregHandle.within_sidx,Nat.mul_zero,Nat.zero_add] at hread
    refine ⟨peek d.byteAt p len :: outs,?_,?_⟩
    · rw [readAll,hread,List.sum_cons,← Nat.add_assoc]
      simp only [returned,bind,Except.bind,hrun]
      rfl
    · rw [List.flatten_cons,houts,List.sum_cons,peek_add]

/-- A call for no bytes does nothing. -/
theorem fsIfregRead_zero (ho : ReadFlags o) :
    fsIfregRead (some d) ⟨o,h⟩ 0 = .ok (.ok [],⟨o,h⟩) := by
  rw [fsIfregRead,assertDbgFlags_eq (by simp [ho.wronly]) ho.unknown]
  simp only [ho.wronly,Bool.false_eq_true,if_false,Nat.zero_le,if_true]
  by_cases hend : d.dsize < h.didx
  · simp only [if_pos hend]
    rfl
  · simp only [if_neg hend]
    rfl

theorem readAll_zero (ho : ReadFlags o) (hlens : lens.sum = 0) :
    ∃ outs, readAll (some d) ⟨o,h⟩ lens = .ok (outs,⟨o,h⟩) ∧ outs.flatten = [] := by
  induction lens with
  | nil => exact ⟨[],rfl,rfl⟩
  | cons len lens ih =>
    rw [List.sum_cons] at hlens
    obtain ⟨outs,hrun,houts⟩ := ih (by omega)
    obtain rfl : len = 0 := by omega
    refine ⟨[] :: outs,?_,by simpa using houts⟩
    rw [readAll,fsIfregRead_zero ho]
    simp only [returned,bind,Except.bind,hrun]
    rfl

/-- Wherever a handle is, the next byte that is read is the one at its index. -/
theorem readAll_head (lens : List ℕ) (ho : ReadFlags o) (hs : h.sidx ≤ dataInSectorSize)
    (hdidx : h.didx = dataInSectorSize*h.csector+h.sidx) (hdsize : h.didx ≤ d.dsize)
    (hc : h.csector < d.sectors.length)
    (hroom : h.didx+lens.sum ≤ dataInSectorSize*d.sectors.length) (hlens : 0 < lens.sum) :
    Spec (readAll (some d) ⟨o,h⟩ lens) (fun r => r.1.flatten.head? = some (d.byteAt h.didx))
      (fun _ => True) := by
  induction lens with
  | nil => exact absurd hlens (Nat.lt_irrefl 0)
  | cons len lens ih =>
    rw [List.sum_cons] at hroom hlens
    rw [readAll]
    obtain rfl | hpos := Nat.eq_zero_or_pos len
    · rw [fsIfregRead_zero ho]
      simp only [returned,spec_bind,spec_ok,spec_pure,List.flatten_cons,List.nil_append]
      exact ih (by omega) (by omega)
    · rw [fsIfregRead_eq ho.wronly ho.unknown hs hdsize hc (by omega),← hdidx]
      simp only [returned,spec_bind,spec_ok,spec_pure,List.flatten_cons]
      refine spec_of_forall fun r => ?_
      obtain ⟨k,rfl⟩ := Nat.exists_eq_succ_of_ne_zero (Nat.ne_of_gt hpos)
      rw [Nat.succ_eq_add_one,Nat.add_comm k 1,peek_add]
      rfl

/-- A file with the given bytes in it, as `dsize` counts them: without the last piece of a write
across a boundary. -/
structure FileHolds (d : IfregData) (content : List Byte) : Prop where
  bytes : ∀ i (hi : i < content.length), d.byteAt i = content[i]
  chain : 0 < d.sectors.length
  room : content.length ≤ dataInSectorSize*d.sectors.length
  dsize : d.dsize = if content.length ≤ dataInSectorSize then content.length
    else dataInSectorSize*((content.length-1)/dataInSectorSize)

variable {content : List Byte} {r : ℕ}

theorem FileHolds.peek_eq (hd : FileHolds d content) {n : ℕ} (hn : n ≤ content.length) :
    peek d.byteAt 0 n = content.take n :=
  peek_eq_take hn fun j hj => by rw [Nat.zero_add]; exact hd.bytes j hj

/-- The handle behind the first call across a boundary. -/
def IfregHandle.across (q p r : ℕ) : IfregHandle := (within q p).behind r

theorem IfregHandle.across_eq (q : ℕ) (hr : dataInSectorSize < p+r) : across q p r =
    ⟨(0,q),0,dataInSectorSize*((p+r-1)/dataInSectorSize),(p+r-1)/dataInSectorSize⟩ := by
  rw [across,behind,if_neg (by simpa using hr)]
  simp only [within,mk.injEq,true_and,Nat.zero_add,and_true]
  omega

/-- What reads return up to the first one across a boundary, and where they leave the handle. -/
theorem readAll_across (post : List ℕ) (ho : ReadFlags o) (hd : FileHolds d content)
    (hsum : pre.sum+r ≤ content.length) (hpre : pre.sum ≤ dataInSectorSize)
    (hr : dataInSectorSize < pre.sum+r) :
    ∃ outs, readAll (some d) ⟨o,.within 0 0⟩ (pre ++ r :: post) = (do
        let (rest,hndl) ← readAll (some d) ⟨o,.across 0 pre.sum r⟩ post
        return (outs ++ rest,hndl)) ∧
      outs.flatten = content.take (pre.sum+r) := by
  have hdsize : pre.sum ≤ d.dsize := by
    rw [hd.dsize,if_neg (by omega)]
    rw [dataInSectorSize_eq] at *
    omega
  obtain ⟨outs,hrun,houts⟩ := readAll_within (p := 0) ho (by simpa using hpre) (by simpa using hdsize)
    hd.chain
  rw [Nat.zero_add] at hrun
  have hroom : dataInSectorSize*0+pre.sum+r ≤ dataInSectorSize*d.sectors.length := by
    rw [Nat.mul_zero,Nat.zero_add]
    exact Nat.le_trans hsum hd.room
  have hread := fsIfregRead_eq (h := .within 0 pre.sum) ho.wronly ho.unknown hpre hdsize hd.chain hroom
  have hafter : (IfregHandle.within 0 pre.sum).afterRead r = .across 0 pre.sum r := by
    rw [IfregHandle.afterRead,if_neg (by simp only [IfregHandle.within_sidx]; omega)]
    rfl
  rw [hafter] at hread
  simp only [IfregHandle.within_csector,IfregHandle.within_sidx,Nat.mul_zero,Nat.zero_add] at hread
  refine ⟨outs ++ [peek d.byteAt pre.sum r],?_,?_⟩
  · rw [readAll_append,hrun]
    simp only [readAll,hread,returned,bind,Except.bind]
    cases readAll (some d) ⟨o,.across 0 pre.sum r⟩ post <;> simp [pure,Except.pure]
  · rw [List.flatten_append,houts,List.flatten_singleton]
    rw [← hd.peek_eq hsum,peek_add,Nat.zero_add]

/-- Reads give back the file when only the last one that moves anything leaves the first sector. -/
theorem readAll_holds (ho : ReadFlags o) (hd : FileHolds d content) (hsum : lens.sum = content.length)
    (hlens : FirstSector lens) :
    ∃ outs hndl, readAll (some d) ⟨o,.within 0 0⟩ lens = .ok (outs,hndl) ∧
      outs.flatten = content := by
  obtain hle | ⟨pre,r,post,rfl,hpre,hr⟩ := exists_crossing lens (Nat.zero_le dataInSectorSize)
  · have hdsize : d.dsize = content.length := by rw [hd.dsize,if_pos (by omega)]
    obtain ⟨outs,hrun,houts⟩ := readAll_within (p := 0) ho hle (by omega) hd.chain
    refine ⟨outs,_,hrun,?_⟩
    rw [houts,hsum,hd.peek_eq (Nat.le_refl _),List.take_length]
  · rw [Nat.zero_add] at hpre hr
    have hpost := (firstSector_iff rfl hpre hr).mp hlens
    rw [List.sum_append,List.sum_cons] at hsum
    obtain ⟨outs,hrun,houts⟩ := readAll_across post ho hd (by omega) hpre hr
    obtain ⟨rest,hrest,hnil⟩ := readAll_zero (d := d) (h := .across 0 pre.sum r) ho hpost
    refine ⟨outs ++ rest,⟨o,.across 0 pre.sum r⟩,?_,?_⟩
    · rw [hrun,hrest]
      rfl
    · rw [List.flatten_append,hnil,houts,List.append_nil,List.take_of_length_le (by omega)]

/-- Behind a read across a boundary the next one begins at the start of its last sector. -/
theorem readAll_not_holds (ho : ReadFlags o) (hd : FileHolds d content)
    (hsum : (pre ++ r :: post).sum = content.length) (hpre : pre.sum ≤ dataInSectorSize)
    (hr : dataInSectorSize < pre.sum+r) (hpost : 0 < post.sum)
    (hne : content[pre.sum+r]? ≠
      content[dataInSectorSize*((pre.sum+r-1)/dataInSectorSize)]?) :
    Spec (readAll (some d) ⟨o,.within 0 0⟩ (pre ++ r :: post))
      (fun x => x.1.flatten ≠ content) (fun _ => True) := by
  rw [List.sum_append,List.sum_cons] at hsum
  obtain ⟨outs,hrun,houts⟩ := readAll_across post ho hd (by omega) hpre hr
  have hplace := IfregHandle.across_eq 0 hr
  have hroom := hd.room
  have hstart : dataInSectorSize*((pre.sum+r-1)/dataInSectorSize) < pre.sum+r := by
    rw [dataInSectorSize_eq]
    omega
  have hsector : (pre.sum+r-1)/dataInSectorSize < d.sectors.length := by
    rw [dataInSectorSize_eq] at *
    omega
  have hdsize : (IfregHandle.across 0 pre.sum r).didx ≤ d.dsize := by
    rw [hplace,hd.dsize,if_neg (by omega)]
    exact Nat.mul_le_mul_left _ (Nat.div_le_div_right (by omega))
  have hhead := readAll_head post ho (by rw [hplace]; exact Nat.zero_le _) (by rw [hplace]; rfl)
    hdsize (by rw [hplace]; exact hsector) (by rw [hplace]; simp only; omega) hpost
  rw [hrun]
  simp only [spec_bind,spec_pure]
  refine hhead.imp fun x hx heq => hne ?_
  have hlen : outs.flatten.length = pre.sum+r := by
    rw [houts,List.length_take]
    omega
  calc content[pre.sum+r]?
      = x.1.flatten[0]? := by
        rw [← heq,List.flatten_append,List.getElem?_append_right (by omega),hlen,Nat.sub_self]
    _ = some (d.byteAt (IfregHandle.across 0 pre.sum r).didx) := by
        rw [← List.head?_eq_getElem?,hx]
    _ = content[dataInSectorSize*((pre.sum+r-1)/dataInSectorSize)]? := by
        have hlt : dataInSectorSize*((pre.sum+r-1)/dataInSectorSize) < content.length := by omega
        rw [hplace,List.getElem?_eq_getElem hlt]
        exact congrArg some (hd.bytes _ hlt)

theorem writeAll_within (ho : WriteFlags o) (hd : AtEnd d (.within T T)) (hbufs : [] ∉ bufs)
    (hT : T+bufs.flatten.length ≤ dataInSectorSize) :
    ∃ d', writeAll (some d) ⟨o,.within T T⟩ bufs = .ok (bufs.map List.length,some d',
        ⟨o,.within (T+bufs.flatten.length) (T+bufs.flatten.length)⟩) ∧
      AtEnd d' (.within (T+bufs.flatten.length) (T+bufs.flatten.length)) ∧
      d'.byteAt = poke d.byteAt T bufs.flatten := by
  induction bufs generalizing d T with
  | nil => exact ⟨d,rfl,hd,rfl⟩
  | cons buf bufs ih =>
    rw [List.flatten_cons,List.length_append] at hT
    have hbuf : buf ≠ [] := fun h => hbufs (h ▸ List.mem_cons_self)
    have hwrite : fsIfregWrite (some d) ⟨o,.within T T⟩ buf = .ok (.ok buf.length,
        some { d.store 0 T buf with dsize := T+buf.length },
        ⟨o,.within (T+buf.length) (T+buf.length)⟩) := by
      rw [fsIfregWrite_within ho hd hbuf (by simp only [IfregHandle.within_sidx]; omega)]
      exact if_pos (by simp only [IfregHandle.within]; omega)
    have hlast := hd.last
    have hd₁ : AtEnd { d.store 0 T buf with dsize := T+buf.length }
        (.within (T+buf.length) (T+buf.length)) := by
      refine ⟨?_,?_,?_,?_,rfl⟩
      · rw [IfregData.Sized]
        simp only [IfregData.store_length]
        exact hd.sized
      · simp only [IfregData.store_length]
        exact hlast
      · simp only [IfregHandle.within_sidx]
        omega
      · simp only [IfregHandle.within_didx,IfregHandle.within_csector,IfregHandle.within_sidx]
        omega
    obtain ⟨d',hrun,hd',hbytes⟩ := ih hd₁ (fun h => hbufs (List.mem_cons_of_mem _ h)) (by omega)
    rw [Nat.add_assoc,← List.length_append,← List.flatten_cons] at hrun hd'
    refine ⟨d',?_,hd',?_⟩
    · rw [writeAll,hwrite]
      simp only [returned,bind,Except.bind,hrun]
      rfl
    · rw [hbytes,List.flatten_cons,poke_append]
      refine congrArg (fun mem => poke mem _ _) ?_
      have hstore := IfregData.byteAt_store (d := d) (c := 0) (hlast ▸ Nat.zero_lt_succ 0)
        (by omega : T+buf.length ≤ dataInSectorSize)
      rw [Nat.mul_zero,Nat.zero_add] at hstore
      exact hstore

/-- Writes up to the first one across a boundary, and where they leave the handle. -/
theorem writeAll_across (post : List (List Byte)) (ho : WriteFlags o) (hd : AtEnd d (.within 0 0))
    (hbufs : [] ∉ bufs) (hT : bufs.flatten.length ≤ dataInSectorSize)
    (hbuf : dataInSectorSize < bufs.flatten.length+buf.length) :
    ∃ d', writeAll (some d) ⟨o,.within 0 0⟩ (bufs ++ buf :: post) = (do
        let (ns,idata,hndl) ← writeAll (some d')
          ⟨o,.across bufs.flatten.length bufs.flatten.length buf.length⟩ post
        return (bufs.map List.length ++ buf.length :: ns,idata,hndl)) ∧
      AtEnd d' (.across bufs.flatten.length bufs.flatten.length buf.length) ∧
      d'.byteAt = poke d.byteAt 0 (bufs.flatten ++ buf) := by
  obtain ⟨d₁,hrun,hd₁,hbytes₁⟩ := writeAll_within ho hd hbufs (by rw [Nat.zero_add]; exact hT)
  rw [Nat.zero_add] at hrun hd₁
  have hlen : ¬buf.length ≤ dataInSectorSize-
      (IfregHandle.within bufs.flatten.length bufs.flatten.length).sidx := by
    simp only [IfregHandle.within_sidx]
    omega
  obtain ⟨d₂,hwrite,hd₂,hbytes₂⟩ := fsIfregWrite_across ho hd₁ hlen
  rw [← IfregHandle.across] at hwrite
  refine ⟨d₂,?_,hd₂,?_⟩
  · rw [writeAll_append,hrun]
    simp only [writeAll,hwrite,returned,bind,Except.bind]
    cases writeAll (some d₂) ⟨o,.across _ _ _⟩ post <;> rfl
  · rw [hbytes₂,hbytes₁,poke_append,Nat.zero_add]
    rfl

/-- Bytes written to an empty file, where the handle ends up right or behind by the last piece. -/
theorem holds_of_poke (hd : AtEnd d h) (hbytes : d.byteAt = poke (fun _ => 0) 0 content)
    (hh : h.didx = if content.length ≤ dataInSectorSize then content.length
      else dataInSectorSize*((content.length-1)/dataInSectorSize))
    (hroom : content.length ≤ dataInSectorSize*(h.csector+1)) : FileHolds d content where
  bytes i hi := by
    have hat : poke (fun _ => (0 : Byte)) 0 content (0+i) = content[i] := poke_add hi
    rw [Nat.zero_add] at hat
    rw [hbytes,hat]
  chain := hd.last ▸ Nat.succ_pos _
  room := hd.last ▸ hroom
  dsize := hd.dsize.trans hh

/-- Writes fill the file when only the last one leaves the first sector. -/
theorem writeAll_holds (ho : WriteFlags o) (hd : AtEnd d (.within 0 0))
    (hblank : d.byteAt = fun _ => 0) (hbufs : [] ∉ bufs)
    (hsizes : FirstSector (bufs.map List.length)) :
    ∃ d' hndl, writeAll (some d) ⟨o,.within 0 0⟩ bufs = .ok (bufs.map List.length,some d',hndl) ∧
      FileHolds d' bufs.flatten := by
  obtain hle | ⟨pre,r,post,hmap,hpre,hr⟩ :=
    exists_crossing (bufs.map List.length) (Nat.zero_le dataInSectorSize)
  · rw [Nat.zero_add,← List.length_flatten] at hle
    obtain ⟨d',hrun,hd',hbytes⟩ := writeAll_within ho hd hbufs (by rw [Nat.zero_add]; exact hle)
    rw [hblank] at hbytes
    rw [Nat.zero_add] at hrun hd'
    exact ⟨d',_,hrun,holds_of_poke hd' hbytes (if_pos hle).symm (by simpa using hle)⟩
  · rw [Nat.zero_add] at hpre hr
    have hpost := (firstSector_iff hmap hpre hr).mp hsizes
    obtain ⟨bs,_,rfl,rfl,hrest⟩ := List.map_eq_append_iff.mp hmap
    obtain ⟨b,cs,rfl,rfl,rfl⟩ := List.map_eq_cons_iff.mp hrest
    rw [← List.length_flatten] at hpre hr hpost
    obtain rfl : cs = [] := by
      cases cs with
      | nil => rfl
      | cons c cs =>
        rw [List.flatten_cons,List.length_append] at hpost
        have hc : c = [] := List.length_eq_zero_iff.mp (by omega)
        exact absurd (hc ▸ by simp) hbufs
    obtain ⟨d',hrun,hd',hbytes⟩ := writeAll_across [] ho hd
      (fun h => hbufs (List.mem_append_left _ h)) hpre hr
    have hcontent : (bs ++ [b]).flatten = bs.flatten ++ b := by simp
    have hplace := IfregHandle.across_eq bs.flatten.length hr
    refine ⟨d',⟨o,.across bs.flatten.length bs.flatten.length b.length⟩,?_,?_⟩
    · rw [hrun,List.map_append]
      rfl
    · rw [hcontent]
      refine holds_of_poke hd' (hblank ▸ hbytes) ?_ ?_
      · rw [hplace,List.length_append,if_neg (by omega)]
      · rw [hplace,List.length_append,dataInSectorSize_eq]
        simp only
        omega

theorem spec_returned {α σ : Type} {x : Except FsFault (Except FsErr α × σ)} {Q : α × σ → Prop}
    (h : Spec x (fun r => ∀ a, r.1 = .ok a → Q (a,r.2)) (fun _ => True)) :
    Spec (returned x) Q (fun _ => True) := by
  cases x with
  | error e => trivial
  | ok r =>
    obtain ⟨_ | a,s⟩ := r
    · trivial
    · exact h a rfl

/-- What a write that returns has done: it made room, and copied to `ptr` or from sector to sector. -/
theorem fsIfregWrite_does (hndl : FHandle) :
    Spec (fsIfregWrite (some d) hndl buf) (fun r => ∀ n, r.1 = .ok n →
      d.dsize < buf.length+hndl.data.didx ∧ ∃ d₁ d',
        d.grow (buf.length+hndl.data.didx) (buf.length+hndl.data.didx+d.sectors.length)
          hndl.data.csector = .ok d₁ ∧
        r.2.1 = some d' ∧ d'.dsize = r.2.2.data.didx ∧
        (buf.length ≤ dataInSectorSize-hndl.data.sidx ∧
            hndl.data.ptr.2+buf.length ≤ dataInSectorSize ∧
            r.2.2.data.sidx = hndl.data.sidx+buf.length ∧
            d'.byteAt = (d₁.store hndl.data.ptr.1 hndl.data.ptr.2 buf).byteAt ∨
          ∃ m, m = copySectors (fun c s k (a : IfregData × List Byte) =>
              (a.1.store c s (a.2.take k),a.2.drop k)) (d₁.sectors.length-(hndl.data.csector+1))
              (dataInSectorSize-hndl.data.sidx) buf.length hndl.data (d₁,buf) 0 ∧
            r.2.2.data = m.hdata ∧ d'.byteAt = m.copied.1.byteAt)) (fun _ => True) := by
  simp only [fsIfregWrite,spec_bind,spec_check,spec_ite,spec_pure]
  refine spec_of_forall fun _ => ⟨fun _ n h => (by cases h),fun _ => ⟨fun hlt =>
    ⟨fun _ n h => (by cases h),fun _ => ?_⟩,fun _ => trivial⟩⟩
  cases hgrow : d.grow (buf.length+hndl.data.didx) (buf.length+hndl.data.didx+d.sectors.length)
      hndl.data.csector with
  | error e => trivial
  | ok d₁ =>
    refine ⟨fun hlen => ⟨fun hptr n _ => ?_,fun _ => trivial⟩,fun hlen => ⟨fun _ => ⟨fun _ =>
      ⟨fun _ n _ => ?_,fun _ => trivial⟩,fun _ => trivial⟩,fun _ => trivial⟩⟩
    · exact ⟨hlt,d₁,_,rfl,rfl,rfl,Or.inl ⟨hlen,hptr,trivial,rfl⟩⟩
    · exact ⟨hlt,d₁,_,rfl,rfl,rfl,Or.inr ⟨_,rfl,rfl,rfl⟩⟩

/-- A write leaves the end of the file at the index of its handle, and is never one of no bytes. -/
theorem fsIfregWrite_dsize (hndl : FHandle) (hd : d.dsize = hndl.data.didx) :
    Spec (fsIfregWrite (some d) hndl buf) (fun r => ∀ n, r.1 = .ok n → buf ≠ [] ∧
      ∃ d', r.2.1 = some d' ∧ d'.dsize = r.2.2.data.didx) (fun _ => True) := by
  refine (fsIfregWrite_does hndl).imp fun r hr n hn => ?_
  obtain ⟨hlt,-,d',-,hd',hdsize,-⟩ := hr n hn
  refine ⟨?_,d',hd',hdsize⟩
  rintro rfl
  rw [hd,List.length_nil] at hlt
  omega

theorem writeAll_some (d : IfregData) (hndl : FHandle) (bufs : List (List Byte)) :
    Spec (writeAll (some d) hndl bufs) (fun r => ∃ d', r.2.1 = some d') (fun _ => True) := by
  induction bufs generalizing d hndl with
  | nil => exact ⟨d,rfl⟩
  | cons buf bufs ih =>
    rw [writeAll,spec_bind]
    refine spec_returned ((fsIfregWrite_does hndl).imp fun r hr n hn => ?_)
    obtain ⟨-,-,d',-,hd',-⟩ := hr n hn
    simp only [hd',spec_bind,spec_pure]
    exact ih d' r.2.2

theorem writeAll_nonempty (hndl : FHandle) (hd : d.dsize = hndl.data.didx) :
    Spec (writeAll (some d) hndl bufs) (fun _ => [] ∉ bufs) (fun _ => True) := by
  induction bufs generalizing d hndl with
  | nil => exact List.not_mem_nil
  | cons buf bufs ih =>
    rw [writeAll,spec_bind]
    refine spec_returned ((fsIfregWrite_dsize hndl hd).imp fun r hr n hn => ?_)
    obtain ⟨hne,d',hd',hdsize⟩ := hr n hn
    simp only [hd',spec_bind,spec_pure]
    refine (ih r.2.2 hdsize).imp fun _ hrest h => ?_
    obtain hhead | htail := List.mem_cons.mp h
    · exact hne hhead.symm
    · exact hrest htail

/-- Zeros copied to zeros. -/
theorem byteAt_store_zeros {c off k : ℕ} (hd : d.byteAt = fun _ => 0)
    (hoff : off+k ≤ dataInSectorSize) :
    (d.store c off (List.replicate k 0)).byteAt = fun _ => 0 := by
  by_cases hc : c < d.sectors.length
  · rw [IfregData.byteAt_store hc (by simpa using hoff),hd]
    refine funext fun i => ?_
    rw [poke_apply,List.getElem?_replicate]
    split
    · split <;> rfl
    · rfl
  · rw [IfregData.store,List.modify_eq_self (Nat.not_lt.mp hc)]
    exact hd

/-- Sectors of zeros, and a buffer of zeros. -/
def Zeros (a : IfregData × List Byte) : Prop :=
  (a.1.byteAt = fun _ => 0) ∧ ∃ j, a.2 = List.replicate j 0

/-- A write of zeros to a file of zeros. -/
theorem fsIfregWrite_zeros {k : ℕ} (hndl : FHandle) (hd : d.byteAt = fun _ => 0)
    (hs : hndl.data.sidx ≤ dataInSectorSize) :
    Spec (fsIfregWrite (some d) hndl (List.replicate k 0)) (fun r => ∀ n, r.1 = .ok n →
      ∃ d', r.2.1 = some d' ∧ (d'.byteAt = fun _ => 0) ∧ r.2.2.data.sidx ≤ dataInSectorSize)
      (fun _ => True) := by
  refine (fsIfregWrite_does hndl).imp fun r hr n hn => ?_
  obtain ⟨-,d₁,d',hgrow,hd',-,hcopy⟩ := hr n hn
  have hd₁ : d₁.byteAt = fun _ => 0 := (IfregData.grow_byteAt hgrow).trans hd
  refine ⟨d',hd',?_⟩
  obtain ⟨hlen,hptr,hsidx,hbytes⟩ | ⟨m,hm,hdata,hbytes⟩ := hcopy
  · rw [List.length_replicate] at hlen hptr hsidx
    exact ⟨hbytes.trans (byteAt_store_zeros hd₁ hptr),by omega⟩
  · have hcopy : ∀ c s j (a : IfregData × List Byte), s+j ≤ dataInSectorSize → Zeros a →
        Zeros (a.1.store c s (a.2.take j),a.2.drop j) := by
      rintro c s j ⟨e,_⟩ hj ⟨he,i,rfl⟩
      refine ⟨?_,i-j,List.drop_replicate⟩
      rw [List.take_replicate]
      exact byteAt_store_zeros he (by omega)
    have hkeeps : Zeros m.copied ∧ m.hdata.sidx ≤ dataInSectorSize := by
      rw [hm]
      exact copySectors_keeps hcopy hs ⟨hd₁,k,rfl⟩
    rw [hdata,hbytes]
    exact ⟨hkeeps.1.1,hkeeps.2⟩

theorem writeAll_zeros (hndl : FHandle) (sizes : List ℕ) (hd : d.byteAt = fun _ => 0)
    (hs : hndl.data.sidx ≤ dataInSectorSize) :
    Spec (writeAll (some d) hndl (sizes.map fun k => List.replicate k 0))
      (fun r => ∀ d', r.2.1 = some d' → d'.byteAt = fun _ => 0) (fun _ => True) := by
  induction sizes generalizing d hndl with
  | nil =>
    intro d' hd'
    cases hd'
    exact hd
  | cons k sizes ih =>
    rw [List.map_cons,writeAll,spec_bind]
    refine spec_returned ((fsIfregWrite_zeros hndl hd hs).imp fun r hr n hn => ?_)
    obtain ⟨d',hd',hzero,hsidx⟩ := hr n hn
    simp only [hd',spec_bind,spec_pure]
    exact ih r.2.2 hzero hsidx

theorem peek_zeros {mem : ℕ → Byte} {i n : ℕ} (h : ∀ j < n, mem (i+j) = 0) :
    ∀ b ∈ peek mem i n, b = 0 := by
  intro b hb
  obtain ⟨j,hj,rfl⟩ := List.mem_map.mp hb
  exact h j (List.mem_range.mp hj)

theorem fsIfregRead_zeros {len : ℕ} (hndl : FHandle) (hd : d.byteAt = fun _ => 0)
    (hs : hndl.data.sidx ≤ dataInSectorSize) :
    Spec (fsIfregRead (some d) hndl len) (fun r => ∀ out, r.1 = .ok out → (∀ b ∈ out, b = 0) ∧
      r.2.data.sidx ≤ dataInSectorSize) (fun _ => True) := by
  have hload : ∀ c s k, s+k ≤ dataInSectorSize → ∀ b ∈ d.load c s k, b = 0 := by
    intro c s k hk
    rw [IfregData.load_eq hk,hd]
    exact peek_zeros fun _ _ => rfl
  simp only [fsIfregRead,spec_bind,spec_ite,spec_pure]
  refine spec_of_forall fun _ => ⟨fun _ out h => (by cases h),fun _ => ⟨fun _ out h => ?_,fun _ =>
    ⟨fun hlen out h => ?_,fun _ out h => ?_⟩⟩⟩
  · cases h
    exact ⟨fun b hb => absurd hb List.not_mem_nil,hs⟩
  · cases h
    exact ⟨hload _ _ _ (by omega),Nat.add_le_of_le_sub' hs hlen⟩
  · cases h
    refine copySectors_keeps (J := fun out => ∀ b ∈ out, b = 0) ?_ hs
      fun b hb => absurd hb List.not_mem_nil
    intro c s k out hk hout b hb
    obtain hb | hb := List.mem_append.mp hb
    · exact hout b hb
    · exact hload c s k hk b hb

theorem readAll_zeros (hndl : FHandle) (lens : List ℕ) (hd : d.byteAt = fun _ => 0)
    (hs : hndl.data.sidx ≤ dataInSectorSize) :
    Spec (readAll (some d) hndl lens) (fun r => ∀ b ∈ r.1.flatten, b = 0) (fun _ => True) := by
  induction lens generalizing hndl with
  | nil => exact fun b hb => absurd hb List.not_mem_nil
  | cons len lens ih =>
    rw [readAll,spec_bind]
    refine spec_returned ((fsIfregRead_zeros hndl hd hs).imp fun r hr out hout => ?_)
    obtain ⟨hzero,hsidx⟩ := hr out hout
    simp only [spec_bind,spec_pure]
    refine (ih r.2 hsidx).imp fun x hx b hb => ?_
    rw [List.flatten_cons] at hb
    obtain hb | hb := List.mem_append.mp hb
    · exact hzero b hb
    · exact hx b hb

/-- Zeros but for a one at `x`. -/
def oneAt (n x : ℕ) : List Byte := (List.replicate n 0).set x 1

@[simp] theorem oneAt_length (n x : ℕ) : (oneAt n x).length = n := by simp [oneAt]

theorem oneAt_getElem? {n x i : ℕ} (hi : i < n) : (oneAt n x)[i]? = some (if x = i then 1 else 0) := by
  rw [oneAt,List.getElem?_set,List.length_replicate,List.getElem?_replicate,if_pos hi]
  split
  · next hx => rw [if_pos (hx ▸ hi)]
  · rfl

theorem flatten_zeros (ns : List ℕ) :
    (ns.map fun n => List.replicate n (0 : Byte)).flatten = List.replicate ns.sum 0 := by
  induction ns with
  | nil => rfl
  | cons n ns ih => rw [List.map_cons,List.flatten_cons,ih,List.sum_cons,List.replicate_add]

theorem poke_oneAt {n x base k : ℕ} (hx : base ≤ x) (hx' : x < base+k) :
    poke (poke (fun _ => 0) 0 (oneAt n x)) base (List.replicate k 0) = fun _ => 0 := by
  refine funext fun i => ?_
  have hbelow : i ≠ x → poke (fun _ => (0 : Byte)) 0 (oneAt n x) i = 0 := by
    intro hi
    rw [poke_apply,if_pos (Nat.zero_le i),Nat.sub_zero]
    by_cases hn : i < n
    · rw [oneAt_getElem? hn,if_neg (Ne.symm hi),Option.getD_some]
    · rw [List.getElem?_eq_none (by simpa using hn),Option.getD_none]
  rw [poke_apply,List.getElem?_replicate]
  split
  · split
    · rfl
    · exact hbelow (by omega)
  · exact hbelow (by omega)

theorem zeros_append_oneAt (n m x : ℕ) : List.replicate n 0 ++ oneAt m x = oneAt (n+m) (n+x) := by
  rw [oneAt,oneAt,List.replicate_add,List.set_append_right _ _ (by simp)]
  simp

/-- The next write comes over a byte of the one that went across the boundary. -/
theorem fsIfregWrite_over {r k : ℕ} (ho : WriteFlags o) (hd : AtEnd d (.across T T r))
    (hT : T ≤ dataInSectorSize) (hr : dataInSectorSize < T+r) (hk : 0 < k)
    (hbytes : d.byteAt = poke (fun _ => 0) 0
      (oneAt (T+r) (T+if k ≤ dataInSectorSize then 0 else r-1))) :
    Spec (fsIfregWrite (some d) ⟨o,.across T T r⟩ (List.replicate k 0)) (fun x => ∀ n, x.1 = .ok n →
      ∃ d', x.2.1 = some d' ∧ (d'.byteAt = fun _ => 0) ∧ x.2.2.data.sidx ≤ dataInSectorSize)
      (fun _ => True) := by
  have hplace := IfregHandle.across_eq T hr
  by_cases hlen : k ≤ dataInSectorSize
  · rw [if_pos hlen] at hbytes
    rw [fsIfregWrite_within ho hd (by simp; omega) (by rw [hplace]; simpa using hlen)]
    split
    · next hptr =>
      rw [hplace] at hptr
      refine fun n _ => ⟨_,rfl,?_,?_⟩
      · have hstore := IfregData.byteAt_store (d := d) (c := 0) (hd.last ▸ Nat.succ_pos _) hptr
        rw [Nat.mul_zero,Nat.zero_add,hbytes,
          poke_oneAt (Nat.le_add_right T 0) (Nat.add_lt_add_left hk T)] at hstore
        rw [hplace]
        exact hstore
      · rw [hplace]
        simpa using hlen
    · trivial
  · rw [if_neg hlen] at hbytes
    have hlong : ¬(List.replicate k (0 : Byte)).length ≤
        dataInSectorSize-(IfregHandle.across T T r).sidx := by
      rw [hplace]
      simpa using hlen
    obtain ⟨d',hwrite,hd',hbytes'⟩ := fsIfregWrite_across ho hd hlong
    rw [hwrite]
    refine fun n _ => ⟨d',rfl,?_,hd'.sidx⟩
    rw [hbytes',hbytes,hplace]
    refine poke_oneAt ?_ ?_
    · rw [dataInSectorSize_eq] at *
      simp only
      omega
    · rw [dataInSectorSize_eq] at *
      simp only
      omega

/-- The data of a file that `fs_ifreg_open` creates. -/
def newFile : IfregData := ⟨dataInSectorSize,0,[fun _ => 0]⟩

theorem atEnd_newFile : AtEnd newFile (.within 0 0) where
  sized := rfl
  last := rfl
  sidx := Nat.zero_le _
  didx := rfl
  dsize := rfl

theorem byteAt_newFile : newFile.byteAt = fun _ => 0 := by
  refine funext fun i => ?_
  rw [IfregData.byteAt,IfregData.sector,newFile]
  cases i/dataInSectorSize <;> rfl

theorem fsIfregOpen_none (hw : WriteFlags wflag) :
    fsIfregOpen none wflag 0 = .ok (.ok ⟨wflag,.within 0 0⟩,some newFile) := by
  simp only [fsIfregOpen,hw.creat]
  rfl

theorem fsIfregOpen_some (hr : ReadFlags rflag) :
    fsIfregOpen (some d) rflag 0 = .ok (.ok ⟨rflag,.within 0 0⟩,some d) := by
  have hflags : ¬((rflag.creat && !rflag.append) = true) := by
    cases hc : rflag.creat with
    | false => simp
    | true => simp [hr.creat hc]
  simp only [fsIfregOpen]
  cases hc : rflag.creat with
  | false => rfl
  | true =>
    rw [hc] at hflags
    simp only [if_neg hflags]
    rfl

/-- What a caller finds, call after call. -/
theorem readsBack_iff (hw : WriteFlags wflag) (hr : ReadFlags rflag) :
    ReadsBack wflag rflag bufs lens ↔ ∃ d hndl outs hndl',
      writeAll (some newFile) ⟨wflag,.within 0 0⟩ bufs = .ok (bufs.map List.length,some d,hndl) ∧
      readAll (some d) ⟨rflag,.within 0 0⟩ lens = .ok (outs,hndl') ∧
      outs.flatten = bufs.flatten := by
  rw [ReadsBack,appendThenRead,fsIfregOpen_none hw]
  simp only [returned,spec_bind,spec_ok,spec_pure]
  constructor
  · intro h
    obtain ⟨⟨rets,idata,hndl⟩,hwrite,h⟩ := spec_total_iff.mp h
    obtain ⟨d,rfl⟩ := (writeAll_some newFile ⟨wflag,.within 0 0⟩ bufs).of_ok hwrite
    simp only [fsIfregOpen_some hr,spec_ok] at h
    obtain ⟨⟨outs,hndl'⟩,hread,hrets,houts⟩ := spec_total_iff.mp h
    exact ⟨d,hndl,outs,hndl',hrets ▸ hwrite,hread,houts⟩
  · rintro ⟨d,hndl,outs,hndl',hwrite,hread,houts⟩
    rw [hwrite,spec_ok,fsIfregOpen_some hr]
    simp only [spec_ok,hread]
    exact ⟨trivial,houts⟩

/-- Which bytes do not come back where a write goes across the boundary and another one follows. -/
theorem not_readsBack_of_writes {r k : ℕ} {pre : List ℕ} (post : List ℕ) (hw : WriteFlags wflag)
    (hr : ReadFlags rflag)
    (hpre : pre.sum ≤ dataInSectorSize)
    (hlong : dataInSectorSize < pre.sum+r) (hzero : 0 ∉ pre) (hk : 0 < k) :
    ¬ReadsBack wflag rflag (pre.map (fun n => List.replicate n 0) ++
      oneAt r (if k ≤ dataInSectorSize then 0 else r-1) ::
        (k :: post).map fun n => List.replicate n 0) lens := by
  intro h
  obtain ⟨d,hndl,outs,hndl',hwrite,hread,houts⟩ := (readsBack_iff hw hr).mp h
  have hx : (if k ≤ dataInSectorSize then 0 else r-1) < r := by
    split <;> omega
  generalize hone : (if k ≤ dataInSectorSize then 0 else r-1) = x at *
  have hflat := flatten_zeros pre
  have hpre' : (pre.map fun n => List.replicate n (0 : Byte)).flatten.length = pre.sum := by
    rw [hflat,List.length_replicate]
  have hnil : [] ∉ pre.map fun n => List.replicate n (0 : Byte) := by
    rintro hmem
    obtain ⟨n,hn,hempty⟩ := List.mem_map.mp hmem
    rw [List.replicate_eq_nil_iff] at hempty
    exact hzero (hempty ▸ hn)
  have hacross : dataInSectorSize <
      (pre.map fun n => List.replicate n (0 : Byte)).flatten.length+(oneAt r x).length := by
    rw [hpre',oneAt_length]
    exact hlong
  obtain ⟨d₁,hrun,hd₁,hbytes₁⟩ := writeAll_across ((k :: post).map fun n => List.replicate n 0) hw
    atEnd_newFile hnil (by rw [hpre']; exact hpre) hacross
  rw [hpre',oneAt_length] at hrun hd₁
  rw [byteAt_newFile,hflat,zeros_append_oneAt,← hone] at hbytes₁
  have hover := fsIfregWrite_over hw hd₁ hpre hlong hk hbytes₁
  have hrest : Spec (writeAll (some d₁) ⟨wflag,.across pre.sum pre.sum r⟩
      ((k :: post).map fun n => List.replicate n 0))
      (fun r => ∀ d', r.2.1 = some d' → d'.byteAt = fun _ => 0) (fun _ => True) := by
    rw [List.map_cons,writeAll,spec_bind]
    refine spec_returned (hover.imp fun w hw n hn => ?_)
    obtain ⟨d',hd',hzero,hsidx⟩ := hw n hn
    simp only [hd',spec_bind,spec_pure]
    exact writeAll_zeros w.2.2 post hzero hsidx
  have hd : d.byteAt = fun _ => 0 := by
    have hall : Spec (writeAll (some newFile) ⟨wflag,.within 0 0⟩
        ((pre.map fun n => List.replicate n 0) ++ oneAt r x ::
          (k :: post).map fun n => List.replicate n 0))
        (fun r => ∀ d', r.2.1 = some d' → d'.byteAt = fun _ => 0) (fun _ => True) := by
      rw [hrun]
      simp only [spec_bind,spec_pure]
      exact hrest
    exact hall.of_ok hwrite d rfl
  have hzeros := (readAll_zeros ⟨rflag,.within 0 0⟩ lens hd (Nat.zero_le _)).of_ok hread
  rw [houts] at hzeros
  have hmem : (1 : Byte) ∈ oneAt r x := List.mem_of_getElem? (by rw [oneAt_getElem? hx,if_pos rfl])
  have hin := List.mem_flatten_of_mem (List.mem_append_right (pre.map fun n => List.replicate n 0)
    (List.mem_cons_self (l := (k :: post).map fun n => List.replicate n 0))) hmem
  exact absurd (hzeros 1 hin) (by decide)

/-- A file comes back, whatever is written, just when no write is empty and only the last write and
the last read leave the first sector. -/
theorem readsBack_always_iff (hw : WriteFlags wflag) (hr : ReadFlags rflag) (sizes lens : List ℕ)
    (hsum : lens.sum = sizes.sum) :
    (∀ bufs, bufs.map List.length = sizes → ReadsBack wflag rflag bufs lens) ↔
      0 ∉ sizes ∧ FirstSector sizes ∧ FirstSector lens := by
  constructor
  · intro h
    have hsizes : 0 ∉ sizes := by
      intro hmem
      obtain ⟨d,hndl,outs,hndl',hwrite,-,-⟩ := (readsBack_iff hw hr).mp
        (h (sizes.map fun n => List.replicate n 0) (by simp [Function.comp_def]))
      have hnil := (writeAll_nonempty ⟨wflag,.within 0 0⟩ atEnd_newFile.dsize).of_ok hwrite
      exact hnil (List.mem_map.mpr ⟨0,hmem,rfl⟩)
    have hwrites : FirstSector sizes := by
      obtain hle | ⟨pre,r,post,rfl,hpre,hlong⟩ :=
        exists_crossing sizes (Nat.zero_le dataInSectorSize)
      · exact firstSector_of_sum_le (by simpa using hle)
      rw [Nat.zero_add] at hpre hlong
      refine (firstSector_iff rfl hpre hlong).mpr ?_
      cases post with
      | nil => rfl
      | cons k post =>
        have hk : 0 < k := Nat.pos_of_ne_zero fun hk => hsizes (by simp [hk])
        refine absurd (h _ ?_) (not_readsBack_of_writes post hw hr hpre hlong
          (fun hmem => hsizes (List.mem_append_left _ hmem)) hk)
        simp [Function.comp_def]
    refine ⟨hsizes,hwrites,?_⟩
    obtain hle | ⟨pre,r,post,rfl,hpre,hlong⟩ := exists_crossing lens (Nat.zero_le dataInSectorSize)
    · exact firstSector_of_sum_le (by simpa using hle)
    rw [Nat.zero_add] at hpre hlong
    refine (firstSector_iff rfl hpre hlong).mpr ?_
    by_contra hpost
    -- the byte that the next read should begin with is unlike the one it does begin with
    have hlen := oneAt_length sizes.sum (pre.sum+r)
    have hbufs := List.map_splitLengths_length _ sizes (Nat.le_of_eq hlen.symm)
    have hflat := List.flatten_splitLengths _ sizes (Nat.le_of_eq hlen)
    have hnil : [] ∉ sizes.splitLengths (oneAt sizes.sum (pre.sum+r)) := fun hmem =>
      hsizes (hbufs ▸ List.mem_map.mpr ⟨[],hmem,rfl⟩)
    obtain ⟨d,hndl,outs,hndl',hwrite,hread,houts⟩ := (readsBack_iff hw hr).mp (h _ hbufs)
    obtain ⟨d',hndl'',hwrite',hd'⟩ := writeAll_holds hw atEnd_newFile byteAt_newFile hnil
      (hbufs.symm ▸ hwrites)
    rw [hwrite'] at hwrite
    cases hwrite
    rw [hflat] at hd' houts
    have htotal := hsum
    rw [List.sum_append,List.sum_cons] at htotal
    have hstart : dataInSectorSize*((pre.sum+r-1)/dataInSectorSize) < pre.sum+r := by
      rw [dataInSectorSize_eq]
      omega
    refine (readAll_not_holds hr hd' (hsum.trans hlen.symm) hpre hlong (Nat.pos_of_ne_zero hpost)
      ?_).of_ok hread houts
    rw [oneAt_getElem? (by omega),oneAt_getElem? (by omega),if_pos rfl,if_neg (by omega)]
    decide
  · rintro ⟨hsizes,hwrites,hreads⟩ bufs rfl
    have hnil : [] ∉ bufs := fun hmem => hsizes (List.mem_map.mpr ⟨[],hmem,rfl⟩)
    obtain ⟨d,hndl,hwrite,hd⟩ := writeAll_holds hw atEnd_newFile byteAt_newFile hnil hwrites
    obtain ⟨outs,hndl',hread,houts⟩ := readAll_holds hr hd (hsum.trans List.length_flatten.symm)
      hreads
    exact (readsBack_iff hw hr).mpr ⟨d,hndl,outs,hndl',hwrite,hread,houts⟩

end

/-- Flags of a handle that appends, and of one that reads. -/
def appendFlags : OFlag := ⟨true,false,true,true,false,false⟩

def rdonlyFlags : OFlag := ⟨false,false,false,false,false,false⟩

theorem writeFlags_append : WriteFlags appendFlags := ⟨rfl,by decide,rfl,rfl,rfl⟩

theorem readFlags_rdonly : ReadFlags rdonlyFlags := ⟨rfl,rfl,fun h => absurd h Bool.false_ne_true⟩

/-- A file written in two pieces within its first sector, then in one that goes beyond it, and read
in pieces that come to the boundary. -/
theorem readsBack_always_iff_pieces : ReadsBack appendFlags rdonlyFlags
    [[1,2,3],List.replicate 20 4,List.replicate 50 5] [30,0,10,33] :=
  (readsBack_always_iff writeFlags_append readFlags_rdonly [3,20,50] [30,0,10,33] rfl).mpr
    ⟨by decide,by decide,by decide⟩ _ rfl

/-- A byte that is written behind a write across the boundary goes to the start of the file. -/
theorem not_readsBack : ¬∀ wflag rflag bufs lens, WriteFlags wflag → ReadFlags rflag →
    lens.sum = (bufs.map List.length).sum → ReadsBack wflag rflag bufs lens := by
  intro h
  have hback := h appendFlags rdonlyFlags [List.replicate 41 1,[2]] [42] writeFlags_append
    readFlags_rdonly (by decide)
  exact absurd hback (by decide)

end Tinker

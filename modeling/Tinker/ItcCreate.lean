import Tinker.System

/-! `sm_create`, `q_create` and `q_vcreate` allocation by allocation. A creation that gets its
`itc_t` but not its `blocked_procs` leaves the half-built object in the table. -/
namespace Tinker

open Outcome

variable {cfg : Config} {numQ : ℕ}

/-- Which allocations of a creation are granted, and what the memory of a new `itc_t` holds. -/
structure Grants (cfg : Config) where
  itc : Bool
  blocked : Bool
  mesgs : Bool
  junk : ItcObj cfg

/-- The table with its memory: `half` marks the objects whose `blocked_procs` is NULL, and `blocks`
counts what is allocated for the objects, their rings and their queues. -/
structure ItcTable (cfg : Config) (numQ : ℕ) where
  store : ItcStore cfg numQ
  half : Fin numQ → Bool
  blocks : ℕ

/-- What `sm_create` writes into a new object. -/
def smFill (count : ℕ) (flags : IpcFlags) (o : ItcObj cfg) : ItcObj cfg :=
  { o with
    token := toInt32 count, flags := flags, sizeofQ := 0, bType := .sem
    blockedProcs := fun _ => none, inIdx := 0, outIdx := 0 }

/-- What `q_create` writes into the object `sm_create` has made; `calloc` clears the queue. -/
def qFill (count : ℕ) (o : ItcObj cfg) : ItcObj cfg :=
  { o with
    q := fun _ _ => 0, sizeofQ := count, bType := .sQueue, minIdx := 0, moutIdx := 0 }

/-- What `q_vcreate` writes into the object `sm_create` has made. -/
def qVfill (count mmlen : ℕ) (o : ItcObj cfg) : ItcObj cfg :=
  { o with
    qv := fun _ => ⟨none,0⟩, sizeofQ := count, maxSizeofM := mmlen, bType := .vQueue
    minIdx := 0, moutIdx := 0 }

/-- The next search starts at `i`. -/
def ItcStore.seekFrom (st : ItcStore cfg numQ) (i : Fin numQ) : ItcStore cfg numQ :=
  { st with idx := i }

namespace ItcTable

/-- The table as `tk_itc` clears it. -/
def clear (i : Fin numQ) : ItcTable cfg numQ := ⟨ItcStore.clear i,fun _ => false,0⟩

/-- `sm_create`; the last component is what it stores at `qid`. -/
def smCreate (tb : ItcTable cfg numQ) (g : Grants cfg) (count : ℕ) (flags : IpcFlags) :
    ItcTable cfg numQ × ItcErr × Option (Fin numQ) :=
  match tb.store.itcFindNextEmpySlot with
  | (st,.ok) =>
    if g.itc = false then ({ tb with store := st.setObj st.idx none },.noMem,none)
    else if g.blocked = false then
      (⟨st.setObj st.idx (some g.junk),Function.update tb.half st.idx true,tb.blocks+1⟩,.noMem,none)
    else
      (⟨st.setObj st.idx (some (smFill count flags g.junk)),Function.update tb.half st.idx false,
        tb.blocks+2⟩,.ok,some st.idx)
  | (st,e) => ({ tb with store := st },e,none)

/-- `sm_delete`. -/
def smDelete (tb : ItcTable cfg numQ) (qid : Fin numQ) : Except Fault (ItcTable cfg numQ) := do
  let st ← tb.store.smDelete qid
  return ⟨st,Function.update tb.half qid false,tb.blocks-(if tb.half qid then 1 else 2)⟩

/-- `q_create` and `q_vcreate`: a semaphore is made first and then filled up. -/
def createQueue (tb : ItcTable cfg numQ) (g : Grants cfg) (flags : IpcFlags)
    (fill : ItcObj cfg → ItcObj cfg) :
    Except Fault (ItcTable cfg numQ × ItcErr × Option (Fin numQ)) :=
  match tb.smCreate g 0 flags with
  | (tb,.ok,qid) =>
    if g.mesgs = false then do
      let tb ← match qid with
        | none => .error .badPointer
        | some i => tb.smDelete i
      return (tb,.noMem,qid)
    else do
      let o ← tb.store.deref tb.store.idx
      let st := tb.store.setObj tb.store.idx (some (fill o))
      return ({ tb with store := st, blocks := tb.blocks+1 },.ok,qid)
  | r => .ok r

def qCreate (tb : ItcTable cfg numQ) (g : Grants cfg) (count : ℕ) (flags : IpcFlags) :
    Except Fault (ItcTable cfg numQ × ItcErr × Option (Fin numQ)) :=
  tb.createQueue g flags (qFill count)

def qVcreate (tb : ItcTable cfg numQ) (g : Grants cfg) (count mmlen : ℕ) (flags : IpcFlags) :
    Except Fault (ItcTable cfg numQ × ItcErr × Option (Fin numQ)) :=
  tb.createQueue g flags (qVfill count mmlen)

/-- A creation, as it is asked for. -/
def create (tb : ItcTable cfg numQ) (g : Grants cfg) :
    ItcReq → Except Fault (ItcTable cfg numQ × ItcErr × Option (Fin numQ))
  | .sem count flags => .ok (tb.smCreate g count flags)
  | .sQueue count flags => tb.qCreate g count flags
  | .vQueue count mmlen flags => tb.qVcreate g count mmlen flags

/-- The tables that calls can lead to. A deletion frees the buffers of its queue as well, and what
goes on inside an object changes no slot. -/
inductive Reachable : ItcTable cfg numQ → Prop
  | clear (i : Fin numQ) : Reachable (clear i)
  | create {tb tb' : ItcTable cfg numQ} {g r e qid} : Reachable tb →
      tb.create g r = .ok (tb',e,qid) → Reachable tb'
  | delete {tb tb' : ItcTable cfg numQ} {qid heap n} : Reachable tb →
      smDelete { tb with store.heap := heap } qid = .ok tb' → Reachable { tb' with blocks := n }
  | destruct {tb : ItcTable cfg numQ} {st n} : Reachable tb →
      tb.store.tkItcDestruct = .ok st → Reachable { tb with store := st, blocks := n }
  | use {tb : ItcTable cfg numQ} {i o o' heap} : Reachable tb → tb.store.array i = some o →
      Reachable { tb with store := { tb.store.setObj i (some o') with heap := heap } }

/-- A slot that is empty is not marked. -/
def Sound (tb : ItcTable cfg numQ) : Prop :=
  ∀ i, tb.store.array i = none → tb.store.freed i = false ∧ tb.half i = false

/-- The next search starts at `i`. -/
def seekFrom (tb : ItcTable cfg numQ) (i : Fin numQ) : ItcTable cfg numQ :=
  { tb with store := tb.store.seekFrom i }

/-- Slot `i` is found and holds `o`. -/
def put (tb : ItcTable cfg numQ) (i : Fin numQ) (o : ItcObj cfg) (half : Bool) (blocks : ℕ) :
    ItcTable cfg numQ :=
  ⟨(tb.store.seekFrom i).setObj i (some o),Function.update tb.half i half,blocks⟩

/-- Nothing of the call is left but the place from where the next search starts, and that search
ends where it would have ended before: creations and the destruction do the same. -/
structure NotHappened (tb tb' : ItcTable cfg numQ) : Prop where
  same : tb' = tb.seekFrom tb'.store.idx
  create : ∀ g r, tb'.create g r = tb.create g r
  destruct : tb'.store.tkItcDestruct =
    tb.store.tkItcDestruct.map fun st => st.seekFrom tb'.store.idx

/-- A creation that fails has not happened; one that succeeds takes one empty slot. -/
structure Atomic (tb tb' : ItcTable cfg numQ) (e : ItcErr) (qid : Option (Fin numQ)) : Prop where
  failed : e ≠ .ok → NotHappened tb tb'
  granted : e = .ok → ∃ i, qid = some i ∧ tb.store.array i = none ∧
    (tb'.store.array i).isSome = true ∧ tb'.half i = false ∧
    ∀ j, j ≠ i → tb'.store.array j = tb.store.array j ∧ tb'.half j = tb.half j
  full : e = .objFull ↔ ∀ i, (tb.store.array i).isSome = true

/-- The second allocation fails after the first has been granted and its block entered. -/
def HalfWay (tb : ItcTable cfg numQ) (g : Grants cfg) : Prop :=
  (∃ i, tb.store.array i = none) ∧ g.itc = true ∧ g.blocked = false

end ItcTable

theorem seekEmpty_here {taken : Fin numQ → Bool} {fuel : ℕ} {i : Fin numQ} (hf : 0 < fuel)
    (h : taken i = false) : seekEmpty taken fuel i = (i,true) := by
  obtain ⟨fuel,rfl⟩ := Nat.exists_eq_succ_of_ne_zero (Nat.ne_of_gt hf)
  simp [seekEmpty,h]

/-- With no empty slot the search goes once round. -/
theorem seekEmpty_all {taken : Fin numQ → Bool} (h : ∀ i, taken i = true) (fuel : ℕ) (i : Fin numQ) :
    seekEmpty taken fuel i =
      (⟨(i.val+fuel) % numQ,Nat.mod_lt _ (Nat.zero_lt_of_lt i.isLt)⟩,false) := by
  induction fuel generalizing i with
  | zero => simp [seekEmpty,Nat.mod_eq_of_lt i.isLt]
  | succ fuel ih =>
    rw [seekEmpty,if_pos (h i),ih]
    simp [nextQ,Nat.add_assoc,Nat.add_comm 1]

namespace ItcStore

/-- The search ends at an empty slot, from which it would not move on, or where it began. -/
theorem find_cases (st : ItcStore cfg numQ) :
    (∃ i, st.array i = none ∧ st.itcFindNextEmpySlot = (st.seekFrom i,.ok) ∧
      (st.seekFrom i).itcFindNextEmpySlot = (st.seekFrom i,.ok)) ∨
    (∀ i, (st.array i).isSome = true) ∧ st.itcFindNextEmpySlot = (st,.objFull) := by
  have hpos : 0 < numQ := Nat.zero_lt_of_lt st.idx.isLt
  have hfree := @seekEmpty_free numQ (fun i => (st.array i).isSome) numQ st.idx
  cases hs : seekEmpty (fun i => (st.array i).isSome) numQ st.idx with
  | mk i found =>
    cases found with
    | true =>
      rw [hs] at hfree
      have hnone : (st.array i).isSome = false := hfree rfl
      refine Or.inl ⟨i,by simpa using hnone,by simp [itcFindNextEmpySlot,hs,seekFrom],?_⟩
      have hhere := @seekEmpty_here _ (fun i => (st.array i).isSome) _ _ hpos hnone
      simp [itcFindNextEmpySlot,seekFrom,hhere]
    | false =>
      have hall : ∀ j, (st.array j).isSome = true := by
        intro j
        by_contra hj
        have := (seekEmpty_snd (fun i => (st.array i).isSome) st.idx).mpr ⟨j,by simpa using hj⟩
        rw [hs] at this
        cases this
      refine Or.inr ⟨hall,?_⟩
      rw [itcFindNextEmpySlot,seekEmpty_all hall]
      simp [Nat.mod_eq_of_lt st.idx.isLt]

end ItcStore

namespace ItcTable

variable {tb tb' : ItcTable cfg numQ} {g : Grants cfg} {r : ItcReq} {i : Fin numQ}

/-- The object that is set up in the memory granted. -/
def newObj (junk : ItcObj cfg) : ItcReq → ItcObj cfg
  | .sem count flags => smFill count flags junk
  | .sQueue count flags => qFill count (smFill 0 flags junk)
  | .vQueue count mmlen flags => qVfill count mmlen (smFill 0 flags junk)

/-- The creation wants memory for a queue. -/
def wantsMesgs : ItcReq → Bool
  | .sem _ _ => false
  | .sQueue _ _ | .vQueue _ _ _ => true

/-- The creation gets all the memory it wants. -/
def granted (g : Grants cfg) (r : ItcReq) : Bool :=
  g.itc && g.blocked && (!wantsMesgs r || g.mesgs)

theorem create_full (hall : ∀ i, (tb.store.array i).isSome = true) :
    tb.create g r = .ok (tb,.objFull,none) := by
  obtain ⟨i,hi,-⟩ | ⟨-,hf⟩ := tb.store.find_cases
  · have := hall i
    rw [hi] at this
    cases this
  · cases r <;> simp [create,qCreate,qVcreate,createQueue,smCreate,hf]

/-- What a creation does that has found slot `i`. -/
theorem create_found (hs : tb.Sound) (hi : tb.store.array i = none)
    (hf : tb.store.itcFindNextEmpySlot = (tb.store.seekFrom i,.ok)) :
    (g.itc = false → tb.create g r = .ok (tb.seekFrom i,.noMem,none)) ∧
    (g.itc = true → g.blocked = false →
      tb.create g r = .ok (tb.put i g.junk true (tb.blocks+1),.noMem,none)) ∧
    (g.itc = true → g.blocked = true → wantsMesgs r = true → g.mesgs = false →
      tb.create g r = .ok (tb.seekFrom i,.noMem,some i)) ∧
    (g.itc = true → g.blocked = true → (wantsMesgs r = true → g.mesgs = true) →
      ∃ n, tb.create g r = .ok (tb.put i (newObj g.junk r) false n,.ok,some i)) := by
  obtain ⟨hfr,hh⟩ := hs i hi
  have harr : Function.update tb.store.array i none = tb.store.array :=
    Function.update_eq_self_iff.mpr hi.symm
  have hhalf : Function.update tb.half i false = tb.half :=
    Function.update_eq_self_iff.mpr hh.symm
  have hset : (tb.store.seekFrom i).setObj i none = tb.store.seekFrom i := by
    simp [ItcStore.setObj,ItcStore.seekFrom,harr]
  have hidx : (tb.store.seekFrom i).idx = i := rfl
  refine ⟨fun h1 => ?_,fun h1 h2 => ?_,fun h1 h2 h3 h4 => ?_,fun h1 h2 h3 => ?_⟩
  · cases r <;> simp [create,qCreate,qVcreate,createQueue,smCreate,hf,h1,hidx,hset,ItcTable.seekFrom]
  · cases r <;>
      simp [create,qCreate,qVcreate,createQueue,smCreate,hf,h1,h2,hidx,put]
  · cases r with
    | sem => cases h3
    | sQueue | vQueue =>
      simp [create,qCreate,qVcreate,createQueue,smCreate,hf,h1,h2,h4,smDelete,ItcStore.smDelete,
        ItcStore.deref,ItcStore.slot,ItcStore.setObj,hfr,hh,harr,hhalf,ItcTable.seekFrom,
        ItcStore.seekFrom,bind,Except.bind,pure,Except.pure]
  · cases r with
    | sem count flags =>
      refine ⟨tb.blocks+2,?_⟩
      simp [newObj,create,smCreate,hf,h1,h2,hidx,put]
    | sQueue count flags =>
      refine ⟨tb.blocks+2+1,?_⟩
      simp [newObj,create,qCreate,createQueue,smCreate,hf,h1,h2,h3 rfl,ItcStore.deref,ItcStore.slot,
        ItcStore.setObj,ItcStore.seekFrom,hfr,put,bind,Except.bind,pure,Except.pure]
    | vQueue count mmlen flags =>
      refine ⟨tb.blocks+2+1,?_⟩
      simp [newObj,create,qVcreate,createQueue,smCreate,hf,h1,h2,h3 rfl,ItcStore.deref,ItcStore.slot,
        ItcStore.setObj,ItcStore.seekFrom,hfr,put,bind,Except.bind,pure,Except.pure]

theorem Sound.put (hs : tb.Sound) (o : ItcObj cfg) (half : Bool) (n : ℕ) :
    (tb.put i o half n).Sound := by
  intro j hj
  have hji : j ≠ i := by
    rintro rfl
    simp [ItcTable.put,ItcStore.setObj] at hj
  simp only [ItcTable.put,ItcStore.setObj,ItcStore.seekFrom,Function.update_of_ne hji] at hj ⊢
  exact hs j hj

/-- What a creation does, slot by slot and allocation by allocation. -/
theorem Sound.create_cases (hs : tb.Sound) (g : Grants cfg) (r : ItcReq) :
    ((∀ i, (tb.store.array i).isSome = true) ∧ tb.create g r = .ok (tb,.objFull,none)) ∨
    ∃ i, tb.store.array i = none ∧ tb.store.itcFindNextEmpySlot = (tb.store.seekFrom i,.ok) ∧
      (tb.store.seekFrom i).itcFindNextEmpySlot = (tb.store.seekFrom i,.ok) ∧
      ((granted g r = false ∧ ¬(g.itc = true ∧ g.blocked = false) ∧
          ∃ qid, tb.create g r = .ok (tb.seekFrom i,.noMem,qid)) ∨
        (g.itc = true ∧ g.blocked = false ∧
          tb.create g r = .ok (tb.put i g.junk true (tb.blocks+1),.noMem,none)) ∨
        (granted g r = true ∧ ¬(g.itc = true ∧ g.blocked = false) ∧
          ∃ n, tb.create g r = .ok (tb.put i (newObj g.junk r) false n,.ok,some i))) := by
  obtain ⟨i,hi,hf,hf'⟩ | ⟨hall,-⟩ := tb.store.find_cases
  · refine Or.inr ⟨i,hi,hf,hf',?_⟩
    obtain ⟨h1,h2,h3,h4⟩ := create_found (g:=g) (r:=r) hs hi hf
    cases hitc : g.itc with
    | false => exact Or.inl ⟨by simp [granted,hitc],by simp,none,h1 hitc⟩
    | true =>
      cases hblk : g.blocked with
      | false => exact Or.inr (Or.inl ⟨rfl,rfl,h2 hitc hblk⟩)
      | true =>
        by_cases hm : wantsMesgs r = true ∧ g.mesgs = false
        · exact Or.inl ⟨by simp [granted,hm],by simp,some i,h3 hitc hblk hm.1 hm.2⟩
        · have hm' : wantsMesgs r = true → g.mesgs = true := fun hw => by
            simpa using fun hg => hm ⟨hw,hg⟩
          refine Or.inr (Or.inr ⟨?_,by simp,h4 hitc hblk hm'⟩)
          cases hw : wantsMesgs r with
          | false => simp [granted,hitc,hblk,hw]
          | true => simp [granted,hitc,hblk,hm' hw]
  · exact Or.inl ⟨hall,create_full hall⟩

theorem Sound.create (hs : tb.Sound) (g : Grants cfg) (r : ItcReq) :
    Spec (tb.create g r) (fun x => x.1.Sound) (fun _ => False) := by
  obtain ⟨-,he⟩ | ⟨i,-,-,-,⟨-,-,qid,he⟩ | ⟨-,-,he⟩ | ⟨-,-,n,he⟩⟩ := hs.create_cases g r <;> rw [he]
  · exact hs
  · exact hs
  · exact hs.put _ _ _
  · exact hs.put _ _ _

theorem Reachable.sound (h : Reachable tb) : tb.Sound := by
  induction h with
  | clear i => exact fun _ _ => ⟨rfl,rfl⟩
  | create _ he ih => exact (ih.create _ _).of_ok he
  | @delete tb tb' qid heap n _ he ih =>
    intro j hj
    have hs : Spec (smDelete { tb with store.heap := heap } qid) (fun tb' =>
        tb.store.freed qid = false ∧ tb'.store.freed = tb.store.freed ∧
        tb'.half = Function.update tb.half qid false ∧
        tb'.store.array = Function.update tb.store.array qid none) (fun _ => True) := by
      simp only [ItcTable.smDelete,ItcStore.smDelete,ItcStore.deref,ItcStore.slot,spec_bind,spec_ite,
        spec_error,spec_ok,implies_true,true_and]
      intro hfr
      cases tb.store.array qid with
      | none => trivial
      | some o => exact ⟨by simpa using hfr,rfl,rfl,rfl⟩
    obtain ⟨hfr,hf,hh,ha⟩ := hs.of_ok he
    simp only [hf,hh,ha] at hj ⊢
    by_cases hjq : j = qid
    · subst hjq
      exact ⟨hfr,Function.update_self _ _ _⟩
    · rw [Function.update_of_ne hjq] at hj ⊢
      exact ih j hj
  | @destruct tb st n _ he ih =>
    have hs : Spec tb.store.tkItcDestruct (fun st => st.array = tb.store.array ∧
        ∀ j, st.array j = none → st.freed j = false) (fun _ => True) := by
      refine spec_foldlM ⟨rfl,fun j hj => (ih j hj).1⟩ ?_
      rintro st i - ⟨ha,hf⟩
      simp only [ItcStore.destructOne,ItcStore.slot,spec_bind,spec_ite,spec_error,spec_ok,
        implies_true,true_and]
      intro _
      cases hi : st.array i with
      | none => exact ⟨ha,hf⟩
      | some o =>
        have hnew : ∀ j, st.array j = none → Function.update st.freed i true j = false := by
          intro j hj
          have hji : j ≠ i := by
            rintro rfl
            rw [hi] at hj
            cases hj
          rw [Function.update_of_ne hji]
          exact hf j hj
        simp only [spec_ite,spec_bind,spec_pure]
        exact ⟨fun _ => spec_of_forall fun _ => ⟨ha,hnew⟩,fun _ => ⟨ha,hnew⟩⟩
    intro j hj
    obtain ⟨ha,hf⟩ := hs.of_ok he
    exact ⟨hf j hj,(ih j (by rw [← ha]; exact hj)).2⟩
  | @use tb i o o' heap _ hi ih =>
    intro j hj
    have hji : j ≠ i := by
      rintro rfl
      simp [ItcStore.setObj] at hj
    exact ih j (by simpa [ItcStore.setObj,Function.update_of_ne hji] using hj)

theorem destructOne_seekFrom (st : ItcStore cfg numQ) (i j : Fin numQ) :
    (st.seekFrom i).destructOne j = (st.destructOne j).map (·.seekFrom i) := by
  cases hfr : st.freed j with
  | true => simp [ItcStore.destructOne,ItcStore.slot,ItcStore.seekFrom,hfr,bind,Except.bind,Except.map]
  | false =>
    cases ha : st.array j with
    | none =>
      simp [ItcStore.destructOne,ItcStore.slot,ItcStore.seekFrom,hfr,ha,bind,Except.bind,Except.map,
        pure,Except.pure]
    | some o =>
      simp only [ItcStore.destructOne,ItcStore.slot,ItcStore.seekFrom,hfr,ha,bind,Except.bind,pure,
        Except.pure,Bool.false_eq_true,if_false]
      split
      · cases ItcStore.freeSlots st.heap o <;> rfl
      · rfl

/-- `tk_itc_destruct` does not look at `__itc_idx`. -/
theorem tkItcDestruct_seekFrom (st : ItcStore cfg numQ) (i : Fin numQ) :
    (st.seekFrom i).tkItcDestruct = st.tkItcDestruct.map (·.seekFrom i) := by
  unfold ItcStore.tkItcDestruct
  generalize List.finRange numQ = js
  induction js generalizing st with
  | nil => rfl
  | cons j js ih =>
    rw [List.foldlM_cons,List.foldlM_cons,destructOne_seekFrom]
    cases st.destructOne j with
    | error e => rfl
    | ok st' => exact ih st'

theorem smCreate_seekFrom (hf : tb.store.itcFindNextEmpySlot = (tb.store.seekFrom i,.ok))
    (hf' : (tb.store.seekFrom i).itcFindNextEmpySlot = (tb.store.seekFrom i,.ok)) (g : Grants cfg)
    (count : ℕ) (flags : IpcFlags) :
    (tb.seekFrom i).smCreate g count flags = tb.smCreate g count flags := by
  simp [smCreate,seekFrom,hf,hf']

theorem notHappened_seekFrom (hf : tb.store.itcFindNextEmpySlot = (tb.store.seekFrom i,.ok))
    (hf' : (tb.store.seekFrom i).itcFindNextEmpySlot = (tb.store.seekFrom i,.ok)) :
    NotHappened tb (tb.seekFrom i) where
  same := rfl
  create := fun g r => by
    cases r <;> simp only [ItcTable.create,qCreate,qVcreate,createQueue,smCreate_seekFrom hf hf']
  destruct := tkItcDestruct_seekFrom _ _

theorem notHappened_self (tb : ItcTable cfg numQ) : NotHappened tb tb where
  same := rfl
  create := fun _ _ => rfl
  destruct := by
    cases h : tb.store.tkItcDestruct with
    | error e => rfl
    | ok st =>
      have hidx : Spec tb.store.tkItcDestruct (fun st => st.idx = tb.store.idx) (fun _ => True) := by
        refine spec_foldlM rfl ?_
        rintro st i - hi
        rw [← hi]
        simp only [ItcStore.destructOne,ItcStore.slot,spec_bind,spec_ite,spec_error,spec_ok,
          implies_true,true_and]
        intro _
        cases st.array i with
        | none => rfl
        | some o =>
          simp only [spec_ite,spec_bind,spec_pure]
          exact ⟨fun _ => spec_of_forall fun _ => trivial,fun _ => trivial⟩
      rw [← hidx.of_ok h]
      rfl

/-- A creation is atomic unless its second allocation fails after the first. -/
theorem create_atomic_iff (h : Reachable tb) (g : Grants cfg) (r : ItcReq) :
    Spec (tb.create g r) (fun x => Atomic tb x.1 x.2.1 x.2.2) (fun _ => False) ↔ ¬tb.HalfWay g := by
  obtain ⟨hall,he⟩ | ⟨i,hi,hf,hf',⟨-,hn,qid,he⟩ | ⟨h1,h2,he⟩ | ⟨-,hn,n,he⟩⟩ :=
    h.sound.create_cases g r
  · rw [he]
    refine iff_of_true ⟨fun _ => notHappened_self tb,fun hk => (by cases hk),fun _ => hall,
      fun _ => rfl⟩ ?_
    rintro ⟨⟨i,hi⟩,-⟩
    have := hall i
    rw [hi] at this
    cases this
  · rw [he]
    refine iff_of_true ⟨fun _ => notHappened_seekFrom hf hf',fun hk => (by cases hk),fun hk =>
      (by cases hk),fun hall => ?_⟩ fun hw => hn hw.2
    have := hall i
    rw [hi] at this
    cases this
  · rw [he]
    refine iff_of_false (fun ha => ?_) fun hw => hw ⟨⟨i,hi⟩,h1,h2⟩
    have hsame := congrArg (fun tb => tb.store.array i) (ha.failed (show ItcErr.noMem ≠ .ok by decide)).same
    simp [put,seekFrom,ItcStore.setObj,ItcStore.seekFrom,hi] at hsame
  · rw [he]
    refine iff_of_true ⟨fun hk => absurd rfl hk,fun _ => ⟨i,rfl,hi,?_,?_,fun j hj => ⟨?_,?_⟩⟩,
      fun hk => (by cases hk),fun hall => ?_⟩ fun hw => hn hw.2
    · simp [put,ItcStore.setObj]
    · exact Function.update_self _ _ _
    · exact Function.update_of_ne hj _ _
    · exact Function.update_of_ne hj _ _
    · have := hall i
      rw [hi] at this
      cases this

/-- Memory for the object of a creation; `mesgs` for its queue. -/
def grant (mesgs : Bool) : Grants gnuArm := ⟨true,true,mesgs,smObj 0 0⟩

/-- A table with a semaphore in it. -/
def oneSem : ItcTable gnuArm 4 := ((clear 0).smCreate (grant true) 1 0).1

theorem oneSem_reachable : Reachable oneSem :=
  .create (g:=grant true) (r:=.sem 1 0) (.clear 0) rfl

/-- There is no memory for the messages of a queue, and its semaphore is taken back. -/
theorem create_atomic_iff_calloc : ∃ tb', oneSem.create (grant false) (.sQueue 2 0) =
    .ok (tb',.noMem,some 1) ∧ (tb'.store.array 0).isSome = true ∧ tb'.store.array 1 = none ∧
    Atomic oneSem tb' .noMem (some 1) := by
  have hatomic := (create_atomic_iff oneSem_reachable (grant false) (.sQueue 2 0)).mpr
    fun hhalf => by cases hhalf.2.2
  obtain ⟨⟨tb',e,qid⟩,h,hr⟩ := exists_ok (x:=oneSem.create (grant false) (.sQueue 2 0))
    (p:=fun x => x.2.1 = .noMem ∧ x.2.2 = some 1 ∧ (x.1.store.array 0).isSome = true ∧
      (x.1.store.array 1).isNone = true) (by decide +kernel)
  obtain ⟨rfl,rfl,h0,h1⟩ := of_decide_eq_true hr
  exact ⟨tb',h,h0,Option.isNone_iff_eq_none.mp h1,hatomic.of_ok h⟩

/-- In memory that was all zero a creation makes the object that the runs of the kernel start with. -/
theorem newObj_smObj (r : ItcReq) : newObj (smObj 0 0 : ItcObj cfg) r = r.obj := by
  cases r <;> rfl

/-- To the table of the kernel's runs, a creation is one that gets its memory or does not, or the one
that stops half way. -/
theorem create_store (hs : tb.Sound) (g : Grants cfg) (r : ItcReq) (hj : g.junk = smObj 0 0) :
    Spec (tb.create g r) (fun x => (x.1.store,x.2.1) =
      if g.itc = true ∧ g.blocked = false then tb.store.halfWay g.junk
      else tb.store.create r.obj (granted g r)) (fun _ => False) := by
  obtain ⟨hall,he⟩ | ⟨i,hi,hf,-,⟨hg,hn,qid,he⟩ | ⟨h1,h2,he⟩ | ⟨hg,hn,n,he⟩⟩ := hs.create_cases g r
  · rw [he]
    obtain ⟨j,hj,-⟩ | ⟨-,hf⟩ := tb.store.find_cases
    · have := hall j
      rw [hj] at this
      cases this
    · simp [ItcStore.create,ItcStore.halfWay,hf]
  · have harr : Function.update tb.store.array i none = tb.store.array :=
      Function.update_eq_self_iff.mpr hi.symm
    rw [he,if_neg hn]
    simp [ItcStore.create,hf,hg,seekFrom,ItcStore.seekFrom,ItcStore.setObj,harr]
  · rw [he,if_pos ⟨h1,h2⟩]
    simp [ItcStore.halfWay,hf,put,ItcStore.seekFrom]
  · rw [he,hj,newObj_smObj,if_neg hn]
    simp [ItcStore.create,hf,hg,put,ItcStore.seekFrom]

/-- Memory for the `itc_t`, none for its `blocked_procs`. -/
def halfGrant : Grants gnuArm := ⟨true,false,true,smObj 0 0⟩

/-- The slot of the half-built semaphore stays taken. -/
theorem create_not_atomic : ¬∀ (tb : ItcTable gnuArm 4) (g : Grants gnuArm) (r : ItcReq),
    Reachable tb → Spec (tb.create g r) (fun x => Atomic tb x.1 x.2.1 x.2.2) (fun _ => False) := by
  intro h
  have ha : Atomic (clear 0) _ ItcErr.noMem none := h (clear 0) halfGrant (.sem 1 0) (.clear 0)
  have hsame := congrArg (fun tb => (tb.store.array 0).isSome) (ha.failed (by decide)).same
  exact absurd hsame (by decide)

end ItcTable

end Tinker

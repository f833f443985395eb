import Tinker.MqOpenRun

/-! Whose semaphores the message queues use, over all runs of `mq_open` among other components that
create, delete and use ITC objects of their own. -/
namespace Tinker

open Outcome

/-! ### Tables whose cells have owners -/

/-- Every cell in use has one owner, and an owner has cells of its kinds only. -/
structure OwnedTable {I O K : Type*} (kind : I → Option K) (owns : O → I → Prop)
    (fits : O → K → Prop) : Prop where
  owned : ∀ i k, kind i = some k → ∃ x, owns x i
  single : ∀ i x y, owns x i → owns y i → x = y
  live : ∀ i x, owns x i → ∃ k, kind i = some k ∧ fits x k

namespace OwnedTable

variable {I O K : Type*} {kind : I → Option K} {owns owns' : O → I → Prop}
  {fits : O → K → Prop} {i : I} {x : O} {k : K}

theorem congr (h : OwnedTable kind owns fits) (hown : ∀ x i, owns' x i ↔ owns x i) :
    OwnedTable kind owns' fits := by
  obtain rfl : owns' = owns := funext fun x => funext fun i => propext (hown x i)
  exact h

section

variable [DecidableEq I]

/-- An empty cell is given to an owner. -/
theorem take (h : OwnedTable kind owns fits) (hi : kind i = none) (hx : fits x k)
    (hown : ∀ y j, owns' y j ↔ owns y j ∨ y = x ∧ j = i) :
    OwnedTable (Function.update kind i (some k)) owns' fits := by
  have hne : ∀ y j, owns y j → j ≠ i := by
    rintro y j hy rfl
    obtain ⟨k,hk,-⟩ := h.live j y hy
    rw [hi] at hk
    cases hk
  refine ⟨fun j k' hj => ?_,fun j y z hy hz => ?_,fun j y hy => ?_⟩
  · obtain rfl | hji := eq_or_ne j i
    · exact ⟨x,(hown x j).mpr (Or.inr ⟨rfl,rfl⟩)⟩
    · rw [Function.update_of_ne hji] at hj
      obtain ⟨y,hy⟩ := h.owned j k' hj
      exact ⟨y,(hown y j).mpr (Or.inl hy)⟩
  · obtain hy | ⟨rfl,rfl⟩ := (hown y j).mp hy
    · obtain hz | ⟨rfl,rfl⟩ := (hown z j).mp hz
      · exact h.single j y z hy hz
      · exact absurd rfl (hne y j hy)
    · obtain hz | ⟨rfl,-⟩ := (hown z j).mp hz
      · exact absurd rfl (hne z j hz)
      · rfl
  · obtain hy | ⟨rfl,rfl⟩ := (hown y j).mp hy
    · rw [Function.update_of_ne (hne y j hy)]
      exact h.live j y hy
    · exact ⟨k,Function.update_self _ _ _,hx⟩

/-- A cell is given up. -/
theorem drop (h : OwnedTable kind owns fits) (hown : ∀ y j, owns' y j ↔ owns y j ∧ j ≠ i) :
    OwnedTable (Function.update kind i none) owns' fits := by
  refine ⟨fun j k' hj => ?_,fun j y z hy hz => ?_,fun j y hy => ?_⟩
  · obtain rfl | hji := eq_or_ne j i
    · rw [Function.update_self] at hj
      cases hj
    · rw [Function.update_of_ne hji] at hj
      obtain ⟨y,hy⟩ := h.owned j k' hj
      exact ⟨y,(hown y j).mpr ⟨hy,hji⟩⟩
  · exact h.single j y z ((hown y j).mp hy).1 ((hown z j).mp hz).1
  · obtain ⟨hy,hji⟩ := (hown y j).mp hy
    rw [Function.update_of_ne hji]
    exact h.live j y hy

end

end OwnedTable

/-! ### The runs -/

variable {cfg : Config} {numQ : ℕ}

/-- `others` are the ITC objects that belong to other components. -/
structure OpenState (cfg : Config) (numQ : ℕ) where
  pools : MqPools cfg numQ
  others : Fin numQ → Bool

/-- Other components create objects and delete their own; `work` is any call that uses an object,
`mq_send` and `mq_receive` included. -/
inductive OpenLabel (cfg : Config) (numQ : ℕ)
  | mqOpen (a : OpenArgs cfg)
  | create (o : ItcObj cfg) (granted : Bool) | smDelete (j : Fin numQ)
  | work (j : Fin numQ) (q : Itc cfg)

namespace OpenState

variable {s s' : OpenState cfg numQ}

def setStore (s : OpenState cfg numQ) (st : ItcStore cfg numQ) : OpenState cfg numQ :=
  { s with pools := { s.pools with store := st } }

def kind (s : OpenState cfg numQ) (j : Fin numQ) : Option ItcSet :=
  (s.pools.store.array j).map fun o => o.bType

end OpenState

def openEnabled (s : OpenState cfg numQ) : OpenLabel cfg numQ → Bool
  | .mqOpen _ => !s.pools.mqOnce || decide (0 < s.pools.access)
  | .create _ _ => true
  | .smDelete j => s.others j
  | .work j q => decide (s.kind j = some q.bType)

def openNext (s : OpenState cfg numQ) : OpenLabel cfg numQ → Except Fault (OpenState cfg numQ)
  | .mqOpen a => do
    let (pools,_) ← mqOpen s.pools a
    return { s with pools := pools }
  | .create o granted =>
    match s.pools.store.create o granted with
    | (st,.ok) => .ok { s.setStore st with others := Function.update s.others st.idx true }
    | (st,_) => .ok (s.setStore st)
  | .smDelete j => do
    let st ← s.pools.store.smDelete j
    return { s.setStore st with others := Function.update s.others j false }
  | .work j q => .ok (s.setStore (s.pools.store.putItc j q))

def openMachine (cfg : Config) (numQ : ℕ) :
    Machine (OpenState cfg numQ) (OpenLabel cfg numQ) Fault where
  enabled := openEnabled
  next := openNext

/-- All objects there are belong to others when `mq_open` is called for the first time, `sem_once`
too. -/
def openInit (st : ItcStore cfg numQ) (semOnce : ℕ) (t : Thid cfg) : OpenState cfg numQ :=
  ⟨mqStatic st semOnce t,fun j => (st.array j).isSome⟩

/-- The queue has a semaphore, which is that of no other queue, not the lock of the pools and no
object of another component. -/
structure OwnSem (s : OpenState cfg numQ) (q : QueueId) : Prop where
  live : ∃ j : Fin numQ, j.val = (s.pools.queuePool q).sem ∧ s.kind j = some .sem
  lock : (s.pools.queuePool q).sem ≠ s.pools.poolAccessSem
  others : ∀ j, s.others j = true → (s.pools.queuePool q).sem ≠ j.val
  apart : ∀ u, u ≠ q → s.pools.created u ≠ none →
    (s.pools.queuePool q).sem ≠ (s.pools.queuePool u).sem

/-! ### Owners -/

/-- Whom an ITC object belongs to. -/
inductive SlotOwner
  | others | lock | queue (q : QueueId)

namespace OpenState

variable {s s' : OpenState cfg numQ} {j : Fin numQ} {x y : SlotOwner}

def Owns (s : OpenState cfg numQ) : SlotOwner → Fin numQ → Prop
  | .others, j => s.others j = true
  | .lock, j => s.pools.mqOnce = true ∧ j.val = s.pools.poolAccessSem
  | .queue q, j => (∃ f, s.pools.created q = some f ∧ f &&& oNonblock = 0) ∧
      j.val = (s.pools.queuePool q).sem

end OpenState

/-- Others may own objects of all kinds, the rest semaphores. -/
def SlotOwner.Fits : SlotOwner → ItcSet → Prop
  | .others, _ => True
  | _, k => k = .sem

theorem fits_sem (x : SlotOwner) : x.Fits .sem := by
  cases x with
  | others => trivial
  | lock => exact rfl
  | queue q => exact rfl

/-- A queue without a semaphore has the number 0 of its static memory. -/
structure OpenInv (s : OpenState cfg numQ) : Prop where
  unset : s.pools.mqOnce = false → ∀ q, (s.pools.queuePool q).taken = false
  free : ∀ q, (s.pools.queuePool q).taken = false →
    (s.pools.queuePool q).sem = 0 ∧ s.pools.created q = none
  silent : ∀ q f, s.pools.created q = some f → f &&& oNonblock ≠ 0 →
    (s.pools.queuePool q).sem = 0
  table : OwnedTable s.kind s.Owns SlotOwner.Fits
  lock : s.pools.mqOnce = true → ∃ j, s.Owns .lock j
  queue : ∀ q f, s.pools.created q = some f → f &&& oNonblock = 0 → ∃ j, s.Owns (.queue q) j

section

variable {s s' : OpenState cfg numQ} {q : QueueId}

theorem OpenInv.once (h : OpenInv s) (hq : s.pools.created q ≠ none) :
    s.pools.mqOnce = true := by
  by_contra hn
  exact hq (h.free q (h.unset (Bool.eq_false_iff.mpr hn) q)).2

/-- With a semaphore for every queue, each has its own. -/
theorem OpenInv.ownSem (h : OpenInv s) (hq : s.pools.created q ≠ none)
    (hsem : ∀ u g, s.pools.created u = some g → g &&& oNonblock = 0) : OwnSem s q := by
  obtain ⟨f,hf⟩ := Option.ne_none_iff_exists'.mp hq
  obtain ⟨j,hj⟩ := h.queue q f hf (hsem q f hf)
  obtain ⟨k,hk,rfl⟩ := h.table.live j _ hj
  refine ⟨⟨j,hj.2,hk⟩,fun heq => ?_,fun i hi heq => ?_,fun u hu hc heq => ?_⟩
  · cases h.table.single j _ _ hj (show s.Owns .lock j from ⟨h.once hq,hj.2.trans heq⟩)
  · cases h.table.single j _ _ hj
      (show s.Owns .others j by rw [Fin.ext (hj.2.trans heq)]; exact hi)
  · obtain ⟨g,hg⟩ := Option.ne_none_iff_exists'.mp hc
    have hown : s.Owns (.queue u) j := ⟨⟨g,hg,hsem u g hg⟩,hj.2.trans heq⟩
    exact hu (SlotOwner.queue.inj (h.table.single j _ _ hown hj))

/-- A queue without a semaphore uses that of whoever has the object 0, if anybody has it. -/
theorem OpenInv.not_ownSem (h : OpenInv s) {f : OFlags} (hq : s.pools.created q = some f)
    (hf : f &&& oNonblock ≠ 0) : ¬OwnSem s q := by
  intro hown
  obtain ⟨j,hj,hk⟩ := hown.live
  obtain ⟨x,hx⟩ := h.table.owned j _ hk
  cases x with
  | others => exact hown.others j hx hj.symm
  | lock => exact hown.lock (hj.symm.trans hx.2)
  | queue u =>
    obtain ⟨⟨g,hg,hg0⟩,hu⟩ := hx
    refine hown.apart u ?_ (by rw [hg]; rintro ⟨⟩) (hj.symm.trans hu)
    rintro rfl
    rw [hq] at hg
    exact hf (Option.some.inj hg ▸ hg0)

/-! ### Steps -/

theorem owns_of_keeps (hk : s.pools.Keeps s'.pools) (ho : s'.others = s.others) (x : SlotOwner)
    (j : Fin numQ) : s'.Owns x j ↔ s.Owns x j := by
  cases x with
  | others => rw [OpenState.Owns,OpenState.Owns,ho]
  | lock => rw [OpenState.Owns,OpenState.Owns,hk.once,hk.lock]
  | queue q => rw [OpenState.Owns,OpenState.Owns,hk.created,hk.sem]

theorem OpenInv.keeps (h : OpenInv s) (hk : s.pools.Keeps s'.pools) (ho : s'.others = s.others)
    (hunset : s.pools.mqOnce = true) : OpenInv s' := by
  have hown := owns_of_keeps hk ho
  have hkind : s'.kind = s.kind := by
    unfold OpenState.kind
    rw [hk.store]
  refine ⟨fun hn => ?_,fun q hq => ?_,fun q f hq hf => ?_,?_,fun _ => ?_,fun q f hq hf => ?_⟩
  · rw [hk.once,hunset] at hn
    cases hn
  · rw [hk.sem,hk.created]
    refine h.free q (Bool.eq_false_iff.mpr fun ht => ?_)
    rw [hk.taken q ht] at hq
    cases hq
  · rw [hk.created] at hq
    rw [hk.sem]
    exact h.silent q f hq hf
  · rw [hkind]
    exact h.table.congr hown
  · obtain ⟨j,hj⟩ := h.lock hunset
    exact ⟨j,(hown _ j).mpr hj⟩
  · rw [hk.created] at hq
    obtain ⟨j,hj⟩ := h.queue q f hq hf
    exact ⟨j,(hown _ j).mpr hj⟩

theorem kind_update {j : Fin numQ} {o : Option (ItcObj cfg)}
    (hst : s'.pools.store.array = Function.update s.pools.store.array j o) :
    s'.kind = Function.update s.kind j (o.map fun o => o.bType) := by
  funext u
  rw [OpenState.kind,hst]
  by_cases hu : u = j
  · rw [hu,Function.update_self,Function.update_self]
  · rw [Function.update_of_ne hu,Function.update_of_ne hu]
    rfl

/-- A slot without a queue becomes a queue. -/
theorem OpenInv.made (h : OpenInv s) {m : MqPools cfg numQ} {f : OFlags}
    (ho : s.pools.mqOnce = true) (hq : (s.pools.queuePool q).taken = false)
    (ht : (m.queuePool q).taken = true) (hm : s.pools.Made m q f) :
    OpenInv { s with pools := m } := by
  obtain ⟨hzero,hnone⟩ := h.free q hq
  have hcreated : ∀ u, u ≠ q → m.created u = s.pools.created u := fun u hu => by
    rw [hm.created,Function.update_of_ne hu]
  have hself : m.created q = some f := by rw [hm.created,Function.update_self]
  have hnot : ∀ j, ¬s.Owns (.queue q) j := by
    rintro j ⟨⟨g,hg,-⟩,-⟩
    rw [hnone] at hg
    cases hg
  -- whoever owned an object owns it still
  have hold : ∀ x j, x ≠ .queue q → (({ s with pools := m } : OpenState cfg numQ).Owns x j ↔
      s.Owns x j) := by
    intro x j hx
    cases x with
    | others => exact Iff.rfl
    | lock => simp only [OpenState.Owns,hm.once,hm.lock]
    | queue u =>
      have hu : u ≠ q := fun hu => hx (by rw [hu])
      simp only [OpenState.Owns,hcreated u hu,hm.others u hu]
  have hfree : ∀ u, (m.queuePool u).taken = false →
      (m.queuePool u).sem = 0 ∧ m.created u = none := by
    intro u hu
    have hne : u ≠ q := by
      rintro rfl
      rw [ht] at hu
      cases hu
    rw [hm.others u hne,hcreated u hne]
    refine h.free u (Bool.eq_false_iff.mpr fun htu => ?_)
    rw [hm.taken u htu] at hu
    cases hu
  have hlock : ∃ j, ({ s with pools := m } : OpenState cfg numQ).Owns .lock j := by
    obtain ⟨j,hj⟩ := h.lock ho
    exact ⟨j,(hold .lock j (by rintro ⟨⟩)).mpr hj⟩
  have hunset : m.mqOnce = false → ∀ u, (m.queuePool u).taken = false := fun hn => by
    rw [hm.once,ho] at hn
    cases hn
  obtain ⟨hf,hst,hsem⟩ | ⟨hf,i,hi,hst,hsem⟩ := hm.sem
  · refine ⟨hunset,hfree,fun u g hg hgn => ?_,?_,fun _ => hlock,fun u g hg hg0 => ?_⟩
    · obtain rfl | hu := eq_or_ne u q
      · exact hsem.trans hzero
      · rw [hcreated u hu] at hg
        exact (hm.others u hu).trans (h.silent u g hg hgn)
    · have hkind : ({ s with pools := m } : OpenState cfg numQ).kind = s.kind := by
        unfold OpenState.kind
        rw [hst]
      rw [hkind]
      refine h.table.congr fun x j => ?_
      by_cases hx : x = .queue q
      · subst hx
        refine iff_of_false ?_ (hnot j)
        rintro ⟨⟨g,hg,hg0⟩,-⟩
        rw [hself] at hg
        exact hf (Option.some.inj hg ▸ hg0)
      · exact hold x j hx
    · have hu : u ≠ q := by
        rintro rfl
        rw [hself] at hg
        exact hf (Option.some.inj hg ▸ hg0)
      rw [hcreated u hu] at hg
      obtain ⟨j,hj⟩ := h.queue u g hg hg0
      exact ⟨j,(hold _ j fun he => hu (SlotOwner.queue.inj he)).mpr hj⟩
  · have hown : ({ s with pools := m } : OpenState cfg numQ).Owns (.queue q) i :=
      ⟨⟨f,hself,hf⟩,hsem.symm⟩
    refine ⟨hunset,hfree,fun u g hg hgn => ?_,?_,fun _ => hlock,fun u g hg hg0 => ?_⟩
    · have hu : u ≠ q := by
        rintro rfl
        rw [hself] at hg
        exact hgn (Option.some.inj hg ▸ hf)
      rw [hcreated u hu] at hg
      exact (hm.others u hu).trans (h.silent u g hg hgn)
    · rw [kind_update (s:=s) (j:=i) (o:=some (smObj 0 0))
        (congrArg ItcStore.array hst)]
      refine h.table.take (x:=.queue q) (k:=.sem) (by rw [OpenState.kind,hi]; rfl) (fits_sem _)
        fun x j => ?_
      by_cases hx : x = .queue q
      · subst hx
        refine ⟨fun hj => Or.inr ⟨rfl,Fin.ext (hj.2.trans hsem)⟩,?_⟩
        rintro (hj | ⟨-,rfl⟩)
        · exact absurd hj (hnot j)
        · exact hown
      · rw [hold x j hx]
        exact (or_iff_left fun hj => hx hj.1).symm
    · obtain rfl | hu := eq_or_ne u q
      · exact ⟨i,hown⟩
      · rw [hcreated u hu] at hg
        obtain ⟨j,hj⟩ := h.queue u g hg hg0
        exact ⟨j,(hold _ j fun he => hu (SlotOwner.queue.inj he)).mpr hj⟩

/-- The first call makes the lock. -/
theorem OpenInv.initPools (h : OpenInv s) (ho : s.pools.mqOnce = false) (granted : Bool) :
    Spec (s.pools.initPools granted)
      (fun m => m.mqOnce = true ∧ OpenInv { s with pools := m }) (fun _ => True) := by
  have hnone : ∀ q, s.pools.created q = none := fun q => (h.free q (h.unset ho q)).2
  unfold MqPools.initPools
  obtain ⟨i,hi,hc⟩ | ⟨i,e,he,hc⟩ := s.pools.store.create_spec (smObj 1 0) granted
  · rw [hc]
    simp only [spec_bind,spec_check,spec_pure]
    refine ⟨fun _ => ⟨trivial,?_⟩,fun hn => trivial⟩
    refine ⟨fun _ _ => rfl,fun q _ => h.free q (h.unset ho q),fun q f hq => ?_,?_,
      fun _ => ⟨i,rfl,rfl⟩,fun q f hq => ?_⟩
    · cases (hnone q).symm.trans hq
    · rw [kind_update (s:=s) (j:=i) (o:=some (smObj 1 0)) rfl]
      refine h.table.take (x:=.lock) (k:=.sem) (by rw [OpenState.kind,hi]; rfl) (fits_sem _)
        fun x j => ?_
      cases x with
      | others => exact (or_iff_left fun h => by cases h.1).symm
      | lock =>
        refine ⟨fun hj => Or.inr ⟨rfl,Fin.ext hj.2⟩,?_⟩
        rintro (hj | ⟨-,rfl⟩)
        · cases ho.symm.trans hj.1
        · exact ⟨rfl,rfl⟩
      | queue q =>
        refine ⟨?_,?_⟩
        · rintro ⟨⟨f,hf,-⟩,-⟩
          cases (hnone q).symm.trans hf
        · rintro (⟨⟨f,hf,-⟩,-⟩ | ⟨⟨⟩,-⟩)
          cases (hnone q).symm.trans hf
    · cases (hnone q).symm.trans hq
  · rw [hc]
    simp only [spec_bind,spec_check]
    exact ⟨fun h => absurd h he,fun _ => trivial⟩

theorem OpenInv.mqOpen (h : OpenInv s) (a : OpenArgs cfg) :
    Spec (mqOpen s.pools a) (fun r => OpenInv { s with pools := r.1 }) (fun _ => True) := by
  have honce : Spec (s.pools.pthreadOnce a.onceGranted)
      (fun m => m.mqOnce = true ∧ OpenInv { s with pools := m }) (fun _ => True) := by
    unfold MqPools.pthreadOnce
    rw [spec_bind]
    apply spec_of_forall
    intro _
    split
    · next ho => exact ⟨ho,h⟩
    · next ho =>
      simp only [spec_bind,spec_pure]
      apply (h.initPools (Bool.eq_false_iff.mpr ho) a.onceGranted).imp
      intro m hm
      exact spec_of_forall fun _ => hm
  rw [Tinker.mqOpen,spec_bind]
  refine honce.imp ?_
  rintro m ⟨hm,hi⟩
  have hw : OpenInv { s with pools := m.semWait } :=
    hi.keeps ⟨rfl,rfl,rfl,rfl,fun _ => rfl,fun _ h => h⟩ rfl hm
  refine MqPools.openLocked_cases.imp fun r hr => ?_
  obtain hk | ⟨q,hq,ht,hmade⟩ := hr
  · exact hw.keeps hk rfl hm
  · exact hw.made hm hq ht hmade

theorem owns_others {b : Fin numQ → Bool} {st : ItcStore cfg numQ} {x : SlotOwner} {j : Fin numQ}
    (hx : x ≠ .others) : ({ s.setStore st with others := b } : OpenState cfg numQ).Owns x j ↔
      s.Owns x j := by
  cases x with
  | others => exact absurd rfl hx
  | lock => exact Iff.rfl
  | queue q => exact Iff.rfl

/-- Others change their share of the table. -/
theorem OpenInv.setStore (h : OpenInv s) {st : ItcStore cfg numQ} {b : Fin numQ → Bool}
    (ht : OwnedTable ({ s.setStore st with others := b } : OpenState cfg numQ).kind
      ({ s.setStore st with others := b } : OpenState cfg numQ).Owns SlotOwner.Fits) :
    OpenInv ({ s.setStore st with others := b } : OpenState cfg numQ) where
  unset := h.unset
  free := h.free
  silent := h.silent
  table := ht
  lock ho := (h.lock ho).imp fun _ hj => (owns_others (x:=.lock) (by rintro ⟨⟩)).mpr hj
  queue q f hq hf := (h.queue q f hq hf).imp fun _ hj => (owns_others (x:=.queue q) (by rintro ⟨⟩)).mpr hj

theorem OpenInv.create (h : OpenInv s) (o : ItcObj cfg) (granted : Bool) :
    Spec (openNext s (.create o granted)) OpenInv (fun _ => False) := by
  unfold openNext
  obtain ⟨i,hi,hc⟩ | ⟨i,e,he,hc⟩ := s.pools.store.create_spec o granted
  · simp only [hc,spec_ok]
    refine h.setStore ?_
    rw [kind_update (s:=s) (j:=i) (o:=some o) rfl]
    refine h.table.take (x:=.others) (k:=o.bType) (by rw [OpenState.kind,hi]; rfl) (by trivial)
      fun x j => ?_
    by_cases hx : x = .others
    · subst hx
      simp only [OpenState.Owns,Function.update_apply]
      by_cases hj : j = i
      · simp [hj]
      · simp [hj]
    · rw [owns_others hx]
      exact (or_iff_left fun hj => hx hj.1).symm
  · have hst : Spec (.ok (s.setStore { s.pools.store with idx := i }) : Except Fault _) OpenInv
        (fun _ => False) := h.setStore (b:=s.others) (h.table.congr fun x j => by
      cases x <;> exact Iff.rfl)
    simp only [hc]
    cases e with
    | ok => exact absurd rfl he
    | _ => exact hst

theorem OpenInv.smDelete (h : OpenInv s) {j : Fin numQ} (hj : s.others j = true) :
    Spec (openNext s (.smDelete j)) OpenInv (fun _ => True) := by
  simp only [openNext,ItcStore.smDelete,spec_bind,spec_pure]
  refine spec_of_forall fun o => h.setStore ?_
  rw [kind_update (s:=s) (j:=j) (o:=none) rfl]
  refine h.table.drop fun x i => ?_
  by_cases hx : x = .others
  · subst hx
    simp only [OpenState.Owns,Function.update_apply]
    by_cases hi : i = j
    · simp [hi]
    · simp [hi]
  · rw [owns_others hx]
    refine (and_iff_left_of_imp ?_).symm
    rintro hown rfl
    exact hx (h.table.single i _ _ hown hj)

/-- A call on an object leaves the table as it is. -/
theorem OpenInv.work (h : OpenInv s) {j : Fin numQ} {q : Itc cfg}
    (hq : s.kind j = some q.bType) : OpenInv (s.setStore (s.pools.store.putItc j q)) := by
  obtain ⟨o,ho,-⟩ := Option.map_eq_some_iff.mp hq
  have hkind : (s.setStore (s.pools.store.putItc j q)).kind = s.kind := by
    rw [kind_update (s:=s) (j:=j) (o:=some { o with toItc := q })
      (by rw [OpenState.setStore,ItcStore.putItc,ho]; rfl),Function.update_eq_self_iff]
    exact hq.symm
  refine h.setStore (b:=s.others) ?_
  refine OwnedTable.congr ?_ fun x i => by cases x <;> exact Iff.rfl
  rw [show ({ s.setStore (s.pools.store.putItc j q) with others := s.others } :
    OpenState cfg numQ).kind = s.kind from hkind]
  exact h.table

theorem openStep_inv {l : OpenLabel cfg numQ} (h : OpenInv s)
    (hstep : (openMachine cfg numQ).Step s l s') : OpenInv s' := by
  obtain ⟨he,hn⟩ := hstep
  cases l with
  | mqOpen a =>
    have hs : Spec (openNext s (.mqOpen a)) OpenInv (fun _ => True) := by
      rw [openNext,spec_bind]
      exact h.mqOpen a
    exact hs.of_ok hn
  | create o granted => exact (h.create o granted).of_ok hn
  | smDelete j => exact (h.smDelete he).of_ok hn
  | work j q =>
    cases hn
    exact h.work (of_decide_eq_true he)

theorem openInit_inv (st : ItcStore cfg numQ) (semOnce : ℕ) (t : Thid cfg) :
    OpenInv (openInit st semOnce t) where
  unset _ _ := rfl
  free _ _ := ⟨rfl,rfl⟩
  silent _ _ hq := by cases hq
  table := by
    have hothers : ∀ x j, (openInit st semOnce t).Owns x j → x = .others := by
      rintro (_ | _ | q) j h
      · rfl
      · cases h.1
      · obtain ⟨f,hf,-⟩ := h.1
        cases hf
    refine ⟨fun j k hk => ⟨.others,?_⟩,fun j x y hx hy => (hothers x j hx).trans
      (hothers y j hy).symm,fun j x hx => ?_⟩
    · obtain ⟨o,ho,-⟩ := Option.map_eq_some_iff.mp hk
      exact Option.isSome_iff_exists.mpr ⟨o,ho⟩
    · obtain rfl := hothers x j hx
      obtain ⟨o,ho⟩ := Option.isSome_iff_exists.mp (show (st.array j).isSome = true from hx)
      exact ⟨o.bType,congrArg (Option.map fun o : ItcObj cfg => o.bType) ho,trivial⟩
  lock h := by cases h
  queue _ _ hq := by cases hq

/-- In every state a run reaches, every queue has a semaphore of its own just when no queue has been
created with `O_NONBLOCK`. -/
theorem openRun_ownSem {st : ItcStore cfg numQ} {semOnce : ℕ} {t : Thid cfg}
    {ls : List (OpenLabel cfg numQ)}
    (hr : (openMachine cfg numQ).run (openInit st semOnce t) ls = some s) :
    (∀ q, s.pools.created q ≠ none → OwnSem s q) ↔
      ∀ q f, s.pools.created q = some f → f &&& oNonblock = 0 := by
  have h := (openMachine cfg numQ).run_invariant_of_step (fun _ _ _ hi hs => openStep_inv hi hs)
    (openInit_inv st semOnce t) hr
  refine ⟨fun hown q f hq => ?_,fun hsem q hq => h.ownSem hq hsem⟩
  by_contra hf
  exact h.not_ownSem hq hf (hown q (by rw [hq]; rintro ⟨⟩))

end

/-- The queue "/q" is created, for two messages of up to four bytes. -/
def createQueueSteps (oflags : OFlags) : List (OpenLabel gnuArm 50) :=
  [.mqOpen (openCall [0x2F,0x71] (oCreat ||| oRdwr ||| oflags) (some ⟨4,2⟩))]

/-- The call that makes it finds the queues of the system and `sem_once`. -/
def openBoot : OpenState gnuArm 50 := openInit bootObjects 9 0

theorem openRun_ownSem_blocking : ∃ s,
    (openMachine gnuArm 50).run openBoot (createQueueSteps 0) = some s ∧
    s.pools.created ⟨0,by decide⟩ ≠ none ∧ OwnSem s ⟨0,by decide⟩ := by
  obtain ⟨s,hr,hc,hf⟩ := (openMachine gnuArm 50).exists_run
    (fun s => s.pools.created ⟨0,by decide⟩ ≠ none ∧ (List.finRange numberOfQueues).all fun q =>
      (s.pools.created q).all fun f => decide (f &&& oNonblock = 0)) openBoot (createQueueSteps 0)
    (by decide +kernel)
  simp only [List.all_eq_true,List.mem_finRange,true_imp_iff,Option.all_eq_true,
    decide_eq_true_eq] at hf
  exact ⟨s,hr,hc,(openRun_ownSem hr).mpr hf _ hc⟩

/-- A queue created with `O_NONBLOCK` has the number of the first queue of the system. -/
theorem openRun_not_ownSem : ¬∀ (ls : List (OpenLabel gnuArm 50)) (s : OpenState gnuArm 50),
    (openMachine gnuArm 50).run openBoot ls = some s →
    ∀ q, s.pools.created q ≠ none → OwnSem s q := by
  intro h
  obtain ⟨s,hr,hc,hs,ho⟩ := (openMachine gnuArm 50).exists_run
    (fun s => s.pools.created ⟨0,by decide⟩ ≠ none ∧
      (s.pools.queuePool ⟨0,by decide⟩).sem = 0 ∧ s.others ⟨0,by decide⟩ = true)
    openBoot (createQueueSteps oNonblock) (by decide +kernel)
  exact (h _ s hr _ hc).others _ ho hs

end Tinker

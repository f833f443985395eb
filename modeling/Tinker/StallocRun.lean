import Tinker.Simulation
import Tinker.StallocBlocks

/-! A program that works with a pool. It frees what it has got, once, and writes where it has asked
for room. What it has written stays, wherever the pool takes and puts blocks. -/
namespace Tinker

open Memory Outcome Tiles FirstFit MemPool

/-- A pool, and what the program has put into the blocks it holds. -/
structure PoolState where
  pool : MemPool
  held : ℕ → Option (List Byte)

inductive PoolLabel
  | malloc (size : ℕ)
  | calloc (size len : ℕ)
  | realloc (p size : ℕ)
  | free (p : ℕ)
  | write (p off : ℕ) (bytes : List Byte)

/-- Sizes are a `TLEN`; a pointer is the null pointer or one the program has got. -/
def poolEnabled (w : ℕ) (s : PoolState) : PoolLabel → Bool
  | .malloc size => size < 2^(8*w)
  | .calloc size len => size < 2^(8*w) && len < 2^(8*w)
  | .realloc p size => (p = 0 || (s.held p).isSome) && size < 2^(8*w)
  | .free p => p = 0 || (s.held p).isSome
  | .write p off bytes => (s.held p).any fun d => off+bytes.length ≤ d.length

def poolNext (w : ℕ) (s : PoolState) : PoolLabel → Except PoolFault PoolState
  | .malloc size => do
    let (p,pool) ← MemPool.malloc w s.pool size
    if p = 0 then return { s with pool := pool }
    return ⟨pool,Function.update s.held p (some (peek pool.mem p size))⟩
  | .calloc size len => do
    let (p,pool) ← MemPool.calloc w s.pool size len
    if p = 0 then return { s with pool := pool }
    return ⟨pool,Function.update s.held p (some (List.replicate (size*len) 0))⟩
  | .realloc p size => do
    let (q,pool) ← MemPool.realloc w s.pool p size
    if q = 0 then return { s with pool := pool }
    -- as much of the old contents as there is room for
    let old := (s.held p).getD []
    let data := old.take size ++ (peek pool.mem q size).drop old.length
    return ⟨pool,Function.update (Function.update s.held p none) q (some data)⟩
  | .free p => do
    let pool ← MemPool.free w s.pool p
    return ⟨pool,Function.update s.held p none⟩
  | .write p off bytes =>
    return ⟨{ s.pool with mem := poke s.pool.mem (p+off) bytes },
      Function.update s.held p
        ((s.held p).map fun d => d.take off ++ bytes ++ d.drop (off+bytes.length))⟩

def poolMachine (w : ℕ) : Machine PoolState PoolLabel PoolFault where
  enabled := poolEnabled w
  next := poolNext w

/-- A pool of `size` bytes from `pool` on, in any memory. -/
def poolInit (w pool size : ℕ) (s : MemPool) : PoolState :=
  ⟨initMempool w s pool size,fun _ => none⟩

/-- What `init_mempool` is called with: a pool that has room for a header, and whose size and
addresses can be held. -/
structure PoolFits (w pool size : ℕ) : Prop where
  pos : 0 < pool
  fits : pool+size ≤ 2^32
  room : hlen w ≤ size
  small : size < 2^(8*w)

/-- Where no block is free, a block that comes back must have a null pointer for `next`: nothing
sets it. -/
def ClearsNext (w : ℕ) (s : MemPool) (p : ℕ) : Prop := p ≠ 0 → s.mp = 0 → s.next (p-hlen w) = 0

/-- What a call needs: a size that can be rounded up, and a block that can be put back. -/
def PoolSafe (w : ℕ) (s : PoolState) : PoolLabel → Prop
  | .malloc size => size+1 < 2^(8*w)
  | .calloc size len => size*len+1 < 2^(8*w)
  | .realloc p size => size+1 < 2^(8*w) ∧
      ∀ x ∈ (MemPool.malloc w s.pool (evenSize w size)).toOption, ClearsNext w x.2 p
  | .free p => ClearsNext w s.pool p
  | .write _ _ _ => True

instance (w : ℕ) (s : MemPool) (p : ℕ) : Decidable (ClearsNext w s p) :=
  inferInstanceAs (Decidable (_ → _ → _))

instance (w : ℕ) (s : PoolState) : (l : PoolLabel) → Decidable (PoolSafe w s l)
  | .malloc _ | .calloc _ _ => inferInstanceAs (Decidable (_ < _))
  | .realloc _ _ => inferInstanceAs (Decidable (_ ∧ _))
  | .free p => inferInstanceAs (Decidable (ClearsNext w s.pool p))
  | .write _ _ _ => inferInstanceAs (Decidable True)

/-- The free blocks are in the order of their addresses, and no two of them meet. -/
def AddressOrder (w : ℕ) (s : MemPool) : Prop :=
  ∃ fl : List Span, Linked.Chain s.nextPtr (ptr s.mp) (fl.map Span.pos) ∧
    (∀ t ∈ fl, s.span w t.pos = t) ∧ Spaced fl

/-- The block lies above the first free one. -/
def PutsAbove (w : ℕ) (s : MemPool) (p : ℕ) : Prop := p ≠ 0 → s.mp ≠ 0 → s.mp < p-hlen w

/-- Whatever a call frees lies above the first free block. -/
def FreesAbove (w : ℕ) (s : PoolState) : PoolLabel → Prop
  | .realloc p size =>
      ∀ x ∈ (MemPool.malloc w s.pool (evenSize w size)).toOption, x.1 ≠ 0 → PutsAbove w x.2 p
  | .free p => PutsAbove w s.pool p
  | .malloc _ | .calloc _ _ | .write _ _ _ => True

instance (w : ℕ) (s : MemPool) (p : ℕ) : Decidable (PutsAbove w s p) :=
  inferInstanceAs (Decidable (_ → _ → _))

instance (w : ℕ) (s : PoolState) : (l : PoolLabel) → Decidable (FreesAbove w s l)
  | .realloc p size => inferInstanceAs (Decidable (∀ x ∈
      (MemPool.malloc w s.pool (evenSize w size)).toOption, x.1 ≠ 0 → PutsAbove w x.2 p))
  | .free p => inferInstanceAs (Decidable (PutsAbove w s.pool p))
  | .malloc _ | .calloc _ _ | .write _ _ _ => inferInstanceAs (Decidable True)

structure PoolInv (w lo hi : ℕ) (s : PoolState) (fl us : List Span) : Prop where
  well : Well w lo hi s.pool fl us
  held : ∀ p, (s.held p).isSome ↔ ∃ t ∈ us, t.pos+hlen w = p
  data : ∀ t ∈ us, ∀ d, s.held (t.pos+hlen w) = some d →
    t.pos+hlen w+d.length ≤ t.stop ∧ peek s.pool.mem (t.pos+hlen w) d.length = d
  even : 2 ∣ w → 2 ∣ lo → 2 ∣ hi → ∀ t ∈ fl ++ us, 2 ∣ t.pos ∧ 2 ∣ t.size

section

variable {w lo hi size p : ℕ} {s s' : PoolState} {pool pool' : MemPool} {t u : Span}
  {fl fl' us us' : List Span} {d : List Byte}

theorem evenSize_dvd (w size : ℕ) : 2 ∣ evenSize w size := Dvd.intro_left _ rfl

theorem le_evenSize (h : size+1 < 2^(8*w)) : size ≤ evenSize w size := by
  rw [evenSize,Nat.mod_eq_of_lt h]
  omega

/-- A size that has been rounded up can be rounded up again. -/
theorem evenSize_lt (h : size+1 < 2^(8*w)) : evenSize w size+1 < 2^(8*w) := by
  rw [evenSize,Nat.mod_eq_of_lt h]
  cases w with
  | zero => omega
  | succ w =>
    have hsplit : 2^(8*(w+1)) = 2*2^(8*w+7) := by
      rw [← Nat.pow_succ',Nat.mul_succ]
    omega

theorem hlen_dvd (h : 2 ∣ w) : 2 ∣ hlen w := Nat.dvd_add (by decide) h

namespace PoolInv

theorem perm (h : PoolInv w lo hi s fl us) (hp : us.Perm us') : PoolInv w lo hi s fl us' where
  well := h.well.perm hp
  held p := by
    rw [h.held p]
    simp only [hp.mem_iff]
  data t ht := h.data t (hp.mem_iff.mpr ht)
  even hw hlo hhi t ht := h.even hw hlo hhi t ((hp.append_left fl).mem_iff.mpr ht)

/-- The block that a pointer of the program leads to, in front of the others. -/
theorem exists_cons (h : PoolInv w lo hi s fl us) (hp : (s.held p).isSome) :
    ∃ t us', t.pos+hlen w = p ∧ PoolInv w lo hi s fl (t :: us') := by
  obtain ⟨t,ht,hpos⟩ := (h.held p).mp hp
  exact ⟨t,us.erase t,hpos,h.perm (List.perm_cons_erase ht)⟩

theorem none_zero (h : PoolInv w lo hi s fl us) : s.held 0 = none := by
  by_contra hne
  obtain ⟨t,ht,hpos⟩ := (h.held 0).mp (Option.isSome_iff_ne_none.mpr hne)
  have hh : 0 < hlen w := hlen_pos
  omega

/-- A pointer leads to one block. -/
theorem ptr_ne (hwell : Well w lo hi pool fl (u :: us)) : ∀ t ∈ us, t.pos+hlen w ≠ u.pos+hlen w := by
  intro t ht heq
  have hne := hwell.ne_of_split (t:=u) (u:=t) rfl (by simp [ht])
  exact hne (hwell.tiled.eq_of_pos (by simp) (by simp [ht]) (by omega))

/-- A block has new contents, and the others are as they were. -/
theorem sets (hwell : Well w lo hi pool fl' (u :: us)) (hkeeps : Keeps us s.pool pool)
    (hheld : ∀ p, p ≠ u.pos+hlen w → ((s.held p).isSome ↔ ∃ t ∈ us, t.pos+hlen w = p))
    (hdata : ∀ t ∈ us, ∀ d, s.held (t.pos+hlen w) = some d →
      t.pos+hlen w+d.length ≤ t.stop ∧ peek s.pool.mem (t.pos+hlen w) d.length = d)
    (hfits : u.pos+hlen w+d.length ≤ u.stop) (hd : peek pool.mem (u.pos+hlen w) d.length = d)
    (heven : 2 ∣ w → 2 ∣ lo → 2 ∣ hi → ∀ t ∈ fl' ++ u :: us, 2 ∣ t.pos ∧ 2 ∣ t.size) :
    PoolInv w lo hi ⟨pool,Function.update s.held (u.pos+hlen w) (some d)⟩ fl' (u :: us) := by
  refine ⟨hwell,fun p => ?_,List.forall_mem_cons.mpr ⟨?_,fun t ht d' hd' => ?_⟩,heven⟩
  · by_cases hp : p = u.pos+hlen w
    · rw [hp]
      simp only [Function.update_self,Option.isSome_some,List.mem_cons,true_iff]
      exact ⟨u,Or.inl rfl,rfl⟩
    · simp only [Function.update_of_ne hp,hheld p hp,List.exists_mem_cons_iff]
      exact ⟨Or.inr,fun hor => hor.resolve_left (fun he => hp he.symm)⟩
  · intro d' hd'
    simp only [Function.update_self,Option.some.injEq] at hd'
    subst hd'
    exact ⟨hfits,hd⟩
  · simp only [Function.update_of_ne (ptr_ne hwell t ht)] at hd'
    obtain ⟨hin,hpeek⟩ := hdata t ht d' hd'
    refine ⟨hin,?_⟩
    rw [peek_congr fun x hle hlt => hkeeps t ht x (by omega) (by omega)]
    exact hpeek

/-- The program gives a block back. -/
theorem leaves (h : PoolInv w lo hi s fl (t :: us)) (hwell : Well w lo hi pool fl' us)
    (hkeeps : Keeps us s.pool pool)
    (heven : 2 ∣ w → 2 ∣ lo → 2 ∣ hi → ∀ u ∈ fl' ++ us, 2 ∣ u.pos ∧ 2 ∣ u.size) :
    PoolInv w lo hi ⟨pool,Function.update s.held (t.pos+hlen w) none⟩ fl' us := by
  have hother := ptr_ne h.well
  refine ⟨hwell,fun p => ?_,fun u hu d' hd' => ?_,heven⟩
  · by_cases hp : p = t.pos+hlen w
    · rw [hp]
      simp only [Function.update_self,Option.isSome_none,Bool.false_eq_true,false_iff]
      rintro ⟨u,hu,heq⟩
      exact hother u hu heq
    · simp only [Function.update_of_ne hp,h.held p,List.exists_mem_cons_iff]
      exact ⟨fun hor => hor.resolve_left (fun he => hp he.symm),Or.inr⟩
  · simp only [Function.update_of_ne (hother u hu)] at hd'
    obtain ⟨hin,hpeek⟩ := h.data u (List.mem_cons_of_mem t hu) d' hd'
    refine ⟨hin,?_⟩
    rw [peek_congr fun x hle hlt => hkeeps u hu x (by omega) (by omega)]
    exact hpeek

/-- The program writes to a block. -/
theorem writes (h : PoolInv w lo hi s fl (t :: us)) {a : ℕ} {b : List Byte}
    (hlo : t.pos+hlen w ≤ a) (hhi : a+b.length ≤ t.stop)
    (hd : t.pos+hlen w+d.length ≤ t.stop)
    (hpeek : peek (poke s.pool.mem a b) (t.pos+hlen w) d.length = d) :
    PoolInv w lo hi ⟨{ s.pool with mem := poke s.pool.mem a b },
      Function.update s.held (t.pos+hlen w) (some d)⟩ fl (t :: us) := by
  have hwell := h.well.poke List.mem_cons_self hlo hhi
  have hkeeps : Keeps us s.pool { s.pool with mem := poke s.pool.mem a b } := by
    intro u hu x hle hlt
    have hapart := (List.pairwise_cons.mp (List.pairwise_append.mp h.well.tiled.apart).2.1).1 u hu
    unfold Span.Apart at hapart
    rcases hapart with hbelow | habove
    · exact poke_of_le (by omega)
    · exact poke_of_lt (by omega)
  refine sets hwell hkeeps (fun p hp => ?_)
    (fun u hu => h.data u (List.mem_cons_of_mem t hu)) hd hpeek h.even
  rw [h.held p,List.exists_mem_cons_iff]
  exact ⟨fun hor => hor.resolve_left fun he => hp he.symm,Or.inr⟩

/-- The program asks for a block of `size` bytes. -/
theorem mallocs (h : PoolInv w lo hi s fl us) (size : ℕ) :
    Spec (MemPool.malloc w s.pool size) (fun x =>
      take (hlen w) (minBlock w) (evenSize w size) fl = none ∧ x = (0,s.pool) ∨
      ∃ u fl', take (hlen w) (minBlock w) (evenSize w size) fl = some (u,fl') ∧
        x.1 = u.pos+hlen w ∧ hlen w+evenSize w size ≤ u.size ∧ Keeps us s.pool x.2 ∧
        ∀ d : List Byte, d.length ≤ evenSize w size → peek x.2.mem (u.pos+hlen w) d.length = d →
          PoolInv w lo hi ⟨x.2,Function.update s.held (u.pos+hlen w) (some d)⟩ fl' (u :: us))
      (fun _ => False) := by
  refine (h.well.malloc_spec size).imp ?_
  rintro x (⟨hnone,hx⟩ | ⟨u,fl',htake,hx,hwell,hkeeps⟩)
  · exact Or.inl ⟨hnone,hx⟩
  · have hsize := take_size htake
    refine Or.inr ⟨u,fl',htake,hx,hsize,hkeeps,fun d hlen hd => ?_⟩
    refine sets hwell hkeeps (fun p _ => h.held p) h.data ?_ hd fun hw hlo hhi t ht => ?_
    · unfold Span.stop
      omega
    · have hall := h.even hw hlo hhi
      rw [List.forall_mem_append] at hall
      have hnew := take_dvd htake (hlen_dvd hw) (evenSize_dvd w size) hall.1
      rw [List.forall_mem_cons] at hnew
      simp only [List.mem_append,List.mem_cons] at ht
      rcases ht with ht | rfl | ht
      · exact hnew.2 t ht
      · exact hnew.1
      · exact hall.2 t ht

/-- The program gives the block in front back. -/
theorem frees (h : PoolInv w lo hi s fl (t :: us)) (hclear : ClearsNext w s.pool (t.pos+hlen w)) :
    Spec (MemPool.free w s.pool (t.pos+hlen w)) (fun pool => Keeps us s.pool pool ∧
      PoolInv w lo hi ⟨pool,Function.update s.held (t.pos+hlen w) none⟩ (give t fl) us)
      (fun _ => False) := by
  have hh : 0 < hlen w := hlen_pos
  have hstale : fl = [] → s.pool.next t.pos = 0 := by
    rintro rfl
    have hmp : s.pool.mp = 0 := Well.next_of_head (r:=[]) h.well.linked fun u hu => (by cases hu)
    have hnext := hclear (by omega) hmp
    rwa [Nat.add_sub_cancel] at hnext
  refine (h.well.free_spec hstale).imp ?_
  rintro pool ⟨hwell,hkeeps⟩
  refine ⟨hkeeps,h.leaves hwell hkeeps fun hw hlo hhi u hu => ?_⟩
  have hall := h.even hw hlo hhi
  rw [List.forall_mem_append,List.forall_mem_cons] at hall
  rcases List.mem_append.mp hu with hu | hu
  · exact give_dvd hall.2.1 hall.1 u hu
  · exact hall.2.2 u hu

theorem addressOrder_iff (h : PoolInv w lo hi s fl us) : AddressOrder w s.pool ↔ Spaced fl := by
  constructor
  · rintro ⟨fl2,hchain,hsized,hspaced⟩
    have hmap : fl2.map Span.pos = fl.map Span.pos := hchain.unique h.well.linked
    have hback : ∀ fl3 : List Span, (∀ t ∈ fl3, s.pool.span w t.pos = t) →
        fl3 = (fl3.map Span.pos).map (s.pool.span w) := by
      intro fl3 h3
      rw [List.map_map]
      exact (List.map_id fl3).symm.trans (List.map_congr_left fun t ht => (h3 t ht).symm)
    rw [hback fl2 hsized,hmap,← hback fl fun t ht => h.well.sized t (List.mem_append_left us ht)]
      at hspaced
    exact hspaced
  · intro hspaced
    exact ⟨fl,h.well.linked,fun t ht => h.well.sized t (List.mem_append_left us ht),hspaced⟩

/-- Putting a block back keeps the order just when it lies above the first free block. -/
theorem give_spaced (h : PoolInv w lo hi s fl (t :: us)) (hs : Spaced fl) :
    Spaced (give t fl) ↔ PutsAbove w s.pool (t.pos+hlen w) := by
  have hh : 0 < hlen w := hlen_pos
  have hmp := Well.next_of_head h.well.linked fun u hu => h.well.pos_pos (List.mem_append_left _ hu)
  rw [give_spaced_iff h.well.tiled hs,PutsAbove,Nat.add_sub_cancel,hmp]
  cases fl with
  | nil => exact iff_of_true (fun q hq => (by cases hq)) fun _ hne => absurd rfl hne
  | cons q fl =>
    have hq := h.well.pos_pos (t:=q) (by simp)
    constructor
    · exact fun hall _ _ => hall q rfl
    · rintro hputs q' ⟨⟩
      exact hputs (by omega) (Nat.ne_of_gt hq)

/-- Contents that are there are the first part of what is read. -/
theorem peek_eq_append {mem : ℕ → Byte} {q : ℕ} {old : List Byte}
    (hsame : ∀ i, i < size → ∀ hi : i < old.length, mem (q+i) = old[i]) :
    peek mem q size = old.take size ++ (peek mem q size).drop old.length := by
  have hfirst : (peek mem q size).take old.length = old.take size := by
    refine List.ext_getElem (by simp [Nat.min_comm]) fun i h1 h2 => ?_
    rw [List.length_take,peek_length] at h1
    rw [List.getElem_take,List.getElem_take,peek_getElem]
    exact hsame i (by omega) (by omega)
  calc peek mem q size
      = (peek mem q size).take old.length ++ (peek mem q size).drop old.length :=
        (List.take_append_drop _ _).symm
    _ = _ := by rw [hfirst]

/-- The state behind a call, and what has become of the order of the free blocks. -/
def Ends (w lo hi : ℕ) (s : PoolState) (fl : List Span) (l : PoolLabel) (s' : PoolState) : Prop :=
  ∃ fl' us', PoolInv w lo hi s' fl' us' ∧ (Spaced fl → (Spaced fl' ↔ FreesAbove w s l))

theorem malloc_ends (h : PoolInv w lo hi s fl us) (hsize : size+1 < 2^(8*w)) :
    Spec (poolNext w s (.malloc size)) (Ends w lo hi s fl (.malloc size)) (fun _ => False) := by
  have hh : 0 < hlen w := hlen_pos
  simp only [poolNext,spec_bind]
  refine (h.mallocs size).imp ?_
  rintro ⟨p,pool⟩ (⟨-,hx⟩ | ⟨u,fl',htake,rfl,-,-,hset⟩)
  · cases hx
    exact ⟨fl,us,h,fun hs => iff_of_true hs trivial⟩
  · simp only [if_neg (show ¬u.pos+hlen w = 0 by omega),spec_pure]
    refine ⟨fl',u :: us,hset _ ?_ ?_,fun hs => iff_of_true (take_spaced htake hs) trivial⟩
    · rw [peek_length]
      exact le_evenSize hsize
    · rw [peek_length]

theorem calloc_ends {n : ℕ} (h : PoolInv w lo hi s fl us) (hsize : size*n+1 < 2^(8*w)) :
    Spec (poolNext w s (.calloc size n)) (Ends w lo hi s fl (.calloc size n)) (fun _ => False) := by
  have hh : 0 < hlen w := hlen_pos
  simp only [poolNext,MemPool.calloc,Nat.mod_eq_of_lt (Nat.lt_of_succ_lt hsize),spec_bind]
  refine (h.mallocs (size*n)).imp ?_
  rintro ⟨p,pool⟩ (⟨-,hx⟩ | ⟨u,fl',htake,rfl,hfits,-,hset⟩)
  · cases hx
    simp only [ne_eq,not_true_eq_false,if_false,if_true,spec_pure]
    exact ⟨fl,us,h,fun hs => iff_of_true hs trivial⟩
  · have hne : u.pos+hlen w ≠ 0 := by omega
    simp only [if_pos hne,if_neg hne,spec_pure]
    have hle := le_evenSize hsize
    have hstop : u.stop = u.pos+u.size := rfl
    have hgot := hset (peek pool.mem (u.pos+hlen w) (size*n)) (by rw [peek_length]; exact hle)
      (by rw [peek_length])
    have hzeros := peek_poke pool.mem (u.pos+hlen w) (List.replicate (size*n) 0)
    have hcleared := hgot.writes (a:=u.pos+hlen w) (b:=List.replicate (size*n) 0)
      (Nat.le_refl _) (by rw [List.length_replicate]; omega)
      (by rw [List.length_replicate]; omega) hzeros
    rw [Function.update_idem] at hcleared
    exact ⟨fl',u :: us,hcleared,fun hs => iff_of_true (take_spaced htake hs) trivial⟩

theorem free_ends {p : ℕ} (h : PoolInv w lo hi s fl us) (hp : p = 0 ∨ (s.held p).isSome)
    (hclear : ClearsNext w s.pool p) :
    Spec (poolNext w s (.free p)) (Ends w lo hi s fl (.free p)) (fun _ => False) := by
  simp only [poolNext,spec_bind,spec_pure]
  by_cases hzero : p = 0
  · subst hzero
    have hsame : Function.update s.held 0 none = s.held :=
      Function.update_eq_self_iff.mpr h.none_zero.symm
    refine (spec_ok s.pool _ _).mpr ⟨fl,us,?_,fun hs => iff_of_true hs fun hne => absurd rfl hne⟩
    rwa [hsame]
  · obtain ⟨t,us',rfl,hfront⟩ := h.exists_cons (hp.resolve_left hzero)
    refine (hfront.frees hclear).imp ?_
    rintro pool ⟨-,hinv⟩
    exact ⟨_,us',hinv,fun hs => hfront.give_spaced hs⟩

theorem write_ends {p off : ℕ} {bytes : List Byte} (h : PoolInv w lo hi s fl us)
    (hp : ∃ d, s.held p = some d ∧ off+bytes.length ≤ d.length) :
    Spec (poolNext w s (.write p off bytes)) (Ends w lo hi s fl (.write p off bytes))
      (fun _ => False) := by
  obtain ⟨d,hd,hin⟩ := hp
  obtain ⟨t,us',rfl,hfront⟩ := h.exists_cons (Option.isSome_iff_exists.mpr ⟨d,hd⟩)
  obtain ⟨hfits,hpeek⟩ := hfront.data t List.mem_cons_self d hd
  simp only [poolNext,hd,Option.map_some,spec_pure]
  have hlength : (d.take off ++ bytes ++ d.drop (off+bytes.length)).length = d.length := by
    simp only [List.length_append,List.length_take,List.length_drop]
    omega
  refine ⟨fl,t :: us',hfront.writes (by omega) (by omega) (by omega) ?_,
    fun hs => iff_of_true hs trivial⟩
  rw [hlength]
  -- byte by byte: before, in and behind what is written
  refine List.ext_getElem (by rw [peek_length,hlength]) fun i h1 h2 => ?_
  rw [peek_length] at h1
  have hold : s.pool.mem (t.pos+hlen w+i) = d[i] := by
    have hget := List.getElem_of_eq hpeek (i:=i) (by rw [peek_length]; exact h1)
    rwa [peek_getElem] at hget
  rw [peek_getElem]
  by_cases hbefore : i < off
  · rw [poke_of_lt (by omega),hold,List.getElem_append_left (by simp; omega),
      List.getElem_append_left (by simp; omega),List.getElem_take]
  · by_cases hbehind : i < off+bytes.length
    · have hi : t.pos+hlen w+i = t.pos+hlen w+off+(i-off) := by omega
      rw [hi,poke_add (by omega),List.getElem_append_left (by simp; omega),
        List.getElem_append_right (by simp; omega)]
      congr 1
      rw [List.length_take]
      omega
    · rw [poke_of_le (by omega),hold,List.getElem_append_right (by simp; omega),List.getElem_drop]
      congr 1
      simp only [List.length_append,List.length_take]
      omega

/-- What `realloc` has copied is what the old block held. -/
theorem copied {n : ℕ} {pool2 : MemPool} (h : PoolInv w lo hi s fl (t :: us)) {old : List Byte}
    (hold : s.held (t.pos+hlen w) = some old) (hkeeps : Keeps (t :: us) s.pool pool)
    (hn : n ≤ t.size-hlen w) (hle : ∀ i, i < size → i < old.length → i < n)
    (hfits : u.pos+hlen w+size ≤ u.stop)
    (hlater : Keeps (u :: us)
      { pool with mem := poke pool.mem (u.pos+hlen w) (peek pool.mem (t.pos+hlen w) n) } pool2) :
    ∀ i, i < size → ∀ hi : i < old.length, pool2.mem (u.pos+hlen w+i) = old[i] := by
  intro i hi hlt
  obtain ⟨hin,hpeek⟩ := h.data t List.mem_cons_self old hold
  have hin' := hle i hi hlt
  have hcopy : i < (peek pool.mem (t.pos+hlen w) n).length := by rwa [peek_length]
  have hfirst : s.pool.mem (t.pos+hlen w+i) = old[i] := by
    have hget := List.getElem_of_eq hpeek (i:=i) (by rwa [peek_length])
    rwa [peek_getElem] at hget
  rw [hlater u List.mem_cons_self _ (by omega) (by omega)]
  dsimp only
  rw [poke_add hcopy,peek_getElem,
    hkeeps t List.mem_cons_self _ (by omega) (by unfold Span.stop; omega),hfirst]

/-- `realloc` of the null pointer is `malloc`. -/
theorem realloc_new (h : PoolInv w lo hi s fl us) (hsize : size+1 < 2^(8*w)) :
    Spec (poolNext w s (.realloc 0 size)) (Ends w lo hi s fl (.realloc 0 size))
      (fun _ => False) := by
  have hh : 0 < hlen w := hlen_pos
  have hle := le_evenSize hsize
  have hle2 := le_evenSize (evenSize_lt hsize)
  obtain ⟨⟨q,pool⟩,hmalloc,hcases⟩ := spec_total_iff.mp (h.mallocs (evenSize w size))
  simp only [poolNext,MemPool.realloc,hmalloc,ok_bind]
  obtain ⟨-,hx⟩ | ⟨u,fl',htake,rfl,hfits,-,hset⟩ := hcases
  · cases hx
    exact ⟨fl,us,h,fun hs => iff_of_true hs fun x _ _ hne => absurd rfl hne⟩
  · have hne : ¬u.pos+hlen w = 0 := by omega
    have hsame : Function.update s.held 0 none = s.held :=
      Function.update_eq_self_iff.mpr h.none_zero.symm
    have hgot := hset (peek pool.mem (u.pos+hlen w) size) (by rw [peek_length]; omega)
      (by rw [peek_length])
    simp only [if_neg hne,ne_eq,not_true_eq_false,if_false,spec_bind,spec_pure,h.none_zero,hsame,
      Option.getD_none,List.take_nil,List.nil_append,List.length_nil,List.drop_zero]
    exact ⟨fl',u :: us,hgot,fun hs => iff_of_true (take_spaced htake hs)
      fun x _ _ hne => absurd rfl hne⟩

theorem realloc_moves (h : PoolInv w lo hi s fl us) (hzero : ¬p = 0) (hp : (s.held p).isSome)
    (hsize : size+1 < 2^(8*w))
    (hclear : ∀ x ∈ (MemPool.malloc w s.pool (evenSize w size)).toOption, ClearsNext w x.2 p) :
    Spec (poolNext w s (.realloc p size)) (Ends w lo hi s fl (.realloc p size))
      (fun _ => False) := by
  have hh : 0 < hlen w := hlen_pos
  have hle := le_evenSize hsize
  have hle2 := le_evenSize (evenSize_lt hsize)
  obtain ⟨t,us',rfl,hfront⟩ := h.exists_cons hp
  obtain ⟨old,hold⟩ := Option.isSome_iff_exists.mp hp
  obtain ⟨⟨q,pool⟩,hmalloc,hcases⟩ := spec_total_iff.mp (hfront.mallocs (evenSize w size))
  have hgives : (MemPool.malloc w s.pool (evenSize w size)).toOption = some (q,pool) := by
    rw [hmalloc]
    rfl
  have hnext := hclear (q,pool) hgives
  simp only [poolNext,MemPool.realloc,hmalloc,ok_bind]
  obtain ⟨-,hx⟩ | ⟨u,fl',htake,rfl,hfits,hkeeps,hset⟩ := hcases
  · cases hx
    refine ⟨fl,us,h,fun hs => iff_of_true hs fun x hx hne => ?_⟩
    rw [hgives] at hx
    cases hx
    exact absurd rfl hne
  · have hne : ¬u.pos+hlen w = 0 := by omega
    have hgot := hset (peek pool.mem (u.pos+hlen w) size) (by rw [peek_length]; omega)
      (by rw [peek_length])
    have hlent : pool.len w t.pos = t.size-hlen w := len_of_span (hgot.well.sized t (by simp))
    have hin := (hfront.data t List.mem_cons_self old hold).1
    simp only [if_neg hne,hzero,ne_eq,not_false_eq_true,if_true,spec_bind,spec_pure,
      Nat.add_sub_cancel,hlent]
    generalize hn : (if t.size-hlen w < evenSize w size then t.size-hlen w
      else evenSize w size) = n
    have hnle : n ≤ t.size-hlen w ∧ n ≤ evenSize w size ∧
        ∀ i, i < size → i < old.length → i < n := by
      rw [← hn]
      unfold Span.stop at hin
      refine ⟨?_,?_,fun i h1 h2 => ?_⟩ <;> split <;> omega
    have hstop : u.stop = u.pos+u.size := rfl
    -- the copy is a write to the new block
    have hcopied := (hgot.writes (a:=u.pos+hlen w) (b:=peek pool.mem (t.pos+hlen w) n)
      (d:=peek (poke pool.mem (u.pos+hlen w) (peek pool.mem (t.pos+hlen w) n)) (u.pos+hlen w) size)
      (Nat.le_refl _) (by rw [peek_length]; omega) (by rw [peek_length]; omega)
      (by rw [peek_length])).perm (List.Perm.swap t u us')
    have hstays := (hgot.well.poke_header (u:=t) (a:=u.pos+hlen w)
      (b:=peek pool.mem (t.pos+hlen w) n) List.mem_cons_self (Nat.le_refl _)
      (by rw [peek_length]; omega) (by simp)).1
    have hclear' : ClearsNext w
        { pool with mem := poke pool.mem (u.pos+hlen w) (peek pool.mem (t.pos+hlen w) n) }
        (t.pos+hlen w) := by
      intro hp0 hmp
      have hzero' := hnext hp0 hmp
      rw [Nat.add_sub_cancel] at hzero' ⊢
      exact hstays.trans hzero'
    refine (hcopied.frees hclear').imp ?_
    rintro pool2 ⟨hlater,hinv⟩
    have hdata := peek_eq_append (hfront.copied (u:=u) (n:=n) hold hkeeps hnle.1 hnle.2.2
      (by omega) hlater)
    have hsamepeek : peek pool2.mem (u.pos+hlen w) size =
        peek (poke pool.mem (u.pos+hlen w) (peek pool.mem (t.pos+hlen w) n)) (u.pos+hlen w) size :=
      peek_congr fun x h1 h2 => hlater u List.mem_cons_self x (by omega) (by omega)
    have hptr : t.pos+hlen w ≠ u.pos+hlen w := ptr_ne hgot.well t (by simp)
    refine ⟨give t fl',u :: us',?_,fun hs => ?_⟩
    · rw [hold,Option.getD_some,← hdata,hsamepeek,Function.update_comm hptr]
      rw [Function.update_idem] at hinv
      exact hinv
    · rw [hcopied.give_spaced (take_spaced htake hs)]
      constructor
      · intro hputs x hx _
        rw [hgives] at hx
        cases hx
        exact hputs
      · exact fun hall => hall (u.pos+hlen w,pool) hgives hne

theorem step {l : PoolLabel} (h : PoolInv w lo hi s fl us) (hsafe : PoolSafe w s l)
    (hen : poolEnabled w s l = true) :
    Spec (poolNext w s l) (Ends w lo hi s fl l) (fun _ => False) := by
  cases l with
  | malloc size => exact h.malloc_ends hsafe
  | calloc size len => exact h.calloc_ends hsafe
  | realloc p size =>
    simp only [poolEnabled,Bool.and_eq_true,Bool.or_eq_true,decide_eq_true_eq] at hen
    by_cases hzero : p = 0
    · subst hzero
      exact h.realloc_new hsafe.1
    · exact h.realloc_moves hzero (hen.1.resolve_left hzero) hsafe.1 hsafe.2
  | free p =>
    simp only [poolEnabled,Bool.or_eq_true,decide_eq_true_eq] at hen
    exact h.free_ends hen hsafe
  | write p off bytes =>
    simp only [poolEnabled,Option.any_eq_true,decide_eq_true_eq] at hen
    exact h.write_ends hen

theorem init {mem : MemPool} {pool size : ℕ} (hfits : PoolFits w pool size) :
    PoolInv w pool (pool+size) (poolInit w pool size mem) [⟨pool,size⟩] [] where
  well := Well.init mem hfits.pos hfits.fits hfits.room hfits.small
  held p := iff_of_false Bool.false_ne_true fun ⟨t,ht,_⟩ => List.not_mem_nil ht
  data t ht := absurd ht List.not_mem_nil
  even _ hlo hhi t ht := by
    obtain rfl := List.mem_singleton.mp ht
    exact ⟨hlo,(Nat.dvd_add_right hlo).mp hhi⟩

end PoolInv

/-- The blocks that the program holds are in the pool, with their headers, and none reaches into
another one. -/
structure LaidOut (w lo hi : ℕ) (s : PoolState) : Prop where
  within : ∀ p d, s.held p = some d → lo+hlen w ≤ p ∧ p+d.length ≤ hi
  apart : ∀ p q d e, s.held p = some d → s.held q = some e → p ≠ q →
    p+d.length+hlen w ≤ q ∨ q+e.length+hlen w ≤ p
  even : 2 ∣ w → 2 ∣ lo → 2 ∣ hi → ∀ p, (s.held p).isSome → 2 ∣ p

theorem PoolInv.laidOut (h : PoolInv w lo hi s fl us) : LaidOut w lo hi s := by
  have hblock : ∀ p d, s.held p = some d →
      ∃ t ∈ us, t.pos+hlen w = p ∧ p+d.length ≤ t.stop := by
    intro p d hd
    obtain ⟨t,ht,rfl⟩ := (h.held p).mp (Option.isSome_iff_exists.mpr ⟨d,hd⟩)
    exact ⟨t,ht,rfl,(h.data t ht d hd).1⟩
  refine ⟨fun p d hd => ?_,fun p q d e hd he hne => ?_,fun hw hlo hhi p hp => ?_⟩
  · obtain ⟨t,ht,rfl,hstop⟩ := hblock p d hd
    have hin := h.well.tiled.within (List.mem_append_right fl ht)
    omega
  · obtain ⟨t,ht,rfl,hstop⟩ := hblock p d hd
    obtain ⟨u,hu,rfl,hstop'⟩ := hblock q e he
    have htu : t ≠ u := fun heq => hne (by rw [heq])
    have hapart := h.well.tiled.apart_of_ne (List.mem_append_right fl ht)
      (List.mem_append_right fl hu) htu
    unfold Span.Apart at hapart
    omega
  · obtain ⟨t,ht,rfl⟩ := (h.held p).mp hp
    exact Nat.dvd_add (h.even hw hlo hhi t (List.mem_append_right fl ht)).1 (hlen_dvd hw)

variable {mem : MemPool} {ls : List PoolLabel}

/-- What holds in every state of a run whose calls find what they need. -/
def PoolInvariant (w lo hi : ℕ) (s : PoolState) : Prop := ∃ fl us, PoolInv w lo hi s fl us

theorem poolStep_invariant {l : PoolLabel} (h : PoolInvariant w lo hi s) (hsafe : PoolSafe w s l)
    (hstep : (poolMachine w).Step s l s') : PoolInvariant w lo hi s' := by
  obtain ⟨fl,us,hinv⟩ := h
  obtain ⟨fl',us',hinv',-⟩ := (hinv.step hsafe hstep.1).of_ok hstep.2
  exact ⟨fl',us',hinv'⟩

/-- A pool of 100 bytes in memory that is all zeros. -/
def smallPool : PoolState := poolInit stsizeT 100 100 ⟨fun _ => 0,0⟩

theorem smallPool_fits : PoolFits stsizeT 100 100 :=
  ⟨by decide,by decide,by decide,by decide⟩

/-- Three blocks, and the first one grows. -/
def growingCalls : List PoolLabel :=
  [.malloc 10,.malloc 5,.calloc 3 2,.write 190 2 [7,8,9],.realloc 190 12]

/-- Two blocks that are given back from below. -/
def returningCalls : List PoolLabel := [.malloc 10,.malloc 6,.free 178,.free 190]

theorem poolRun_invariant (hfits : PoolFits w p size)
    (hsafe : (poolMachine w).Along (PoolSafe w) (poolInit w p size mem) ls)
    (hrun : (poolMachine w).run (poolInit w p size mem) ls = some s) :
    PoolInvariant w p (p+size) s :=
  (poolMachine w).run_invariant (fun _ _ _ => poolStep_invariant)
    ⟨_,_,PoolInv.init hfits⟩ hsafe hrun

/-- Every call returns, and the blocks stay apart, as long as no size is so large that it cannot be
rounded up and no block comes back to a full pool with something left over for `next`. -/
theorem poolRun_laidOut (hfits : PoolFits w p size)
    (hsafe : (poolMachine w).Along (PoolSafe w) (poolInit w p size mem) ls) :
    (poolMachine w).Along (fun s l => poolEnabled w s l = true → ∃ s', poolNext w s l = .ok s')
      (poolInit w p size mem) ls ∧
      ∀ s, (poolMachine w).run (poolInit w p size mem) ls = some s → LaidOut w p (p+size) s := by
  constructor
  · refine (poolMachine w).along_of_invariant (fun _ _ _ => poolStep_invariant)
      (fun s l hi hs hen => ?_) ⟨_,_,PoolInv.init hfits⟩ hsafe
    obtain ⟨fl,us,hinv⟩ := hi
    obtain ⟨s',hs',-⟩ := spec_total_iff.mp (hinv.step hs hen)
    exact ⟨s',hs'⟩
  · intro s hrun
    obtain ⟨fl,us,hinv⟩ := poolRun_invariant hfits hsafe hrun
    exact hinv.laidOut

theorem poolRun_laidOut_growing :
    (poolMachine stsizeT).Along (fun s l => poolEnabled stsizeT s l = true →
      ∃ s', poolNext stsizeT s l = .ok s') smallPool growingCalls ∧
    ∃ s, (poolMachine stsizeT).run smallPool growingCalls = some s ∧ (s.held 148).isSome ∧
      LaidOut stsizeT 100 200 s := by
  have hsafe : (poolMachine stsizeT).Along (PoolSafe stsizeT) smallPool growingCalls := by
    decide +kernel
  obtain ⟨hreturn,hlaid⟩ := poolRun_laidOut smallPool_fits hsafe
  obtain ⟨s,hrun,hheld⟩ := (poolMachine stsizeT).exists_run (fun s => (s.held 148).isSome = true)
    smallPool growingCalls (by decide +kernel)
  exact ⟨hreturn,s,hrun,hheld,hlaid s hrun⟩

/-- A block holds what the program has put there, until it is given back. -/
theorem poolRun_keepsData (hfits : PoolFits w p size)
    (hsafe : (poolMachine w).Along (PoolSafe w) (poolInit w p size mem) ls)
    (hrun : (poolMachine w).run (poolInit w p size mem) ls = some s) :
    ∀ p d, s.held p = some d → peek s.pool.mem p d.length = d := by
  obtain ⟨fl,us,hinv⟩ := poolRun_invariant hfits hsafe hrun
  intro p d hd
  obtain ⟨t,ht,rfl⟩ := (hinv.held p).mp (Option.isSome_iff_exists.mpr ⟨d,hd⟩)
  exact (hinv.data t ht d hd).2

theorem poolRun_keepsData_growing : ∃ s, (poolMachine stsizeT).run smallPool growingCalls = some s ∧
    peek s.pool.mem 148 12 = [0,0,7,8,9,0,0,0,0,0,0,0] := by
  obtain ⟨s,hrun,hheld⟩ := (poolMachine stsizeT).exists_run
    (fun s => s.held 148 = some [0,0,7,8,9,0,0,0,0,0,0,0]) smallPool growingCalls (by decide +kernel)
  exact ⟨s,hrun,poolRun_keepsData smallPool_fits (by decide +kernel) hrun 148 _ hheld⟩

/-- The free blocks stay in the order of their addresses and apart just as long as whatever is given
back lies above the first of them. -/
theorem poolRun_addressOrder_iff (hfits : PoolFits w p size)
    (hsafe : (poolMachine w).Along (PoolSafe w) (poolInit w p size mem) ls)
    (hrun : (poolMachine w).run (poolInit w p size mem) ls = some s) :
    (poolMachine w).Along (fun s _ => AddressOrder w s.pool) (poolInit w p size mem) ls ∧
      AddressOrder w s.pool ↔ (poolMachine w).Along (FreesAbove w) (poolInit w p size mem) ls := by
  refine (poolMachine w).run_along_iff_of
    (I:=fun s => ∃ fl us, PoolInv w p (p+size) s fl us ∧ Spaced fl) (A:=PoolSafe w) ?_ ?_ ?_
    ⟨_,_,PoolInv.init hfits,List.pairwise_singleton _ _⟩ hsafe hrun
  · rintro s ⟨fl,us,hinv,hspaced⟩
    exact hinv.addressOrder_iff.mpr hspaced
  · rintro s l s' ⟨fl,us,hinv,hspaced⟩ hs habove hstep
    obtain ⟨fl',us',hinv',hiff⟩ := (hinv.step hs hstep.1).of_ok hstep.2
    exact ⟨fl',us',hinv',(hiff hspaced).mpr habove⟩
  · rintro s l s' ⟨fl,us,hinv,hspaced⟩ hs hbelow hstep horder
    obtain ⟨fl',us',hinv',hiff⟩ := (hinv.step hs hstep.1).of_ok hstep.2
    exact hbelow ((hiff hspaced).mp (hinv'.addressOrder_iff.mp horder))

theorem poolRun_addressOrder_iff_returning : ∃ s,
    (poolMachine stsizeT).run smallPool returningCalls = some s ∧ AddressOrder stsizeT s.pool := by
  obtain ⟨s,hrun,-⟩ := (poolMachine stsizeT).exists_run (fun s => s.pool.mp = 100) smallPool
    returningCalls (by decide +kernel)
  exact ⟨s,hrun,((poolRun_addressOrder_iff smallPool_fits (by decide +kernel) hrun).mpr
    (by decide +kernel)).2⟩

theorem poolRun_spaced (hfits : PoolFits w p size)
    (hsafe : (poolMachine w).Along (PoolSafe w) (poolInit w p size mem) ls)
    (habove : (poolMachine w).Along (FreesAbove w) (poolInit w p size mem) ls)
    (hrun : (poolMachine w).run (poolInit w p size mem) ls = some s) :
    ∃ fl us, PoolInv w p (p+size) s fl us ∧ Spaced fl := by
  obtain ⟨fl,us,hinv⟩ := poolRun_invariant hfits hsafe hrun
  have horder := ((poolRun_addressOrder_iff hfits hsafe hrun).mpr habove).2
  exact ⟨fl,us,hinv,hinv.addressOrder_iff.mp horder⟩

/-- When everything has been given back there is a single block again, which is the pool. -/
theorem poolRun_joined (hfits : PoolFits w p size)
    (hsafe : (poolMachine w).Along (PoolSafe w) (poolInit w p size mem) ls)
    (habove : (poolMachine w).Along (FreesAbove w) (poolInit w p size mem) ls)
    (hrun : (poolMachine w).run (poolInit w p size mem) ls = some s)
    (hback : ∀ q ≤ p+size, s.held q = none) :
    s.pool.mp = p ∧ s.pool.next p = 0 ∧ s.pool.len w p = size-hlen w := by
  obtain ⟨fl,us,hinv,hspaced⟩ := poolRun_spaced hfits hsafe habove hrun
  have hus : us = [] := by
    by_contra hne
    obtain ⟨t,us,rfl⟩ := List.exists_cons_of_ne_nil hne
    have hheld := (hinv.held (t.pos+hlen w)).mpr ⟨t,List.mem_cons_self,rfl⟩
    have hin := hinv.well.tiled.within (t:=t) (by simp)
    have hle := hinv.well.hlen_le (t:=t) (by simp)
    rw [hback _ (by unfold Span.stop at hin; omega)] at hheld
    cases hheld
  subst hus
  have htiled := hinv.well.tiled
  rw [List.append_nil] at htiled
  have hsize : 0 < size := Nat.lt_of_lt_of_le hlen_pos hfits.room
  have hone := htiled.eq_one (by omega) fun t ht u hu => by
    by_cases htu : t = u
    · have hpos := htiled.size_pos t ht
      rw [← htu]
      unfold Span.stop
      omega
    · have hfar := hspaced.apart ht hu htu
      unfold Span.stop at hfar ⊢
      omega
  rw [Nat.add_sub_cancel_left] at hone
  subst hone
  have hmp : s.pool.mp = p :=
    Well.next_of_head hinv.well.linked fun u hu => hinv.well.pos_pos (List.mem_append_left _ hu)
  have hnext : s.pool.next p = 0 :=
    Well.next_of_head (r:=[]) hinv.well.linked.2 fun u hu => absurd hu List.not_mem_nil
  exact ⟨hmp,hnext,len_of_span (t:=⟨p,size⟩) (hinv.well.sized _ (by simp))⟩

theorem poolRun_joined_returning : ∃ s,
    (poolMachine stsizeT).run smallPool returningCalls = some s ∧ s.pool.len stsizeT 100 = 94 := by
  obtain ⟨s,hrun,hall⟩ := (poolMachine stsizeT).exists_run
    (fun s => (List.range 201).all (fun q => (s.held q).isNone) = true) smallPool returningCalls
    (by decide +kernel)
  have hback : ∀ q ≤ 200, s.held q = none := fun q hq =>
    Option.isNone_iff_eq_none.mp (List.all_eq_true.mp hall q (List.mem_range.mpr (Nat.lt_succ_of_le hq)))
  exact ⟨s,hrun,(poolRun_joined smallPool_fits (by decide +kernel) (by decide +kernel) hrun hback).2.2⟩

/-- `malloc` fails only where every stretch that is long enough runs into a block in use. -/
theorem poolRun_malloc_null_iff (hfits : PoolFits w p size)
    (hsafe : (poolMachine w).Along (PoolSafe w) (poolInit w p size mem) ls)
    (habove : (poolMachine w).Along (FreesAbove w) (poolInit w p size mem) ls)
    (hrun : (poolMachine w).run (poolInit w p size mem) ls = some s) (n : ℕ) :
    (∃ pool, MemPool.malloc w s.pool n = .ok (0,pool)) ↔
      ∀ a, p ≤ a → a+(hlen w+evenSize w n) ≤ p+size → ∃ q, (s.held q).isSome ∧
        q-hlen w < a+(hlen w+evenSize w n) ∧ a < q+s.pool.len w (q-hlen w) := by
  obtain ⟨fl,us,hinv,hspaced⟩ := poolRun_spaced hfits hsafe habove hrun
  have hh : 0 < hlen w := hlen_pos
  have hnull : (∃ pool, MemPool.malloc w s.pool n = .ok (0,pool)) ↔
      take (hlen w) (minBlock w) (evenSize w n) fl = none := by
    obtain ⟨⟨q,pool⟩,hmalloc,⟨hnone,hx⟩ | ⟨u,fl',htake,rfl,-⟩⟩ := spec_total_iff.mp (hinv.mallocs n)
    · cases hx
      exact iff_of_true ⟨s.pool,hmalloc⟩ hnone
    · refine iff_of_false (fun ⟨pool',hzero⟩ => ?_) (by rw [htake]; exact Option.some_ne_none _)
      have hq := congrArg Prod.fst (Except.ok.inj (hmalloc.symm.trans hzero))
      dsimp only at hq
      omega
  -- the blocks in use are those of the program
  have hused : ∀ t ∈ us, (s.held (t.pos+hlen w)).isSome ∧
      t.pos+hlen w+s.pool.len w (t.pos+hlen w-hlen w) = t.stop := by
    intro t ht
    have hsized := hinv.well.sized t (List.mem_append_right fl ht)
    have hle := hlen_le_of_span hsized
    refine ⟨(hinv.held _).mpr ⟨t,ht,rfl⟩,?_⟩
    rw [Nat.add_sub_cancel,len_of_span hsized,Span.stop]
    omega
  rw [hnull,take_eq_none_iff]
  constructor
  · intro hsmall a hlo hhi
    by_contra hfree
    push Not at hfree
    obtain ⟨t,ht,hle,hstop⟩ := hspaced.exists_of_gap (a:=a) (k:=hlen w+evenSize w n) (by omega)
      fun x hx1 hx2 => by
        obtain ⟨t,ht,h1,h2⟩ := (hinv.well.tiled.covers x).mp ⟨by omega,by omega⟩
        rcases List.mem_append.mp ht with ht | ht
        · exact ⟨t,ht,h1,h2⟩
        · obtain ⟨hheld,hstop⟩ := hused t ht
          have hbeside := hfree _ hheld
          omega
    have hlt := hsmall t ht
    unfold Span.stop at hstop
    omega
  · intro hall t ht
    by_contra hroom
    have hin := hinv.well.tiled.within (List.mem_append_left us ht)
    obtain ⟨q,hq,hbelow,habove⟩ := hall t.pos hin.1 (by unfold Span.stop at hin; omega)
    obtain ⟨u,hu,rfl⟩ := (hinv.held q).mp hq
    have hstop := (hused u hu).2
    have hapart := hinv.well.apart_used ht hu
    unfold Span.Apart at hapart
    have hsum : t.stop = t.pos+t.size := rfl
    omega

/-- There is no room for 60 bytes, and there is for 30. -/
theorem poolRun_malloc_null_iff_growing : ∃ s,
    (poolMachine stsizeT).run smallPool growingCalls = some s ∧
    (∀ a, 100 ≤ a → a+66 ≤ 200 → ∃ q, (s.held q).isSome ∧ q-6 < a+66 ∧
      a < q+s.pool.len stsizeT (q-6)) ∧
    ¬∀ a, 100 ≤ a → a+36 ≤ 200 → ∃ q, (s.held q).isSome ∧ q-6 < a+36 ∧
      a < q+s.pool.len stsizeT (q-6) := by
  obtain ⟨s,hrun,hnull,hroom⟩ := (poolMachine stsizeT).exists_run
    (fun s => (MemPool.malloc stsizeT s.pool 60).toOption.any (fun r => decide (r.1 = 0)) = true ∧
      (MemPool.malloc stsizeT s.pool 30).toOption.any (fun r => decide (r.1 ≠ 0)) = true)
    smallPool growingCalls (by decide +kernel)
  have hiff := poolRun_malloc_null_iff smallPool_fits (by decide +kernel) (by decide +kernel) hrun
  refine ⟨s,hrun,(hiff 60).mp ?_,mt (hiff 30).mpr ?_⟩
  · obtain ⟨⟨q,pool⟩,hmalloc,hq⟩ := exists_ok hnull
    cases of_decide_eq_true hq
    exact ⟨pool,hmalloc⟩
  · rintro ⟨pool,hzero⟩
    obtain ⟨r,hmalloc,hq⟩ := exists_ok hroom
    cases hmalloc.symm.trans hzero
    exact of_decide_eq_true hq rfl

end

end Tinker

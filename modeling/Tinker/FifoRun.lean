import Mathlib.Data.Fintype.Sum
import Tinker.Fifo
import Tinker.Simulation

/-! What threads pass to each other through FIFOs. A block is in the hands of the writer that has got
it, then of the message that points to it, and the reader of that message frees it. -/
namespace Tinker

open Kernel Outcome MqState Owned

variable {cfg : Config}

/-- The same elements, in the same order if `T`. -/
def Reordered {A : Type*} (T : Prop) (l l' : List A) : Prop := l.Perm l' ∧ (T → l = l')

namespace Reordered

variable {A B : Type*} {T : Prop} {l l' l2 m m' : List A}

theorem refl (l : List A) : Reordered T l l := ⟨.refl l,fun _ => rfl⟩

theorem of_eq (h : l = l') : Reordered T l l' := ⟨.of_eq h,fun _ => h⟩

theorem symm (h : Reordered T l l') : Reordered T l' l := ⟨h.1.symm,fun hT => (h.2 hT).symm⟩

theorem trans (h : Reordered T l l') (h' : Reordered T l' l2) : Reordered T l l2 :=
  ⟨h.1.trans h'.1,fun hT => (h.2 hT).trans (h'.2 hT)⟩

theorem map (f : A → B) (h : Reordered T l l') : Reordered T (l.map f) (l'.map f) :=
  ⟨h.1.map f,fun hT => congrArg (List.map f) (h.2 hT)⟩

theorem append (h : Reordered T l l') (h' : Reordered T m m') :
    Reordered T (l ++ m) (l' ++ m') :=
  ⟨h.1.append h'.1,fun hT => by rw [h.2 hT,h'.2 hT]⟩

theorem of_append (h : Reordered T (l ++ m) (l ++ m')) : Reordered T m m' :=
  ⟨(List.perm_append_left_iff l).mp h.1,fun hT => List.append_cancel_left (h.2 hT)⟩

end Reordered

namespace MqState

variable {T : Prop} {s s' : MqState cfg} {own : QueueId → List ℕ} {q : QueueId} {prio : ℕ}

/-- With one priority for all messages a queue is one line: what has been accepted is what has been
returned and what is stored. -/
theorem conserved (h : MqInv T own s) (hl : s.Live (.queue q))
    (hp : ∀ x ∈ s.accepted q, x.2 = prio) :
    Reordered T ((s.accepted q).map some)
      ((s.returned q).map (fun r => some (r.bytes,r.prio)) ++ s.contents q) := by
  obtain ⟨free,hk⟩ := h.keeps q hl
  refine ⟨hk.kept,fun hT => ?_⟩
  have hin : ∀ c ∈ (s.returned q).map (fun r => some (r.bytes,r.prio)) ++ s.contents q,
      ∃ x ∈ s.accepted q, c = some x := by
    intro c hc
    obtain ⟨x,hx,rfl⟩ := List.mem_map.mp (hk.kept.mem_iff.mpr hc)
    exact ⟨x,hx,rfl⟩
  have haccepted : (s.accepted q).filter (fun x => x.2 = prio) = s.accepted q :=
    List.filter_eq_self.mpr fun x hx => decide_eq_true (hp x hx)
  have hreturned : (s.returned q).filter (fun r => r.prio = prio) = s.returned q := by
    refine List.filter_eq_self.mpr fun r hr => decide_eq_true ?_
    obtain ⟨x,hx,he⟩ := hin _ (List.mem_append_left _ (List.mem_map_of_mem hr))
    obtain rfl := Option.some.inj he
    exact hp _ hx
  have hstored : (s.queuePool q).messages.filter (fun m => m.order.prio = prio) =
      (s.queuePool q).messages := by
    refine List.filter_eq_self.mpr fun m hm => decide_eq_true ?_
    obtain ⟨x,hx,he⟩ := hin _ (List.mem_append_right _ (List.mem_map_of_mem hm))
    rw [MessT.content,Option.bind_eq_some_iff] at he
    obtain ⟨b,-,he⟩ := he
    obtain ⟨bytes,-,he⟩ := Option.map_eq_some_iff.mp he
    have hx := hp x hx
    rwa [← he] at hx
  have hturn := (hk.turn hT).turn prio
  rw [haccepted,hreturned,hstored] at hturn
  exact hturn

/-- The stored messages of a queue change as the logs do. -/
theorem contents_of_logs (h : MqInv T own s) (h' : MqInv T own s') (hl : s.Live (.queue q))
    (hl' : s'.Live (.queue q)) (hp : ∀ x ∈ s.accepted q, x.2 = prio)
    (hp' : ∀ x ∈ s'.accepted q, x.2 = prio) (sent : List (List Byte × ℕ)) (taken : List Receipt)
    (ha : s'.accepted q = s.accepted q ++ sent) (hr : s'.returned q = s.returned q ++ taken) :
    Reordered T (s.contents q ++ sent.map some)
      (taken.map (fun r => some (r.bytes,r.prio)) ++ s'.contents q) := by
  have hold := conserved h hl hp
  have hnew := conserved h' hl' hp'
  rw [ha,hr,List.map_append,List.map_append,List.append_assoc] at hnew
  have hall := (hold.append (.refl (sent.map some))).symm.trans hnew
  rw [List.append_assoc] at hall
  exact hall.of_append

end MqState

/-- `c` is a message that points to the block `p`. -/
def CarriesAt (data : ℕ → Option (List Byte)) (p : ℕ) (c : Option (List Byte × ℕ)) : Prop :=
  p < 2^32 ∧ ∃ block, data p = some block ∧ block.length < 2^31 ∧
    c = some ((FifoMsgT.mk block.length p).bytes,defPrio)

/-- What a thread's call is, by where it is in the call below. -/
def CallFits (data : ℕ → Option (List Byte)) (call : FifoCall) : MqLoc → Prop
  | .user => call = .idle
  | .sendWait a => ∃ p ptr, call = .writing p ptr ∧ data p = some ptr ∧
    CarriesAt data p (some (a.msg,a.msgprio))
  | .sendPost => ∃ p ptr, call = .writing p ptr
  | .leaving .sent => ∃ p ptr, call = .writing p ptr
  | .leaving (.failed _) => call ≠ .idle
  | .leaving (.received _ _) => False
  | .recvWait _ => ∃ len, call = .reading len
  | .recvPost _ _ => ∃ len, call = .reading len
  | .recvSem _ _ => ∃ len, call = .reading len

namespace FifoMsgT

theorem ofBytes_bytes {n p : ℕ} (hn : n < 2^31) (hp : p < 2^32) :
    ofBytes (FifoMsgT.mk n p).bytes = ⟨n,p⟩ := by
  have hlen : sizeOfInt (n : ℤ) = n := by
    rw [sizeOfInt,sizeMod]
    omega
  have htake : (FifoMsgT.mk n p).bytes.take 4 = leBytes 4 n := by
    rw [bytes,hlen,List.take_left' (leBytes_length 4 n)]
  have hdrop : ((FifoMsgT.mk n p).bytes.drop 4).take 4 = leBytes 4 p := by
    rw [bytes,hlen,List.drop_left' (leBytes_length 4 n),
      List.take_of_length_le (Nat.le_of_eq (leBytes_length 4 p))]
  rw [ofBytes,htake,hdrop,leNat_leBytes,leNat_leBytes,Nat.mod_eq_of_lt (by omega),
    Nat.mod_eq_of_lt (by omega),toInt32_of_int (by omega) (by omega)]

end FifoMsgT

section

variable {data data' : ℕ → Option (List Byte)} {p : ℕ} {c : Option (List Byte × ℕ)}

/-- The pointer of a message is read back. -/
theorem CarriesAt.data_eq (h : CarriesAt data p c) :
    (FifoMsgT.ofBytes (c.getD ([],0)).1).data = p := by
  obtain ⟨hp,block,-,hlen,rfl⟩ := h
  exact congrArg FifoMsgT.data (FifoMsgT.ofBytes_bytes hlen hp)

theorem CarriesAt.congr (h : CarriesAt data p c) (hd : data' p = data p) : CarriesAt data' p c := by
  rwa [CarriesAt,hd]

theorem CallFits.congr {call : FifoCall} {x : MqLoc} (h : CallFits data call x)
    (hd : ∀ p ptr, call = .writing p ptr → x.leaves ≠ some .sent → data' p = data p) :
    CallFits data' call x := by
  cases x with
  | sendWait a =>
    obtain ⟨p,ptr,hcall,hp,hc⟩ := h
    have hsame := hd p ptr hcall (by rintro ⟨⟩)
    exact ⟨p,ptr,hcall,hsame.trans hp,hc.congr hsame⟩
  | leaving r =>
    cases r with
    | sent => exact h
    | failed e => exact h
    | received bytes prio => exact h
  | user => exact h
  | sendPost => exact h
  | recvWait a => exact h
  | recvPost a q => exact h
  | recvSem a q => exact h

theorem logged_self {A : Type*} (x : QueueId → List A) (bytes : List Byte)
    (log : QueueId → List (List Byte)) : logged x x bytes log = log :=
  funext fun _ => if_neg (Nat.lt_irrefl _)

theorem logged_update {A : Type*} (x : QueueId → List A) (q : QueueId) (a : A) (bytes : List Byte)
    (log : QueueId → List (List Byte)) :
    logged x (Function.update x q (x q ++ [a])) bytes log =
      Function.update log q (log q ++ [bytes]) := by
  funext u
  rw [logged]
  by_cases hu : u = q
  · subst hu
    rw [Function.update_self,Function.update_self,if_pos (by simp)]
  · rw [Function.update_of_ne hu,Function.update_of_ne hu,if_neg (Nat.lt_irrefl _)]

end

namespace FifoState

/-- In the middle of a step: all but the call of the running thread is in order. -/
structure Mid (T : Prop) (own : QueueId → List ℕ) (s : FifoState cfg) : Prop where
  mq : MqInv T own s.mq
  owns : Owns s.data s.held
  prios : ∀ q, s.mq.Live (.queue q) → ∀ x ∈ s.mq.accepted q, x.2 = defPrio
  carries : ∀ q, s.mq.Live (.queue q) → ∀ c ∈ s.mq.contents q, ∃ p, CarriesAt s.data p c
  kept : ∀ q, s.mq.Live (.queue q) → Reordered T ((s.written q).map some)
    ((s.got q).map some ++ (s.inQueue q).map s.data)
  others : ∀ t, t ≠ s.mq.me → CallFits s.data (s.call t) (s.mq.loc t)

/-- Only the running thread has moved. -/
structure Moves (s s' : FifoState cfg) : Prop where
  mq : s.mq.Moves s'.mq
  call : ∀ t, t ≠ s.mq.me → s'.call t = s.call t

end FifoState

/-- The blocks of the driver and its messages between steps. -/
structure FifoInv (T : Prop) (own : QueueId → List ℕ) (s : FifoState cfg) : Prop extends
    s.Mid T own where
  running : CallFits s.data (s.call s.mq.me) (s.mq.loc s.mq.me)

section

variable {T : Prop} {own : QueueId → List ℕ} {s s' : FifoState cfg} {q : QueueId} {p : ℕ}

theorem FifoInv.calls (h : FifoInv T own s) (t : Thid cfg) :
    CallFits s.data (s.call t) (s.mq.loc t) := by
  by_cases ht : t = s.mq.me
  · subst ht
    exact h.running
  · exact h.others t ht

namespace FifoState

theorem Moves.live (h : s.Moves s') : s'.mq.Live (.queue q) ↔ s.mq.Live (.queue q) := by
  rw [Live,Live,h.mq.taken]

theorem Moves.inHand (h : s.Moves s') {t : Thid cfg} (ht : t ≠ s.mq.me) :
    s'.inHand t = s.inHand t := by
  rw [FifoState.inHand,FifoState.inHand,h.call t ht,h.mq.others t ht]

theorem held_live (hl : s.mq.Live (.queue q)) : s.held (.inl q) = s.inQueue q := if_pos hl

/-- The queues hold the same blocks as long as no message of theirs comes or goes. -/
theorem Moves.held (h : s.Moves s')
    (hq : ∀ q, s.mq.Live (.queue q) → (s'.mq.contents q).Perm (s.mq.contents q)) (q : QueueId) :
    (s'.held (.inl q)).Perm (s.held (.inl q)) := by
  rw [FifoState.held,FifoState.held,h.mq.taken]
  split_ifs with ht
  · exact (hq q ht).map _
  · exact .refl _

/-- A call goes on, and no message comes or goes. -/
theorem Mid.stays (h : s.Mid T own) (hm : s.Moves s') (hmq : MqInv T own s'.mq)
    (hlogs : s.mq.SameLogs s'.mq) (hdata : s'.data = s.data) (hw : s'.written = s.written)
    (hg : s'.got = s.got) (hhand : s'.inHand s.mq.me = s.inHand s.mq.me) : s'.Mid T own := by
  have hprios : ∀ q, s'.mq.Live (.queue q) → ∀ x ∈ s'.mq.accepted q, x.2 = defPrio := by
    intro q hl x hx
    rw [hlogs.1] at hx
    exact h.prios q (hm.live.mp hl) x hx
  have hcontents : ∀ q, s.mq.Live (.queue q) →
      Reordered T (s.mq.contents q) (s'.mq.contents q) := by
    intro q hl
    have hl' := hm.live.mpr hl
    have hsame := contents_of_logs h.mq hmq hl hl' (h.prios q hl) (hprios q hl') [] []
      (by rw [hlogs.1,List.append_nil]) (by rw [hlogs.2,List.append_nil])
    rwa [List.map_nil,List.append_nil] at hsame
  refine ⟨hmq,?_,hprios,fun q hl c hc => ?_,fun q hl => ?_,fun t ht => ?_⟩
  · rw [hdata]
    refine h.owns.perm fun i => ?_
    cases i with
    | inl q => exact hm.held (fun q hl => (hcontents q hl).1.symm) q
    | inr t =>
      by_cases ht : t = s.mq.me
      · subst ht
        exact .of_eq hhand
      · exact .of_eq (hm.inHand ht)
  · have hl := hm.live.mp hl
    rw [hdata]
    exact h.carries q hl c ((hcontents q hl).1.mem_iff.mpr hc)
  · have hl := hm.live.mp hl
    rw [hdata,hw,hg]
    exact (h.kept q hl).trans ((Reordered.refl _).append (((hcontents q hl).map _).map _))
  · rw [hm.mq.me] at ht
    rw [hdata,hm.call t ht,hm.mq.others t ht]
    exact h.others t ht

/-- A block goes over from the hands of the running thread to a message of queue `q`. -/
theorem Mid.stores (h : s.Mid T own) (hm : s.Moves s') (hmq : MqInv T own s'.mq)
    (hl : s.mq.Live (.queue q)) {x : List Byte × ℕ} (hc : CarriesAt s.data p (some x))
    (ha : s'.mq.accepted = Function.update s.mq.accepted q (s.mq.accepted q ++ [x]))
    (hr : s'.mq.returned = s.mq.returned) (hdata : s'.data = s.data)
    (hw : s'.written = Function.update s.written q (s.written q ++ [(s.data p).getD []]))
    (hg : s'.got = s.got) (hhand : s.inHand s.mq.me = [p]) (hhand' : s'.inHand s.mq.me = []) :
    s'.Mid T own := by
  have haccepted : ∀ u, s'.mq.accepted u = s.mq.accepted u ++ if u = q then [x] else [] := by
    intro u
    rw [ha]
    by_cases hu : u = q
    · rw [if_pos hu,hu,Function.update_self]
    · rw [if_neg hu,Function.update_of_ne hu,List.append_nil]
  have hprios : ∀ u, s'.mq.Live (.queue u) → ∀ y ∈ s'.mq.accepted u, y.2 = defPrio := by
    intro u hlu y hy
    rw [haccepted,List.mem_append] at hy
    rcases hy with hy | hy
    · exact h.prios u (hm.live.mp hlu) y hy
    · by_cases hu : u = q
      · rw [if_pos hu,List.mem_singleton] at hy
        obtain ⟨-,block,-,-,he⟩ := hc
        rw [hy,Option.some.inj he]
      · rw [if_neg hu] at hy
        cases hy
  have hcontents : ∀ u, s.mq.Live (.queue u) → Reordered T
      (s.mq.contents u ++ (if u = q then [x] else []).map some) (s'.mq.contents u) := by
    intro u hlu
    have hlu' := hm.live.mpr hlu
    exact contents_of_logs h.mq hmq hlu hlu' (h.prios u hlu) (hprios u hlu') _ []
      (haccepted u) (by rw [hr,List.append_nil])
  have hothers : ∀ u, u ≠ q → s.mq.Live (.queue u) →
      Reordered T (s.mq.contents u) (s'.mq.contents u) := by
    intro u hu hlu
    have hsame := hcontents u hlu
    rwa [if_neg hu,List.map_nil,List.append_nil] at hsame
  have hq := hcontents q hl
  rw [if_pos rfl] at hq
  have hinQueue : Reordered T (s.inQueue q ++ [p]) (s'.inQueue q) := by
    have hmap := hq.map fun c => (FifoMsgT.ofBytes (c.getD ([],0)).1).data
    rw [List.map_append] at hmap
    have hp : [p] = ([x].map some).map fun c => (FifoMsgT.ofBytes (c.getD ([],0)).1).data :=
      congrArg (· :: []) hc.data_eq.symm
    rwa [hp]
  refine ⟨hmq,?_,hprios,fun u hlu c hcu => ?_,fun u hlu => ?_,fun t ht => ?_⟩
  · rw [hdata]
    refine h.owns.pass (i:=.inr s.mq.me) (j:=.inl q) (p:=p) Sum.inr_ne_inl ?_ ?_ ?_
    · exact .of_eq (hhand.trans (congrArg (p :: ·) hhand'.symm))
    · rw [held_live hl,held_live (hm.live.mpr hl)]
      exact hinQueue.1.symm.trans (List.perm_append_singleton p _)
    · intro k hk hkq
      cases k with
      | inl u =>
        have hu : u ≠ q := fun he => hkq (congrArg Sum.inl he)
        rw [held,held,hm.mq.taken]
        split_ifs with ht
        · exact ((hothers u hu ht).1.symm).map _
        · exact .refl _
      | inr t =>
        have ht : t ≠ s.mq.me := fun he => hk (congrArg Sum.inr he)
        exact .of_eq (hm.inHand ht)
  · have hlu := hm.live.mp hlu
    rw [hdata]
    have hmem := (hcontents u hlu).1.mem_iff.mpr hcu
    rcases List.mem_append.mp hmem with hold | hnew
    · exact h.carries u hlu c hold
    · by_cases hu : u = q
      · rw [if_pos hu] at hnew
        obtain rfl := List.mem_singleton.mp hnew
        exact ⟨p,hc⟩
      · rw [if_neg hu] at hnew
        cases hnew
  · have hlu := hm.live.mp hlu
    rw [hdata,hw,hg]
    by_cases hu : u = q
    · subst hu
      obtain ⟨-,block,hblock,-,-⟩ := hc
      have hmore := ((h.kept u hlu).append (.refl [some block])).trans (.of_eq (List.append_assoc ..))
      rw [Function.update_self,hblock,Option.getD_some,List.map_append]
      refine hmore.trans ((Reordered.refl _).append ?_)
      have hmap := hinQueue.map s.data
      rwa [List.map_append,List.map_singleton,hblock] at hmap
    · rw [Function.update_of_ne hu]
      exact (h.kept u hlu).trans ((Reordered.refl _).append (((hothers u hu hlu).map _).map _))
  · rw [hm.mq.me] at ht
    rw [hdata,hm.call t ht,hm.mq.others t ht]
    exact h.others t ht

/-- The message that has been fetched points to a block of its queue. -/
theorem Mid.fetched (h : s.Mid T own) {mq : MqState cfg} (hm : s.mq.Moves mq) (hmq : MqInv T own mq)
    (hl : s.mq.Live (.queue q)) {r : Receipt} (ha : mq.accepted = s.mq.accepted)
    (hr : mq.returned = Function.update s.mq.returned q (s.mq.returned q ++ [r])) :
    (∃ p, CarriesAt s.data p (some (r.bytes,r.prio))) ∧
      ∀ u, s.mq.Live (.queue u) → Reordered T (s.mq.contents u)
        ((if u = q then [some (r.bytes,r.prio)] else []) ++ mq.contents u) := by
  have hcontents : ∀ u, s.mq.Live (.queue u) → Reordered T (s.mq.contents u)
      ((if u = q then [some (r.bytes,r.prio)] else []) ++ mq.contents u) := by
    intro u hlu
    have hlu' : mq.Live (.queue u) := (hm.taken u).trans hlu
    have hlogs := contents_of_logs h.mq hmq hlu hlu' (h.prios u hlu)
      (by rw [ha]; exact h.prios u hlu) [] (if u = q then [r] else [])
      (by rw [ha,List.append_nil]) ?_
    · rw [List.map_nil,List.append_nil] at hlogs
      split_ifs at hlogs ⊢ <;> exact hlogs
    · rw [hr]
      by_cases hu : u = q
      · rw [if_pos hu,hu,Function.update_self]
      · rw [if_neg hu,Function.update_of_ne hu,List.append_nil]
  refine ⟨?_,hcontents⟩
  have hq := hcontents q hl
  rw [if_pos rfl] at hq
  exact h.carries q hl _ (hq.1.mem_iff.mpr List.mem_cons_self)

/-- The running thread has read the message that pointed to the block, and freed it. -/
theorem Mid.frees (h : s.Mid T own) (hm : s.Moves s') (hmq : MqInv T own s'.mq)
    (hl : s.mq.Live (.queue q)) {c : Option (List Byte × ℕ)} (hc : CarriesAt s.data p c)
    (ha : s'.mq.accepted = s.mq.accepted)
    (hcontents : ∀ u, s.mq.Live (.queue u) → Reordered T (s.mq.contents u)
      ((if u = q then [c] else []) ++ s'.mq.contents u))
    (hdata : s'.data = Function.update s.data p none) (hw : s'.written = s.written)
    (hg : s'.got = Function.update s.got q (s.got q ++ [(s.data p).getD []]))
    (hhand : s'.inHand s.mq.me = s.inHand s.mq.me) : s'.Mid T own := by
  have hothers : ∀ u, u ≠ q → s.mq.Live (.queue u) →
      Reordered T (s.mq.contents u) (s'.mq.contents u) := by
    intro u hu hlu
    have hsame := hcontents u hlu
    rwa [if_neg hu,List.nil_append] at hsame
  have hinQueue : Reordered T (s.inQueue q) (p :: s'.inQueue q) := by
    have hq := hcontents q hl
    rw [if_pos rfl] at hq
    have hmap := hq.map fun c => (FifoMsgT.ofBytes (c.getD ([],0)).1).data
    rwa [List.singleton_append,List.map_cons,hc.data_eq] at hmap
  have howns : Owns s'.data s'.held := by
    rw [hdata]
    refine h.owns.free (i:=.inl q) (p:=p) ?_ fun j hj => ?_
    · rw [held_live hl,held_live (hm.live.mpr hl)]
      exact hinQueue.1
    · cases j with
      | inl u =>
        have hu : u ≠ q := fun he => hj (congrArg Sum.inl he)
        rw [held,held,hm.mq.taken]
        split_ifs with ht
        · exact ((hothers u hu ht).1.symm).map _
        · exact .refl _
      | inr t =>
        by_cases ht : t = s.mq.me
        · subst ht
          exact .of_eq hhand
        · exact .of_eq (hm.inHand ht)
  -- what is still held is not what has been freed
  have hsame : ∀ {i x}, x ∈ s'.held i → s'.data x = s.data x := by
    intro i x hx
    have hsome := howns.isSome hx
    rw [hdata] at hsome ⊢
    refine Function.update_of_ne ?_ _ _
    rintro rfl
    rw [Function.update_self] at hsome
    cases hsome
  have hin : ∀ u, s'.mq.Live (.queue u) → ∀ x ∈ s'.inQueue u, s'.data x = s.data x := by
    intro u hlu x hx
    rw [← held_live hlu] at hx
    exact hsame hx
  refine ⟨hmq,howns,fun u hlu x hx => ?_,fun u hlu c' hcu => ?_,fun u hlu => ?_,fun t ht => ?_⟩
  · rw [ha] at hx
    exact h.prios u (hm.live.mp hlu) x hx
  · have hmem := (hcontents u (hm.live.mp hlu)).1.mem_iff.mpr (List.mem_append_right _ hcu)
    obtain ⟨x,hx⟩ := h.carries u (hm.live.mp hlu) c' hmem
    refine ⟨x,hx.congr (hin u hlu x ?_)⟩
    rw [inQueue,← hx.data_eq]
    exact List.mem_map_of_mem hcu
  · have hlu' := hm.live.mp hlu
    rw [List.map_congr_left (hin u hlu),hw,hg]
    by_cases hu : u = q
    · subst hu
      obtain ⟨-,block,hblock,-,-⟩ := hc
      have hmap := hinQueue.map s.data
      rw [List.map_cons,hblock] at hmap
      rw [Function.update_self,hblock,Option.getD_some,List.map_append,List.append_assoc]
      exact (h.kept u hlu').trans ((Reordered.refl _).append hmap)
    · rw [Function.update_of_ne hu]
      exact (h.kept u hlu').trans ((Reordered.refl _).append (((hothers u hu hlu').map _).map _))
  · rw [hm.mq.me] at ht
    have hcall := h.others t ht
    rw [← hm.call t ht,← hm.mq.others t ht] at hcall
    refine hcall.congr fun x ptr hx hleaves => hsame (i:=.inr t) ?_
    rw [held,FifoState.inHand,hx]
    dsimp only
    rw [if_neg hleaves]
    exact List.mem_singleton_self x

theorem inHand_writing {t : Thid cfg} {ptr : List Byte} (hcall : s.call t = .writing p ptr)
    (hloc : (s.mq.loc t).leaves ≠ some .sent) : s.inHand t = [p] := by
  rw [inHand,hcall]
  exact if_neg hloc

theorem inHand_sent {t : Thid cfg} (hloc : (s.mq.loc t).leaves = some .sent) : s.inHand t = [] := by
  unfold inHand
  split
  · exact if_pos hloc
  · rfl

theorem inHand_reading {t : Thid cfg} {len : ℤ} (hcall : s.call t = .reading len) :
    s.inHand t = [] := by
  rw [inHand,hcall]

theorem inHand_idle {t : Thid cfg} (hcall : s.call t = .idle) : s.inHand t = [] := by
  rw [inHand,hcall]

theorem endFifo_call (s : FifoState cfg) (r : ℤ) (bytes : List Byte) :
    (s.endFifo r bytes).call s.mq.me = .idle := Function.update_self ..

theorem Moves.endFifo {r : ℤ} {bytes : List Byte} (h : s.Moves s') :
    s.Moves (s'.endFifo r bytes) where
  mq := h.mq
  call t ht := (Function.update_of_ne (h.mq.me ▸ ht) _ _).trans (h.call t ht)

theorem setMq_moves {mq : MqState cfg} (hm : s.mq.Moves mq) : s.Moves (s.setMq mq) :=
  ⟨hm,fun _ _ => rfl⟩

theorem noteWrite_moves {mq : MqState cfg} {ptr : List Byte} (hm : s.mq.Moves mq) :
    s.Moves (s.noteWrite mq ptr) :=
  ⟨hm,fun _ _ => rfl⟩

theorem noteWrite_written {mq : MqState cfg} {ptr : List Byte} (hlogs : s.mq.SameLogs mq) :
    (s.noteWrite mq ptr).written = s.written := by
  have hw : (s.noteWrite mq ptr).written = logged s.mq.accepted mq.accepted ptr s.written := rfl
  rw [hw,hlogs.1,logged_self]

end FifoState

/-- What may stop a call: an assert of its own, or the queue below, but no block that is not
allocated. -/
def FifoFault.Safe (R : Fault → Prop) : FifoFault → Prop
  | .mq f => R f
  | .badPointer => False
  | _ => True

namespace FifoState

variable {mq : MqState cfg} {R : Fault → Prop} {e : MqErr} {len : ℤ} {a : SendArgs} {ptr : List Byte}

theorem goOn_writing (hcall : s.call mq.me = .writing p ptr) : s.goOn (.ok mq) =
    if mq.loc mq.me = .user then (s.noteWrite mq ptr).writeEnds else .ok (s.noteWrite mq ptr) := by
  have hok : (Except.ok mq : Except Fault (MqState cfg)).mapError FifoFault.mq = .ok mq := rfl
  rw [goOn,hok,ok_bind,hcall]
  rfl

theorem goOn_reading (hcall : s.call mq.me = .reading len) : s.goOn (.ok mq) =
    if mq.loc mq.me = .user then (s.setMq mq).readEnds len s.mq.returned else .ok (s.setMq mq) := by
  have hok : (Except.ok mq : Except Fault (MqState cfg)).mapError FifoFault.mq = .ok mq := rfl
  rw [goOn,hok,ok_bind,hcall]
  rfl

/-- The asserts around a call that has failed do not let it return. -/
theorem Mid.goOn_fails (h : s.Mid T own) (hcall : s.call s.mq.me ≠ .idle)
    (hloc : (s.mq.loc s.mq.me).leaves ≠ some .sent) (hmq : MqInv T own mq) (hm : s.mq.Moves mq)
    (hlogs : s.mq.SameLogs mq) (hends : mq.Ends (.failed e)) :
    Spec (s.goOn (.ok mq)) (FifoInv T own) (FifoFault.Safe R) := by
  rw [MqState.Ends,hm.me] at hends
  have hleaves : mq.loc s.mq.me = .leaving (.failed e) → (mq.loc s.mq.me).leaves ≠ some .sent := by
    intro hx
    rw [hx]
    rintro ⟨⟩
  have hfits : mq.loc s.mq.me = .leaving (.failed e) →
      CallFits s.data (s.call mq.me) (mq.loc mq.me) := by
    intro hx
    rw [hm.me,hx]
    exact hcall
  cases hx : s.call s.mq.me with
  | idle => exact absurd hx hcall
  | writing p ptr =>
    rw [goOn_writing (by rw [hm.me,hx]),hm.me]
    rcases hends with hleft | ⟨huser,hret⟩
    · have hhand : (s.noteWrite mq ptr).inHand s.mq.me = s.inHand s.mq.me :=
        (inHand_writing (s:=s.noteWrite mq ptr) hx (hleaves hleft)).trans (inHand_writing hx hloc).symm
      rw [if_neg (by rw [hleft]; rintro ⟨⟩)]
      exact ⟨h.stays (noteWrite_moves hm) hmq hlogs rfl (noteWrite_written hlogs) rfl hhand,
        hfits hleft⟩
    · rw [if_pos huser,writeEnds,spec_bind,spec_check]
      refine ⟨fun hsent => ?_,fun _ => trivial⟩
      have hret' : mq.ret mq.me = some .sent := hsent
      rw [hm.me,hret] at hret'
      cases hret'
  | reading len =>
    rw [goOn_reading (by rw [hm.me,hx]),hm.me]
    rcases hends with hleft | ⟨huser,hret⟩
    · have hhand : (s.setMq mq).inHand s.mq.me = s.inHand s.mq.me :=
        (inHand_reading (s:=s.setMq mq) hx).trans (inHand_reading hx).symm
      rw [if_neg (by rw [hleft]; rintro ⟨⟩)]
      exact ⟨h.stays (setMq_moves hm) hmq hlogs rfl rfl rfl hhand,hfits hleft⟩
    · have hret' : (s.setMq mq).mq.ret (s.setMq mq).mq.me = some (.failed e) :=
        (congrArg mq.ret hm.me).trans hret
      rw [if_pos huser,readEnds,hret']
      trivial

/-- A call that has sent its message returns. -/
theorem Mid.writes (h : s.Mid T own) (hcall : s.call s.mq.me = .writing p ptr)
    (hx : s.mq.loc s.mq.me = .sendPost ∨ s.mq.loc s.mq.me = .leaving .sent) : FifoInv T own s := by
  refine ⟨h,?_⟩
  rw [hcall]
  rcases hx with hx | hx
  · rw [hx]
    exact ⟨p,ptr,rfl⟩
  · rw [hx]
    exact ⟨p,ptr,rfl⟩

/-- Where a message has been sent, the call of its writer returns, or will do so. -/
theorem goOn_sent (hcall : s.call s.mq.me = .writing p ptr) (hm : s.mq.Moves mq)
    (hends : mq.loc mq.me = .sendPost ∨ mq.Ends .sent)
    (hmid : ∀ s' : FifoState cfg, s'.mq = mq → s'.data = s.data → s.Moves s' →
      s'.written = (s.noteWrite mq ptr).written → s'.got = s.got → s'.inHand s.mq.me = [] →
      s'.Mid T own) :
    Spec (s.goOn (.ok mq)) (FifoInv T own) (FifoFault.Safe R) := by
  have hmoves : s.Moves (s.noteWrite mq ptr) := noteWrite_moves hm
  rw [MqState.Ends,hm.me] at hends
  rw [goOn_writing (by rw [hm.me,hcall]),hm.me]
  have hwait : mq.loc s.mq.me = .sendPost ∨ mq.loc s.mq.me = .leaving .sent →
      FifoInv T own (s.noteWrite mq ptr) := by
    intro hx
    have hhand : (s.noteWrite mq ptr).inHand s.mq.me = [] := by
      apply inHand_sent
      have hloc : (s.noteWrite mq ptr).mq.loc s.mq.me = mq.loc s.mq.me := rfl
      rw [hloc]
      rcases hx with hx | hx <;> rw [hx] <;> rfl
    have hcall' : s.call mq.me = .writing p ptr := by rw [hm.me,hcall]
    rw [← hm.me] at hx
    exact (hmid (s.noteWrite mq ptr) rfl rfl hmoves rfl rfl hhand).writes hcall' hx
  rcases hends with hx | hx | ⟨huser,hret⟩
  · rw [if_neg (by rw [hx]; rintro ⟨⟩)]
    exact hwait (Or.inl hx)
  · rw [if_neg (by rw [hx]; rintro ⟨⟩)]
    exact hwait (Or.inr hx)
  · rw [if_pos huser,writeEnds,spec_bind,spec_check]
    refine ⟨fun _ => ?_,fun _ => trivial⟩
    have hidle : ((s.noteWrite mq ptr).endFifo 4 []).call s.mq.me = .idle := by
      rw [← hm.me]
      exact endFifo_call (s.noteWrite mq ptr) 4 []
    refine ⟨hmid ((s.noteWrite mq ptr).endFifo 4 []) rfl rfl hmoves.endFifo rfl rfl
      (inHand_idle hidle),?_⟩
    have hloc : ((s.noteWrite mq ptr).endFifo 4 []).mq.loc s.mq.me = .user := huser
    have hme : ((s.noteWrite mq ptr).endFifo 4 []).mq.me = s.mq.me := hm.me
    rw [hme,hidle,hloc]
    rfl

/-- `mq_send` takes the block to the queue, or waits. -/
theorem Mid.goOn_sends (h : s.Mid T own) (hcall : s.call s.mq.me = .writing p ptr)
    (hloc : (s.mq.loc s.mq.me).leaves ≠ some .sent) (hp : s.data p = some ptr)
    (hc : CarriesAt s.data p (some (a.msg,a.msgprio)))
    (hmq : MqInv T own mq) (hm : s.mq.Moves mq) (hs : s.mq.Sends a mq) :
    Spec (s.goOn (.ok mq)) (FifoInv T own) (FifoFault.Safe R) := by
  have hhand := inHand_writing hcall hloc
  cases hs with
  | fails hlogs e hends =>
    exact h.goOn_fails (by rw [hcall]; rintro ⟨⟩) hloc hmq hm hlogs hends
  | waits hlogs hx =>
    rw [goOn_writing (by rw [hm.me,hcall]),if_neg (by rw [hx]; rintro ⟨⟩)]
    rw [hm.me] at hx
    have hhand' : (s.noteWrite mq ptr).inHand s.mq.me = s.inHand s.mq.me := by
      rw [hhand]
      apply inHand_writing (s:=s.noteWrite mq ptr) hcall
      have hx' : (s.noteWrite mq ptr).mq.loc s.mq.me = .sendWait a := hx
      rw [hx']
      rintro ⟨⟩
    refine ⟨h.stays (noteWrite_moves hm) hmq hlogs rfl (noteWrite_written hlogs) rfl hhand',?_⟩
    have hme : (s.noteWrite mq ptr).mq.me = s.mq.me := hm.me
    have hx' : (s.noteWrite mq ptr).mq.loc s.mq.me = .sendWait a := hx
    rw [hme,hx']
    exact ⟨p,ptr,hcall,hp,hc⟩
  | stores q hl hn ha hr hends =>
    refine goOn_sent hcall hm hends fun s' hmq' hdata hmoves hw hg hhand' => ?_
    rw [← hmq'] at hmq ha hr
    refine h.stores hmoves hmq hl hc ha hr hdata ?_ hg hhand hhand'
    have hw' : (s.noteWrite mq ptr).written = logged s.mq.accepted mq.accepted ptr s.written := rfl
    rw [hw,hw',← hmq',ha,logged_update,hp,Option.getD_some]

/-- `mq_receive` waits, or gives the reader a message whose block it then frees. -/
theorem Mid.goOn_receives {c : RecvArgs} (h : s.Mid T own) (hcall : s.call s.mq.me = .reading len)
    (hloc : (s.mq.loc s.mq.me).leaves ≠ some .sent) (hmq : MqInv T own mq) (hm : s.mq.Moves mq)
    (hs : s.mq.Receives c mq) : Spec (s.goOn (.ok mq)) (FifoInv T own) (FifoFault.Safe R) := by
  have hme : (s.setMq mq).mq.me = s.mq.me := hm.me
  cases hs with
  | fails hlogs e hends =>
    exact h.goOn_fails (by rw [hcall]; rintro ⟨⟩) hloc hmq hm hlogs hends
  | waits hlogs hx hn =>
    have huser : mq.loc mq.me ≠ .user := by
      intro hu
      rw [hu] at hx
      cases hx
    rw [goOn_reading (by rw [hm.me,hcall]),if_neg huser]
    have hhand : (s.setMq mq).inHand s.mq.me = s.inHand s.mq.me :=
      (inHand_reading (s:=s.setMq mq) hcall).trans (inHand_reading hcall).symm
    refine ⟨h.stays (setMq_moves hm) hmq hlogs rfl rfl rfl hhand,?_⟩
    have hcall' : (s.setMq mq).call (s.setMq mq).mq.me = .reading len := by
      rw [hme]
      exact hcall
    rw [hcall']
    cases hx' : (s.setMq mq).mq.loc (s.setMq mq).mq.me with
    | recvWait c => exact ⟨len,rfl⟩
    | recvPost c q => exact ⟨len,rfl⟩
    | recvSem c q => exact ⟨len,rfl⟩
    | user => exact absurd hx' huser
    | leaving r => rw [show mq.loc mq.me = _ from hx'] at hx; cases hx
    | sendWait a => rw [show mq.loc mq.me = _ from hx'] at hx; cases hx
    | sendPost => rw [show mq.loc mq.me = _ from hx'] at hx; cases hx
  | fetches q r prio hl hn ha hr hx hret =>
    obtain ⟨⟨p,hc⟩,hcontents⟩ := h.fetched hm hmq hl ha hr
    obtain ⟨hp,block,hblock,hlen,hmsg⟩ := id hc
    have hbytes : r.bytes = (FifoMsgT.mk block.length p).bytes :=
      congrArg Prod.fst (Option.some.inj hmsg)
    have hof : FifoMsgT.ofBytes r.bytes = ⟨block.length,p⟩ := by
      rw [hbytes,FifoMsgT.ofBytes_bytes hlen hp]
    have hsize : sizeOfInt (block.length : ℤ) = block.length := by
      rw [sizeOfInt,sizeMod]
      omega
    have hret' : (s.setMq mq).mq.ret (s.setMq mq).mq.me = some (.received r.bytes prio) := hret
    have hdata : (s.setMq mq).data p = some block := hblock
    rw [goOn_reading (by rw [hm.me,hcall]),if_pos hx,readEnds,hret']
    simp only [spec_bind,spec_check,hof,hdata,hsize,List.take_length]
    refine ⟨fun _ => ⟨fun _ => ⟨fun _ => ?_,fun hn => absurd (Nat.le_refl _) hn⟩,fun _ => trivial⟩,
      fun _ => trivial⟩
    set s1 : FifoState cfg := { s.setMq mq with
      data := Function.update (s.setMq mq).data p none
      got := logged s.mq.returned (s.setMq mq).mq.returned block (s.setMq mq).got } with hs1
    have hmoves : s.Moves s1 := ⟨hm,fun _ _ => rfl⟩
    have hidle : (s1.endFifo block.length block).call s.mq.me = .idle := by
      rw [← hm.me]
      exact endFifo_call s1 _ _
    have hhand : (s1.endFifo block.length block).inHand s.mq.me = s.inHand s.mq.me :=
      (inHand_idle hidle).trans (inHand_reading hcall).symm
    have hgot : (s1.endFifo block.length block).got =
        Function.update s.got q (s.got q ++ [(s.data p).getD []]) := by
      have hg : (s1.endFifo block.length block).got =
        logged s.mq.returned mq.returned block s.got := rfl
      rw [hg,hr,logged_update,hblock,Option.getD_some]
    refine ⟨h.frees hmoves.endFifo hmq hl hc ha hcontents rfl rfl hgot hhand,?_⟩
    have hme' : (s1.endFifo block.length block).mq.me = s.mq.me := hm.me
    have hx' : (s1.endFifo block.length block).mq.loc s.mq.me = .user := by
      rw [← hm.me]
      exact hx
    rw [hme',hidle,hx']
    rfl

theorem goOn_spec {x : Except Fault (MqState cfg)} {P : FifoState cfg → Prop}
    {Q : MqState cfg → Prop} (hx : Spec x Q R)
    (h : ∀ mq, Q mq → Spec (s.goOn (.ok mq)) P (FifoFault.Safe R)) :
    Spec (s.goOn x) P (FifoFault.Safe R) := by
  cases x with
  | ok mq => exact h mq hx
  | error e => exact hx

theorem Mid.held_ne (h : s.Mid T own) (hp : s.data p = none) {i : QueueId ⊕ Thid cfg} {x : ℕ}
    (hx : x ∈ s.held i) : x ≠ p := by
  rintro rfl
  have hsome := h.owns.isSome hx
  rw [hp] at hsome
  cases hsome

end FifoState

/-- A reader has begun. -/
theorem FifoInv.setCall (h : FifoInv T own s) (hr : s.mq.runs = true) (len : ℤ) :
    (s.setCall (.reading len)).Mid T own := by
  simp only [MqState.runs,Bool.and_eq_true,Bool.not_eq_true',decide_eq_true_eq] at hr
  have hidle := h.running
  rw [hr.2] at hidle
  have hcall : ∀ t, t ≠ s.mq.me → (s.setCall (.reading len)).call t = s.call t :=
    fun t ht => Function.update_of_ne ht _ _
  refine ⟨h.mq,h.owns.perm fun i => ?_,h.prios,h.carries,h.kept,fun t ht => ?_⟩
  · cases i with
    | inl q => exact .refl _
    | inr t =>
      by_cases ht : t = s.mq.me
      · subst ht
        have hreading : (s.setCall (.reading len)).call s.mq.me = .reading len :=
          Function.update_self ..
        exact .of_eq ((FifoState.inHand_reading hreading).trans (FifoState.inHand_idle hidle).symm)
      · rw [FifoState.held,FifoState.held,FifoState.inHand,FifoState.inHand,hcall t ht]
        exact .refl _
  · rw [hcall t ht]
    exact h.others t ht

/-- A writer has copied its data to a new block, which is in its hands then. -/
theorem FifoInv.copyTo (h : FifoInv T own s) (hr : s.mq.runs = true) (hp : s.data p = none)
    (ptr : List Byte) : (s.copyTo p ptr).Mid T own := by
  simp only [MqState.runs,Bool.and_eq_true,Bool.not_eq_true',decide_eq_true_eq] at hr
  have hidle := h.running
  rw [hr.2] at hidle
  have hcall : ∀ t, t ≠ s.mq.me → (s.copyTo p ptr).call t = s.call t :=
    fun t ht => Function.update_of_ne ht _ _
  have hme : (s.copyTo p ptr).call s.mq.me = .writing p ptr := Function.update_self ..
  have hsame : ∀ {i x}, x ∈ s.held i → (s.copyTo p ptr).data x = s.data x :=
    fun hx => Function.update_of_ne (h.held_ne hp hx) _ _
  have hin : ∀ q, s.mq.Live (.queue q) → ∀ x ∈ s.inQueue q, (s.copyTo p ptr).data x = s.data x := by
    intro q hl x hx
    rw [← FifoState.held_live hl] at hx
    exact hsame hx
  refine ⟨h.mq,?_,h.prios,fun q hl c hc => ?_,fun q hl => ?_,fun t ht => ?_⟩
  · refine h.owns.alloc (i:=.inr s.mq.me) hp ?_ fun j hj => ?_
    · have huser : (s.mq.loc s.mq.me).leaves ≠ some .sent := by
        rw [hr.2]
        rintro ⟨⟩
      have hnew : (s.copyTo p ptr).inHand s.mq.me = [p] := FifoState.inHand_writing hme huser
      have hold : s.inHand s.mq.me = [] := FifoState.inHand_idle hidle
      rw [FifoState.held,FifoState.held,hnew,hold]
    · cases j with
      | inl q => exact .refl _
      | inr t =>
        have ht : t ≠ s.mq.me := fun he => hj (congrArg Sum.inr he)
        rw [FifoState.held,FifoState.held,FifoState.inHand,FifoState.inHand,hcall t ht]
        exact .refl _
  · obtain ⟨x,hx⟩ := h.carries q hl c hc
    refine ⟨x,hx.congr (hin q hl x ?_)⟩
    rw [FifoState.inQueue,← hx.data_eq]
    exact List.mem_map_of_mem hc
  · have hkept := h.kept q hl
    rw [← List.map_congr_left (hin q hl)] at hkept
    exact hkept
  · rw [hcall t ht]
    refine (h.others t ht).congr fun x y hx hleaves => hsame (i:=.inr t) ?_
    rw [FifoState.held,FifoState.inHand_writing hx hleaves]
    exact List.mem_singleton_self x

variable {qsort : Qsort} {l : FifoLabel cfg} {x : Except Fault (MqState cfg)} {R : Fault → Prop}

theorem runs_iff {s : MqState cfg} : s.runs = true ↔ s.yielding = false ∧ s.loc s.me = .user := by
  simp only [MqState.runs,Bool.and_eq_true,Bool.not_eq_true',decide_eq_true_eq]

theorem not_sent_of_runs {s : MqState cfg} (hr : s.runs = true) :
    (s.loc s.me).leaves ≠ some .sent := by
  rw [(runs_iff.mp hr).2]
  rintro ⟨⟩

theorem fifoWrite_spec (h : FifoInv T own s) (hr : s.mq.runs = true) {ptr : List Byte}
    (hlen : ptr.length < 2^31) (hp : p < 2^32) (hnone : s.data p = none) {q : ℤ} {now : ℤ}
    {granted : Bool} (hx : Spec x (fun mq => MqInv T own mq ∧ s.mq.Moves mq ∧
      s.mq.Sends (fifoSend q ptr p now granted) mq) R) :
    Spec ((s.copyTo p ptr).goOn x) (FifoInv T own) (FifoFault.Safe R) := by
  have hmid := h.copyTo hr hnone ptr
  have hcall : (s.copyTo p ptr).call s.mq.me = .writing p ptr := Function.update_self ..
  have hc : CarriesAt (s.copyTo p ptr).data p (some ((fifoSend q ptr p now granted).msg,
    (fifoSend q ptr p now granted).msgprio)) := ⟨hp,ptr,Function.update_self ..,hlen,rfl⟩
  refine FifoState.goOn_spec hx ?_
  rintro mq ⟨hmq,hm,hs⟩
  exact hmid.goOn_sends hcall (not_sent_of_runs hr) (Function.update_self ..) hc hmq hm hs

theorem fifoRead_spec {c : RecvArgs} (h : FifoInv T own s) (hr : s.mq.runs = true) (len : ℤ)
    (hx : Spec x (fun mq => MqInv T own mq ∧ s.mq.Moves mq ∧ s.mq.Receives c mq) R) :
    Spec ((s.setCall (.reading len)).goOn x) (FifoInv T own) (FifoFault.Safe R) := by
  have hmid := h.setCall hr len
  have hcall : (s.setCall (.reading len)).call s.mq.me = .reading len := Function.update_self ..
  refine FifoState.goOn_spec hx ?_
  rintro mq ⟨hmq,hm,hs⟩
  exact hmid.goOn_receives hcall (not_sent_of_runs hr) hmq hm hs

/-- A writer whose message has been sent goes on. -/
theorem fifoResume_sent {ptr : List Byte} (h : FifoInv T own s)
    (hleaves : (s.mq.loc s.mq.me).leaves = some .sent)
    (hcall : s.call s.mq.me = .writing p ptr)
    (hx : Spec x (fun mq => MqInv T own mq ∧ s.mq.Moves mq ∧ s.mq.SameLogs mq ∧ mq.Ends .sent) R) :
    Spec (s.goOn x) (FifoInv T own) (FifoFault.Safe R) := by
  refine FifoState.goOn_spec hx ?_
  rintro mq ⟨hmq,hm,hlogs,hends⟩
  apply FifoState.goOn_sent hcall hm (Or.inr hends)
  rintro s' rfl hdata hmoves hw hg hhand
  exact h.stays hmoves hmq hlogs hdata (hw.trans (FifoState.noteWrite_written hlogs)) hg
    (hhand.trans (FifoState.inHand_sent hleaves).symm)

theorem fifoResume_spec (qsort : Qsort) (h : FifoInv T own s) (clk : Clock)
    (hloc : s.mq.loc s.mq.me ≠ .user)
    (hx : Spec (mqNext qsort s.mq (.resume clk)) (MqInv T own) R) :
    Spec (s.goOn (mqNext qsort s.mq (.resume clk))) (FifoInv T own) (FifoFault.Safe R) := by
  have hfits := h.running
  have hmeet : ∀ {Q : MqState cfg → Prop}, Spec (mqNext qsort s.mq (.resume clk)) Q (fun _ => True) →
      Spec (mqNext qsort s.mq (.resume clk)) (fun mq => MqInv T own mq ∧ Q mq) R :=
    fun hy => (hx.meet hy).mono (fun _ hz => hz) fun _ hz => hz.1
  have hreceives : ∀ {c}, (s.mq.loc s.mq.me).receiver = some c →
      (∃ len, s.call s.mq.me = .reading len) →
      Spec (s.goOn (mqNext qsort s.mq (.resume clk))) (FifoInv T own) (FifoFault.Safe R) := by
    rintro c hr ⟨len,hcall⟩
    have hleaves : (s.mq.loc s.mq.me).leaves ≠ some .sent := by
      rw [MqLoc.leaves_of_receiver hr]
      rintro ⟨⟩
    refine FifoState.goOn_spec (hmeet (resume_receives qsort s.mq clk (h.mq.opened s.mq.me) hr)) ?_
    rintro mq ⟨hmq,hm,hs⟩
    exact h.goOn_receives hcall hleaves hmq hm hs
  cases hl : s.mq.loc s.mq.me with
  | user => exact absurd hl hloc
  | leaving r =>
    rw [hl] at hfits
    cases r with
    | sent =>
      obtain ⟨p,ptr,hcall⟩ := hfits
      have hleaves : (s.mq.loc s.mq.me).leaves = some .sent := congrArg MqLoc.leaves hl
      exact fifoResume_sent h hleaves hcall (hmeet (resume_ends qsort s.mq clk hleaves))
    | failed e =>
      have hleaves : (s.mq.loc s.mq.me).leaves = some (.failed e) := congrArg MqLoc.leaves hl
      refine FifoState.goOn_spec (hmeet (resume_ends qsort s.mq clk hleaves)) ?_
      rintro mq ⟨hmq,hm,hlogs,hends⟩
      refine h.goOn_fails hfits ?_ hmq hm hlogs hends
      rw [hleaves]
      rintro ⟨⟩
    | received bytes prio => exact hfits.elim
  | sendWait a =>
    rw [hl] at hfits
    obtain ⟨p,ptr,hcall,hp,hc⟩ := hfits
    refine FifoState.goOn_spec (hmeet (resume_sends qsort s.mq clk hl)) ?_
    rintro mq ⟨hmq,hm,hs⟩
    refine h.goOn_sends hcall ?_ hp hc hmq hm hs
    rw [hl]
    rintro ⟨⟩
  | sendPost =>
    rw [hl] at hfits
    obtain ⟨p,ptr,hcall⟩ := hfits
    have hleaves : (s.mq.loc s.mq.me).leaves = some .sent := congrArg MqLoc.leaves hl
    exact fifoResume_sent h hleaves hcall (hmeet (resume_ends qsort s.mq clk hleaves))
  | recvWait c =>
    rw [hl] at hfits
    exact hreceives (congrArg MqLoc.receiver hl) hfits
  | recvPost c q =>
    rw [hl] at hfits
    exact hreceives (congrArg MqLoc.receiver hl) hfits
  | recvSem c q =>
    rw [hl] at hfits
    exact hreceives (congrArg MqLoc.receiver hl) hfits

/-- Another thread runs: messages and blocks are where they were. -/
theorem FifoInv.yield (h : FifoInv T own s) {k : Kernel cfg}
    (hmq : MqInv T own { s.mq with kernel := k, yielding := false }) :
    FifoInv T own (s.setMq { s.mq with kernel := k, yielding := false }) := by
  have hheld : (s.setMq { s.mq with kernel := k, yielding := false }).held = s.held := by
    funext i
    cases i <;> rfl
  refine ⟨⟨hmq,?_,h.prios,h.carries,h.kept,fun t _ => h.calls t⟩,h.calls _⟩
  rw [hheld]
  exact h.owns

/-- A step keeps the blocks in order, or stops at an assert or in the queue below. -/
theorem fifoStep_spec (hq : Sorts qsort) (h : FifoInv T own s) (he : fifoEnabled s l = true)
    (hT : T → s.mq.SendsNewest l.below) :
    Spec (fifoNext qsort s l) (FifoInv T own) (FifoFault.Safe (s.mq.Stops l.below)) := by
  have hstep : mqEnabled s.mq l.below = true → Spec (mqNext qsort s.mq l.below)
    (MqInv T own) (s.mq.Stops l.below) := fun he => mqStep_spec hq h.mq he hT
  cases l with
  | fifoWrite q ptr block now granted clk =>
    simp only [fifoEnabled,Bool.and_eq_true,decide_eq_true_eq] at he
    obtain ⟨⟨hr,hlen⟩,hblock⟩ := he
    cases block with
    | none => trivial
    | some p =>
      simp only [Option.all_some,Bool.and_eq_true,decide_eq_true_eq,Option.isNone_iff_eq_none]
        at hblock
      have hsends := mqSend_sends qsort s.mq (fifoSend q ptr p now granted) clk
      exact fifoWrite_spec h hr hlen hblock.1.2 hblock.2
        (((hstep hr).meet hsends).mono (fun _ hx => hx) fun _ hx => hx.1)
  | fifoRead q len clk =>
    have hreceives := mqReceive_receives qsort s.mq (fifoRecv q) clk
    exact fifoRead_spec h he len (((hstep he).meet hreceives).mono (fun _ hx => hx) fun _ hx => hx.1)
  | resume clk =>
    have hloc : s.mq.loc s.mq.me ≠ .user := by
      simp only [fifoEnabled,mqEnabled,Bool.and_eq_true,decide_eq_true_eq] at he
      exact he.2
    exact fifoResume_spec qsort h clk hloc (hstep he)
  | yield clk t =>
    have hstep := hstep he
    simp only [FifoLabel.below,mqNext,spec_bind,spec_pure] at hstep
    simp only [fifoNext,mqNext,spec_bind,spec_mapError,spec_pure]
    exact hstep.imp fun k hmq => h.yield hmq

/-- No block is lost or given to two: each that is allocated is in the hands of one queue, whose
message points to it, or of one writer. What has been written to a queue has been read from it, or
its blocks have it still. -/
structure FifoKept (s : FifoState cfg) : Prop where
  owns : Owns s.data s.held
  kept : ∀ q, s.mq.Live (.queue q) →
    ((s.written q).map some).Perm ((s.got q).map some ++ (s.inQueue q).map s.data)

/-- What has been read from a queue came first. -/
def FifoInOrder (s : FifoState cfg) : Prop :=
  ∀ q, s.mq.Live (.queue q) → (s.written q).map some = (s.got q).map some ++ (s.inQueue q).map s.data

variable {k : Kernel cfg} {queuePool : QueueId → QueueD cfg} {filePool : Fin numberOfFiles → FileD cfg}
  {heap : Heap Byte}

theorem fifoInit_inv (hk : Quiet k) (ho : QueuesOpened queuePool heap own) :
    FifoInv T own (fifoInit (mqInit k queuePool filePool heap)) := by
  have hmq : MqInv T own (mqInit k queuePool filePool heap) := mqInit_inv hk ho
  have hcontents : ∀ q, (mqInit k queuePool filePool heap).Live (.queue q) →
      (mqInit k queuePool filePool heap).contents q = [] := by
    intro q hl
    have hnone : ∀ x ∈ (mqInit k queuePool filePool heap).accepted q, x.2 = defPrio := by
      rintro x ⟨⟩
    exact (conserved hmq hl hnone).1.nil_eq.symm
  have hqueue : ∀ q, (mqInit k queuePool filePool heap).Live (.queue q) →
      (fifoInit (mqInit k queuePool filePool heap)).inQueue q = [] := by
    intro q hl
    have hq := hcontents q hl
    rw [FifoState.inQueue]
    exact congrArg (List.map _) hq
  refine ⟨⟨hmq,?_,by rintro q - x ⟨⟩,fun q hl c hc => ?_,fun q hl => ?_,fun t _ => rfl⟩,rfl⟩
  · refine owns_empty.perm fun i => ?_
    cases i with
    | inl q =>
      rw [FifoState.held]
      split_ifs with ht
      · rw [hqueue q ht]
      · exact .refl _
    | inr t => exact .refl _
  · have hq := hcontents q hl
    rw [show (fifoInit (mqInit k queuePool filePool heap)).mq.contents q = [] from hq] at hc
    cases hc
  · rw [hqueue q hl]
    exact .refl _

/-- In every run each block is in one hand, and a next step reads or frees none that is not
allocated. -/
theorem fifoRun_kept (hq : Sorts qsort) (hk : Quiet k) (ho : QueuesOpened queuePool heap own)
    {ls : List (FifoLabel cfg)}
    (hr : (fifoMachine cfg qsort).run (fifoInit (mqInit k queuePool filePool heap)) ls = some s) :
    FifoKept s ∧ ∀ l, fifoEnabled s l = true →
      Spec (fifoNext qsort s l) (fun _ => True) (FifoFault.Safe (s.mq.Stops l.below)) := by
  have h : FifoInv False own s := (fifoMachine cfg qsort).run_invariant_of_step
    (fun s l s' hi hs => (fifoStep_spec hq hi hs.1 False.elim).of_ok hs.2) (fifoInit_inv hk ho) hr
  exact ⟨⟨h.owns,fun q hl => (h.kept q hl).1⟩,fun l he =>
    (fifoStep_spec hq h he False.elim).imp fun _ _ => trivial⟩

/-- As long as every message is newer than those that are stored, FIFOs are in order. -/
theorem fifoRun_inOrder (hq : Sorts qsort) (hk : Quiet k) (ho : QueuesOpened queuePool heap own)
    {ls : List (FifoLabel cfg)}
    (hc : (fifoMachine cfg qsort).Along (fun s l => s.mq.SendsNewest l.below)
      (fifoInit (mqInit k queuePool filePool heap)) ls)
    (hr : (fifoMachine cfg qsort).run (fifoInit (mqInit k queuePool filePool heap)) ls = some s) :
    FifoInOrder s := by
  have h : FifoInv True own s := (fifoMachine cfg qsort).run_invariant
    (fun s l s' hi hc hs => (fifoStep_spec hq hi hs.1 fun _ => hc).of_ok hs.2) (fifoInit_inv hk ho)
    hc hr
  exact fun q hl => (h.kept q hl).2 trivial

end

/-! ### A FIFO with room for 15 messages -/

def fifoQueue : QueueId → QueueD gnuArm := fun q =>
  ⟨decide (q.val = 0),⟨FifoMsgT.size,15⟩,⟨0,0,fun i => ⟨some i,0,⟨0,0,0⟩⟩,0⟩,smCreate 0 0⟩

def fifoBuffers : Heap Byte :=
  ⟨fun b => if b < 15 then some (List.replicate FifoMsgT.size 0) else none,15⟩

theorem fifoQueue_opened : QueuesOpened fifoQueue fifoBuffers fun _ => List.range 15 where
  opened q _ := by
    have hfits : MqAttr.Fits ⟨FifoMsgT.size,15⟩ := ⟨by decide,by decide,by decide⟩
    refine ⟨hfits,rfl,rfl,rfl,rfl,List.nodup_range,fun b hb => ?_⟩
    exact ⟨_,if_pos (List.mem_range.mp hb),List.length_replicate⟩
  apart q q' hq hq' hne := by
    have h0 : q.val = 0 := of_decide_eq_true hq
    have h0' : q'.val = 0 := of_decide_eq_true hq'
    exact absurd (Fin.ext (h0.trans h0'.symm)) hne

/-- Thread 1 waits for what thread 0 writes, and thread 0 is given the block again that thread 1 has
freed. -/
def fifoSteps : List (FifoLabel gnuArm) :=
  [.yield 0 1,.fifoRead 1 10 0,.yield 0 0,.fifoWrite 0 [0x61,0x62] (some 100) 5 true 0,.yield 0 1,
    .resume 0,.yield 0 0,.resume 0,.fifoWrite 0 [0x63] (some 100) 6 true 0]

theorem fifoSteps_run : ∃ s, (fifoMachine gnuArm insertSort).run
    (fifoInit (mqInit fiveThreads fifoQueue threeFiles fifoBuffers)) fifoSteps = some s := by
  rw [← Option.isSome_iff_exists]
  decide +kernel

theorem fifoRun_kept_passed : ∃ s, (fifoMachine gnuArm insertSort).run
    (fifoInit (mqInit fiveThreads fifoQueue threeFiles fifoBuffers)) fifoSteps = some s ∧
    FifoKept s ∧ ∀ l, fifoEnabled s l = true →
      Spec (fifoNext insertSort s l) (fun _ => True) (FifoFault.Safe (s.mq.Stops l.below)) := by
  obtain ⟨s,hr⟩ := fifoSteps_run
  exact ⟨s,hr,fifoRun_kept insertSort_sorts fiveThreads_quiet fifoQueue_opened hr⟩

theorem fifoRun_inOrder_passed : ∃ s, (fifoMachine gnuArm insertSort).run
    (fifoInit (mqInit fiveThreads fifoQueue threeFiles fifoBuffers)) fifoSteps = some s ∧
    FifoInOrder s := by
  obtain ⟨s,hr⟩ := fifoSteps_run
  exact ⟨s,hr,fifoRun_inOrder insertSort_sorts fiveThreads_quiet fifoQueue_opened
    (by decide +kernel) hr⟩

end Tinker

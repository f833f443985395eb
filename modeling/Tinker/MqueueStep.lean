import Tinker.MqueueKept

/-! What one step of `mq_send` and `mq_receive` does to the ring of a queue: nothing, a message that
is stored and sorted in, or one that is fetched. The semaphores around the two are no part of it. -/
namespace Tinker

open Kernel Outcome

variable {cfg : Config}

/-- Two queues with one ring. -/
structure QueueD.SameRing (Q Q' : QueueD cfg) : Prop where
  taken : Q'.taken = Q.taken
  mqAttr : Q'.mqAttr = Q.mqAttr
  mBox : Q'.mBox = Q.mBox

namespace MqState

variable {s s' s'' : MqState cfg} {u q : QueueId} {qsort : Qsort}

/-- Queue `u` has its ring, and the messages that have come and gone are the same. -/
structure KeepsRing (s s' : MqState cfg) (u : QueueId) : Prop where
  ring : (s.queuePool u).SameRing (s'.queuePool u)
  accepted : s'.accepted u = s.accepted u
  returned : s'.returned u = s.returned u

/-- A message has been stored in queue `u`. -/
structure Stores (qsort : Qsort) (s s' : MqState cfg) (u : QueueId) (a : SendArgs) : Prop where
  ring : ∃ Q Q1 Q2 heap, (s.queuePool u).SameRing Q ∧ Q.store s.heap a = .ok (Q1,heap) ∧
    sortByPrio qsort Q1 a.granted = .ok Q2 ∧ Q2.SameRing (s'.queuePool u)
  accepted : s'.accepted u = s.accepted u ++ [(a.msg,a.msgprio)]
  returned : s'.returned u = s.returned u

/-- A message has been fetched from queue `u` for the running thread. -/
structure Fetches (s s' : MqState cfg) (u : QueueId) (a : RecvArgs) (r : Receipt) : Prop where
  ring : ∃ Q Q' ret, (s.queuePool u).SameRing Q ∧ Q.fetch s.heap a.msgprio = .ok (Q',ret,r) ∧
    Q'.SameRing (s'.queuePool u) ∧ s'.ret s'.me = some ret
  accepted : s'.accepted u = s.accepted u
  returned : s'.returned u = s.returned u ++ [r]

/-- What a step may do to the ring of queue `u`. -/
inductive Rings (qsort : Qsort) (s s' : MqState cfg) (u : QueueId) : Prop
  | keeps (h : s.KeepsRing s' u)
  | stores (a : SendArgs) (h : s.Stores qsort s' u a)
  | fetches (a : RecvArgs) (r : Receipt) (hl : s.Live (.queue u)) (h : s.Fetches s' u a r)

end MqState

namespace QueueD.SameRing

variable {Q Q' Q'' : QueueD cfg}

theorem refl (Q : QueueD cfg) : Q.SameRing Q := ⟨rfl,rfl,rfl⟩

theorem trans (h : Q.SameRing Q') (h' : Q'.SameRing Q'') : Q.SameRing Q'' :=
  ⟨h'.taken.trans h.taken,h'.mqAttr.trans h.mqAttr,h'.mBox.trans h.mBox⟩

end QueueD.SameRing

namespace MqState

variable {s s' s'' : MqState cfg} {u q : QueueId} {qsort : Qsort}

theorem KeepsRing.refl (s : MqState cfg) (u : QueueId) : s.KeepsRing s u :=
  ⟨.refl _,rfl,rfl⟩

theorem KeepsRing.trans (h : s.KeepsRing s' u) (h' : s'.KeepsRing s'' u) : s.KeepsRing s'' u :=
  ⟨h.ring.trans h'.ring,h'.accepted.trans h.accepted,h'.returned.trans h.returned⟩

/-- Before what happens to a ring, semaphores may have been used. -/
theorem Rings.after (h : s.KeepsRing s' u) (hheap : s'.heap = s.heap)
    (h' : s'.Rings qsort s'' u) : s.Rings qsort s'' u := by
  cases h' with
  | keeps hk => exact .keeps (h.trans hk)
  | stores a hs =>
    obtain ⟨Q,Q1,Q2,heap,hring,hstore,hsort,hring'⟩ := hs.ring
    rw [hheap] at hstore
    refine .stores a ⟨⟨Q,Q1,Q2,heap,h.ring.trans hring,hstore,hsort,hring'⟩,?_,?_⟩
    · rw [hs.accepted,h.accepted]
    · rw [hs.returned,h.returned]
  | fetches a r hl hf =>
    obtain ⟨Q,Q',ret,hring,hfetch,hring',hret⟩ := hf.ring
    rw [hheap] at hfetch
    have hl' : (s.queuePool u).taken = true := h.ring.taken ▸ hl
    refine .fetches a r hl' ⟨⟨Q,Q',ret,h.ring.trans hring,hfetch,hring',hret⟩,?_,?_⟩
    · rw [hf.accepted,h.accepted]
    · rw [hf.returned,h.returned]

/-- Behind a message that is stored, semaphores may be used. -/
theorem rings_of_stored {a : SendArgs} (h : s.KeepsRing s' u ∨ s.Stores qsort s' u a)
    (h' : s'.KeepsRing s'' u) : s.Rings qsort s'' u := by
  rcases h with hk | hs
  · exact .keeps (hk.trans h')
  · obtain ⟨Q,Q1,Q2,heap,hring,hstore,hsort,hring'⟩ := hs.ring
    refine .stores a ⟨⟨Q,Q1,Q2,heap,hring,hstore,hsort,hring'.trans h'.ring⟩,?_,?_⟩
    · rw [h'.accepted,hs.accepted]
    · rw [h'.returned,hs.returned]

theorem setSem_keepsRing (r : MqSem) (k : Kernel cfg) (o : Itc cfg) (u : QueueId) :
    s.KeepsRing (s.setSem r k o) u := by
  obtain ⟨sem,hq⟩ := s.setSem_queuePool (r:=r) k o u
  constructor
  · rw [hq]
    exact ⟨rfl,rfl,rfl⟩
  · cases r <;> rfl
  · cases r <;> rfl

theorem setQueue_ring (s : MqState cfg) (q : QueueId) (Q : QueueD cfg) :
    Q.SameRing ((s.setQueue q Q).queuePool q) := by
  rw [show (s.setQueue q Q).queuePool q = Q from Function.update_self ..]
  exact .refl Q

theorem setQueue_ring_of_ne (hu : u ≠ q) (Q : QueueD cfg) :
    (s.queuePool u).SameRing ((s.setQueue q Q).queuePool u) := by
  rw [show (s.setQueue q Q).queuePool u = s.queuePool u from Function.update_of_ne hu ..]
  exact .refl _

theorem goTo_keepsRing (x : MqLoc) (u : QueueId) : s.KeepsRing (s.goTo x) u := ⟨.refl _,rfl,rfl⟩

theorem endCall_keepsRing (r : MqRet) (u : QueueId) : s.KeepsRing (s.endCall r) u :=
  ⟨.refl _,rfl,rfl⟩

theorem release_keepsRing (s : MqState cfg) (r : MqRet) :
    Spec (s.release r) (fun s' => ∀ u, s.KeepsRing s' u) (fun _ => True) := by
  rw [release,spec_bind]
  apply (semPost_spec s .pool).imp
  rintro ⟨m,y⟩ ⟨⟨k,o,rfl⟩,-⟩ u
  cases y with
  | true => exact (setSem_keepsRing _ k o u).trans (goTo_keepsRing _ u)
  | false => exact (setSem_keepsRing _ k o u).trans (endCall_keepsRing _ u)

theorem recvCopy_rings (qsort : Qsort) (hl : s.Live (.queue q)) (a : RecvArgs) :
    Spec (s.recvCopy a q) (fun s' => ∀ u, s.Rings qsort s' u) (fun _ => True) := by
  unfold recvCopy
  cases hf : (s.queuePool q).fetch s.heap a.msgprio with
  | error e => trivial
  | ok x =>
    obtain ⟨Q,ret,receipt⟩ := x
    simp only [spec_bind,spec_ok,spec_pure]
    intro u
    by_cases hu : u = q
    · subst hu
      exact .fetches a receipt hl ⟨⟨_,Q,ret,.refl _,hf,s.setQueue_ring u Q,
        Function.update_self ..⟩,rfl,Function.update_self ..⟩
    · exact .keeps ⟨setQueue_ring_of_ne hu Q,rfl,Function.update_of_ne hu _ _⟩

/-- Behind a `sem_wait` a step goes on, or yields. -/
theorem semWait_rings {r : MqSem} {clk : Clock} {x : MqLoc}
    {f : MqState cfg → Except Fault (MqState cfg)}
    (hf : ∀ k o, Spec (f (s.setSem r k o)) (fun s' => ∀ u, (s.setSem r k o).Rings qsort s' u)
      (fun _ => True)) :
    Spec (do
      let (s,yields) ← s.semWait r clk
      if yields then return s.goTo x else f s) (fun s' => ∀ u, s.Rings qsort s' u)
      (fun _ => True) := by
  cases hw : s.semWait r clk with
  | error e => trivial
  | ok y =>
    obtain ⟨m,y⟩ := y
    obtain ⟨⟨k,o,rfl⟩,-⟩ := semWait_eq hw
    cases y with
    | true => exact fun u => .keeps ((setSem_keepsRing _ k o u).trans (goTo_keepsRing _ u))
    | false =>
      apply (hf k o).imp
      exact fun s' h u => (h u).after (setSem_keepsRing _ k o u) (setSem_heap k o)

theorem recvToken_rings (qsort : Qsort) (hl : s.Live (.queue q)) (a : RecvArgs) (clk : Clock) :
    Spec (s.recvToken a q clk) (fun s' => ∀ u, s.Rings qsort s' u) (fun _ => True) :=
  semWait_rings (x:=.recvSem a q) (f:=fun s => s.recvCopy a q) fun k o =>
    recvCopy_rings qsort ((setSem_live k o _).mpr hl) a

theorem recvLocked_rings (qsort : Qsort) (s : MqState cfg) (a : RecvArgs) (clk : Clock) :
    Spec (s.recvLocked a clk) (fun s' => ∀ u, s.Rings qsort s' u) (fun _ => True) := by
  unfold recvLocked
  cases hc : s.recvCheck a with
  | error e => exact (release_keepsRing s _).imp fun s' h u => .keeps (h u)
  | ok q =>
    simp only [spec_bind]
    apply (semPost_spec s .pool).imp
    rintro ⟨m,y⟩ ⟨⟨k,o,rfl⟩,-⟩
    cases y with
    | true => exact fun u => .keeps ((setSem_keepsRing _ k o u).trans (goTo_keepsRing _ u))
    | false =>
      have hl' := (setSem_live (r:=.pool) k o _).mpr (recvCheck_ok hc)
      apply (recvToken_rings qsort hl' a clk).imp
      exact fun s' h u => (h u).after (setSem_keepsRing _ k o u) (setSem_heap k o)

theorem sendLocked_rings (qsort : Qsort) (s : MqState cfg) (a : SendArgs) :
    Spec (s.sendLocked qsort a) (fun s' => ∀ u, s.Rings qsort s' u) (fun _ => True) := by
  unfold sendLocked
  cases hc : s.sendCheck a with
  | error e => exact (release_keepsRing s _).imp fun s' h u => .keeps (h u)
  | ok q =>
    simp only
    cases hst : (s.queuePool q).store s.heap a with
    | error e => trivial
    | ok x =>
      obtain ⟨Q1,heap⟩ := x
      simp only [spec_bind,spec_ok]
      cases hsort : sortByPrio qsort Q1 a.granted with
      | error e => trivial
      | ok Q2 =>
        rw [spec_ok]
        set s1 : MqState cfg := { s.setQueue q Q2 with
          heap := heap
          accepted := Function.update s.accepted q (s.accepted q ++ [(a.msg,a.msgprio)]) } with hs1
        have hstored : ∀ u, s.KeepsRing s1 u ∨ s.Stores qsort s1 u a := by
          intro u
          by_cases hu : u = q
          · subst hu
            exact Or.inr ⟨⟨_,Q1,Q2,heap,.refl _,hst,hsort,s.setQueue_ring u Q2⟩,
              Function.update_self ..,rfl⟩
          · exact Or.inl ⟨setQueue_ring_of_ne hu Q2,Function.update_of_ne hu _ _,rfl⟩
        apply (semPost_spec s1 _).imp
        rintro ⟨m,y⟩ ⟨⟨k,o,rfl⟩,-⟩
        cases y with
        | true =>
          exact fun u => rings_of_stored (hstored u)
            ((setSem_keepsRing _ k o u).trans (goTo_keepsRing _ u))
        | false =>
          apply (release_keepsRing _ _).imp
          exact fun s' h u => rings_of_stored (hstored u)
            ((setSem_keepsRing (.queue q) k o u).trans (h u))

/-- What a step does to the rings. -/
theorem mqNext_rings (qsort : Qsort) (s : MqState cfg) (l : MqLabel cfg)
    (hopened : ∀ q, (s.loc s.me).on = some q → s.Live (.queue q)) :
    Spec (mqNext qsort s l) (fun s' => ∀ u, s.Rings qsort s' u) (fun _ => True) := by
  cases l with
  | mqSend a clk =>
    exact semWait_rings (x:=.sendWait a) (f:=fun s => s.sendLocked qsort a) fun k o =>
      sendLocked_rings qsort _ a
  | mqReceive a clk =>
    exact semWait_rings (x:=.recvWait a) (f:=fun s => s.recvLocked a clk) fun k o =>
      recvLocked_rings qsort _ a clk
  | resume clk =>
    unfold mqNext
    simp only
    cases hloc : s.loc s.me with
    | user => exact fun u => .keeps (.refl s u)
    | leaving r => exact fun u => .keeps (endCall_keepsRing r u)
    | sendWait a => exact sendLocked_rings qsort s a
    | sendPost => exact (release_keepsRing s _).imp fun s' h u => .keeps (h u)
    | recvWait a => exact recvLocked_rings qsort s a clk
    | recvPost a q => exact recvToken_rings qsort (hopened q (by rw [hloc]; rfl)) a clk
    | recvSem a q => exact recvCopy_rings qsort (hopened q (by rw [hloc]; rfl)) a
  | yield clk t =>
    simp only [mqNext,spec_bind,spec_pure]
    exact spec_of_forall fun k u => .keeps ⟨.refl _,rfl,rfl⟩

end MqState

end Tinker

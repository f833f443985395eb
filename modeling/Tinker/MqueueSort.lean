import Tinker.MqueueKept

/-! Sorting a ring. `sortByPrio` does to the messages from `mIdxOut` to `mIdxIn` what the library
does to a list of them, wherever the ring lies in the table, and leaves the other slots alone. -/
namespace Tinker

open Outcome Ring

variable {cfg : Config}

section

variable {n i : ℕ} {slots : ℕ → MessT}

theorem takeFrom_succ_eq (hi : i < n) (len : ℕ) :
    takeFrom (succ n) slots len i = (List.range len).map fun j => slots (place n i j) := by
  induction len generalizing i with
  | zero => rfl
  | succ len ih =>
    have hs : succ n i < n := Nat.mod_lt _ (Nat.zero_lt_of_lt hi)
    rw [takeFrom,ih hs,List.range_succ_eq_map,List.map_cons,List.map_map,place_zero hi]
    refine congrArg (slots i :: ·) (List.map_congr_left fun j _ => ?_)
    exact congrArg slots (place_succ n i j)

theorem takeFrom_putFrom {ms : List MessT} (hi : i < n) (hn : ms.length ≤ n) :
    takeFrom (succ n) (putFrom (succ n) ms i slots) ms.length i = ms := by
  apply List.ext_getElem (takeFrom_length _ _ _ _)
  intro j _ hj
  simp only [takeFrom_succ_eq hi,List.getElem_map,List.getElem_range]
  exact putFrom_place hi hn hj

end

variable {Q : QueueD cfg}

theorem numbMess_lt (hin : Q.mBox.mIdxIn < Q.mqAttr.mqMaxmsg)
    (hout : Q.mBox.mIdxOut < Q.mqAttr.mqMaxmsg) : numbMess Q < Q.mqAttr.mqMaxmsg := by
  rw [numbMess]
  split <;> omega

/-- The slot is not one of the stored messages. -/
def QueueD.Outside (Q : QueueD cfg) (x : ℕ) : Prop :=
  ∀ j < numbMess Q, x ≠ place Q.mqAttr.mqMaxmsg Q.mBox.mIdxOut j

/-- The buffers of all slots. -/
def QueueD.buffers (Q : QueueD cfg) : List (Option ℕ) :=
  (List.range Q.mqAttr.mqMaxmsg).map fun x => (Q.mBox.messArray x).buffer

/-- The buffers in the order of the ring: those of the messages and those of the free slots. -/
theorem QueueD.buffers_perm (hin : Q.mBox.mIdxIn < Q.mqAttr.mqMaxmsg)
    (hout : Q.mBox.mIdxOut < Q.mqAttr.mqMaxmsg) :
    Q.buffers.Perm (Q.messages.map (·.buffer) ++
      (List.range (Q.mqAttr.mqMaxmsg-numbMess Q)).map fun j =>
        (Q.mBox.messArray (place Q.mqAttr.mqMaxmsg Q.mBox.mIdxOut (numbMess Q+j))).buffer) := by
  have hlt := numbMess_lt hin hout
  have hturn := (places_perm Q.mqAttr.mqMaxmsg Q.mBox.mIdxOut).map
    fun x => (Q.mBox.messArray x).buffer
  have hsplit : List.range Q.mqAttr.mqMaxmsg = List.range (numbMess Q) ++
      (List.range (Q.mqAttr.mqMaxmsg-numbMess Q)).map (numbMess Q+·) := by
    rw [← List.range_add,Nat.add_sub_cancel' hlt.le]
  refine hturn.symm.trans (List.Perm.of_eq ?_)
  rw [messages,takeFrom_succ_eq hout,hsplit,List.map_map,List.map_append,List.map_map,List.map_map]
  rfl

section

variable {qsort : Qsort} (hin : Q.mBox.mIdxIn < Q.mqAttr.mqMaxmsg)
  (hout : Q.mBox.mIdxOut < Q.mqAttr.mqMaxmsg)
  (hlen : (qsort compMess Q.messages).length = Q.messages.length)

include hin hout hlen

theorem QueueD.sorted_messages : (Q.sorted qsort).messages = qsort compMess Q.messages := by
  have hn : (qsort compMess Q.messages).length = numbMess Q := by rw [hlen,Q.messages_length]
  have hle : (qsort compMess Q.messages).length ≤ Q.mqAttr.mqMaxmsg :=
    hn ▸ (numbMess_lt hin hout).le
  have hback : takeFrom _ (putFrom _ _ _ Q.mBox.messArray) _ _ = _ := takeFrom_putFrom hout hle
  rw [hn] at hback
  exact hback

omit hin in
theorem QueueD.sorted_outside {x : ℕ} (hx : Q.Outside x) :
    (Q.sorted qsort).mBox.messArray x = Q.mBox.messArray x := by
  apply putFrom_of_ne _ hout
  intro j hj
  rw [hlen,Q.messages_length] at hj
  exact hx j hj

/-- A library that rearranges a list rearranges the buffers of the table. -/
theorem QueueD.sorted_buffers (hperm : (qsort compMess Q.messages).Perm Q.messages) :
    (Q.sorted qsort).buffers.Perm Q.buffers := by
  have hlt := numbMess_lt hin hout
  have hfree : ∀ j < Q.mqAttr.mqMaxmsg-numbMess Q,
      Q.Outside (place Q.mqAttr.mqMaxmsg Q.mBox.mIdxOut (numbMess Q+j)) := by
    intro j hj i hi he
    have := place_inj (by omega) (by omega) he
    omega
  have hafter := QueueD.buffers_perm (Q:=Q.sorted qsort) hin hout
  rw [QueueD.sorted_messages hin hout hlen] at hafter
  refine hafter.trans (List.Perm.trans ?_ (QueueD.buffers_perm hin hout).symm)
  apply List.Perm.append (hperm.map _)
  apply List.Perm.of_eq
  apply List.map_congr_left
  intro j hj
  exact congrArg MessT.buffer (QueueD.sorted_outside hout hlen (hfree j (List.mem_range.mp hj)))

end

/-- `sortByPrio` makes of the messages in the ring what the library makes of them in a list, for
every place the ring may have in the table. Slots outside the ring stay as they are, and of the
buffers none is lost or used twice. -/
theorem sortByPrio_ring {qsort : Qsort}
    (hlen : ∀ l, (qsort compMess l).length = l.length) {Q : QueueD cfg}
    (hin : Q.mBox.mIdxIn < Q.mqAttr.mqMaxmsg) (hout : Q.mBox.mIdxOut < Q.mqAttr.mqMaxmsg) :
    ∃ Q', sortByPrio qsort Q true = .ok Q' ∧ Q'.messages = qsort compMess Q.messages ∧
      Q' = { Q with mBox := { Q.mBox with messArray := Q'.mBox.messArray } } ∧
      (∀ x, Q.Outside x → Q'.mBox.messArray x = Q.mBox.messArray x) ∧
      ((qsort compMess Q.messages).Perm Q.messages → Q'.buffers.Perm Q.buffers) := by
  have hspec := sortByPrio_spec qsort true hin (hlen Q.messages)
  cases hrun : sortByPrio qsort Q true with
  | error e => exact absurd (hspec.of_error hrun).2 nofun
  | ok Q' =>
    obtain rfl : Q' = Q.sorted qsort := hspec.of_ok hrun
    refine ⟨_,rfl,?_,rfl,fun x hx => ?_,fun hperm => ?_⟩
    · exact QueueD.sorted_messages hin hout (hlen _)
    · exact QueueD.sorted_outside hout (hlen _) hx
    · exact QueueD.sorted_buffers hin hout (hlen _) hperm

/-- A queue of four slots with messages in the last and the first one. -/
def wrappedQueue : QueueD gnuArm :=
  ⟨true,⟨2,4⟩,⟨1,3,fun i => ⟨some i,1,⟨5,(i+1) % 4,i⟩⟩,2⟩,smCreate 0 0⟩

/-- The message in the first slot is the more urgent one. -/
theorem sortByPrio_ring_wrapped : ∃ Q', sortByPrio insertSort wrappedQueue true = .ok Q' ∧
    Q'.messages.map (·.buffer) = [some 0,some 3] ∧ Q'.buffers.Perm wrappedQueue.buffers := by
  obtain ⟨Q',hrun,hmessages,-,-,hbuffers⟩ := sortByPrio_ring (Q:=wrappedQueue)
    (fun l => (insertSort_sorts l).1.length_eq) (by decide) (by decide)
  refine ⟨Q',hrun,?_,hbuffers (insertSort_sorts _).1⟩
  rw [hmessages]
  decide

end Tinker

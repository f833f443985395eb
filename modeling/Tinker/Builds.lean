import Tinker.ItcCreate
import Tinker.VQueue

/-! The kernel's runs in builds that void `printk` and in those that print, with the creations that
stop half way. -/
namespace Tinker

open Outcome

variable {cfg : Config} {numQ : ℕ}

/-- A step of the kernel, or a creation that gets its `itc_t` but no `blocked_procs`. -/
inductive BuildLabel (cfg : Config) (numQ : ℕ)
  | call (l : WorldLabel cfg numQ) | halfWay (junk : ItcObj cfg)

def buildEnabled (w : World cfg numQ) : BuildLabel cfg numQ → Bool
  | .call l => worldEnabled w l
  | .halfWay _ => w.runs

def buildNext (printk : Bool) (w : World cfg numQ) :
    BuildLabel cfg numQ → Except Fault (World cfg numQ)
  | .call (.give qid (.bytes m granted)) => w.giveBytes printk qid m granted
  | .call l => worldNext w l
  | .halfWay junk => .ok (w.setStore (w.store.halfWay junk).1)

/-- `printk` tells whether it prints. -/
def buildMachine (cfg : Config) (numQ : ℕ) (printk : Bool) :
    Machine (World cfg numQ) (BuildLabel cfg numQ) Fault where
  enabled := buildEnabled
  next := buildNext printk

/-- No creation stops half way, and the calls are as `C` wants them. -/
def Whole (C : World cfg numQ → WorldLabel cfg numQ → Prop) (w : World cfg numQ) :
    BuildLabel cfg numQ → Prop
  | .call l => C w l
  | .halfWay _ => False

instance (C : World cfg numQ → WorldLabel cfg numQ → Prop) [∀ w l, Decidable (C w l)] :
    ∀ (w : World cfg numQ) (l : BuildLabel cfg numQ), Decidable (Whole C w l)
  | w, .call l => inferInstanceAs (Decidable (C w l))
  | _, .halfWay _ => isFalse id

section

variable {printk : Bool} {w w' : World cfg numQ} {l : WorldLabel cfg numQ}

theorem giveBytes_voided {qid : Fin numQ} {m : VMsg} {granted : Bool}
    (h : w.giveBytes printk qid m granted = .ok w') : w.giveBytes false qid m granted = .ok w' := by
  unfold World.giveBytes at h ⊢
  obtain ⟨r,hr,h⟩ := bind_eq_ok.mp h
  rw [qVsend_voided hr]
  exact h

/-- A call that does not stop in `printk` does what the kernel does where it is voided. -/
theorem buildStep_call (h : (buildMachine cfg numQ printk).Step w (.call l) w') :
    (worldMachine cfg numQ).Step w l w' := by
  refine ⟨h.1,?_⟩
  have hnext : buildNext printk w (.call l) = .ok w' := h.2
  cases l with
  | give qid p =>
    cases p with
    | bytes m granted => exact giveBytes_voided hnext
    | token => exact hnext
    | words m => exact hnext
  | _ => exact hnext

end

end Tinker

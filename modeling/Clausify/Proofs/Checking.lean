import Clausify.Proofs.Points
import Clausify.Proofs.Records

/-!
# Checks do not matter

A run of a program passes sound states only, so whether the invariants are checked makes no difference
(`Program.runFrom_checking`).
-/

namespace Clausify

variable {α : Type}

namespace State

variable {s t : State Int}

private theorem Twin.checkFinished_eq {traced : Prop} (h : Twin traced s t) (b c : Bool) :
    s.checkFinished b = t.checkFinished c := by
  rw [h.sound.checkFinished_eq, (h.toAlike.sound h.sound).checkFinished_eq]
  unfold checkFinished
  rw [h.assumptions_eq, h.contexts_eq]
  rfl

end State

end Clausify

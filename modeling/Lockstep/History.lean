import Lockstep.Snapshot

/-!
The history of a run: the frames recorded so far, within a budget of space.

A frame that does not fit into what is left of the budget is passed over; a later, smaller one may fit
again.
-/

namespace Lockstep

/-- Recorded frames, oldest first, the space that they take, and the space that they may take, in
bytes. -/
structure History where
  limit : Nat
  frames : List Frame := []
  used : Nat := 0
  used_eq : used = total (frames.map Frame.size) := by rfl

/-- A frame was not recorded because the budget would have been exceeded. -/
structure OverBudget where
  used : Nat
  extra : Nat
  limit : Nat
deriving DecidableEq, Repr

namespace OverBudget

/-- The text that is shown for a frame that was not recorded. -/
def message (o : OverBudget) : String :=
  "Snapshot memory limit exceeded: " ++ o.used.repr ++ " + " ++ o.extra.repr ++ " > " ++
    o.limit.repr

end OverBudget

namespace History

/-- The budget if none is asked for: 256 MiB. -/
def defaultLimit : Nat := 256 * 1024 * 1024

/-- Records a frame at the end, if the budget allows it. -/
def push (h : History) (f : Frame) : Except OverBudget History :=
  if h.used + f.size ≤ h.limit then
    .ok {
      limit := h.limit
      frames := h.frames ++ [f]
      used := h.used + f.size
      used_eq := by simp [h.used_eq] }
  else .error { used := h.used, extra := f.size, limit := h.limit }

end History

end Lockstep

import Lockstep.Phase

/-!
Pools of threads that advance in rounds.

The active threads are kept in the order in which they joined. Threads that have ended are kept in the
order in which they left.
-/

namespace Lockstep

/-- Threads that take part in rounds, those that ended, and the number of rounds so far. -/
structure Pool where
  world : World := {}
  active : List Thread := []
  retired : List Thread := []
  round : Nat := 0

namespace Pool

/-- Adds a thread at the end of the list. -/
def add (p : Pool) (t : Thread) : Pool :=
  { p with active := p.active ++ [t] }

/-- Moves the threads that cannot be stepped to the retired ones, in order. -/
def retire (p : Pool) : Pool :=
  { p with
    active := p.active.filter (·.isActive)
    retired := p.retired ++ p.active.filter (!·.isActive) }

/-- Opens a round: counts it and sweeps the heaps. -/
def openRound (sweep : World → List Thread → World) (p : Pool) : Pool :=
  { p with world := sweep p.world p.active, round := p.round + 1 }

/-- A thread after its step: ended with the failure if the step failed. -/
def settle (r : Thread × Except Fault (Option Thread)) : Thread :=
  match r.2 with
  | .ok _ => r.1
  | .error e => r.1.fail e

/-- The thread that a step started. -/
def child? (r : Thread × Except Fault (Option Thread)) : Option Thread :=
  match r.2 with
  | .ok child => child
  | .error _ => none

/-- The number of the thread whose step failed, with the failure. -/
def failure? (r : Thread × Except Fault (Option Thread)) : Option (Nat × Fault) :=
  match r.2 with
  | .ok _ => none
  | .error e => some (r.1.id, e)

/-- Steps every thread once, with their operations in the given order, and puts the threads that were
started at the end, in the order of those that started them. Yields the failures as well. -/
def stepAll (disk : Disk) (order : List Nat) (p : Pool) : Pool × List (Nat × Fault) :=
  let (world, results) := p.world.stepTogether disk order p.active
  ({ p with world, active := results.map settle ++ results.filterMap child? },
    results.filterMap failure?)

end Pool

end Lockstep

import Lockstep.Scheduler

/-!
The workers that step the threads of a round.

A round that finds no workers asks the system for some, and does nothing else if the system refuses. It
turns to the workers a second time when the threads are to be stepped.
-/

namespace Lockstep

/-- A scheduler, and whether its workers have been started. -/
structure Dispatcher where
  scheduler : Scheduler
  staffed : Bool := false

namespace Dispatcher

/-- Makes sure that there are workers. The system gives the `answer` if it is asked for some. -/
def hire (answer : Except String Unit) (d : Dispatcher) : Except Fault Dispatcher :=
  if d.staffed then .ok d
  else match answer with
    | .ok _ => .ok { d with staffed := true }
    | .error refusal => .error (.noWorkers refusal)

/-- A round. Yields whether a thread is still active, or that there are no workers. -/
def round (answer : Except String Unit) (c : Course) (d : Dispatcher) :
    Dispatcher × Except Fault Bool :=
  match d.hire answer with
  | .error e => (d, .error e)
  | .ok d =>
    let s := d.scheduler.retire
    if s.pool.active.isEmpty then ({ d with scheduler := s }, .ok false)
    else
      let s := { s with pool := s.pool.openRound World.sweep }.logAll c.early
      match { d with scheduler := s }.hire answer with
      -- the threads have been taken out of the list and are not put back
      | .error e => ({ d with scheduler := { s with pool := { s.pool with active := [] } } }, .error e)
      | .ok d =>
        let s := ((d.scheduler.stepAll c.order).logAll c.late).record.retire
        ({ d with scheduler := s }, .ok !s.pool.active.isEmpty)

/-- A dispatcher that has workers, or gets them when it asks, goes through its rounds as its scheduler
does. -/
theorem round_eq {answer : Except String Unit} {d : Dispatcher}
    (manned : d.staffed ∨ answer = .ok ()) (c : Course) :
    d.round answer c =
      ({ scheduler := (d.scheduler.round c).1, staffed := true },
        .ok (d.scheduler.round c).2) := by
  have hired : d.hire answer = .ok { d with staffed := true } := by
    obtain ⟨s, staffed⟩ := d
    rcases manned with there | granted
    · simp_all [hire]
    · cases staffed <;> simp [hire, granted]
  rw [round, hired]
  simp only [hire, if_true, Scheduler.round, Scheduler.roundWith]
  by_cases idle : d.scheduler.retire.pool.active.isEmpty
  · simp only [if_pos idle]
  · simp only [if_neg idle]

end Dispatcher

end Lockstep

import Lockstep.Scheduler

/-!
Rounds seen from the pool, and runs of many rounds.

The journal of a scheduler only adds to the disk that threads read in a round. Apart from this disk, what
a round makes of the pool depends on the pool alone, so whatever every round keeps, whatever the disk is,
holds after any number of rounds.
-/

namespace Lockstep

/-- The thread of a job as it stands: before its step, or after it. -/
def Job.thread : Job → Thread
  | reading t _ => t
  | ended outcome => outcome.1

/-- The thread that a job has started. -/
def Job.child? : Job → Option Thread
  | reading _ _ => none
  | ended outcome => Pool.child? outcome

/-- The threads that exist while some are stepped, those that have been started meanwhile at the end. -/
def Phase.threads (f : Phase) : List Thread :=
  f.jobs.map Job.thread ++ f.jobs.filterMap Job.child?

namespace Pool

variable (sweep : World → List Thread → World) (disk : Disk)

/-- A round of a pool whose threads read the given disk, with their operations in the given order. Yields
whether a thread is still active. -/
def advance (order : List Nat) (p : Pool) : Pool × Bool :=
  if p.retire.active.isEmpty then (p.retire, false)
  else
    let after := ((p.retire.openRound sweep).stepAll disk order).1.retire
    (after, !after.active.isEmpty)

/-- The threads of a round after some operations of their steps. -/
def during (p : Pool) (operations : List Nat) : Phase :=
  (Phase.start (sweep p.world p.retire.active) p.retire.active).run disk operations

/-- The worlds that a round passes through, each with the threads that exist at the time: before the
threads that have ended are retired, before the collection, after the collection and after every single
operation, in whatever order they come, after the threads that were started have joined, and at the end. -/
inductive Moment (p : Pool) : World → List Thread → Prop where
  | start : Moment p p.world p.active
  | opened : Moment p p.world p.retire.active
  | during (operations : List Nat) :
    Moment p (p.during sweep disk operations).world (p.during sweep disk operations).threads
  | joined (order : List Nat) : Moment p ((p.retire.openRound sweep).stepAll disk order).1.world
      ((p.retire.openRound sweep).stepAll disk order).1.active
  | closed (order : List Nat) :
    Moment p (p.advance sweep disk order).1.world (p.advance sweep disk order).1.active

end Pool

namespace Scheduler

variable (sweep : World → List Thread → World)

/-- The disk that threads read in a round: the first records of the round are on it already. -/
def roundDisk (c : Course) (s : Scheduler) : Disk :=
  ({ s.retire with pool := s.retire.pool.openRound sweep }.logAll c.early).disk

section Parts

variable (c : Course) (s : Scheduler)

@[simp] theorem pool_retire : s.retire.pool = s.pool.retire := rfl

@[simp] theorem pool_logAll (writings : Nat → Writing) : (s.logAll writings).pool = s.pool := rfl

@[simp] theorem pool_stepAll (order : List Nat) :
    (s.stepAll order).pool = (s.pool.stepAll s.disk order).1 := rfl

@[simp] theorem pool_record : s.record.pool = s.pool := rfl

theorem pool_roundWith :
    ((s.roundWith sweep c).1.pool, (s.roundWith sweep c).2) =
      s.pool.advance sweep (s.roundDisk sweep c) c.order := by
  by_cases idle : s.pool.retire.active.isEmpty
  · simp [roundWith, Pool.advance, idle]
  · simp [roundWith, roundDisk, Pool.advance, idle]

end Parts

theorem active_ofProgram (disk : Disk) (journal : Journal) (program : Stmt) :
    (ofProgram disk journal program).pool.active = [Thread.start 1 0 program ∅] := rfl

theorem heap_ofProgram (disk : Disk) (journal : Journal) (program : Stmt) (n : Nat) :
    (ofProgram disk journal program).pool.world.heap n = {} := by
  simp only [ofProgram, World.launch, World.launchOn, World.heap_start]
  change (({} : World).setHeap 0 {}).heap n = {}
  rw [World.heap_setHeap]
  split <;> rfl

/-- A scheduler after `n` rounds, and the answers of the rounds in order. The round that follows `k`
others takes the course `course k`. -/
def roundsWith (course : Nat → Course) (s : Scheduler) : Nat → Scheduler × List Bool
  | 0 => (s, [])
  | n + 1 =>
    let before := s.roundsWith course n
    let after := before.1.roundWith sweep (course n)
    (after.1, before.2 ++ [after.2])

/-- What every round keeps holds after any number of rounds. -/
theorem roundsWith_invariant {Inv : Pool → Prop}
    (preserved : ∀ disk order p, Inv p → Inv (p.advance sweep disk order).1) (course : Nat → Course)
    {s : Scheduler} (initial : Inv s.pool) (n : Nat) :
    Inv (s.roundsWith sweep course n).1.pool := by
  induction n with
  | zero => exact initial
  | succ n ih =>
    -- the disk of the round is whatever the rounds before have left
    have round := pool_roundWith sweep (course n) (s.roundsWith sweep course n).1
    have after := preserved (roundDisk sweep (course n) (s.roundsWith sweep course n).1)
      (course n).order _ ih
    rw [← round] at after
    exact after

end Scheduler

/-! ### Steps -/

namespace World

variable (ν : Valuation) (disk : Disk) (w : World) (t : Thread)

theorem heap_stepBy (n : Nat) :
    (w.stepBy ν disk t).1.heap n =
      if t.heap = n then (t.stepBy ν disk (w.heap t.heap)).heap else w.heap n := by
  rw [← heap_setHeap]
  simp only [stepBy]
  split <;> rfl

/-- The outcome of a step; a thread that it starts takes the next number and works on the same heap. -/
theorem stepBy_snd :
    (w.stepBy ν disk t).2 = ((t.stepBy ν disk (w.heap t.heap)).thread,
      (t.stepBy ν disk (w.heap t.heap)).result.map
        (Option.map fun c => Thread.start w.nextThread t.heap c.body c.symbols)) := by
  simp only [stepBy]
  split
  next answer => rw [answer]; rfl
  next answer => rw [answer]; rfl
  next answer => rw [answer]; rfl

theorem nextThread_stepBy :
    (w.stepBy ν disk t).1.nextThread =
      w.nextThread + (Pool.child? (w.stepBy ν disk t).2).toList.length := by
  simp only [stepBy]
  split <;> rfl

theorem heap_step (n : Nat) :
    (w.step disk t).1.heap n =
      if t.heap = n then (t.step disk (w.heap t.heap)).heap else w.heap n :=
  w.heap_stepBy _ disk t n

theorem step_snd :
    (w.step disk t).2 = ((t.step disk (w.heap t.heap)).thread,
      (t.step disk (w.heap t.heap)).result.map
        (Option.map fun c => Thread.start w.nextThread t.heap c.body c.symbols)) :=
  w.stepBy_snd _ disk t

theorem stepAll_cons (ts : List Thread) :
    w.stepAll disk (t :: ts) =
      (((w.step disk t).1.stepAll disk ts).1,
        (w.step disk t).2 :: ((w.step disk t).1.stepAll disk ts).2) := rfl

end World

end Lockstep

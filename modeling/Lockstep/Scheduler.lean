import Lockstep.Journal
import Lockstep.Pool

/-!
The scheduler: threads advance in rounds, each by one step a round.

A round
1. retires threads that have ended, and ends there if no other is left;
2. collects the heaps, with the variables of all threads of the round as roots;
3. writes every thread to the log;
4. steps every thread once, at the same time; one whose step fails ends with the failure;
5. puts the threads that were started at the end of the list, to run from the next round on;
6. writes every thread to the log again, records them in the history, and retires those that ended.

The journal only watches: a failure to write or to record is reported and changes nothing. What a round
does not determine by itself is its course, which is a parameter: the order in which the steps interleave,
and the times and failures of the records. The way in which the heaps are swept is a parameter too, so that
runs with and without collection can be compared.
-/

namespace Lockstep

/-- A pool with the disk that its threads read, its journal, and the warnings not yet handed over. -/
structure Scheduler where
  pool : Pool := {}
  disk : Disk
  journal : Journal := {}
  warnings : List Warning := []

/-- The course of a round: the order in which the operations of its threads follow one another, and how the
writing of its records goes, of those before the steps and of those after them. -/
structure Course where
  order : List Nat := []
  early : Nat → Writing
  late : Nat → Writing

/-- A course in which all records are written, at the given time. -/
def Course.smooth (stamp : Stamp) (order : List Nat := []) : Course where
  order := order
  early _ := { stamp }
  late _ := { stamp }

namespace Scheduler

/-- All threads that take part, as they stand. -/
def frame (s : Scheduler) : Frame :=
  Frame.ofThreads s.pool.round s.pool.world s.pool.active

/-- Writes all threads to the log. -/
def logAll (writings : Nat → Writing) (s : Scheduler) : Scheduler :=
  let (disk, warnings) := s.journal.logAll writings s.disk s.frame.threads
  { s with disk, warnings := s.warnings ++ warnings }

/-- Steps all threads. -/
def stepAll (order : List Nat) (s : Scheduler) : Scheduler :=
  let (pool, failures) := s.pool.stepAll s.disk order
  { s with pool, warnings := s.warnings ++ failures.map fun f => .stopped f.1 f.2 }

/-- Records all threads in the history. -/
def record (s : Scheduler) : Scheduler :=
  let (journal, warnings) := s.journal.record s.frame
  { s with journal, warnings := s.warnings ++ warnings }

/-- Retires the threads that have ended. -/
def retire (s : Scheduler) : Scheduler :=
  { s with pool := s.pool.retire }

/-- A round in which the heaps are swept in the given way. Yields whether a thread is still active. -/
def roundWith (sweep : World → List Thread → World) (c : Course) (s : Scheduler) : Scheduler × Bool :=
  let s := s.retire
  if s.pool.active.isEmpty then (s, false)
  else
    let s := { s with pool := s.pool.openRound sweep }
    let s := (s.logAll c.early).stepAll c.order
    let s := (s.logAll c.late).record.retire
    (s, !s.pool.active.isEmpty)

/-- A round. Yields whether a thread is still active. -/
def round (c : Course) (s : Scheduler) : Scheduler × Bool :=
  s.roundWith World.sweep c

/-- Runs at most the given number of rounds, and none after the one that leaves no thread active. The first
round takes the course `course k`, the next one `course (k + 1)`, and so on. -/
def rounds (course : Nat → Course) : Nat → Nat → Scheduler → Scheduler
  | 0, _, s => s
  | n + 1, k, s =>
    let (s', more) := s.round (course k)
    if more then rounds course n (k + 1) s' else s'

/-- Runs rounds until no thread is active, if that takes no more rounds than the fuel allows. The first round
takes the course `course k`, the next one `course (k + 1)`, and so on. -/
def run (course : Nat → Course) : Nat → Nat → Scheduler → Option Scheduler
  | 0, _, _ => none
  | fuel + 1, k, s =>
    let (s', more) := s.round (course k)
    if more then run course fuel (k + 1) s' else some s'

/-- Hands the retired threads over. -/
def takeRetired (s : Scheduler) : List Thread × Scheduler :=
  (s.pool.retired, { s with pool := { s.pool with retired := [] } })

/-- Hands the warnings over. -/
def takeWarnings (s : Scheduler) : List Warning × Scheduler :=
  (s.warnings, { s with warnings := [] })

/-- A scheduler for a single program. -/
def ofProgram (disk : Disk) (journal : Journal) (program : Stmt) : Scheduler :=
  let (world, thread) := ({} : World).launch program
  { pool := { world, active := [thread] }, disk, journal }

end Scheduler

end Lockstep

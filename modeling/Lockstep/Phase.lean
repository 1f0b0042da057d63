import Lockstep.World

/-!
Threads that are stepped at the same time.

The threads of a round are stepped by several workers, so their steps interleave. Whatever a thread does to
what it shares with others is one operation: to look at a cell, or to act, which allocates a cell, replaces
the value of one or takes the number of a new thread. Between its operations a thread deals with what is its
own. Nothing is known of the order in which the workers get on, so it is a parameter: a list of places in the
list of threads, each of which lets the thread at that place do its next operation. Once the list is used up,
the threads that have not come to the end of their steps do so one after another. So every list is an order,
and every order in which the operations can follow one another is one of a list.
-/

namespace Lockstep

/-- A thread that is being stepped: it is finding out what its statement needs, or its step has come to an
end. -/
inductive Job where
  | reading (t : Thread) (q : Inquiry)
  | ended (outcome : Thread × Except Fault (Option Thread))

/-- Threads that are being stepped, and the world that they share. -/
structure Phase where
  world : World
  jobs : List Job

namespace World

variable (disk : Disk) (w : World)

/-- The next operation of a thread. -/
def act : Job → World × Job
  | .reading t (.look a next) => (w, .reading t (next ((w.heap t.heap).get a)))
  | .reading t (.answer r) =>
    let (w', outcome) := w.stepBy (fun _ => r) disk t
    (w', .ended outcome)
  | .ended outcome => (w, .ended outcome)

/-- All operations that a thread has left, without interruption. -/
def finish : Job → World × Thread × Except Fault (Option Thread)
  | .reading t q => w.stepBy (fun _ => q.on (w.heap t.heap)) disk t
  | .ended outcome => (w, outcome)

/-- All operations that are left, thread by thread. -/
def finishAll (w : World) : List Job → World × List (Thread × Except Fault (Option Thread))
  | [] => (w, [])
  | j :: js =>
    let (w₁, outcome) := w.finish disk j
    let (w₂, rest) := w₁.finishAll js
    (w₂, outcome :: rest)

end World

namespace Phase

/-- Threads at the beginning of their steps. -/
def start (w : World) (threads : List Thread) : Phase where
  world := w
  jobs := threads.map fun t => .reading t t.inquiry

variable (disk : Disk)

/-- Lets the thread at a place do its next operation. A thread that is done has none, nor has a place without
a thread. -/
def turn (p : Phase) (place : Nat) : Phase :=
  match p.jobs[place]? with
  | none => p
  | some j =>
    let (w, j') := p.world.act disk j
    { world := w, jobs := p.jobs.set place j' }

/-- Lets the threads at some places do their next operations, one after another. -/
def run (p : Phase) (order : List Nat) : Phase :=
  order.foldl (turn disk) p

end Phase

/-- Steps every thread of a list once. Their operations follow one another in the given order; those that are
left then come in the order of the list. -/
def World.stepTogether (disk : Disk) (order : List Nat) (w : World) (threads : List Thread) :
    World × List (Thread × Except Fault (Option Thread)) :=
  let p := (Phase.start w threads).run disk order
  p.world.finishAll disk p.jobs

end Lockstep

import Lockstep.Stmt.Inquiry

/-!
Threads: a stack of statements to run, with the variables, output and open files that belong to it.

A thread names the heap that it works on; the heap itself is shared and stands elsewhere. One step
pops the top statement and executes it. The thread completes with the step that empties its stack. What the
statement needs to know of the heap is found out before, and others may change the heap meanwhile.
-/

namespace Lockstep

/-- How a thread stands. -/
inductive Status where
  | running
  | completed
  | failed (e : Fault)
deriving DecidableEq

namespace Status

/-- The printed form of a status. -/
def text : Status → String
  | running => "running"
  | completed => "completed"
  | failed e => "errored: " ++ e.message

end Status

/-- A thread. The statement on top of the stack, which runs next, is the first of the list. -/
structure Thread where
  id : Nat
  heap : Nat
  /-- What the thread was started with. -/
  program : Stmt
  stack : List Stmt
  symbols : Symbols
  output : List Value
  files : OpenFiles
  status : Status

namespace Thread

/-- A thread at its start: its program on the stack, nothing printed and no file open. -/
def start (id heap : Nat) (program : Stmt) (symbols : Symbols) : Thread where
  id := id
  heap := heap
  program := program
  stack := [program]
  symbols := symbols
  output := []
  files := ∅
  status := .running

/-- Whether a thread can be stepped: it has not ended and something is left on its stack. -/
def isActive (t : Thread) : Bool :=
  t.status = .running && !t.stack.isEmpty

/-- What the thread sees when its heap holds `h`. -/
def store (t : Thread) (h : Heap) : Store where
  symbols := t.symbols
  heap := h
  output := t.output
  files := t.files

/-- The thread with the given stack and its own part of the given store. -/
def resume (t : Thread) (stack : List Stmt) (σ : Store) : Thread :=
  { t with stack, symbols := σ.symbols, output := σ.output, files := σ.files }

/-- Ends a thread with an error. -/
def fail (t : Thread) (e : Fault) : Thread :=
  { t with status := .failed e }

/-- What a step of a thread comes to. -/
structure Step where
  heap : Heap
  thread : Thread
  /-- The thread to start, if the step was a fork, or the failure of the step. -/
  result : Except Fault (Option Spawn)

/-- Pops the top statement and executes it on the heap `h`, with the given value for its expression. A
failing statement stays popped and puts nothing on the stack; the status is left to the caller then. -/
def stepBy (ν : Valuation) (disk : Disk) (h : Heap) (t : Thread) : Step :=
  match t.status, t.stack with
  | .running, s :: rest =>
    match s.execBy ν disk (t.store h) with
    | (σ, .error e) => { heap := σ.heap, thread := t.resume rest σ, result := .error e }
    | (σ, .ok effect) =>
      let t' := t.resume (effect.push ++ rest) σ
      { heap := σ.heap
        thread := if t'.stack.isEmpty then { t' with status := .completed } else t'
        result := .ok effect.spawn }
  | _, _ => { heap := h, thread := t, result := .error (.nothingToRun t.id) }

/-- A step that nobody interrupts. -/
def step (disk : Disk) (h : Heap) (t : Thread) : Step :=
  t.stepBy (t.store h).eval disk h

theorem step_eq (disk : Disk) (h : Heap) (t : Thread) :
    t.step disk h =
      match t.status, t.stack with
      | .running, s :: rest =>
        match s.exec disk (t.store h) with
        | (σ, .error e) => { heap := σ.heap, thread := t.resume rest σ, result := .error e }
        | (σ, .ok effect) =>
          let t' := t.resume (effect.push ++ rest) σ
          { heap := σ.heap
            thread := if t'.stack.isEmpty then { t' with status := .completed } else t'
            result := .ok effect.spawn }
      | _, _ => { heap := h, thread := t, result := .error (.nothingToRun t.id) } := rfl

/-- What a thread finds out before its next statement acts. -/
def inquiry (t : Thread) : Inquiry :=
  match t.status, t.stack with
  | .running, s :: _ => s.inquiry t.symbols
  | _, _ => .answer (.ok (.bool true))

/-- A thread that finds out what it needs and acts at once takes a step that nobody interrupts. -/
theorem stepBy_inquiry (disk : Disk) (h : Heap) (t : Thread) :
    t.stepBy (fun _ => t.inquiry.on h) disk h = t.step disk h := by
  simp only [step, stepBy, inquiry]
  split
  next s rest running top =>
    have acts := s.execBy_inquiry disk (t.store h)
    simp only [Stmt.exec, store] at acts
    simp only [store, acts]
  · rfl

end Thread

end Lockstep

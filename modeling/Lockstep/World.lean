import Lockstep.Heap.Reach
import Lockstep.Thread

/-!
The world that threads live in: the heaps, and the supply of numbers for threads and heaps.

Threads started by a fork work on the heap of their parent; threads started on their own get a heap of
their own unless they are put on another's. Threads are numbered in the order in which they start.
-/

namespace Lockstep

/-- The heaps by number, and the numbers of the next thread and the next heap. -/
structure World where
  heaps : Std.ExtTreeMap Nat Heap compare := ∅
  nextThread : Nat := 1
  nextHeap : Nat := 0

namespace World

/-- The heap with the given number. -/
def heap (w : World) (n : Nat) : Heap :=
  w.heaps[n]?.getD {}

/-- The world with another heap under the given number. -/
def setHeap (w : World) (n : Nat) (h : Heap) : World :=
  { w with heaps := w.heaps.insert n h }

@[simp] theorem heap_setHeap (w : World) (m n : Nat) (h : Heap) :
    (w.setHeap n h).heap m = if n = m then h else w.heap m := by
  simp only [heap, setHeap, Std.ExtTreeMap.getElem?_insert, Std.compare_eq_iff_eq]
  split <;> rfl

/-- Starts a thread with the given variables on an existing heap. -/
def start (w : World) (heap : Nat) (program : Stmt) (symbols : Symbols) : World × Thread :=
  ({ w with nextThread := w.nextThread + 1 }, Thread.start w.nextThread heap program symbols)

@[simp] theorem heap_start (w : World) (heap : Nat) (program : Stmt) (symbols : Symbols) (n : Nat) :
    (w.start heap program symbols).1.heap n = w.heap n := rfl

/-- Starts a thread without variables on an existing heap. -/
def launchOn (w : World) (heap : Nat) (program : Stmt) : World × Thread :=
  w.start heap program ∅

/-- Starts a thread without variables on a fresh heap. -/
def launch (w : World) (program : Stmt) : World × Thread :=
  { w.setHeap w.nextHeap {} with nextHeap := w.nextHeap + 1 }.launchOn w.nextHeap program

/-- A step of one thread whose expression has the given value: the world and the thread after it, and the
thread that it started or its failure. -/
def stepBy (ν : Valuation) (disk : Disk) (w : World) (t : Thread) :
    World × Thread × Except Fault (Option Thread) :=
  let s := t.stepBy ν disk (w.heap t.heap)
  let w' := w.setHeap t.heap s.heap
  match s.result with
  | .error e => (w', s.thread, .error e)
  | .ok none => (w', s.thread, .ok none)
  | .ok (some spawn) =>
    let (w'', child) := w'.start t.heap spawn.body spawn.symbols
    (w'', s.thread, .ok (some child))

/-- A step of one thread that nobody interrupts. -/
def step (disk : Disk) (w : World) (t : Thread) : World × Thread × Except Fault (Option Thread) :=
  w.stepBy (t.store (w.heap t.heap)).eval disk t

theorem step_eq (disk : Disk) (w : World) (t : Thread) :
    w.step disk t =
      let s := t.step disk (w.heap t.heap)
      let w' := w.setHeap t.heap s.heap
      match s.result with
      | .error e => (w', s.thread, .error e)
      | .ok none => (w', s.thread, .ok none)
      | .ok (some spawn) =>
        let (w'', child) := w'.start t.heap spawn.body spawn.symbols
        (w'', s.thread, .ok (some child)) := rfl

/-- Steps every thread of a list once, in order. -/
def stepAll (disk : Disk) (w : World) :
    List Thread → World × List (Thread × Except Fault (Option Thread))
  | [] => (w, [])
  | t :: ts =>
    let (w₁, t', result) := w.step disk t
    let (w₂, rest) := w₁.stepAll disk ts
    (w₂, (t', result) :: rest)

/-- Adds the addresses that the variables of a thread hold to the group of its heap, which is put at
the end if it is missing. -/
def addRoots (t : Thread) : List (Nat × List Nat) → List (Nat × List Nat)
  | [] => [(t.heap, t.symbols.roots)]
  | (n, roots) :: rest =>
    if n = t.heap then (n, roots ++ t.symbols.roots) :: rest else (n, roots) :: addRoots t rest

/-- The heaps that the listed threads work on, in the order in which they are met, each with the
addresses that the variables of its threads hold. -/
def rootGroups (threads : List Thread) : List (Nat × List Nat) :=
  threads.foldl (fun groups t => addRoots t groups) []

/-- Collects the listed heaps one after another, each from its own roots; yields the number of
discarded cells as well. -/
def collectGroups (w : World) : List (Nat × List Nat) → World × Nat
  | [] => (w, 0)
  | (n, roots) :: rest =>
    let (h, discarded) := (w.heap n).collect roots
    let (w', more) := (w.setHeap n h).collectGroups rest
    (w', discarded + more)

/-- Collects each heap that a listed thread works on; the variables of all listed threads on a heap
are its roots. Yields the number of discarded cells as well. -/
def collect (w : World) (threads : List Thread) : World × Nat :=
  w.collectGroups (rootGroups threads)

/-- The world after a collection. -/
def sweep (w : World) (threads : List Thread) : World :=
  (w.collect threads).1

end World

end Lockstep

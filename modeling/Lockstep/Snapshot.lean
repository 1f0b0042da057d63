import Lockstep.Text.Lines
import Lockstep.World

/-!
Snapshots: printed copies of threads, for the log and for the history of a run.

A frame holds the snapshots of all threads at the end of a round.
-/

namespace Lockstep

/-- A thread as it stood at some moment, with everything printed. Cells are in order of their
addresses, variables and files in order of their names. -/
structure Snapshot where
  id : Nat
  status : String := "running"
  finished : Bool := false
  stack : List String := []
  heap : List (Nat × String) := []
  symbols : List (String × String) := []
  output : List String := []
  files : List String := []
deriving DecidableEq, Repr

namespace Snapshot

/-- The snapshot of a thread whose heap holds `h`. -/
def ofThread (h : Heap) (t : Thread) : Snapshot where
  id := t.id
  status := t.status.text
  finished := !t.isActive
  stack := t.stack.map Stmt.text
  heap := h.cells.toList.map fun c => (c.1, c.2.text)
  symbols := t.symbols.toList.map fun b => (b.1, b.2.text)
  output := t.output.map Value.text
  files := t.files.keys

/-- The number of dashes that close a record. -/
def ruleWidth : Nat := 50

/-- The line that closes a record. -/
def rule : String := String.ofList (List.replicate ruleWidth '-')

/-- The lines of the log record for a snapshot: the time stamp, the thread with its status, and a
section each for its stack, heap, variables and output. -/
def recordLines (stamp : String) (s : Snapshot) : List String :=
  [stamp, "Thread " ++ s.id.repr ++ " (" ++ s.status ++ ")"] ++
  ["Execution Stack:"] ++ s.stack ++
  ["Heap:"] ++ s.heap.map (fun c => c.1.repr ++ " -> " ++ c.2) ++
  ["Symbol Table:"] ++ s.symbols.map (fun b => b.1 ++ " -> " ++ b.2) ++
  ["Output:"] ++ s.output ++
  [rule]

/-- The log record for a snapshot. -/
def record (stamp : String) (s : Snapshot) : String :=
  Text.unlines (s.recordLines stamp)

/-- The part of the size that every snapshot has, in bytes. -/
def baseSize : Nat := 160

/-- An estimate of the space that a snapshot takes, in bytes. The status does not count. -/
def size (s : Snapshot) : Nat :=
  baseSize + Text.byteCount s.stack +
    total (s.heap.map fun c => c.2.utf8ByteSize + 8) +
    total (s.symbols.map fun b => b.1.utf8ByteSize + b.2.utf8ByteSize) +
    Text.byteCount s.output + Text.byteCount s.files

end Snapshot

/-- All threads at the end of a round. -/
structure Frame where
  round : Nat
  threads : List Snapshot
deriving DecidableEq, Repr

namespace Frame

/-- The frame of some threads at the end of a round. -/
def ofThreads (round : Nat) (w : World) (threads : List Thread) : Frame where
  round := round
  threads := threads.map fun t => Snapshot.ofThread (w.heap t.heap) t

/-- The part of the size that every frame has, in bytes. -/
def baseSize : Nat := 32

/-- An estimate of the space that a frame takes, in bytes. -/
def size (f : Frame) : Nat :=
  baseSize + total (f.threads.map Snapshot.size)

end Frame

end Lockstep

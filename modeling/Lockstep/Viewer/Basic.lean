import Lockstep.Snapshot

/-!
The state of the history viewer: which round and which thread are on screen, and how far each pane is
scrolled.

The selected thread is remembered by its number, also in rounds in which it does not occur; such a
round shows its first thread instead.
-/

namespace Lockstep

/-- The panes of the viewer. -/
inductive Pane where
  | stack
  | symbols
  | heap
  | files
  | output
deriving DecidableEq, Repr

namespace Pane

/-- The pane that has the focus after this one. -/
def next : Pane → Pane
  | stack => symbols
  | symbols => heap
  | heap => files
  | files => output
  | output => stack

end Pane

/-- How many entries each pane has scrolled past. -/
structure Scroll where
  stack : Nat := 0
  symbols : Nat := 0
  heap : Nat := 0
  files : Nat := 0
  output : Nat := 0
deriving DecidableEq, Repr

namespace Scroll

/-- An offset past every entry, and the largest one; drawing cuts it down to the last window. -/
def bottom : Nat := 18446744073709551615

/-- The offset of a pane. -/
def get (s : Scroll) : Pane → Nat
  | .stack => s.stack
  | .symbols => s.symbols
  | .heap => s.heap
  | .files => s.files
  | .output => s.output

/-- Moves a pane to an offset. -/
def set (s : Scroll) (p : Pane) (n : Nat) : Scroll :=
  match p with
  | .stack => { s with stack := n }
  | .symbols => { s with symbols := n }
  | .heap => { s with heap := n }
  | .files => { s with files := n }
  | .output => { s with output := n }

@[simp] theorem get_set (s : Scroll) (p q : Pane) (n : Nat) :
    (s.set p n).get q = if q = p then n else s.get q := by
  cases p <;> cases q <;> simp [set, get]

end Scroll

/-- The viewer. -/
structure Viewer where
  history : List Frame
  /-- The index in the history of the round on screen. -/
  position : Nat := 0
  /-- The number of the thread that was chosen last. -/
  selected : Option Nat
  focus : Pane := .stack
  scroll : Scroll := {}
  quit : Bool := false
  message : String := "Ready!"
  playing : Bool := false

namespace Viewer

/-- A viewer at the first round of a history, on its first thread. -/
def ofHistory (history : List Frame) : Viewer where
  history := history
  selected := history.head?.bind fun r => r.threads.head?.map (·.id)

/-- The index of the last round, zero for an empty history. -/
def last (v : Viewer) : Nat :=
  v.history.length - 1

/-- The round on screen. -/
def round? (v : Viewer) : Option Frame :=
  v.history[v.position]?

/-- The thread of a round that is shown when the thread with the given number is selected. -/
def shown? (selected : Option Nat) (r : Frame) : Option Snapshot :=
  (selected.bind fun id => r.threads.find? (·.id = id)).or r.threads.head?

/-- The thread on screen. -/
def thread? (v : Viewer) : Option Snapshot :=
  v.round?.bind (shown? v.selected)

/-- Goes `n` rounds on, at most to the last one, and scrolls the output to its end. Yields whether
there was a round to go to. -/
def forward (v : Viewer) (n : Nat) : Viewer × Bool :=
  if v.last ≤ v.position then (v, false)
  else
    ({ v with position := min (v.position + n) v.last, scroll := v.scroll.set .output Scroll.bottom },
      true)

/-- Goes `n` rounds back, at most to the first one. Yields whether there was a round to go to. -/
def back (v : Viewer) (n : Nat) : Viewer × Bool :=
  if v.position = 0 then (v, false) else ({ v with position := v.position - n }, true)

/-- Moves the selection along the threads of the round on screen, which form a circle. -/
def select (v : Viewer) (delta : Int) : Viewer :=
  match v.round? with
  | none => v
  | some r =>
    let current := (v.selected.bind fun id => r.threads.findIdx? (·.id = id)).getD 0
    let next := ((current + delta) % r.threads.length).toNat
    match r.threads[next]? with
    | none => v
    | some t => { v with selected := some t.id, message := "Thread " ++ t.id.repr }

/-- What happens when the time to play the next round has come. -/
def tick (v : Viewer) : Viewer :=
  if v.playing then
    match v.forward 1 with
    | (v', true) => v'
    | (v', false) => { v' with playing := false, message := "Playback complete" }
  else v

end Viewer

end Lockstep

import Lockstep.Viewer.StatusBar
import Lockstep.Viewer.Window

/-!
The screen of the viewer: five panes and the status bar.

The left column has 55 % of the width, with the stack (65 % of the height) over the output. The right
column has the variables (40 %), the heap (40 %) and the open files. The last row is the status bar,
which a screen without rows does not have.
-/

namespace Lockstep

/-- The size of a terminal in cells. -/
structure Size where
  width : Nat
  height : Nat
deriving DecidableEq, Repr

/-- The sizes of the panes. -/
structure Layout where
  stack : Size
  symbols : Size
  heap : Size
  files : Size
  output : Size
deriving DecidableEq, Repr

/-- The width and height of a pane. -/
def Layout.pane (l : Layout) : Pane → Size
  | .stack => l.stack
  | .symbols => l.symbols
  | .heap => l.heap
  | .files => l.files
  | .output => l.output

namespace Size

/-- A share of a length in per cent, to the nearest whole number. -/
def share (percent length : Nat) : Nat :=
  (percent * length + 50) / 100

/-- The height that is left to the panes. -/
def body (s : Size) : Nat :=
  s.height - 1

/-- The sizes of the panes on a screen. -/
def layout (s : Size) : Layout where
  stack := ⟨share 55 s.width, share 65 s.body⟩
  symbols := ⟨s.width - share 55 s.width, share 40 s.body⟩
  heap := ⟨s.width - share 55 s.width, share 80 s.body - share 40 s.body⟩
  files := ⟨s.width - share 55 s.width, s.body - share 80 s.body⟩
  output := ⟨share 55 s.width, s.body - share 65 s.body⟩

end Size

namespace Pane

/-- The title of a pane. -/
def title : Pane → String
  | stack => "Execution Stack"
  | symbols => "Symbol Table"
  | heap => "Heap"
  | files => "File Table"
  | output => "Output"

/-- What a pane says when it has nothing to show. -/
def remark : Pane → String
  | stack => "(empty stack)"
  | symbols => "(no variables)"
  | heap => "(no allocations)"
  | files => "(no open files)"
  | output => "(no output)"

/-- The style of an entry of the stack: the statement that runs next stands out. -/
def stackStyle (index : Nat) : Style :=
  if index = 0 then { fg := some Palette.accent, bg := some Palette.band, bold := true }
  else { fg := some Palette.text }

/-- The entries that a pane shows for a thread. -/
def items (t : Snapshot) : Pane → List Item
  | stack => t.stack.mapIdx fun i s => Item.ofText (stackStyle i) s
  | symbols => t.symbols.map fun b => Item.binding Palette.name b.1 b.2
  | heap => t.heap.map fun c => Item.binding Palette.bright c.1.repr c.2
  | files => t.files.map (Item.ofText { fg := some Palette.pending })
  | output => t.output.map (Item.ofText { fg := some Palette.text })

end Pane

namespace Viewer

/-- The entries that a pane shows; none if no thread is on screen. -/
def items (v : Viewer) (p : Pane) : List Item :=
  (v.thread?.map p.items).getD []

/-- The offset of a pane as it is drawn. -/
def offset (v : Viewer) (l : Layout) (p : Pane) : Nat :=
  Window.clamp (v.items p).length (l.pane p).height (v.scroll.get p)

/-- The viewer after it was drawn: every offset is cut down to the last full window. -/
def drawn (v : Viewer) (l : Layout) : Viewer :=
  { v with scroll := {
      stack := v.offset l .stack, symbols := v.offset l .symbols, heap := v.offset l .heap,
      files := v.offset l .files, output := v.offset l .output } }

/-- The picture of a pane. -/
def drawPane (v : Viewer) (l : Layout) (p : Pane) : Picture :=
  Window.draw (l.pane p).width (l.pane p).height p.title p.remark (v.focus = p) (v.items p)
    (v.offset l p)

/-- The picture of the whole screen. -/
def draw (v : Viewer) (s : Size) : Picture :=
  let left := v.drawPane s.layout .stack ++ v.drawPane s.layout .output
  let right := v.drawPane s.layout .symbols ++ v.drawPane s.layout .heap ++ v.drawPane s.layout .files
  (Picture.beside left right ++ [StatusBar.draw s.width v]).take s.height

/-- One pass of the event loop: the screen is drawn before and after the action. -/
def pass (s : Size) (action : Viewer → Viewer) (v : Viewer) : Viewer :=
  (action (v.drawn s.layout)).drawn s.layout

end Viewer

end Lockstep

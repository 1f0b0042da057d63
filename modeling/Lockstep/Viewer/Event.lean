import Lockstep.Viewer.Basic

/-!
What the keys of the viewer do.
-/

namespace Lockstep

/-- A key. -/
inductive Key where
  | char (c : Char)
  | tab
  | left
  | right
  | up
  | down
  | pageUp
  | pageDown
  | enter
  | backspace
  /-- A key that the viewer has no use for. -/
  | other
deriving DecidableEq, Repr

/-- Something that the terminal reports. -/
inductive Event where
  | press (k : Key)
  | release (k : Key)
  | repeated (k : Key)
  /-- Anything else, such as the window gaining the focus. -/
  | other
deriving DecidableEq, Repr

namespace Viewer

/-- Moves the pane that has the focus. -/
def scrollFocus (v : Viewer) (move : Nat → Nat) : Viewer :=
  { v with scroll := v.scroll.set v.focus (move (v.scroll.get v.focus)) }

/-- Starts or stops playback. -/
def togglePlay (v : Viewer) : Viewer :=
  if v.playing then { v with playing := false, message := "Paused" }
  else { v with playing := true, message := "Playing..." }

/-- Stops playback and goes a round back. -/
def pressLeft (v : Viewer) : Viewer :=
  match { v with playing := false }.back 1 with
  | (v', true) => { v' with message := "Previous round" }
  | (v', false) => { v' with message := "Already at the first round" }

/-- Stops playback and goes a round on. -/
def pressRight (v : Viewer) : Viewer :=
  match { v with playing := false }.forward 1 with
  | (v', true) => { v' with message := "Next round" }
  | (v', false) => { v' with message := "Already at the last round" }

/-- What pressing a key does. -/
def press (v : Viewer) : Key → Viewer
  | .char 'q' => { v with quit := true }
  | .char 'Q' => { v with quit := true }
  | .char ' ' => v.togglePlay
  | .char _ => v
  | .tab => { v with focus := v.focus.next }
  | .left => v.pressLeft
  | .right => v.pressRight
  | .up => v.select (-1)
  | .down => v.select 1
  | .pageUp => v.scrollFocus (· - 1)
  | .pageDown => v.scrollFocus fun n => min (n + 1) Scroll.bottom
  | .enter =>
    { v with
      playing := false, position := v.last, message := "Jumped to end",
      scroll := v.scroll.set .output Scroll.bottom }
  | .backspace => { v with playing := false, position := 0, message := "Jumped to start" }
  | .other => v

/-- What an event does; only pressed keys count. -/
def handle (v : Viewer) : Event → Viewer
  | .press k => v.press k
  | _ => v

end Viewer

end Lockstep

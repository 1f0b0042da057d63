import Lockstep.Viewer.Basic
import Lockstep.Viewer.Palette

/-!
The last row of the screen: where the viewer stands, and what its keys are. Line breaks in the texts of
the bar are not drawn.
-/

namespace Lockstep.StatusBar

/-- Plain text on the bar. -/
def plain : Style := { fg := some Palette.text, bg := some Palette.band }

/-- Separators on the bar. -/
def separator : Style := { fg := some Palette.muted, bg := some Palette.band }

/-- Keys on the bar. -/
def key : Style := { fg := some .black, bg := some Palette.muted }

/-- Text that stands out on the given background. -/
def badge (bg : Color) : Style := { fg := some .black, bg := some bg, bold := true }

/-- The empty bar. -/
def background : Style := { bg := some Palette.band }

/-- The colour in which the status of a thread is shown. -/
def statusColor (t : Snapshot) : Color :=
  if "errored".toList.isPrefixOf t.status.toList then Palette.failed
  else if t.finished then Palette.done
  else Palette.pending

/-- The part about the thread on screen. -/
def threadPart (v : Viewer) (t : Snapshot) : Row :=
  let count := (v.round?.map (·.threads.length)).getD 0
  Row.ofLine plain (" Thread #" ++ t.id.repr ++ " (" ++ count.repr ++ " in round) ") ++
    Row.ofLine { fg := some (statusColor t), bg := some Palette.band }
      (" " ++ t.status ++ " ") ++
    Row.ofLine separator " | "

/-- The number of the round on screen, counted from one within the history. -/
def roundNumber (v : Viewer) : Nat :=
  v.position + 1

/-- The left half: the round, the thread and the last message. -/
def left (v : Viewer) : Row :=
  Row.ofLine (badge Palette.accent)
      (" Round " ++ (roundNumber v).repr ++ "/" ++ v.history.length.repr ++ " ") ++
    Row.ofLine separator " | " ++
    (v.thread?.map (threadPart v)).getD [] ++
    Row.ofLine plain (" " ++ v.message ++ " ")

/-- The keys and what they are for. -/
def keys : List (String × String) :=
  [(" ←/→ ", " round "), (" ↑/↓ ", " thread "), (" ⎵ ", " play "), (" ↵ / ⌫ ", " end/start "),
   ("q", " quit ")]

/-- The right half: the keys, and a mark while playing or at the end of the history. -/
def right (v : Viewer) : Row :=
  let bar := Row.ofLine separator "│"
  let hints := keys.map fun k => Row.ofLine key k.1 ++ Row.ofLine plain k.2
  let mark :=
    if v.playing then [Row.ofLine (badge Palette.pending) " ▶ PLAYING "]
    else if v.history.length ≤ roundNumber v then [Row.ofLine (badge Palette.failed) " END "]
    else []
  bar.intercalate (hints ++ mark)

/-- The status bar in `w` cells. -/
def draw (w : Nat) (v : Viewer) : Row :=
  (left v).fit (w / 2) background ++ (right v).fitRight (w - w / 2) background

end Lockstep.StatusBar

import Lockstep.CommandLine
import Lockstep.Viewer.Terminal
import Std.Time.Format
import Std.Time.Zoned

/-!
The program: surveys the files that a run can touch, runs it, writes what it left behind, and opens
the viewer.
-/

namespace Lockstep

/-- The name that the program goes by. -/
def programName : String := "forklang"

/-- More rounds than any run that ends in practice takes. -/
def maxRounds : Nat := 1000000000000000000

/-- What the file system has under a path name whose parent is a directory. -/
def nodeAt? (name : String) : IO (Option Node) := do
  try
    return some (.file (← IO.FS.readBinFile name))
  catch
    | .inappropriateType .. => return some .directory
    | _ => return none

/-- Adds to a disk what the file system has on the way to a path name. -/
def survey (disk : Disk) (name : String) : IO Disk := do
  let parts := Disk.components name
  let mut disk := disk
  for n in [1 : parts.length + 1] do
    let part := "/".intercalate (parts.take n)
    if part ≠ "" then
      match ← nodeAt? part with
      | some node => disk := disk.put part node
      | none => return disk
  return disk

/-- The time of day. -/
def now : IO Stamp := do
  let time ← Std.Time.DateTime.now
  return {
    year := time.year.toInt.toNat
    month := time.month.val.toNat
    day := time.day.val.toNat
    hour := time.hour.val.toNat
    minute := time.minute.val.toNat
    second := time.second.val.toNat }

/-- The size of the terminal, as far as the environment tells. -/
def terminalSize : IO Size := do
  let read (name : String) (default : Nat) : IO Nat := do
    return ((← IO.getEnv name).bind Text.readCount?).getD default
  return { width := ← read "COLUMNS" 80, height := ← read "LINES" 24 }

/-- The time between two rounds of playback, in milliseconds. -/
def playInterval : Nat := 500

/-- Draws the viewer, and handles input and playback, until it is left. -/
partial def view (size : Size) (v : Viewer) (due : Nat)
    (input : Task (Except IO.Error String)) : IO Unit := do
  IO.print (Terminal.pictureText (v.draw size))
  (← IO.getStdout).flush
  let v := v.drawn size.layout
  if v.quit then return ()
  let time ← IO.monoMsNow
  let played := v.playing && due ≤ time
  let v := if played then v.tick else v
  let due := if played then time + playInterval else due
  if ← IO.hasFinished input then
    match input.get with
    | .error _ => return ()
    | .ok "" => return ()
    | .ok line =>
      let v := (Terminal.lineKeys line).foldl (fun v k => v.pass size (·.handle (.press k))) v
      view size v due (← IO.asTask (← IO.getStdin).getLine)
  else
    IO.sleep 50
    view size v due input

/-- Shows a history on the terminal. -/
def showHistory (frames : List Frame) : IO Unit := do
  let size ← terminalSize
  IO.print Terminal.enter
  view size (Viewer.ofHistory frames) ((← IO.monoMsNow) + playInterval)
    (← IO.asTask (← IO.getStdin).getLine)
  IO.print Terminal.leave

/-- Prints the warnings of a run, unless the environment asks for silence. -/
def reportWarnings (warnings : List Warning) : IO Unit := do
  if (← IO.getEnv "FORKLANG_LOG") ≠ some "off" then
    for w in warnings do
      IO.eprintln ("WARN " ++ w.message)

end Lockstep

open Lockstep in
/-- Runs the program with the given arguments. -/
def main (args : List String) : IO UInt32 := do
  let touched := CommandLine.touched args
  let before ← touched.foldlM survey (Disk.blank ["work"])
  -- the run is one to the clock, and its workers take turns
  let course := Course.smooth (← now)
  match CommandLine.run maxRounds (fun _ => course) programName before args with
  | none => return 1
  | some outcome =>
    for name in touched do
      if let some content := outcome.disk.content? name then
        let size := (before.content? name).map ByteArray.size
        if size ≠ some content.size then IO.FS.writeBinFile name content
    IO.eprint outcome.stderr
    reportWarnings outcome.warnings
    IO.print outcome.stdout
    if let some frames := outcome.viewer then showHistory frames
    return UInt32.ofNat outcome.code

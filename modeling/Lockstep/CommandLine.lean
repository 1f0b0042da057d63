import Lockstep.Demos
import Lockstep.Scheduler
import Lockstep.Text.Numeral

/-!
The command line: running an example program and reporting what became of its threads.

The arguments are read from left to right, and the first one that is wrong is reported. Asking for the
list of example programs ends the reading at once.
-/

namespace Lockstep.CommandLine

/-- What the arguments ask for. -/
structure Options where
  demo : Nat
  logPath : Option String
  viewer : Bool
  workers : Option Nat
deriving DecidableEq, Repr

/-- The arguments read so far. -/
structure Draft where
  demo : Option Nat := none
  logPath : Option String := none
  viewer : Bool := true
  workers : Option Nat := none

/-- A well-formed command line. -/
inductive Request where
  | list
  | run (options : Options)
deriving DecidableEq, Repr

/-- What is wrong with a command line. -/
inductive UsageError where
  | noLogFile
  | noWorkerCount
  | badWorkerCount (arg : String)
  | unknownArgument (arg : String)
  | noDemo
deriving DecidableEq, Repr

namespace UsageError

/-- The text that is shown for a malformed command line. -/
def message : UsageError → String
  | noLogFile => "--log needs a file name"
  | noWorkerCount => "--workers needs a number"
  | badWorkerCount arg => "invalid worker count '" ++ arg ++ "'"
  | unknownArgument arg => "unknown argument '" ++ arg ++ "'"
  | noDemo => "no demo selected"

end UsageError

/-- Reads the arguments; of several demo numbers the last one counts. -/
def parse (draft : Draft) : List String → Except UsageError Request
  | [] =>
    match draft.demo with
    | none => .error .noDemo
    | some demo => .ok (.run {
        demo, logPath := draft.logPath, viewer := draft.viewer, workers := draft.workers })
  | "--list" :: _ => .ok .list
  | "--log" :: path :: rest => parse { draft with logPath := some path } rest
  | ["--log"] => .error .noLogFile
  | "--workers" :: n :: rest =>
    match Text.readCount? n with
    | some workers => parse { draft with workers := some workers } rest
    | none => .error (.badWorkerCount n)
  | ["--workers"] => .error .noWorkerCount
  | "--no-tui" :: rest => parse { draft with viewer := false } rest
  | arg :: rest =>
    match Text.readCount? arg with
    | some demo => parse { draft with demo := some demo } rest
    | none => .error (.unknownArgument arg)

/-- The path names of the files that the program may touch when it is called with the given
arguments. -/
def touched (args : List String) : List String :=
  match parse {} args with
  | .ok (.run options) => Demo.inputFile :: options.logPath.toList
  | _ => []

/-- What a run of the program comes to. -/
structure Outcome where
  code : Nat := 0
  stdout : String := ""
  stderr : String := ""
  /-- The history to open the viewer on. -/
  viewer : Option (List Frame) := none
  warnings : List Warning := []
  disk : Disk

/-- The lines that explain how the program is called. -/
def usage (program : String) : List String :=
  ["Usage: " ++ program ++ " <demo> [--log <file>] [--workers <n>] [--no-tui]",
   "       " ++ program ++ " --list",
   "",
   "Logging verbosity is read from FORKLANG_LOG (e.g. FORKLANG_LOG=debug)."]

/-- A number in two columns or more, to the right. -/
def menuNumber (n : Nat) : String :=
  if n < 10 then " " ++ n.repr else n.repr

/-- The lines of the list of example programs. -/
def menu : List String :=
  (Demo.all.mapIdx fun i d =>
    [menuNumber (i + 1) ++ ". " ++ d.name, "    " ++ d.program.text]).flatten

/-- The lines that report how the threads ended. -/
def statusLines (threads : List Thread) : List String :=
  threads.map fun t => "Thread " ++ t.id.repr ++ match t.status with
    | .failed e => " failed: " ++ e.message
    | status => " " ++ status.text

/-- The lines that report what the threads printed. -/
def outputLines (threads : List Thread) : List String :=
  threads.flatMap fun t => t.output.map fun v => "[" ++ t.id.repr ++ "] " ++ v.text

/-- Runs an example program and reports on it. Nothing comes of a run that the fuel does not allow to
end. -/
def runDemo (fuel : Nat) (course : Nat → Course) (disk : Disk) (options : Options) (demo : Demo) :
    Option Outcome := do
  let journal : Journal := { logPath := options.logPath }
  let s ← Scheduler.run course fuel 0 (Scheduler.ofProgram disk journal demo.program)
  let threads := s.pool.retired
  let frames := s.journal.history.frames
  return {
    stdout := Text.unlines (outputLines threads)
    stderr := Text.unlines (
      ["Running demo: " ++ demo.name, "  " ++ demo.program.text,
       "Finished after " ++ s.pool.round.repr ++ " round(s)."] ++ statusLines threads)
    viewer := if options.viewer && !frames.isEmpty then some frames else none
    warnings := s.warnings
    disk := s.disk }

/-- What the program does when it is called under the given name with the given arguments. -/
def run (fuel : Nat) (course : Nat → Course) (program : String) (disk : Disk) (args : List String) :
    Option Outcome :=
  match parse {} args with
  | .error e => some {
      code := 1
      stderr := Text.unlines (["Error: " ++ e.message, ""] ++ usage program)
      disk }
  | .ok .list => some { stdout := Text.unlines menu, disk }
  | .ok (.run options) =>
    match Demo.numbered? options.demo with
    | none => some {
        code := 1
        stderr := Text.unlines [
          "Error: no demo number " ++ options.demo.repr,
          "Run \x60" ++ program ++ " --list\x60 to see the available demos."]
        disk }
    | some demo => runDemo fuel course disk options demo

end Lockstep.CommandLine

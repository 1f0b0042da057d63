import Lockstep.History

/-!
The journal of a run: a log file, if one is asked for, and a history.

Keeping the journal never stops a run. What could not be written or recorded is passed over and
reported as a warning. The clock is read for every record of its own, and the disk may fail when a part of a
record has been written already.
-/

namespace Lockstep

/-- Something that went wrong in a round without stopping it. -/
inductive Warning where
  | stopped (thread : Nat) (e : Fault)
  | notLogged (thread : Nat) (e : Fault)
  | notRecorded (round : Nat) (o : OverBudget)
deriving DecidableEq

namespace Warning

/-- The text that is shown for a warning. -/
def message : Warning → String
  | stopped _ e => "thread stopped: " ++ e.message
  | notLogged _ e => "failed to log program state: " ++ e.message
  | notRecorded _ o => o.message

end Warning

/-- A time of day. -/
structure Stamp where
  year : Nat
  month : Nat
  day : Nat
  hour : Nat
  minute : Nat
  second : Nat

namespace Stamp

/-- A number with as many zeros before it as make it the given number of digits long. -/
def padded (width n : Nat) : String :=
  String.ofList (List.replicate (width - n.repr.length) '0') ++ n.repr

/-- The line that a log record begins with. -/
def text (s : Stamp) : String :=
  padded 4 s.year ++ "/" ++ padded 2 s.month ++ "/" ++ padded 2 s.day ++ " " ++
    padded 2 s.hour ++ ":" ++ padded 2 s.minute ++ ":" ++ padded 2 s.second

end Stamp

/-- How the writing of a record goes: the time of it, and if the disk fails on the way, the number of bytes
that have been written until then, and the wording of the failure. -/
structure Writing where
  stamp : Stamp
  torn : Option (Nat × String) := none

/-- What is written of a record. -/
def Writing.part (w : Writing) (record : ByteArray) : ByteArray :=
  match w.torn with
  | none => record
  | some (n, _) => record.extract 0 n

/-- The path name of the log, and the history. -/
structure Journal where
  logPath : Option String := none
  history : History := { limit := History.defaultLimit }

namespace Journal

/-- Appends the record of a snapshot to the log. Yields the failure as well, if there is one. -/
def log (j : Journal) (writing : Writing) (disk : Disk) (s : Snapshot) : Disk × Option Fault :=
  match j.logPath with
  | none => (disk, none)
  | some path =>
    match disk.append path (writing.part (s.record writing.stamp.text).toUTF8) with
    | .ok disk' => (disk', writing.torn.map fun t => .file path t.2)
    | .error fault => (disk, some (.file path fault.message))

/-- Appends the records of some snapshots to the log, one by one. The writing of the first one goes as
`writings 0`, and so on. -/
def logAll (j : Journal) (writings : Nat → Writing) (disk : Disk) :
    List Snapshot → Disk × List Warning
  | [] => (disk, [])
  | s :: rest =>
    let (disk', failure) := j.log (writings 0) disk s
    let (disk'', warnings) := j.logAll (fun i => writings (i + 1)) disk' rest
    (disk'', (failure.map (.notLogged s.id)).toList ++ warnings)

/-- Records a frame in the history. -/
def record (j : Journal) (f : Frame) : Journal × List Warning :=
  match j.history.push f with
  | .ok history => ({ j with history }, [])
  | .error o => (j, [.notRecorded f.round o])

end Journal

end Lockstep

import Lockstep.Disk.Basic
import Lockstep.Disk.Line
import Lockstep.Fault

/-!
The files that a thread has open for reading, in order of their names.

A file is open under the name it was opened with, and remembers how much of it has been read. Two
names of one file are two open files. Directories can be opened; reading one fails.
-/

namespace Lockstep

/-- An open file: where it stands and how many of its bytes have been read. -/
structure Handle where
  place : Place
  offset : Nat
deriving DecidableEq

/-- The open files of a thread, by name. -/
abbrev OpenFiles := Std.ExtTreeMap String Handle compare

namespace OpenFiles

/-- Opens a file at its start. -/
def openFile (disk : Disk) (t : OpenFiles) (name : String) : Except Fault OpenFiles :=
  if name ∈ t then .error (.alreadyOpen name)
  else match disk.resolve name with
    | .ok place => .ok (t.insert name { place, offset := 0 })
    | .error fault => .error (.file name fault.message)

/-- Reads the next line of an open file: its text, or nothing at the end of the file. A line that is
not UTF-8 counts as read although reading it fails. -/
def readLine (disk : Disk) (t : OpenFiles) (name : String) :
    OpenFiles × Except Fault (Option String) :=
  match t[name]? with
  | none => (t, .error (.notOpen name))
  | some handle =>
    match disk.readFrom handle.place handle.offset with
    | .error fault => (t, .error (.file name fault.message))
    | .ok [] => (t, .ok none)
    | .ok (b :: rest) =>
      let line := Line.first (b :: rest)
      let t' := t.insert name { handle with offset := handle.offset + line.length }
      match Line.text? line with
      | some text => (t', .ok (some text))
      | none => (t', .error (.file name DiskFault.notText.message))

/-- Closes an open file. -/
def closeFile (t : OpenFiles) (name : String) : Except Fault OpenFiles :=
  if name ∈ t then .ok (t.erase name) else .error (.notOpen name)

end OpenFiles

end Lockstep

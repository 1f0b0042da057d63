import Lockstep.Proofs.Files
import Lockstep.Proofs.LogDecoding
import Lockstep.Proofs.Transparency
import Lockstep.Proofs.Unreadable

/-!
Threads do not get past the time of a log record.

The log is a file on the disk that the threads read, and two runs may write different records to it. No
thread can tell them apart by reading: a record begins with its time, which is a line for itself, and a thread
that reads this line fails, since it is no integer. So what both logs have in common up to the end of this
line is all that a thread sees of them before it ends. If the disk fails before the line is written, the logs
do not differ yet.
-/

namespace Lockstep

/-! ### Records -/

/-- Bytes that end a line which is no integer, whatever it begins with. -/
structure Line.Bar (bar : List UInt8) : Prop where
  ended : feed ∈ bar
  strange : ∀ start, NoInteger (start ++ first bar)

/-- The line that a log record begins with, as bytes. -/
def Stamp.line (s : Stamp) : List UInt8 :=
  s.text.toUTF8.data.toList ++ [Line.feed]

/-- A time is no integer: there are strokes in the date. -/
theorem Stamp.bar_line (s : Stamp) : Line.Bar s.line where
  ended := by simp [line]
  strange start := by
    have single : Line.feed ∉ s.text.toUTF8.data.toList := fun inside =>
      s.isLine_text (Text.mem_toList_of_mem_bytes (by decide) inside)
    have stroke : UInt8.ofNat '/'.toNat ∈ s.text.toUTF8.data.toList :=
      Text.mem_bytes_of_mem_toList (by decide) (by simp [text])
    rw [line, Line.first_append_of_not_mem single]
    exact Line.noInteger_of_mem (List.mem_append_right start (List.mem_append_left _ stroke))
      (by decide) (by decide)

theorem Snapshot.bytes_record (stamp : Stamp) (s : Snapshot) :
    ∃ tail, (s.record stamp.text).toUTF8.data.toList = stamp.line ++ tail := by
  have feed : "\n".toByteArray.data.toList = [Line.feed] := by decide
  obtain ⟨rest, lines⟩ : ∃ rest, s.recordLines stamp.text = stamp.text :: rest := ⟨_, s.recordLines_eq _⟩
  refine ⟨(Text.unlines rest).toUTF8.data.toList, ?_⟩
  rw [record, lines, Text.unlines_cons]
  simp only [Stamp.line, String.toUTF8, String.toByteArray_append, ByteArray.toList_data_append, feed]

namespace Writing

/-- What is written of the record of a snapshot. -/
def bytes (w : Writing) (x : Snapshot) : ByteArray :=
  w.part (x.record w.stamp.text).toUTF8

/-- The time of the record has been written, whatever has become of the rest. -/
def Begun (w : Writing) (x : Snapshot) : Prop :=
  ∃ tail, (w.bytes x).data.toList = w.stamp.line ++ tail

theorem begun_of_whole {w : Writing} (whole : w.torn = none) (x : Snapshot) : w.Begun x := by
  simpa only [Begun, bytes, part, whole] using x.bytes_record w.stamp

/-- If the disk fails early, the same has been written of any two records. -/
theorem bytes_eq_or_begun (w : Writing) (x y : Snapshot) :
    w.bytes y = w.bytes x ∨ w.Begun x ∧ w.Begun y := by
  cases torn : w.torn with
  | none => exact .inr ⟨begun_of_whole torn x, begun_of_whole torn y⟩
  | some failure =>
    have cut (z : Snapshot) :
        ∃ tail, (w.bytes z).data.toList = (w.stamp.line ++ tail).take failure.1 := by
      obtain ⟨tail, whole⟩ := z.bytes_record w.stamp
      exact ⟨tail, by simp [bytes, part, torn, ← whole]⟩
    by_cases early : failure.1 ≤ w.stamp.line.length
    · left
      obtain ⟨tail, here⟩ := cut x
      obtain ⟨tail', there⟩ := cut y
      rw [List.take_append_of_le_length early] at here there
      exact ByteArray.ext (Array.toList_inj.mp (there.trans here.symm))
    · right
      have begun (z : Snapshot) : w.Begun z := by
        obtain ⟨tail, here⟩ := cut z
        rw [List.take_append, List.take_of_length_le (by omega)] at here
        exact ⟨_, here⟩
      exact ⟨begun x, begun y⟩

end Writing

/-! ### Disks with a barrier -/

namespace Disk

/-- A place in a file that threads do not get past: under the name `path` there is a file at `place`, which
begins with `start` and goes on with a bar. -/
structure Barrier where
  path : String
  place : Place
  start : List UInt8
  bar : List UInt8
  isBar : Line.Bar bar

/-- The disk has a file with the barrier. -/
def Barred (b : Barrier) (d : Disk) : Prop :=
  ∃ content tail, d.target b.path = .ok (b.place, content) ∧ d.nodes[b.place]? = some (.file content) ∧
    content.data.toList = b.start ++ b.bar ++ tail

variable {d d' : Disk} {b : Barrier}

/-- The disks have a barrier in the same file, and differ in nothing but what this file has after it. -/
structure Alike (b : Barrier) (d d' : Disk) : Prop where
  left : d.Barred b
  right : d'.Barred b
  cwd : d'.cwd = d.cwd
  elsewhere : ∀ p, b.place ≠ p → d'.nodes[p]? = d.nodes[p]?

namespace Alike

variable (alike : Alike b d d')
include alike

theorem symm : Alike b d' d :=
  ⟨alike.right, alike.left, alike.cwd.symm, fun p other => (alike.elsewhere p other).symm⟩

theorem isDirectory (p : Place) : d'.isDirectory p = d.isDirectory p := by
  simp only [Disk.isDirectory]
  by_cases here : b.place = p
  · subst here
    obtain ⟨content, -, -, node, -⟩ := alike.left
    obtain ⟨content', -, -, node', -⟩ := alike.right
    rw [node, node']
  · rw [alike.elsewhere p here]

theorem mem (p : Place) : p ∈ d'.nodes ↔ p ∈ d.nodes := by
  by_cases here : b.place = p
  · subst here
    obtain ⟨content, -, -, node, -⟩ := alike.left
    obtain ⟨content', -, -, node', -⟩ := alike.right
    simp [Std.ExtTreeMap.mem_iff_isSome_getElem?, node, node']
  · simp only [Std.ExtTreeMap.mem_iff_isSome_getElem?, alike.elsewhere p here]

theorem resolve (name : String) : d'.resolve name = d.resolve name := by
  have origin : d'.origin name = d.origin name := by simp only [origin, alike.cwd]
  simp only [Disk.resolve, origin, walk_congr alike.isDirectory alike.mem]

theorem setFile_left {content : ByteArray} (barred : (d.setFile b.place content).Barred b) :
    Alike b (d.setFile b.place content) d' := by
  refine ⟨barred, alike.right, alike.cwd, fun p other => ?_⟩
  rw [alike.elsewhere p other, getElem?_setFile, if_neg other]

end Alike

end Disk

namespace Journal

open Disk (Alike Barrier)

variable {j j' : Journal} {d d' : Disk} {b : Barrier}

theorem log_of_target {path : String} (logPath : j.logPath = some path) {place : Place}
    {content : ByteArray} (found : d.target path = .ok (place, content)) (w : Writing) (x : Snapshot) :
    (j.log w d x).1 = d.setFile place (content ++ w.bytes x) := by
  simp only [log, logPath, (Disk.append_of_target found _).1, Writing.bytes]

theorem log_congr (logPath : j'.logPath = j.logPath) : j'.log = j.log := by
  funext w d x
  simp only [log, logPath]

theorem logAll_alike_left (logPath : j.logPath = some b.path) (writings : Nat → Writing)
    (xs : List Snapshot) (alike : Alike b d d') : Alike b (j.logAll writings d xs).1 d' := by
  induction xs generalizing d writings with
  | nil => exact alike
  | cons x xs ih =>
    -- a log with a barrier can always be opened, and what is written comes behind the barrier
    obtain ⟨content, tail, found, -, whole⟩ := alike.left
    have logged := log_of_target logPath found (writings 0) x
    simp only [logAll]
    rw [logged]
    refine ih _ (alike.setFile_left ⟨_, tail ++ ((writings 0).bytes x).data.toList,
      Disk.target_setFile found _, by simp [Disk.getElem?_setFile], ?_⟩)
    rw [ByteArray.toList_data_append, whole, List.append_assoc]

theorem logAll_alike (logPath : j.logPath = some b.path) (logPath' : j'.logPath = some b.path)
    (writings writings' : Nat → Writing) (xs xs' : List Snapshot) (alike : Alike b d d') :
    Alike b (j.logAll writings d xs).1 (j'.logAll writings' d' xs').1 :=
  (logAll_alike_left logPath' writings' xs' (logAll_alike_left logPath writings xs alike).symm).symm

theorem still_of_no_target {e : DiskFault} {path : String} (logPath : j.logPath = some path)
    (lost : d.target path = .error e) : j.Still d := by
  intro w x
  simp only [log, logPath, Disk.append_of_no_target lost]

theorem still_of_no_log (logPath : j.logPath = none) : j.Still d := by
  intro w x
  simp only [log, logPath]

theorem Still.of_logPath (still : j.Still d) (logPath : j'.logPath = j.logPath) : j'.Still d := by
  intro w x
  rw [log_congr logPath]
  exact still w x

/-- Two records with the same time raise a barrier behind what has been in the log before. -/
theorem log_alike {path : String} (logPath : j.logPath = some path) {place : Place} {content : ByteArray}
    (found : d.target path = .ok (place, content)) {w : Writing} {x y : Snapshot} (begun : w.Begun x)
    (begun' : w.Begun y) :
    ∃ b : Barrier, j.logPath = some b.path ∧ d.sizeAt b.place ≤ b.start.length ∧
      Alike b (j.log w d x).1 (j.log w d y).1 := by
  let b : Barrier := { path, place, start := content.data.toList, bar := w.stamp.line
                       isBar := w.stamp.bar_line }
  have barred {z : Snapshot} (begun : w.Begun z) : (d.setFile place (content ++ w.bytes z)).Barred b := by
    obtain ⟨tail, bytes⟩ := begun
    refine ⟨_, tail, Disk.target_setFile found _, by simp [b, Disk.getElem?_setFile], ?_⟩
    rw [ByteArray.toList_data_append, bytes, List.append_assoc]
  have size : d.sizeAt place = content.data.toList.length :=
    Disk.sizeAt_of_base (Disk.base_of_target found)
  refine ⟨b, logPath, size.le, ?_⟩
  rw [log_of_target logPath found, log_of_target logPath found]
  refine ⟨barred begun, barred begun', by simp, fun p other => ?_⟩
  rw [Disk.getElem?_setFile, Disk.getElem?_setFile, if_neg other, if_neg other]

end Journal

/-! ### Reading up to the barrier -/

namespace Disk

variable {d : Disk}

/-- If the file with the barrier is open, no more has been read of it than stands before the barrier. -/
def Barrier.Behind (b : Barrier) (handle : Handle) : Prop :=
  handle.place = b.place → handle.offset ≤ b.start.length

/-- The line that a reader comes to who is behind the barrier. -/
def Barrier.line (b : Barrier) (offset : Nat) : List UInt8 :=
  Line.first (b.start.drop offset ++ b.bar)

variable {b : Barrier}

/-- The line ends before the barrier, or is no integer. -/
theorem Barrier.line_cases {offset : Nat} (reached : offset ≤ b.start.length) :
    offset + (b.line offset).length ≤ b.start.length ∨ Line.NoInteger (b.line offset) := by
  by_cases before : Line.feed ∈ b.start.drop offset
  · left
    rw [line, Line.first_append before]
    have short := Line.length_first_le (b.start.drop offset)
    rw [List.length_drop] at short
    omega
  · right
    rw [line, Line.first_append_of_not_mem before]
    exact b.isBar.strange _

theorem Barred.readFrom (barred : d.Barred b) {offset : Nat} (reached : offset ≤ b.start.length) :
    ∃ c rest, d.readFrom b.place offset = .ok (c :: rest) ∧ Line.first (c :: rest) = b.line offset := by
  obtain ⟨content, tail, -, node, whole⟩ := barred
  have left : content.data.toList.drop offset = b.start.drop offset ++ b.bar ++ tail := by
    rw [whole, List.append_assoc, List.drop_append_of_le_length reached, List.append_assoc]
  have ended : Line.feed ∈ b.start.drop offset ++ b.bar := List.mem_append_right _ b.isBar.ended
  cases bytes : b.start.drop offset ++ b.bar ++ tail with
  | nil =>
    have member := List.mem_append_left tail ended
    rw [bytes] at member
    exact absurd member List.not_mem_nil
  | cons c rest =>
    refine ⟨c, rest, by simp only [Disk.readFrom, node, left, bytes], ?_⟩
    rw [← bytes, Line.first_append ended, Barrier.line]

/-- What is read from a file with a barrier does not depend on what stands behind it. -/
theorem Barred.readLine (barred : d.Barred b) {t : OpenFiles} {name : String} {handle : Handle}
    (opened : t[name]? = some handle) (here : handle.place = b.place)
    (reached : handle.offset ≤ b.start.length) :
    t.readLine d name =
      (t.insert name { handle with offset := handle.offset + (b.line handle.offset).length },
        match Line.text? (b.line handle.offset) with
        | some text => .ok (some text)
        | none => .error (.file name DiskFault.notText.message)) := by
  obtain ⟨c, rest, read, line⟩ := barred.readFrom reached
  rw [← here] at read
  simp only [OpenFiles.readLine, opened, read, line]
  cases Line.text? (b.line handle.offset) <;> rfl

end Disk

namespace Disk.Alike

variable {d d' : Disk} {b : Barrier} {t : OpenFiles} (alike : Alike b d d')
  (behind : t.Every b.Behind)
include alike behind

theorem readLine (name : String) : t.readLine d' name = t.readLine d name := by
  cases opened : t[name]? with
  | none => simp only [OpenFiles.readLine, opened]
  | some handle =>
    -- only the file with the barrier can differ
    by_cases here : handle.place = b.place
    · have reached := behind name handle opened here
      rw [alike.right.readLine opened here reached, alike.left.readLine opened here reached]
    · have same := alike.elsewhere handle.place (Ne.symm here)
      simp only [OpenFiles.readLine, opened, Disk.readFrom, same]

/-- A reader who got an integer out of a line has not passed the barrier. -/
theorem behind_readLine {name : String} {t' : OpenFiles} {line : Option String} {n : Int64}
    (read : t.readLine d name = (t', .ok line)) (number : Store.lineValue name line = .ok n) :
    t'.Every b.Behind := by
  cases opened : t[name]? with
  | none => simp [OpenFiles.readLine, opened] at read
  | some handle =>
    by_cases here : handle.place = b.place
    · have reached := behind name handle opened here
      rw [alike.left.readLine opened here reached, Prod.mk.injEq] at read
      obtain ⟨rfl, answer⟩ := read
      rcases Barrier.line_cases reached with short | strange
      · exact behind.insert name _ fun _ => short
      · exfalso
        cases decoded : Line.text? (b.line handle.offset) with
        | none => simp [decoded] at answer
        | some text =>
          simp only [decoded, Except.ok.injEq] at answer
          rw [← answer, strange.lineValue decoded] at number
          cases number
    · simp only [OpenFiles.readLine, opened] at read
      split at read
      · cases read
      · cases read
        exact behind
      next c rest readFrom =>
        have moved := behind.insert name { handle with
          offset := handle.offset + (Line.first (c :: rest)).length } fun same => absurd same here
        split at read
        · cases read
          exact moved
        · cases read

end Disk.Alike

theorem Disk.Alike.keeps {d d' : Disk} {b : Barrier} (alike : Alike b d d') : d.Keeps b.Behind where
  opened _ _ := Nat.zero_le _
  read behind read number := alike.behind_readLine behind read number

/-! ### Steps before the barrier -/

section Steps

variable {d d' : Disk} {b : Disk.Barrier} (alike : d.Alike b d')
include alike

theorem Stmt.execBy_alike {σ : Store} (behind : σ.files.Every b.Behind) (ν : Valuation) (s : Stmt) :
    s.execBy ν d' σ = s.execBy ν d σ := by
  cases s with
  | openFile f => simp only [execBy, OpenFiles.openFile, alike.resolve]
  | readInt f x => simp only [execBy, Store.readInt, alike.readLine behind]
  | _ => rfl

theorem Thread.stepBy_alike {t : Thread} (behind : t.files.Every b.Behind) (ν : Valuation) (h : Heap) :
    t.stepBy ν d' h = t.stepBy ν d h := by
  have store : (t.store h).files.Every b.Behind := behind
  simp only [stepBy, Stmt.execBy_alike alike store]

end Steps

theorem World.stepTogether_of_reads {d d' : Disk} (w : World) {threads : List Thread}
    (reads : ∀ t ∈ threads, ∀ (ν : Valuation) (h : Heap), t.stepBy ν d' h = t.stepBy ν d h)
    (order : List Nat) : w.stepTogether d' order threads = w.stepTogether d order threads :=
  w.stepTogether_congr (fun t member ν w => by simp only [stepBy, reads t member]) order

/-! ### Logs that threads cannot tell apart -/

/-- Threads of a list read the same from two disks, now and later, whatever is written to the logs: the disks
are the same and the log leaves them so, or they only differ behind a barrier in the log, which no thread has
passed. -/
inductive Journal.Veiled (j : Journal) (threads : List Thread) : Disk → Disk → Prop where
  | still {d : Disk} (still : j.Still d) : Veiled j threads d d
  | barred {d d' : Disk} {b : Disk.Barrier} (logPath : j.logPath = some b.path) (alike : d.Alike b d')
    (behind : ∀ t ∈ threads, t.files.Every b.Behind) :
    Veiled j threads d d'

namespace Journal.Veiled

variable {j j' : Journal} {threads : List Thread} {d d' : Disk} (veiled : j.Veiled threads d d')
include veiled

theorem sub {others : List Thread} (sub : ∀ t ∈ others, t ∈ threads) : j.Veiled others d d' := by
  cases veiled with
  | still still => exact .still still
  | barred logPath alike behind =>
    exact .barred logPath alike fun t member => behind t (sub t member)

theorem logAll (logPath : j'.logPath = j.logPath) (writings writings' : Nat → Writing)
    (xs xs' : List Snapshot) :
    j.Veiled threads (j.logAll writings d xs).1 (j'.logAll writings' d' xs').1 := by
  cases veiled with
  | still still =>
    rw [still.logAll, (still.of_logPath logPath).logAll]
    exact .still still
  | barred found alike behind =>
    exact .barred found (logAll_alike found (logPath.trans found) writings writings' xs xs' alike) behind

theorem of_logPath (logPath : j'.logPath = j.logPath) : j'.Veiled threads d d' := by
  cases veiled with
  | still still => exact .still (still.of_logPath logPath)
  | barred found alike behind => exact .barred (logPath.trans found) alike behind

theorem stepBy {t : Thread} (member : t ∈ threads) (ν : Valuation) (h : Heap) :
    t.stepBy ν d' h = t.stepBy ν d h := by
  cases veiled with
  | still still => rfl
  | barred logPath alike behind => exact Thread.stepBy_alike alike (behind t member) ν h

end Journal.Veiled

theorem Journal.Veiled.listed {j : Journal} {p : Pool} {d d' : Disk} (veiled : j.Veiled p.active d d')
    (sweep : World → List Thread → World) (order : List Nat) :
    j.Veiled ((p.listed sweep d order).filter (·.isActive)) d d' := by
  cases veiled with
  | still still => exact .still still
  | barred logPath alike behind =>
    exact .barred logPath alike (Pool.every_files_listed alike.keeps sweep order behind)

theorem Disk.Barrier.behind_of_inRange {b : Barrier} {d : Disk} (within : d.sizeAt b.place ≤ b.start.length)
    {threads : List Thread} (inRange : ∀ t ∈ threads, t.files.Every (Handle.InRange d)) :
    ∀ t ∈ threads, t.files.Every b.Behind := by
  intro t member name handle opened here
  have before := inRange t member name handle opened
  rw [Handle.InRange, here] at before
  exact before.trans within

/-- Two logs with the same time at their beginning look the same to threads that have not read more of a file
than there is. -/
theorem Journal.veiled_of_begun (j : Journal) {d : Disk} {threads : List Thread}
    (inRange : ∀ t ∈ threads, t.files.Every (Handle.InRange d)) (writings writings' : Nat → Writing)
    (same : writings' 0 = writings 0) {x y : Snapshot} (begun : (writings 0).Begun x)
    (begun' : (writings 0).Begun y) (xs ys : List Snapshot) :
    j.Veiled threads (j.logAll writings d (x :: xs)).1 (j.logAll writings' d (y :: ys)).1 := by
  have unwritten (still : j.Still d) :
      j.Veiled threads (j.logAll writings d (x :: xs)).1 (j.logAll writings' d (y :: ys)).1 := by
    rw [still.logAll, still.logAll]
    exact .still still
  cases logPath : j.logPath with
  | none => exact unwritten (still_of_no_log logPath)
  | some path =>
    cases found : d.target path with
    | error e => exact unwritten (still_of_no_target logPath found)
    | ok r =>
      obtain ⟨b, named, within, alike⟩ := log_alike logPath found begun begun'
      refine .barred named ?_ (Disk.Barrier.behind_of_inRange within inRange)
      simp only [Journal.logAll, same]
      exact logAll_alike named named _ _ xs ys alike

/-- Threads of a list have read the same from two disks: the disks are the same and no thread has read more of
a file than there is, or they are veiled. This stays so as long as records are written to both logs at the
same time. -/
inductive Journal.Unseen (j : Journal) (threads : List Thread) : Disk → Disk → Prop where
  | same {d : Disk} (inRange : ∀ t ∈ threads, t.files.Every (Handle.InRange d)) : Unseen j threads d d
  | veiled {d d' : Disk} (veiled : j.Veiled threads d d') : Unseen j threads d d'

namespace Journal.Unseen

variable {j j' : Journal} {threads : List Thread} {d d' : Disk}

theorem log (unseen : j.Unseen threads d d') (logPath : j'.logPath = j.logPath) (w : Writing)
    (x y : Snapshot) : j.Unseen threads (j.log w d x).1 (j'.log w d' y).1 := by
  cases unseen with
  | veiled veiled => exact .veiled (veiled.logAll logPath (fun _ => w) (fun _ => w) [x] [y])
  | same inRange =>
    rw [log_congr logPath]
    have unwritten (equal : (j.log w d y).1 = (j.log w d x).1) :
        j.Unseen threads (j.log w d x).1 (j.log w d y).1 := by
      rw [equal]
      exact .same fun t member name handle opened =>
        (inRange t member name handle opened).trans (j.sizeAt_log w d x _)
    rcases w.bytes_eq_or_begun x y with equal | ⟨begun, begun'⟩
    · refine unwritten ?_
      have written : w.part (y.record w.stamp.text).toUTF8 = w.part (x.record w.stamp.text).toUTF8 := equal
      simp only [Journal.log, written]
    · exact .veiled (j.veiled_of_begun inRange (fun _ => w) (fun _ => w) rfl begun begun' [] [])

theorem logAll (unseen : j.Unseen threads d d') (logPath : j'.logPath = j.logPath)
    (writings : Nat → Writing) {xs ys : List Snapshot} (count : ys.length = xs.length) :
    j.Unseen threads (j.logAll writings d xs).1 (j'.logAll writings d' ys).1 := by
  induction xs generalizing d d' ys writings with
  | nil =>
    rw [List.eq_nil_of_length_eq_zero count]
    exact unseen
  | cons x xs ih =>
    obtain ⟨y, ys, rfl⟩ := List.exists_cons_of_length_eq_add_one count
    exact ih (unseen.log logPath (writings 0) x y) _ (Nat.succ.inj count)

theorem sub {others : List Thread} (unseen : j.Unseen threads d d') (sub : ∀ t ∈ others, t ∈ threads) :
    j.Unseen others d d' := by
  cases unseen with
  | same inRange => exact .same fun t member => inRange t (sub t member)
  | veiled veiled => exact .veiled (veiled.sub sub)

theorem of_logPath (unseen : j.Unseen threads d d') (logPath : j'.logPath = j.logPath) :
    j'.Unseen threads d d' := by
  cases unseen with
  | same inRange => exact .same inRange
  | veiled veiled => exact .veiled (veiled.of_logPath logPath)

theorem stepBy (unseen : j.Unseen threads d d') {t : Thread} (member : t ∈ threads) (ν : Valuation)
    (h : Heap) : t.stepBy ν d' h = t.stepBy ν d h := by
  cases unseen with
  | same inRange => rfl
  | veiled veiled => exact veiled.stepBy member ν h

theorem listed {p : Pool} (unseen : j.Unseen p.active d d') (sweep : World → List Thread → World)
    (order : List Nat) : j.Unseen ((p.listed sweep d order).filter (·.isActive)) d d' := by
  cases unseen with
  | same inRange => exact .same (Pool.every_files_listed d.keeps_inRange sweep order inRange)
  | veiled veiled => exact .veiled (veiled.listed sweep order)

end Journal.Unseen

end Lockstep

import Lockstep.Proofs.Turns

/-!
Files on the disk, and how far threads have read them.

The only thing that happens to the disk is that records are appended to the log. So names keep leading to
the same places, files only grow, and a thread that has read a file to some point can go on from there: no
thread ever stands behind the end of a file.
-/

namespace Lockstep

/-! ### Appending -/

namespace Disk

variable {d d' : Disk}

theorem walk_congr (dirs : ∀ p, d'.isDirectory p = d.isDirectory p)
    (same : ∀ p, p ∈ d'.nodes ↔ p ∈ d.nodes) (here : Place) (cs : List String) :
    d'.walk here cs = d.walk here cs := by
  induction cs generalizing here with
  | nil => rfl
  | cons c rest ih => simp only [walk, dirs, same, ih]

/-- The place that one component leads to. -/
def enter (d : Disk) (here : Place) (c : String) : Except DiskFault Place :=
  if !d.isDirectory here then .error .notDirectory
  else if c = "" ∨ c = "." then .ok here
  else if c = ".." then .ok here.dropLast
  else if maxComponent < c.utf8ByteSize then .error .nameTooLong
  else if here ++ [c] ∈ d.nodes then .ok (here ++ [c])
  else .error .notFound

theorem walk_cons (here : Place) (c : String) (rest : List String) :
    d.walk here (c :: rest) = (d.enter here c).bind fun next => d.walk next rest := by
  simp only [walk, enter]
  split_ifs <;> rfl

theorem walk_mono (dirs : ∀ p, d'.isDirectory p = d.isDirectory p)
    (more : ∀ p, p ∈ d.nodes → p ∈ d'.nodes) {here place : Place} {cs : List String}
    (walked : d.walk here cs = .ok place) : d'.walk here cs = .ok place := by
  induction cs generalizing here with
  | nil => exact walked
  | cons c rest ih =>
    rw [walk_cons] at walked ⊢
    cases entered : d.enter here c with
    | error e => simp [entered, Except.bind] at walked
    | ok next =>
      have entered' : d'.enter here c = .ok next := by
        simp only [enter, dirs] at entered ⊢
        -- the only test that asks for more than directories is the last one
        by_cases there : here ++ [c] ∈ d.nodes
        · simpa only [if_pos there, if_pos (more _ there)] using entered
        · simp only [if_neg there] at entered
          split_ifs at entered <;> simp_all
      rw [entered] at walked
      rw [entered']
      exact ih walked

/-- What a text that is appended at a place comes after: the file there, or nothing if there is none. -/
def base? (d : Disk) (p : Place) : Option ByteArray :=
  match d.nodes[p]? with
  | some .directory => none
  | some (.file content) => some content
  | none => some .empty

variable {here place : Place} {c path : String} {content bytes : ByteArray}

theorem fileAt_eq_ok_iff :
    d.fileAt here c = .ok (place, content) ↔
      d.isDirectory here ∧ ¬(c = "." ∨ c = "..") ∧ ¬maxComponent < c.utf8ByteSize ∧
        here ++ [c] = place ∧ d.base? place = some content := by
  simp only [fileAt, base?]
  split
  next outside => simp_all
  next inside =>
    split
    next special => simp [special]
    next plain =>
      split
      next long => simp [long]
      next short =>
        -- nothing is refused any more, unless a directory is in the way
        have inside : d.isDirectory here := by simpa using inside
        constructor
        · intro found
          split at found <;> simp_all
        · rintro ⟨-, -, -, rfl, based⟩
          split at based <;> simp_all

theorem target_eq_ok_iff :
    d.target path = .ok (place, content) ↔
      ∃ c before here, checkName path = .ok () ∧
        (components path).reverse.dropWhile (· = "") = c :: before ∧
        d.walk (d.origin path) before.reverse = .ok here ∧
        ¬((components path).reverse.head? = some "" ∧ d.isDirectory here) ∧
        d.fileAt here c = .ok (place, content) := by
  simp only [target, bind, Except.bind]
  split
  next e refused => simp [refused]
  next fine =>
    split
    next none => simp [none]
    next c before last =>
      split
      next e lost => simp [last, lost]
      next here walked =>
        split
        next slash => simp [last, walked, slash]
        next plain => simp_all

theorem base_of_target (found : d.target path = .ok (place, content)) :
    d.base? place = some content := by
  obtain ⟨c, before, here, -, -, -, -, last⟩ := target_eq_ok_iff.mp found
  exact (fileAt_eq_ok_iff.mp last).2.2.2.2

theorem target_of_grown (found : d.target path = .ok (place, content)) (cwd : d'.cwd = d.cwd)
    (dirs : ∀ p, d'.isDirectory p = d.isDirectory p) (more : ∀ p, p ∈ d.nodes → p ∈ d'.nodes)
    {content' : ByteArray} (there : d'.base? place = some content') :
    d'.target path = .ok (place, content') := by
  -- where a name leads does not change when files are added or written to
  obtain ⟨c, before, here, named, last, walked, plain, found⟩ := target_eq_ok_iff.mp found
  obtain ⟨inside, proper, short, joined, -⟩ := fileAt_eq_ok_iff.mp found
  have origin : d'.origin path = d.origin path := by simp only [origin, cwd]
  refine target_eq_ok_iff.mpr ⟨c, before, here, named, last, ?_, ?_, ?_⟩
  · rw [origin]
    exact walk_mono dirs more walked
  · rwa [dirs]
  · exact fileAt_eq_ok_iff.mpr ⟨by rwa [dirs], proper, short, joined, there⟩

/-- The disk with another file at a place. -/
def setFile (d : Disk) (place : Place) (content : ByteArray) : Disk :=
  { d with nodes := d.nodes.insert place (.file content) }

@[simp] theorem cwd_setFile : (d.setFile place content).cwd = d.cwd := rfl

theorem getElem?_setFile (p : Place) :
    (d.setFile place content).nodes[p]? = if place = p then some (.file content) else d.nodes[p]? := by
  simp only [setFile, Std.ExtTreeMap.getElem?_insert, Std.compare_eq_iff_eq]

theorem isDirectory_setFile (based : d.base? place = some content) (bytes : ByteArray) (p : Place) :
    (d.setFile place bytes).isDirectory p = d.isDirectory p := by
  simp only [isDirectory, getElem?_setFile]
  by_cases same : place = p
  · subst same
    simp only [base?] at based
    rw [if_pos rfl]
    split at based <;> simp_all
  · rw [if_neg same]

theorem mem_setFile (p : Place) : p ∈ (d.setFile place content).nodes ↔ place = p ∨ p ∈ d.nodes := by
  simp only [setFile, Std.ExtTreeMap.mem_insert, Std.compare_eq_iff_eq]

theorem setFile_setFile (bytes : ByteArray) :
    (d.setFile place content).setFile place bytes = d.setFile place bytes := by
  have nodes : ((d.setFile place content).setFile place bytes).nodes = (d.setFile place bytes).nodes := by
    apply Std.ExtTreeMap.ext_getElem?
    intro p
    simp only [getElem?_setFile]
    split <;> rfl
  exact congrArg (Disk.mk · d.cwd) nodes

theorem target_setFile (found : d.target path = .ok (place, content)) (bytes : ByteArray) :
    (d.setFile place bytes).target path = .ok (place, bytes) := by
  refine target_of_grown found cwd_setFile (isDirectory_setFile (base_of_target found) _) ?_ ?_
  · intro p there
    exact (mem_setFile p).mpr (.inr there)
  · simp [base?, getElem?_setFile]

theorem append_of_target (found : d.target path = .ok (place, content)) (bytes : ByteArray) :
    d.append path bytes = .ok (d.setFile place (content ++ bytes)) ∧
      (d.setFile place (content ++ bytes)).target path = .ok (place, content ++ bytes) := by
  refine ⟨?_, target_setFile found _⟩
  simp [append, found, setFile, bind, Except.bind, pure, Except.pure]

theorem append_of_no_target {e : DiskFault} (lost : d.target path = .error e) (bytes : ByteArray) :
    d.append path bytes = .error e := by
  simp [append, lost, bind, Except.bind]

end Disk

/-! ### What holds of all open files -/

/-- A property that all open files of a thread have. -/
def OpenFiles.Every (P : Handle → Prop) (t : OpenFiles) : Prop :=
  ∀ (name : String) handle, t[name]? = some handle → P handle

namespace OpenFiles.Every

variable {P : Handle → Prop} {t : OpenFiles}

theorem empty : Every P ∅ := by
  intro name handle opened
  simp at opened

theorem insert (every : t.Every P) (name : String) (handle : Handle) (holds : P handle) :
    Every P (t.insert name handle) := by
  intro other handle' opened
  simp only [Std.ExtTreeMap.getElem?_insert, Std.compare_eq_iff_eq] at opened
  split at opened
  · cases opened
    exact holds
  · exact every other handle' opened

theorem erase (every : t.Every P) (name : String) : Every P (t.erase name) := by
  intro other handle opened
  simp only [Std.ExtTreeMap.getElem?_erase, Std.compare_eq_iff_eq] at opened
  split at opened
  · cases opened
  · exact every other handle opened

end OpenFiles.Every

/-- What is true of files that have just been opened, and stays true as integers are read from the
disk. -/
structure Disk.Keeps (d : Disk) (P : Handle → Prop) : Prop where
  opened : ∀ place, P { place, offset := 0 }
  read : ∀ {t t' : OpenFiles} {name : String} {line : Option String} {n : Int64}, t.Every P →
    t.readLine d name = (t', .ok line) → Store.lineValue name line = .ok n → t'.Every P

section Keeps

variable {d : Disk} {P : Handle → Prop} (keeps : d.Keeps P)
include keeps

theorem Acts.every_files {ν : Valuation} {σ σ' : Store} {s : Stmt} (acts : Acts ν d σ s σ' none)
    (every : σ.files.Every P) : σ'.files.Every P := by
  cases acts with
  | openFile named opened =>
    simp only [OpenFiles.openFile] at opened
    split at opened
    · cases opened
    · split at opened
      · cases opened
        exact every.insert _ _ (keeps.opened _)
      · cases opened
  | readInt bound named read number => exact keeps.read every read number
  | closeFile named closed =>
    simp only [OpenFiles.closeFile] at closed
    split at closed
    · cases closed
      exact every.erase _
    · cases closed
  | _ => exact every

theorem Stmt.every_files_execBy {ν : Valuation} {σ σ' : Store} {s : Stmt} {effect : Effect}
    (executed : s.execBy ν d σ = (σ', .ok effect)) (every : σ.files.Every P) : σ'.files.Every P := by
  by_cases simple : s.elementary
  · obtain ⟨σ₁, o, acts, acted⟩ := s.execBy_acts ν d σ simple
    rw [executed, Prod.mk.injEq] at acted
    obtain ⟨rfl, answer⟩ := acted
    cases o with
    | none => exact acts.every_files keeps every
    | some e => cases answer
  · -- control statements do not touch the store
    have same := execBy_fst_of_not_elementary ν d σ simple
    rw [executed] at same
    rwa [← same] at every

theorem Thread.every_files_stepBy {ν : Valuation} {t : Thread} {h : Heap} {spawn : Option Spawn}
    (stepped : (t.stepBy ν d h).result = .ok spawn) (every : t.files.Every P) :
    (t.stepBy ν d h).thread.files.Every P := by
  simp only [stepBy] at stepped ⊢
  split at stepped
  next s rest running top =>
    rcases executed : s.execBy ν d (t.store h) with ⟨σ, e | effect⟩
    · simp [executed] at stepped
    · have after : σ.files.Every P := Stmt.every_files_execBy keeps executed every
      simp only
      split <;> exact after
  · simp at stepped

theorem Turn.Proper.every_files_settled {u : Turn} (proper : u.Proper d)
    (every : u.thread.files.Every P) (goesOn : u.settled.isActive) : u.settled.files.Every P := by
  rcases proper.settled_eq with ⟨ν, h, spawn, answer, -, same⟩ | ⟨e, -, failed⟩
  · rw [same]
    exact Thread.every_files_stepBy keeps answer every
  · -- a failed thread does not go on
    simp [Thread.isActive, failed] at goesOn

/-- What all open files have before a round, those of the threads that go on have after it. -/
theorem Pool.every_files_listed (sweep : World → List Thread → World) (order : List Nat) {p : Pool}
    (every : ∀ t ∈ p.active, t.files.Every P) :
    ∀ t ∈ (p.listed sweep d order).filter (·.isActive), t.files.Every P := by
  intro t member
  obtain ⟨listed, goesOn⟩ := List.mem_filter.mp member
  rcases List.mem_append.mp listed with settled | started
  · obtain ⟨u, turn, rfl⟩ := List.mem_map.mp settled
    have proper := World.proper_of_mem_turns _ _ _ turn
    have before : u.thread ∈ p.retire.active := by
      have listed := List.mem_map_of_mem (f := Turn.thread) turn
      rwa [turns, World.map_thread_turns] at listed
    exact proper.every_files_settled keeps (every _ (List.mem_filter.mp before).1) goesOn
  · -- a thread that was just started has no files open
    obtain ⟨u, turn, child⟩ := List.mem_filterMap.mp started
    obtain ⟨body, rest, -, same⟩ := (World.proper_of_mem_turns _ _ _ turn).child child
    rw [same]
    exact OpenFiles.Every.empty

end Keeps

/-! ### Files are read up to their end -/

/-- How many bytes can be read at a place. -/
def Disk.sizeAt (d : Disk) (p : Place) : Nat :=
  match d.nodes[p]? with
  | some (.file content) => content.size
  | _ => 0

/-- No more of the file has been read than there is. -/
def Handle.InRange (d : Disk) (handle : Handle) : Prop :=
  handle.offset ≤ d.sizeAt handle.place

theorem Disk.length_readFrom {d : Disk} {p : Place} {offset : Nat} {bytes : List UInt8}
    (found : d.readFrom p offset = .ok bytes) : bytes.length = d.sizeAt p - offset := by
  simp only [readFrom, sizeAt] at found ⊢
  split at found
  next content node =>
    cases found
    simp only [node, List.length_drop, Array.length_toList]
    rfl
  · cases found
  · cases found

theorem Disk.keeps_inRange (d : Disk) : d.Keeps (Handle.InRange d) where
  opened _ := Nat.zero_le _
  read := by
    intro t t' name line n every read number
    simp only [OpenFiles.readLine] at read
    split at read
    · cases read
    next handle opened =>
      split at read
      · cases read
      · cases read
        exact every
      next b rest found =>
        -- the line is a part of what is left of the file
        have room : handle.offset + (Line.first (b :: rest)).length ≤ d.sizeAt handle.place := by
          have before : handle.offset ≤ d.sizeAt handle.place := every name handle opened
          have line := Line.length_first_le (b :: rest)
          rw [length_readFrom found] at line
          omega
        have moved := every.insert name { handle with
          offset := handle.offset + (Line.first (b :: rest)).length } room
        split at read
        · cases read
          exact moved
        · cases read

theorem Disk.sizeAt_of_base {d : Disk} {p : Place} {content : ByteArray}
    (based : d.base? p = some content) : d.sizeAt p = content.size := by
  simp only [base?, sizeAt] at based ⊢
  split at based
  · cases based
  next node =>
    cases based
    rw [node]
  next node =>
    cases based
    rw [node]
    rfl

theorem Disk.sizeAt_append {d d' : Disk} {path : String} {bytes : ByteArray}
    (appended : d.append path bytes = .ok d') (p : Place) : d.sizeAt p ≤ d'.sizeAt p := by
  cases found : d.target path with
  | error e => simp [append_of_no_target found] at appended
  | ok r =>
    rw [(append_of_target found bytes).1, Except.ok.injEq] at appended
    subst appended
    by_cases here : r.1 = p
    · subst here
      rw [sizeAt_of_base (base_of_target found)]
      simp [sizeAt, getElem?_setFile]
    · simp only [sizeAt, getElem?_setFile, if_neg here, Nat.le_refl]

theorem Journal.sizeAt_log (j : Journal) (writing : Writing) (d : Disk) (x : Snapshot) (p : Place) :
    d.sizeAt p ≤ (j.log writing d x).1.sizeAt p := by
  simp only [log]
  split
  · exact Nat.le_refl _
  next path name =>
    split
    next appended => exact Disk.sizeAt_append appended p
    · exact Nat.le_refl _

theorem Journal.sizeAt_logAll (j : Journal) (writings : Nat → Writing) (d : Disk) (xs : List Snapshot)
    (p : Place) : d.sizeAt p ≤ (j.logAll writings d xs).1.sizeAt p := by
  induction xs generalizing writings d with
  | nil => exact Nat.le_refl _
  | cons x xs ih => exact (j.sizeAt_log (writings 0) d x p).trans (ih _ _)

/-- No thread has read more of a file than there is. -/
def Scheduler.InRange (s : Scheduler) : Prop :=
  ∀ t ∈ s.pool.active, t.files.Every (Handle.InRange s.disk)

namespace Scheduler

variable {s : Scheduler} (sweep : World → List Thread → World) (c : Course)

@[simp] theorem journal_retire : s.retire.journal = s.journal := rfl

@[simp] theorem journal_logAll (writings : Nat → Writing) : (s.logAll writings).journal = s.journal := rfl

@[simp] theorem journal_stepAll (order : List Nat) : (s.stepAll order).journal = s.journal := rfl

@[simp] theorem logPath_record : s.record.journal.logPath = s.journal.logPath := by
  simp only [record, Journal.record]
  split <;> rfl

theorem disk_logAll (writings : Nat → Writing) :
    (s.logAll writings).disk = (s.journal.logAll writings s.disk s.frame.threads).1 := rfl

@[simp] theorem disk_stepAll (order : List Nat) : (s.stepAll order).disk = s.disk := rfl

@[simp] theorem disk_record : s.record.disk = s.disk := rfl

@[simp] theorem disk_retire : s.retire.disk = s.disk := rfl

/-- A round in which a thread is stepped ends with a record for each thread of its last list, behind those
that it began with. -/
theorem disk_roundWith (busy : s.pool.retire.active ≠ []) :
    ∃ records : List Snapshot,
      records.length = (s.pool.listed sweep (s.roundDisk sweep c) c.order).length ∧
      (s.roundWith sweep c).1.disk = (s.journal.logAll c.late (s.roundDisk sweep c) records).1 := by
  have stepping : s.retire.pool.active.isEmpty = false := by simpa using busy
  simp only [roundWith, stepping, Bool.false_eq_true, ↓reduceIte, disk_retire, disk_record]
  rw [disk_logAll, ← Pool.active_stepAll_openRound]
  simp only [journal_stepAll, journal_logAll, journal_retire, disk_stepAll]
  refine ⟨_, ?_, rfl⟩
  rw [frame, Frame.ofThreads, List.length_map]
  rfl

theorem roundWith_of_idle (idle : s.pool.retire.active = []) :
    s.roundWith sweep c = (s.retire, false) := by
  simp [roundWith, idle]

theorem logPath_roundWith : (s.roundWith sweep c).1.journal.logPath = s.journal.logPath := by
  simp only [roundWith]
  split
  · rfl
  · simp

theorem logPath_after (course : Nat → Course) (n : Nat) :
    (s.after course n).journal.logPath = s.journal.logPath := by
  induction n with
  | zero => rfl
  | succ n ih => rw [after_succ, logPath_roundWith, ih]

theorem InRange.roundWith (inRange : s.InRange) : (s.roundWith sweep c).1.InRange := by
  intro t member
  rw [pool_fst_roundWith, Pool.active_advance] at member
  have busy : s.pool.retire.active ≠ [] := by
    intro idle
    have none := (s.pool.turns_eq_nil_iff sweep (s.roundDisk sweep c) c.order).mpr idle
    rw [Pool.listed_of_no_turns none] at member
    exact absurd member List.not_mem_nil
  obtain ⟨records, -, last⟩ := disk_roundWith sweep c busy
  -- the log only adds to what can be read
  have stepped : ∀ t ∈ s.pool.active, t.files.Every (Handle.InRange (s.roundDisk sweep c)) :=
    fun t member name handle opened =>
      (inRange t member name handle opened).trans (s.journal.sizeAt_logAll c.early s.disk _ _)
  intro name handle opened
  have after :=
    Pool.every_files_listed (Disk.keeps_inRange _) sweep c.order stepped t member name handle opened
  rw [Handle.InRange, last]
  exact after.trans (s.journal.sizeAt_logAll c.late _ _ _)

/-- In a run from threads that have just been started, they never get past the ends of files. -/
theorem Loaded.inRange_after (loaded : s.Loaded) (course : Nat → Course) (n : Nat) :
    (s.after course n).InRange := by
  induction n with
  | zero =>
    intro t member
    have files : t.files = ∅ := by rw [loaded.started t member]; rfl
    rw [files]
    exact OpenFiles.Every.empty
  | succ n ih => exact ih.roundWith World.sweep (course n)

end Scheduler

end Lockstep

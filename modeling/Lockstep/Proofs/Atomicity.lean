import Lockstep.Proofs.Action
import Lockstep.Proofs.Round

/-!
A step that fails is undone.

A statement makes its checks before it changes anything, and what follows the first change cannot fail any
more: a variable that has been found to hold a reference takes another of the same type, and one that has
been found to hold an integer takes the integer that was read. Only a line that turns out to be no integer
has been read by then. So a failing step takes its statement off the stack, may move on by one line in the
file that it reads, and leaves everything else as it was.
-/

namespace Lockstep

/-! ### Failing statements -/

/-- The open files after the next line of the file `name` has been read, of which at least one byte was
left. -/
def OpenFiles.LineRead (disk : Disk) (name : String) (t t' : OpenFiles) : Prop :=
  ∃ handle bytes, t[name]? = some handle ∧
    disk.readFrom handle.place handle.offset = .ok bytes ∧ bytes ≠ [] ∧
    t' = t.insert name { handle with offset := handle.offset + (Line.first bytes).length }

theorem OpenFiles.LineRead.mem_iff {disk : Disk} {name : String} {t t' : OpenFiles}
    (read : t.LineRead disk name t') (other : String) : other ∈ t' ↔ other ∈ t := by
  obtain ⟨handle, bytes, opened, -, -, rfl⟩ := read
  constructor
  · intro member
    -- the entry that is written was there before
    rcases Std.ExtTreeMap.mem_insert.mp member with same | there
    · rw [Std.compare_eq_iff_eq] at same
      rw [← same, Std.ExtTreeMap.mem_iff_isSome_getElem?, opened]
      rfl
    · exact there
  · intro member
    exact Std.ExtTreeMap.mem_insert.mpr (.inr member)

theorem OpenFiles.readLine_fst (disk : Disk) (t : OpenFiles) (name : String) :
    (t.readLine disk name).1 = t ∨ t.LineRead disk name (t.readLine disk name).1 := by
  cases opened : t[name]? with
  | none => left; simp only [readLine, opened]
  | some handle =>
    cases left : disk.readFrom handle.place handle.offset with
    | error fault => left; simp only [readLine, opened, left]
    | ok bytes =>
      cases bytes with
      | nil => left; simp only [readLine, opened, left]
      | cons b rest =>
        -- a line that is not text counts as read as well
        right
        refine ⟨handle, b :: rest, opened, left, List.cons_ne_nil _ _, ?_⟩
        simp only [readLine, opened, left]
        split <;> rfl

section Failure

variable {ν : Valuation} {disk : Disk} {σ σ' : Store} {s : Stmt} {e : Fault}

/-- The statement reads a file, and has read a line when it turns out to fail. -/
def Stmt.ReadsLine (ν : Valuation) (disk : Disk) (σ : Store) (s : Stmt) (files : OpenFiles) : Prop :=
  ∃ f x name, s = .readInt f x ∧ ν.fileName f = .ok name ∧ σ.files.LineRead disk name files

theorem Acts.store_of_failure (acts : Acts ν disk σ s σ' (some e)) :
    ∃ files, σ' = { σ with files } ∧ (files = σ.files ∨ s.ReadsLine ν disk σ files) := by
  cases acts with
  | @readRefused f x name old files _ bound named refused =>
    refine ⟨files, rfl, ?_⟩
    have read := σ.files.readLine_fst disk name
    rw [refused] at read
    exact read.imp_right fun line => ⟨f, x, name, rfl, named, line⟩
  | @readNoNumber f x name old files line _ bound named read number =>
    refine ⟨files, rfl, ?_⟩
    have moved := σ.files.readLine_fst disk name
    rw [read] at moved
    exact moved.imp_right fun line => ⟨f, x, name, rfl, named, line⟩
  | _ => exact ⟨σ.files, rfl, .inl rfl⟩

theorem Stmt.store_of_failure (failed : s.execBy ν disk σ = (σ', .error e)) :
    ∃ files, σ' = { σ with files } ∧ (files = σ.files ∨ s.ReadsLine ν disk σ files) := by
  by_cases simple : s.elementary
  · obtain ⟨σ₁, o, acts, acted⟩ := s.execBy_acts ν disk σ simple
    rw [failed, Prod.mk.injEq] at acted
    obtain ⟨rfl, answer⟩ := acted
    cases o with
    | none => cases answer
    | some err => exact acts.store_of_failure
  · -- a control statement has nothing to undo
    have same := execBy_fst_of_not_elementary ν disk σ simple
    rw [failed] at same
    exact ⟨σ.files, same, .inl rfl⟩

end Failure

/-! ### The last thing that a statement does -/

namespace Store

variable {ν : Valuation} {σ : Store} {x : String}

theorem alloc_of_checks {e : Expr} {a : Nat} {t : Ty} {v : Value} (target : σ.referenceOf x = .ok (a, t))
    (value : ν.fitting "new" x t e = .ok v) :
    ∃ symbols, σ.symbols.assign x (.ref σ.heap.next t) = .ok symbols ∧
      σ.alloc ν x e = ({ σ with heap := (σ.heap.allocate v).2, symbols }, .ok {}) := by
  have bound := referenceOf_eq_ok_iff.mp target
  have assigned : σ.symbols.assign x (.ref σ.heap.next t) =
      .ok (σ.symbols.insert x (.ref σ.heap.next t)) := by
    simp [Symbols.assign, bound, Value.ty]
  refine ⟨_, assigned, ?_⟩
  simp only [alloc, target, value, Fault.ok_bind, Fault.pure_eq_ok]
  exact bindTo_of_ty bound rfl

theorem readInt_of_checks {disk : Disk} {f : Expr} {name : String} {files : OpenFiles}
    {line : Option String} {n : Int64} (target : σ.checkReadTarget x = .ok ())
    (named : ν.fileName f = .ok name) (read : σ.files.readLine disk name = (files, .ok line))
    (number : lineValue name line = .ok n) :
    ∃ symbols, σ.symbols.assign x (.int n) = .ok symbols ∧
      σ.readInt ν disk f x = ({ σ with files, symbols }, .ok {}) := by
  obtain ⟨old, bound⟩ := checkReadTarget_eq_ok_iff.mp target
  have assigned : σ.symbols.assign x (.int n) = .ok (σ.symbols.insert x (.int n)) := by
    simp [Symbols.assign, bound, Value.ty]
  refine ⟨_, assigned, ?_⟩
  simp only [readInt, target, named, read, number, Fault.ok_bind, Except.bind]
  exact bindTo_of_ty bound rfl

end Store

/-! ### Failing steps -/

theorem Thread.stepBy_of_inactive {t : Thread} (ν : Valuation) (disk : Disk) (h : Heap)
    (inactive : ¬t.isActive) : t.stepBy ν disk h = ⟨h, t, .error (.nothingToRun t.id)⟩ := by
  simp only [stepBy]
  split
  next s rest running top => simp [isActive, running, top] at inactive
  · rfl

theorem Thread.stepBy_of_failure {t : Thread} {ν : Valuation} {disk : Disk} {h : Heap} {e : Fault}
    (active : t.isActive) (failed : (t.stepBy ν disk h).result = .error e) :
    ∃ s rest files, t.stack = s :: rest ∧
      t.stepBy ν disk h = ⟨h, { t with stack := rest, files }, .error e⟩ ∧
      (files = t.files ∨ s.ReadsLine ν disk (t.store h) files) := by
  simp only [stepBy] at failed ⊢
  split at failed
  next s rest running top =>
    rcases executed : s.execBy ν disk (t.store h) with ⟨σ, err | effect⟩
    · obtain ⟨files, rfl, moved⟩ := Stmt.store_of_failure executed
      simp only [executed, Except.error.injEq] at failed
      subst failed
      exact ⟨s, rest, files, top, rfl, moved⟩
    · simp [executed] at failed
  next stuck =>
    -- an active thread is running and has a statement on its stack
    simp only [isActive, Bool.and_eq_true, decide_eq_true_eq] at active
    cases top : t.stack with
    | nil => simp [top] at active
    | cons s rest => exact absurd top (stuck s rest active.1)

namespace World

variable {ν : Valuation} {disk : Disk} {w : World} {t : Thread} {e : Fault}

theorem result_of_failure (failed : (w.stepBy ν disk t).2.2 = .error e) :
    (t.stepBy ν disk (w.heap t.heap)).result = .error e := by
  rw [stepBy_snd] at failed
  cases answer : (t.stepBy ν disk (w.heap t.heap)).result with
  | error err => simpa [answer, Except.map] using failed
  | ok spawn => simp [answer, Except.map] at failed

theorem heap_of_failure (failed : (w.stepBy ν disk t).2.2 = .error e) (n : Nat) :
    (w.stepBy ν disk t).1.heap n = w.heap n := by
  have same : (t.stepBy ν disk (w.heap t.heap)).heap = w.heap t.heap := by
    by_cases active : t.isActive
    · obtain ⟨s, rest, files, -, stepped, -⟩ := Thread.stepBy_of_failure active (result_of_failure failed)
      rw [stepped]
    · rw [Thread.stepBy_of_inactive ν disk _ active]
  rw [heap_stepBy]
  split
  next here => rw [same, here]
  · rfl

theorem nextThread_of_failure (failed : (w.stepBy ν disk t).2.2 = .error e) :
    (w.stepBy ν disk t).1.nextThread = w.nextThread := by
  rw [nextThread_stepBy]
  simp [Pool.child?, failed]

/-- A step that fails is undone. Whatever thread is stepped in whatever world, and whatever it has found out
about its expression, with or without interruption, if the step fails then all heaps and the next number are
as before, and so are the variables, the output, the number, the heap, the status and the program of the
thread, and the names of its open files. If the thread was not active, it is as before in every respect and
the failure is one of scheduling; otherwise just the top statement has been taken off its stack. No file has
been read any further, except that a failing read may have passed one line of the file that it names. An
allocation whose checks succeed does not fail when it binds its variable, and neither does a read that has
come to an integer. -/
theorem failing_step_atomic (ν : Valuation) (disk : Disk) (w : World) (t : Thread) :
    (∀ e, (w.stepBy ν disk t).2.2 = .error e →
      let w' := (w.stepBy ν disk t).1
      let t' := (w.stepBy ν disk t).2.1
      ((∀ n, w'.heap n = w.heap n) ∧ w'.nextThread = w.nextThread) ∧
      (t'.symbols = t.symbols ∧ t'.output = t.output ∧ t'.id = t.id ∧ t'.heap = t.heap ∧
        t'.status = t.status ∧ t'.program = t.program ∧ ∀ name, name ∈ t'.files ↔ name ∈ t.files) ∧
      (¬t.isActive → t' = t ∧ ∃ detail, e = .scheduling detail) ∧
      (t.isActive → ∃ s, t.stack = s :: t'.stack) ∧
      (t'.files = t.files ∨ ∃ f x rest name, t.stack = .readInt f x :: rest ∧
        ν.fileName f = .ok name ∧ t.files.LineRead disk name t'.files)) ∧
    (∀ (σ : Store) (x : String) (e : Expr) (a : Nat) (target : Ty) (v : Value),
      σ.referenceOf x = .ok (a, target) → ν.fitting "new" x target e = .ok v →
      ∃ symbols, σ.symbols.assign x (.ref σ.heap.next target) = .ok symbols ∧
        σ.alloc ν x e = ({ σ with heap := (σ.heap.allocate v).2, symbols }, .ok {})) ∧
    ∀ (σ : Store) (f : Expr) (x name : String) (files : OpenFiles) (line : Option String) (n : Int64),
      σ.checkReadTarget x = .ok () → ν.fileName f = .ok name →
      σ.files.readLine disk name = (files, .ok line) → Store.lineValue name line = .ok n →
      ∃ symbols, σ.symbols.assign x (.int n) = .ok symbols ∧
        σ.readInt ν disk f x = ({ σ with files, symbols }, .ok {}) := by
  refine ⟨fun e failed => ?_, fun σ x e a target v => Store.alloc_of_checks,
    fun σ f x name files line n => Store.readInt_of_checks⟩
  intro w' t'
  have thread : t' = (t.stepBy ν disk (w.heap t.heap)).thread := congrArg Prod.fst (stepBy_snd ν disk w t)
  refine ⟨⟨heap_of_failure failed, nextThread_of_failure failed⟩, ?_⟩
  by_cases active : t.isActive
  · obtain ⟨s, rest, files, top, stepped, moved⟩ :=
      Thread.stepBy_of_failure active (result_of_failure failed)
    rw [stepped] at thread
    rw [thread]
    refine ⟨⟨rfl, rfl, rfl, rfl, rfl, rfl, fun name => ?_⟩, fun inactive => absurd active inactive,
      fun _ => ⟨s, top⟩, ?_⟩
    · rcases moved with rfl | ⟨f, x, file, -, -, read⟩
      · exact Iff.rfl
      · exact read.mem_iff name
    · rcases moved with same | ⟨f, x, name, rfl, named, read⟩
      · exact .inl same
      · exact .inr ⟨f, x, rest, name, top, named, read⟩
  · have stepped := Thread.stepBy_of_inactive ν disk (w.heap t.heap) active
    have answer := result_of_failure failed
    rw [stepped] at thread answer
    rw [thread]
    refine ⟨⟨rfl, rfl, rfl, rfl, rfl, rfl, fun name => Iff.rfl⟩, fun _ => ⟨rfl, ?_⟩,
      fun now => absurd now active, .inl rfl⟩
    cases answer
    exact ⟨_, rfl⟩

/-- A thread reads a file whose next line is no integer, and another one allocates a cell of the wrong type.
Both fail; the first has passed four bytes of its file. -/
theorem failing_step_atomic_strange_line :
    let disk := (Disk.blank []).put "in" (.file "one\n5\n".toUTF8)
    let w : World := ({} : World).setHeap 0 (({} : Heap).allocate (.int 3)).2
    let reader : Thread :=
      { Thread.start 1 0 .nop ((∅ : Symbols).insert "x" (.int 7)) with
        stack := [.readInt (.string "in") "x", .nop]
        files := (∅ : OpenFiles).insert "in" { place := ["in"], offset := 0 } }
    let writer := Thread.start 2 0 (.alloc "y" (.bool true)) ((∅ : Symbols).insert "y" (.ref 1 .int))
    ((w.step disk reader).2.2 = .error (.lineNotInt "in" "one") ∧
      (w.step disk reader).2.1.symbols = reader.symbols ∧
      (w.step disk reader).2.1.stack = [.nop] ∧
      (w.step disk reader).2.1.files["in"]? = some { place := ["in"], offset := 4 } ∧
      reader.files.LineRead disk "in" (w.step disk reader).2.1.files) ∧
    (w.step disk writer).2.2 = .error (.cellType "new" "y" .int .bool) ∧
    (∀ n, (w.step disk writer).1.heap n = w.heap n) ∧ (w.step disk writer).2.1.stack = [] := by
  intro disk w reader writer
  have strange : (w.step disk reader).2.2 = .error (.lineNotInt "in" "one") := by rfl
  have position : (w.step disk reader).2.1.files["in"]? = some { place := ["in"], offset := 4 } := by
    decide +kernel
  have mistyped : (w.step disk writer).2.2 = .error (.cellType "new" "y" .int .bool) := by rfl
  obtain ⟨-, ⟨symbols, -⟩, -, popped, moved⟩ := (failing_step_atomic _ disk w reader).1 _ strange
  obtain ⟨⟨heaps, -⟩, -, -, popped', -⟩ := (failing_step_atomic _ disk w writer).1 _ mistyped
  obtain ⟨s, top⟩ := popped rfl
  obtain ⟨s', top'⟩ := popped' rfl
  refine ⟨⟨strange, symbols, (List.cons.inj top).2.symm, position, ?_⟩, mistyped, heaps,
    (List.cons.inj top').2.symm⟩
  rcases moved with same | ⟨f, x, rest, name, statement, named, read⟩
  · rw [World.step, same] at position
    exact absurd position (by decide +kernel)
  · obtain ⟨⟨rfl, -⟩, -⟩ : (f = .string "in" ∧ x = "x") ∧ rest = [.nop] := by
      simpa [reader, eq_comm] using statement
    cases named
    exact read

end World

end Lockstep

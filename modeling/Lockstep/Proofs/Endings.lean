import Lockstep.Dispatcher
import Lockstep.Proofs.Census

/-!
How threads end.

A thread of the list between two rounds is running and has a statement to run, so it never happens that a
thread is stepped which cannot be. The failure of the scheduler that this would bring about is the only one
that a step can have beside those of its statement. Hence a thread leaves the list because it has nothing
left to do, or with a failure of its last statement.
-/

namespace Lockstep

/-! ### Failures of statements -/

/-- An outcome that is no failure of the scheduler. -/
def Unscheduled {α : Type} (r : Except Fault α) : Prop :=
  ∀ detail, r ≠ .error (.scheduling detail)

section Unscheduled

theorem Unscheduled.of_ok {α : Type} (a : α) : Unscheduled (.ok a) := by
  intro detail failed
  cases failed

/-- A failure is one of the scheduler or not, whatever the result would have been. -/
theorem Unscheduled.error {α β : Type} {e : Fault} (own : Unscheduled (.error e : Except Fault α)) :
    Unscheduled (.error e : Except Fault β) := by
  intro detail failed
  exact own detail (congrArg Except.error (Except.error.inj failed))

theorem Unscheduled.bind {α β : Type} {r : Except Fault α} {next : α → Except Fault β}
    (first : Unscheduled r) (then_ : ∀ a, Unscheduled (next a)) : Unscheduled (r >>= next) := by
  cases r with
  | error e =>
    intro detail failed
    cases failed
    exact first detail rfl
  | ok a => exact then_ a

theorem Unscheduled.ne {α : Type} {r : Except Fault α} {e : Fault} (own : Unscheduled r)
    (failed : r = .error e) (detail : String) : e ≠ .scheduling detail := by
  rintro rfl
  exact own detail failed

theorem Symbols.valueOf_unscheduled (σ : Symbols) (x : String) : Unscheduled (σ.valueOf x) := by
  simp only [valueOf]
  split <;> simp [Unscheduled]

theorem Value.expectInt_unscheduled (side : Side) (v : Value) : Unscheduled (v.expectInt side) := by
  cases v <;> simp [Unscheduled, expectInt, int?, Fault.operandNot]

theorem Value.expectBool_unscheduled (side : Side) (v : Value) : Unscheduled (v.expectBool side) := by
  cases v <;> simp [Unscheduled, expectBool, bool?, Fault.operandNot]

theorem Value.expectAddress_unscheduled (v : Value) : Unscheduled v.expectAddress := by
  cases v <;> simp [Unscheduled, expectAddress, address?, Fault.readOf]

theorem Heap.get_unscheduled (h : Heap) (a : Nat) : Unscheduled (h.get a) := by
  simp only [get]
  split <;> simp [Unscheduled]

theorem Comparison.accept_unscheduled (op : Comparison) (a : Value) : Unscheduled (op.accept a) := by
  simp only [accept]
  split <;> simp [Unscheduled, Fault.operandNot]

theorem Comparison.compare_unscheduled (op : Comparison) (a b : Value) :
    Unscheduled (op.compare a b) := by
  simp only [compare]
  split <;> simp [Unscheduled, Fault.operandNot]

theorem Expr.arithmetic_unscheduled (op : Arith) (l r : Expr) (a b : Int64) :
    Unscheduled (arithmetic op l r a b) := by
  simp only [arithmetic]
  split
  · simp [Unscheduled]
  · split <;> simp [Unscheduled]

end Unscheduled

/-- The inquiry comes to no failure of the scheduler, as long as no cell does. -/
def Inquiry.Unscheduled : Inquiry → Prop
  | answer r => Lockstep.Unscheduled r
  | look _ next => ∀ r, Lockstep.Unscheduled r → (next r).Unscheduled

theorem Inquiry.Unscheduled.bind {q : Inquiry} {rest : Except Fault Value → Inquiry}
    (first : q.Unscheduled) (then_ : ∀ r, Lockstep.Unscheduled r → (rest r).Unscheduled) :
    (q.bind rest).Unscheduled := by
  induction q with
  | answer r => exact then_ r first
  | look a next ih => exact fun r told => ih r (first r told)

theorem Inquiry.Unscheduled.andThen {α : Type} {q : Inquiry} {check : Value → Except Fault α}
    {rest : α → Inquiry} (first : q.Unscheduled) (checked : ∀ v, Lockstep.Unscheduled (check v))
    (then_ : ∀ a, (rest a).Unscheduled) : (q.andThen check rest).Unscheduled := by
  refine first.bind fun r told => ?_
  have own := told.bind checked
  split
  next a _ => exact then_ a
  next e failed =>
    rw [failed] at own
    exact own.error

theorem Expr.inquiry_unscheduled (σ : Symbols) (e : Expr) : (e.inquiry σ).Unscheduled := by
  induction e with
  | const v => exact .of_ok v
  | var x => exact σ.valueOf_unscheduled x
  | arith op l r ihl ihr =>
    exact ihl.andThen (Value.expectInt_unscheduled .first) fun a =>
      ihr.andThen (Value.expectInt_unscheduled .second) fun b => arithmetic_unscheduled op l r a b
  | logic op l r ihl ihr =>
    exact ihl.andThen (Value.expectBool_unscheduled .first) fun a =>
      ihr.andThen (Value.expectBool_unscheduled .second) fun b => .of_ok _
  | rel op l r ihl ihr =>
    exact ihl.andThen op.accept_unscheduled fun a =>
      ihr.andThen .of_ok fun b => op.compare_unscheduled a b
  | read e ih => exact ih.andThen Value.expectAddress_unscheduled fun a r told => told

namespace Symbols

variable (σ : Symbols)

theorem referenceOf_unscheduled (x : String) : Unscheduled (σ.referenceOf x) := by
  refine (σ.valueOf_unscheduled x).bind fun v => ?_
  cases v <;> simp [Unscheduled, Fault.notReference]

theorem checkReadTarget_unscheduled (x : String) : Unscheduled (σ.checkReadTarget x) := by
  refine (σ.valueOf_unscheduled x).bind fun v => ?_
  split <;> simp [Unscheduled, Fault.readTargetNotInt]

end Symbols

theorem Stmt.inquiry_unscheduled (σ : Symbols) (s : Stmt) : (s.inquiry σ).Unscheduled := by
  cases s with
  | assign x e => exact e.inquiry_unscheduled σ
  | ite g a b => exact g.inquiry_unscheduled σ
  | loop g b => exact g.inquiry_unscheduled σ
  | print e => exact e.inquiry_unscheduled σ
  | alloc x e =>
    have target := σ.referenceOf_unscheduled x
    cases reference : σ.referenceOf x with
    | ok r => simpa only [inquiry, reference] using e.inquiry_unscheduled σ
    | error err =>
      rw [reference] at target
      simp only [inquiry, reference]
      exact target.error
  | write x e =>
    have target := σ.referenceOf_unscheduled x
    cases reference : σ.referenceOf x with
    | ok r =>
      simp only [inquiry, reference]
      intro found told
      cases found with
      | ok old => exact e.inquiry_unscheduled σ
      | error err => exact told
    | error err =>
      rw [reference] at target
      simp only [inquiry, reference]
      exact target.error
  | openFile f => exact f.inquiry_unscheduled σ
  | readInt f x =>
    have target := σ.checkReadTarget_unscheduled x
    cases check : σ.checkReadTarget x with
    | ok r => simpa only [inquiry, check] using f.inquiry_unscheduled σ
    | error err =>
      rw [check] at target
      simp only [inquiry, check]
      exact target.error
  | closeFile f => exact f.inquiry_unscheduled σ
  | _ => exact .of_ok _

namespace Valuation

variable {ν : Valuation} (own : ∀ e, Unscheduled (ν e))
include own

theorem guard_unscheduled (construct : String) (guard : Expr) :
    Unscheduled (ν.guard construct guard) := by
  refine (own guard).bind fun v => ?_
  cases v <;> simp [Unscheduled, Value.bool?, Fault.guardNotBool]

theorem fileName_unscheduled (file : Expr) : Unscheduled (ν.fileName file) := by
  refine (own file).bind fun v => ?_
  cases v <;> simp [Unscheduled, Value.string?, Fault.fileNameNotString]

end Valuation

theorem Store.lineValue_unscheduled (file : String) (line : Option String) :
    Unscheduled (Store.lineValue file line) := by
  simp only [Store.lineValue]
  split
  · exact .of_ok 0
  · split <;> simp [Unscheduled, Fault.lineNotInt]

namespace OpenFiles

variable (disk : Disk) (t : OpenFiles) (name : String)

theorem openFile_unscheduled : Unscheduled (t.openFile disk name) := by
  simp only [openFile]
  split
  · simp [Unscheduled, Fault.alreadyOpen]
  · split <;> simp [Unscheduled]

theorem readLine_unscheduled : Unscheduled (t.readLine disk name).2 := by
  simp only [readLine]
  split
  · simp [Unscheduled, Fault.notOpen]
  · split
    · simp [Unscheduled]
    · exact .of_ok none
    · split <;> simp [Unscheduled]

theorem closeFile_unscheduled : Unscheduled (t.closeFile name) := by
  simp only [closeFile]
  split <;> simp [Unscheduled, Fault.notOpen]

end OpenFiles

section Steps

variable {ν : Valuation} (own : ∀ e, Unscheduled (ν e)) {disk : Disk}
include own

theorem Acts.ne_scheduling {σ σ' : Store} {s : Stmt} {e : Fault} (acts : Acts ν disk σ s σ' (some e))
    (detail : String) : e ≠ .scheduling detail := by
  cases acts with
  | declareAgain bound => simp [Fault.redeclared]
  | assignNoValue value => exact (own _).ne value detail
  | assignUnbound value unbound => simp
  | assignMistyped value bound type => simp [Fault.assignedType]
  | printNoValue value => exact (own _).ne value detail
  | allocNoTarget target => exact (Symbols.referenceOf_unscheduled _ _).ne target detail
  | allocNoValue bound value => exact (own _).ne value detail
  | allocMistyped bound value type => simp [Fault.cellType]
  | writeNoTarget target => exact (Symbols.referenceOf_unscheduled _ _).ne target detail
  | writeNoCell bound dead => simp
  | writeNoValue bound live value => exact (own _).ne value detail
  | writeMistyped bound live value type => simp [Fault.cellType]
  | openNoName named => exact (Valuation.fileName_unscheduled own _).ne named detail
  | openRefused named refused => exact (OpenFiles.openFile_unscheduled _ _ _).ne refused detail
  | readNoTarget target => exact (Symbols.checkReadTarget_unscheduled _ _).ne target detail
  | readNoName bound named => exact (Valuation.fileName_unscheduled own _).ne named detail
  | readRefused bound named refused =>
    exact (OpenFiles.readLine_unscheduled _ _ _).ne (congrArg Prod.snd refused) detail
  | readNoNumber bound named read number => exact (Store.lineValue_unscheduled _ _).ne number detail
  | closeNoName named => exact (Valuation.fileName_unscheduled own _).ne named detail
  | closeRefused named refused => exact (OpenFiles.closeFile_unscheduled _ _).ne refused detail

theorem Stmt.execBy_unscheduled (σ : Store) (s : Stmt) : Unscheduled (s.execBy ν disk σ).2 := by
  by_cases simple : s.elementary
  · obtain ⟨σ', o, acts, executed⟩ := s.execBy_acts ν disk σ simple
    rw [executed]
    cases o with
    | none => exact .of_ok _
    | some e =>
      intro detail failed
      exact acts.ne_scheduling own detail (by simpa [Effect.after] using failed)
  · cases s with
    | seq a b => exact .of_ok _
    | ite g a b => exact (Valuation.guard_unscheduled own "if" g).bind fun c => .of_ok _
    | loop g b => exact (Valuation.guard_unscheduled own "while" g).bind fun c => .of_ok _
    | fork b => exact .of_ok _
    | _ => simp [elementary] at simple

/-- A thread that can be stepped does not make the scheduler fail. -/
theorem Thread.stepBy_unscheduled {t : Thread} (active : t.isActive) (h : Heap) :
    Unscheduled (t.stepBy ν disk h).result := by
  obtain ⟨running, busy⟩ := status_and_stack_of_isActive active
  obtain ⟨s, rest, top⟩ := List.exists_cons_of_ne_nil busy
  have fine : Unscheduled (s.execBy ν disk (t.store h)).2 := s.execBy_unscheduled own (t.store h)
  simp only [stepBy, running, top]
  rcases executed : s.execBy ν disk (t.store h) with ⟨σ, e | effect⟩
  · rw [executed] at fine
    intro detail failed
    cases failed
    exact fine detail rfl
  · exact .of_ok _

theorem World.stepBy_unscheduled (w : World) {t : Thread} (active : t.isActive) :
    Unscheduled (w.stepBy ν disk t).2.2 := by
  have fine : Unscheduled (t.stepBy ν disk (w.heap t.heap)).result :=
    Thread.stepBy_unscheduled own active (w.heap t.heap)
  rw [stepBy_snd]
  exact fine.bind fun spawn => .of_ok _

end Steps

theorem Thread.inquiry_unscheduled (t : Thread) : t.inquiry.Unscheduled := by
  simp only [inquiry]
  split
  next s rest _ _ => exact s.inquiry_unscheduled t.symbols
  · exact .of_ok _

/-- The thread, which can be stepped, has nothing to report to the scheduler so far, nor at the end of its
step. -/
inductive Job.Unscheduled (t : Thread) : Job → Prop where
  | reading {q : Inquiry} (active : t.isActive) (own : q.Unscheduled) : Unscheduled t (.reading t q)
  | ended {outcome : Thread × Except Fault (Option Thread)} (own : Lockstep.Unscheduled outcome.2) :
    Unscheduled t (.ended outcome)

theorem World.act_unscheduled (disk : Disk) (w : World) (t : Thread) (j : Job) (holds : j.Unscheduled t) :
    (w.act disk j).2.Unscheduled t := by
  cases holds with
  | ended own => exact .ended own
  | @reading q active own =>
    cases q with
    | look a next => exact .reading active (own _ (Heap.get_unscheduled _ a))
    | answer r => exact .ended (w.stepBy_unscheduled (fun _ => own) active)

/-- Among threads that can all be stepped, none makes the scheduler fail. -/
theorem World.unscheduled_of_mem_turns {disk : Disk} {order : List Nat} {w : World}
    {threads : List Thread} (active : ∀ t ∈ threads, t.isActive) {u : Turn}
    (member : u ∈ w.turns disk order threads) : Unscheduled u.outcome.2 := by
  obtain ⟨i, found⟩ := List.mem_iff_getElem?.mp member
  rw [turns, List.getElem?_zipWith_eq_some] at found
  obtain ⟨t, r, -, outcome, rfl⟩ := found
  have start (t : Thread) (listed : t ∈ threads) : Job.Unscheduled t (.reading t t.inquiry) :=
    .reading (active t listed) t.inquiry_unscheduled
  obtain ⟨_, _, ended⟩ := stepTogether_each start (act_unscheduled disk) order outcome
  cases ended with
  | ended own => exact own

/-! ### Runs -/

namespace Scheduler

variable {s : Scheduler} (course : Nat → Course)

theorem unscheduled_of_turn {k : Nat} {u : Turn} (turn : u ∈ s.turns course k) :
    Unscheduled u.outcome.2 :=
  World.unscheduled_of_mem_turns (fun _ listed => (List.mem_filter.mp listed).2) turn

namespace Loaded

variable (loaded : s.Loaded)
include loaded

/-- A retired thread is as its last turn left it. -/
theorem last_turn {n : Nat} {t : Thread} (retired : t ∈ (s.after course n).pool.retired) :
    ∃ k < n, ∃ u ∈ s.turns course k, u.settled = t ∧ t.isActive = false ∧
      t ∈ (s.after course (k + 1)).pool.retired := by
  induction n with
  | zero =>
    rw [after_zero, loaded.retired] at retired
    exact absurd retired List.not_mem_nil
  | succ n ih =>
    have grown := retired
    rw [loaded.retired_succ course n] at retired
    rcases List.mem_append.mp retired with before | left
    · obtain ⟨k, less, found⟩ := ih before
      exact ⟨k, Nat.lt_succ_of_lt less, found⟩
    · obtain ⟨listed, ended⟩ := List.mem_filter.mp left
      have ended : t.isActive = false := by simpa using ended
      rcases List.mem_append.mp listed with settled | started
      · obtain ⟨u, turn, rfl⟩ := List.mem_map.mp settled
        exact ⟨n, Nat.lt_succ_self n, u, turn, rfl, ended, grown⟩
      · -- a thread that has just been started does not leave
        obtain ⟨u, turn, child⟩ := List.mem_filterMap.mp started
        have goesOn := (s.proper_of_mem_turns course turn).isActive_child child
        rw [ended] at goesOn
        cases goesOn

/-- A retired thread has no turn any more. -/
theorem no_turn_of_retired {k : Nat} {t : Thread} (retired : t ∈ (s.after course k).pool.retired)
    {u : Turn} (turn : u ∈ s.turns course k) : u.thread.id ≠ t.id := by
  intro same
  have active := List.mem_map_of_mem (f := Thread.id) (loaded.thread_mem_active course turn)
  exact (loaded.tidy_after course k).not_active_of_retired retired (same ▸ active)

end Loaded

/-- Threads end properly. After any number of rounds of a scheduler that was given threads which had just
been started, in whatever order the threads get on, every active thread is running and has a statement to run.
Every retired thread has completed and has nothing left to run, or has failed in its last turn with the
failure that it carries, which is none of the scheduler; none is running. Only threads that can be stepped are
given a turn. A round that has its workers, or gets them when it asks, does not fail, and answers whether a
thread is still active. -/
theorem threads_end_properly (s : Scheduler) (loaded : s.Loaded) (course : Nat → Course) (n : Nat) :
    (∀ t ∈ (s.after course n).pool.active, t.status = .running ∧ t.stack ≠ []) ∧
    (∀ t ∈ (s.after course n).pool.retired, t.status ≠ .running ∧
      ((t.status = .completed ∧ t.stack = []) ∨
        ∃ e, t.status = .failed e ∧ (∀ detail, e ≠ .scheduling detail) ∧
          ∃ k < n, ∃ u ∈ s.turns course k, u.thread.id = t.id ∧ u.settled = t ∧
            u.outcome.2 = .error e ∧
            ∀ k' > k, ∀ u' ∈ s.turns course k', u'.thread.id ≠ t.id)) ∧
    (∀ u ∈ s.turns course n, u.thread.isActive) ∧
    ∀ (c : Course) (answer : Except String Unit) (staffed : Bool), staffed ∨ answer = .ok () →
      let after := ((s.after course n).round c).1
      ({ scheduler := s.after course n, staffed } : Dispatcher).round answer c =
        ({ scheduler := after, staffed := true }, .ok (!after.pool.active.isEmpty)) := by
  have tidy := loaded.tidy_after course n
  refine ⟨fun t member => Thread.status_and_stack_of_isActive (tidy.active t member),
    fun t member => ?_, fun u turn => tidy.active _ (loaded.thread_mem_active course turn),
    fun c answer staffed manned => ?_⟩
  · obtain ⟨k, less, u, turn, rfl, ended, departed⟩ := loaded.last_turn course member
    have proper := s.proper_of_mem_turns course turn
    rcases proper.settled_cases with ⟨-, goesOn⟩ | ⟨-, completed⟩ | ⟨e, failure, failed⟩
    · rw [ended] at goesOn
      cases goesOn
    · exact ⟨by simp [completed.1], .inl completed⟩
    · have own := unscheduled_of_turn course turn
      refine ⟨by simp [failed], .inr ⟨e, failed, own.ne failure, k, less, u, turn,
        proper.id_settled.symm, rfl, failure, fun k' later u' turn' => ?_⟩⟩
      exact loaded.no_turn_of_retired course (loaded.retired_mono course later departed) turn'
  · rw [Dispatcher.round_eq manned, answer_round]

/-- Two threads that are listed in the order opposite to that of their numbers. One of them completes in the
first round, the other fails in the third. -/
theorem threads_end_properly_out_of_order :
    let first := ({} : World).launch (.print (.int 1))
    let second := first.1.launch (.seq .nop (.print (.var "x")))
    let s : Scheduler :=
      { pool := { world := second.1, active := [second.2, first.2] }, disk := .blank [] }
    let course := fun _ => Course.smooth ⟨2024, 1, 1, 0, 0, 0⟩ [1]
    s.Loaded ∧
    (s.after course 3).pool.retired.map (fun t => (t.id, t.status)) =
      [(1, .completed), (2, .failed (.undefinedVariable "x"))] ∧
    (∀ t ∈ (s.after course 3).pool.retired, t.status ≠ .running) ∧
    (({ scheduler := s } : Dispatcher).round (.ok ()) (course 0)).2 = .ok true := by
  intro first second s course
  have loaded : s.Loaded := by
    refine ⟨fun t member => ?_, by decide, fun t member => ?_, rfl⟩
    · rcases List.mem_pair.mp member with rfl | rfl <;> rfl
    · rcases List.mem_pair.mp member with rfl | rfl <;> decide
  obtain ⟨-, retired, -⟩ := threads_end_properly s loaded course 3
  obtain ⟨-, -, -, rounds⟩ := threads_end_properly s loaded course 0
  refine ⟨loaded, by decide +kernel, fun t member => (retired t member).1, ?_⟩
  have answered := congrArg Prod.snd (rounds (course 0) (.ok ()) false (.inr rfl))
  exact answered.trans (by decide +kernel)

end Scheduler

end Lockstep

import Lockstep.Proofs.Action
import Lockstep.Proofs.Round

/-!
The footprint of a step: the cells that it looks at, and the cell that it changes.

A step looks at the cells that its expressions read, as far as they are evaluated, and a write looks whether
its cell is live. It changes at most one cell: a write that succeeds replaces the value of a cell, and an
allocation that succeeds fills the next one. On another heap with the same values in the cells that a step
looks at, the step ends in the same way and makes the same change.
-/

namespace Lockstep

/-! ### Footprints -/

/-- The addresses that the evaluation of an expression looks up, in order. -/
def Expr.lookups (σ : Symbols) (h : Heap) : Expr → List Nat
  | const _ => []
  | var _ => []
  | arith _ l r => l.lookups σ h ++
    match l.eval σ h >>= Value.expectInt .first with
    | .ok _ => r.lookups σ h
    | .error _ => []
  | logic _ l r => l.lookups σ h ++
    match l.eval σ h >>= Value.expectBool .first with
    | .ok _ => r.lookups σ h
    | .error _ => []
  | rel op l r => l.lookups σ h ++
    match l.eval σ h >>= op.accept with
    | .ok _ => r.lookups σ h
    | .error _ => []
  | read e => e.lookups σ h ++
    match e.eval σ h >>= Value.expectAddress with
    | .ok a => [a]
    | .error _ => []

/-- A change of a heap: none, another value for a live cell, or a new cell at the given address, which is
the next one at the time. -/
inductive Change where
  | keep
  | store (a : Nat) (v : Value)
  | fresh (a : Nat) (v : Value)
deriving DecidableEq

namespace Change

def apply (h : Heap) : Change → Heap
  | keep => h
  | store a v => { h with cells := h.cells.insert a v }
  | fresh a v => { cells := h.cells.insert a v, next := a + 1 }

/-- The address of the cell that is changed. -/
def address? : Change → Option Nat
  | keep => none
  | store a _ => some a
  | fresh a _ => some a

/-- Whether a new cell is made. -/
def isFresh : Change → Bool
  | fresh _ _ => true
  | _ => false

end Change

namespace Store

variable (σ : Store)

def lookups (e : Expr) : List Nat :=
  e.lookups σ.symbols σ.heap

/-- The value for a new cell. -/
def allocRequest (ν : Valuation) (x : String) (e : Expr) : Except Fault Value := do
  let (_, t) ← σ.referenceOf x
  ν.fitting "new" x t e

/-- The address of the cell that a write is to change, and its new value. -/
def writeRequest (ν : Valuation) (x : String) (e : Expr) : Except Fault (Nat × Value) := do
  let (a, t) ← σ.referenceOf x
  let _ ← σ.heap.get a
  return (a, ← ν.fitting "wH" x t e)

end Store

namespace Stmt

/-- The addresses that the execution of a statement looks up. -/
def reads (σ : Store) : Stmt → List Nat
  | assign _ e => σ.lookups e
  | ite g _ _ => σ.lookups g
  | loop g _ => σ.lookups g
  | print e => σ.lookups e
  | alloc x e => if (σ.referenceOf x).isOk then σ.lookups e else []
  | write x e =>
    match σ.referenceOf x with
    | .ok (a, _) => a :: if a ∈ σ.heap.cells then σ.lookups e else []
    | .error _ => []
  | openFile f => σ.lookups f
  | readInt f x => if (σ.checkReadTarget x).isOk then σ.lookups f else []
  | closeFile f => σ.lookups f
  | _ => []

/-- The change that a statement whose expression has the given value makes to the heap. -/
def changeBy (ν : Valuation) (σ : Store) : Stmt → Change
  | alloc x e =>
    match σ.allocRequest ν x e with
    | .ok v => .fresh σ.heap.next v
    | .error _ => .keep
  | write x e =>
    match σ.writeRequest ν x e with
    | .ok (a, v) => .store a v
    | .error _ => .keep
  | _ => .keep

/-- The change that a statement makes to the heap by itself. -/
def change (σ : Store) (s : Stmt) : Change :=
  s.changeBy σ.eval σ

end Stmt

namespace Thread

variable (t : Thread) (h : Heap)

/-- The addresses that the next step of a thread looks up. -/
def reads : List Nat :=
  match t.status, t.stack with
  | .running, s :: _ => s.reads (t.store h)
  | _, _ => []

/-- The change that the next step of a thread makes to the heap, with the given value for its expression. -/
def changeBy (ν : Valuation) : Change :=
  match t.status, t.stack with
  | .running, s :: _ => s.changeBy ν (t.store h)
  | _, _ => .keep

/-- The change that the next step of a thread makes to the heap if nobody interrupts it. -/
def change : Change :=
  t.changeBy h (t.store h).eval

/-- The addresses that the next step of a thread writes to. -/
def writes : List Nat :=
  (t.change h).address?.toList

end Thread

/-! ### Steps on another heap -/

/-- The heaps have the same at the listed addresses. -/
def Heap.SameAt (h : Heap) (as : List Nat) (k : Heap) : Prop :=
  ∀ a ∈ as, k.cells[a]? = h.cells[a]?

section Evaluation

variable {h k : Heap}

theorem Heap.sameAt_append {as bs : List Nat} :
    h.SameAt (as ++ bs) k ↔ h.SameAt as k ∧ h.SameAt bs k := by
  simp only [SameAt, List.mem_append, or_imp, forall_and]

theorem Expr.eval_of_sameAt {σ : Symbols} {e : Expr} (same : h.SameAt (e.lookups σ h) k) :
    e.eval σ k = e.eval σ h := by
  induction e with
  | const v => rfl
  | var x => rfl
  | arith op l r ihl ihr =>
    obtain ⟨left, right⟩ := Heap.sameAt_append.mp same
    simp only [eval, ihl left]
    -- the right operand counts only if the left one is an integer
    cases first : l.eval σ h with
    | error err => rfl
    | ok v =>
      cases typed : v.expectInt .first with
      | error err => simp only [Fault.ok_bind, typed, Fault.error_bind]
      | ok a =>
        simp only [first, Fault.ok_bind, typed] at right ⊢
        rw [ihr right]
  | logic op l r ihl ihr =>
    obtain ⟨left, right⟩ := Heap.sameAt_append.mp same
    simp only [eval, ihl left]
    cases first : l.eval σ h with
    | error err => rfl
    | ok v =>
      cases typed : v.expectBool .first with
      | error err => simp only [Fault.ok_bind, typed, Fault.error_bind]
      | ok a =>
        simp only [first, Fault.ok_bind, typed] at right ⊢
        rw [ihr right]
  | rel op l r ihl ihr =>
    obtain ⟨left, right⟩ := Heap.sameAt_append.mp same
    simp only [eval, ihl left]
    cases first : l.eval σ h with
    | error err => rfl
    | ok v =>
      cases accepted : op.accept v with
      | error err => simp only [Fault.ok_bind, accepted, Fault.error_bind]
      | ok a =>
        simp only [first, Fault.ok_bind, accepted] at right ⊢
        rw [ihr right]
  | read e ih =>
    obtain ⟨operand, cell⟩ := Heap.sameAt_append.mp same
    simp only [eval, ih operand]
    cases value : e.eval σ h with
    | error err => rfl
    | ok v =>
      cases address : v.expectAddress with
      | error err => simp only [Fault.ok_bind, address, Fault.error_bind]
      | ok a =>
        simp only [value, Fault.ok_bind, address] at cell ⊢
        simp only [Heap.get, cell a (List.mem_singleton_self a)]

end Evaluation

section Execution

variable {σ : Store} {k : Heap} {e : Expr} (same : σ.heap.SameAt (σ.lookups e) k)
include same

theorem Store.eval_on_heap {r : Except Fault Value} (value : σ.eval e = r) :
    { σ with heap := k }.eval e = r :=
  (Expr.eval_of_sameAt same).trans value

theorem Store.evalFileName_on_heap {r : Except Fault String} (named : σ.evalFileName e = r) :
    { σ with heap := k }.evalFileName e = r := by
  rw [← named]
  simp only [evalFileName, Valuation.fileName, eval_on_heap same rfl]

theorem Store.evalGuard_on_heap (construct : String) :
    { σ with heap := k }.evalGuard construct e = σ.evalGuard construct e := by
  simp only [evalGuard, Valuation.guard, eval_on_heap same rfl]

end Execution

theorem Heap.SameAt.mem {h k : Heap} {as : List Nat} {a : Nat} (same : h.SameAt as k)
    (listed : a ∈ as) : a ∈ k.cells ↔ a ∈ h.cells := by
  rw [mem_cells_iff, mem_cells_iff, same a listed]

namespace Stmt

variable {σ : Store} {x : String} {e f : Expr} {a : Nat} {t : Ty}

theorem reads_alloc (bound : σ.symbols[x]? = some (.ref a t)) :
    (alloc x e).reads σ = σ.lookups e := by
  simp [reads, Store.referenceOf_eq_ok_iff.mpr bound, Except.isOk, Except.toBool]

theorem reads_write (bound : σ.symbols[x]? = some (.ref a t)) :
    (write x e).reads σ = a :: if a ∈ σ.heap.cells then σ.lookups e else [] := by
  simp [reads, Store.referenceOf_eq_ok_iff.mpr bound]

theorem reads_readInt {n : Int64} (bound : σ.symbols[x]? = some (.int n)) :
    (readInt f x).reads σ = σ.lookups f := by
  simp [reads, Store.checkReadTarget_eq_ok_iff.mpr ⟨n, bound⟩, Except.isOk, Except.toBool]

/-- A write to a live cell looks at the cell and at what its value takes. -/
theorem sameAt_write {k : Heap} (bound : σ.symbols[x]? = some (.ref a t)) (live : a ∈ σ.heap.cells)
    (same : σ.heap.SameAt ((write x e).reads σ) k) :
    a ∈ k.cells ∧ σ.heap.SameAt (σ.lookups e) k := by
  rw [reads_write bound, if_pos live] at same
  refine ⟨(same.mem List.mem_cons_self).mpr live, fun b listed => ?_⟩
  exact same b (List.mem_cons_of_mem a listed)

variable {ν : Valuation}

theorem changeBy_alloc (bound : σ.symbols[x]? = some (.ref a t)) :
    (alloc x e).changeBy ν σ =
      match ν.fitting "new" x t e with
      | .ok v => .fresh σ.heap.next v
      | .error _ => .keep := by
  simp [changeBy, Store.allocRequest, Store.referenceOf_eq_ok_iff.mpr bound]

theorem changeBy_write (bound : σ.symbols[x]? = some (.ref a t)) (live : a ∈ σ.heap.cells) :
    (write x e).changeBy ν σ =
      match ν.fitting "wH" x t e with
      | .ok v => .store a v
      | .error _ => .keep := by
  obtain ⟨old, cell⟩ := Heap.get_of_mem live
  cases value : ν.fitting "wH" x t e with
  | error err => simp [changeBy, Store.writeRequest, Store.referenceOf_eq_ok_iff.mpr bound, cell, value]
  | ok v => simp [changeBy, Store.writeRequest, Store.referenceOf_eq_ok_iff.mpr bound, cell, value]

end Stmt

namespace Acts

variable {ν : Valuation} {disk : Disk} {σ σ' : Store} {s : Stmt} {k : Heap}

/-- A statement that fails makes no change. -/
theorem changeBy_of_failure {e : Fault} (acts : Acts ν disk σ s σ' (some e)) : s.changeBy ν σ = .keep := by
  cases acts with
  | allocNoTarget target => simp [Stmt.changeBy, Store.allocRequest, target]
  | allocNoValue bound value => rw [Stmt.changeBy_alloc bound, Valuation.fitting_of_error value]
  | allocMistyped bound value type => rw [Stmt.changeBy_alloc bound, Valuation.fitting_of_ne value type]
  | writeNoTarget target => simp [Stmt.changeBy, Store.writeRequest, target]
  | writeNoCell bound dead =>
    simp [Stmt.changeBy, Store.writeRequest, Store.referenceOf_eq_ok_iff.mpr bound,
      Heap.get_of_not_mem dead]
  | writeNoValue bound live value =>
    rw [Stmt.changeBy_write bound live, Valuation.fitting_of_error value]
  | writeMistyped bound live value type =>
    rw [Stmt.changeBy_write bound live, Valuation.fitting_of_ne value type]
  | _ => rfl

/-- What a statement does to the heap is its change. -/
theorem heap_eq {o : Option Fault} (acts : Acts ν disk σ s σ' o) :
    σ'.heap = (s.changeBy ν σ).apply σ.heap := by
  cases o with
  | some e =>
    rw [acts.changeBy_of_failure]
    cases acts <;> rfl
  | none =>
    cases acts with
    | alloc bound value =>
      rw [Stmt.changeBy_alloc bound, Valuation.fitting_of_ty value]
      rfl
    | write bound live value =>
      rw [Stmt.changeBy_write bound live, Valuation.fitting_of_ty value]
      rfl
    | _ => rfl

/-- A statement that fails does so on every heap that has the same where the statement looks. -/
theorem failure_on_heap {e : Fault} (acts : Acts σ.eval disk σ s σ' (some e))
    (same : σ.heap.SameAt (s.reads σ) k) :
    Acts { σ with heap := k }.eval disk { σ with heap := k } s { σ' with heap := k } (some e) := by
  cases acts with
  | declareAgain bound => exact .declareAgain bound
  | assignNoValue value => exact .assignNoValue (Store.eval_on_heap same value)
  | assignUnbound value unbound => exact .assignUnbound (Store.eval_on_heap same value) unbound
  | assignMistyped value bound type =>
    exact .assignMistyped (Store.eval_on_heap same value) bound type
  | printNoValue value => exact .printNoValue (Store.eval_on_heap same value)
  | allocNoTarget target => exact .allocNoTarget target
  | allocNoValue bound value =>
    rw [Stmt.reads_alloc bound] at same
    exact .allocNoValue bound (Store.eval_on_heap same value)
  | allocMistyped bound value type =>
    rw [Stmt.reads_alloc bound] at same
    exact .allocMistyped bound (Store.eval_on_heap same value) type
  | writeNoTarget target => exact .writeNoTarget target
  | writeNoCell bound dead =>
    -- the cell is looked for, so it is missing in both heaps
    rw [Stmt.reads_write bound] at same
    exact .writeNoCell bound (by rwa [same.mem List.mem_cons_self])
  | writeNoValue bound live value =>
    obtain ⟨live', same⟩ := Stmt.sameAt_write bound live same
    exact .writeNoValue bound live' (Store.eval_on_heap same value)
  | writeMistyped bound live value type =>
    obtain ⟨live', same⟩ := Stmt.sameAt_write bound live same
    exact .writeMistyped bound live' (Store.eval_on_heap same value) type
  | openNoName named => exact .openNoName (Store.evalFileName_on_heap same named)
  | openRefused named refused => exact .openRefused (Store.evalFileName_on_heap same named) refused
  | readNoTarget target => exact .readNoTarget target
  | readNoName bound named =>
    rw [Stmt.reads_readInt bound] at same
    exact .readNoName bound (Store.evalFileName_on_heap same named)
  | readRefused bound named refused =>
    rw [Stmt.reads_readInt bound] at same
    exact .readRefused bound (Store.evalFileName_on_heap same named) refused
  | readNoNumber bound named read number =>
    rw [Stmt.reads_readInt bound] at same
    exact .readNoNumber bound (Store.evalFileName_on_heap same named) read number
  | closeNoName named => exact .closeNoName (Store.evalFileName_on_heap same named)
  | closeRefused named refused => exact .closeRefused (Store.evalFileName_on_heap same named) refused

/-- A statement that succeeds makes the same change to every heap that has the same where the statement
looks, and for an allocation the same next address. -/
theorem success_on_heap (acts : Acts σ.eval disk σ s σ' none) (same : σ.heap.SameAt (s.reads σ) k)
    (next : (s.change σ).isFresh → k.next = σ.heap.next) :
    Acts { σ with heap := k }.eval disk { σ with heap := k } s
      { σ' with heap := (s.change σ).apply k } none := by
  rw [Stmt.change] at next ⊢
  cases acts with
  | nop => exact .nop
  | declare fresh => exact .declare fresh
  | assign value bound type => exact .assign (Store.eval_on_heap same value) bound type
  | print value => exact .print (Store.eval_on_heap same value)
  | @alloc x e a v bound value =>
    rw [Stmt.reads_alloc bound] at same
    rw [Stmt.changeBy_alloc bound, Valuation.fitting_of_ty value] at next ⊢
    -- both heaps hand out the same address
    have address : k.next = σ.heap.next := next rfl
    have action : Acts _ disk { σ with heap := k } (.alloc x e) _ none :=
      .alloc bound (Store.eval_on_heap same value)
    simpa only [Change.apply, Heap.allocate, address] using action
  | write bound live value =>
    obtain ⟨live', same⟩ := Stmt.sameAt_write bound live same
    rw [Stmt.changeBy_write bound live, Valuation.fitting_of_ty value]
    exact .write bound live' (Store.eval_on_heap same value)
  | openFile named opened => exact .openFile (Store.evalFileName_on_heap same named) opened
  | readInt bound named read number =>
    rw [Stmt.reads_readInt bound] at same
    exact .readInt bound (Store.evalFileName_on_heap same named) read number
  | closeFile named closed => exact .closeFile (Store.evalFileName_on_heap same named) closed

end Acts

/-- What a statement does to the heap is its change. -/
theorem Stmt.heap_execBy (ν : Valuation) (disk : Disk) (σ : Store) (s : Stmt) :
    (s.execBy ν disk σ).1.heap = (s.changeBy ν σ).apply σ.heap := by
  by_cases simple : s.elementary
  · obtain ⟨σ', o, acts, executed⟩ := s.execBy_acts ν disk σ simple
    rw [executed]
    exact acts.heap_eq
  · -- control statements leave the heap alone
    rw [execBy_fst_of_not_elementary ν disk σ simple]
    cases s with
    | alloc x e => simp [elementary] at simple
    | write x e => simp [elementary] at simple
    | _ => rfl

/-- What a statement does depends on the heap only where the statement looks. -/
theorem Stmt.exec_on_heap (disk : Disk) {σ : Store} (s : Stmt) {k : Heap}
    (same : σ.heap.SameAt (s.reads σ) k) (next : (s.change σ).isFresh → k.next = σ.heap.next) :
    s.exec disk { σ with heap := k } =
      ({ (s.exec disk σ).1 with heap := (s.change σ).apply k }, (s.exec disk σ).2) := by
  by_cases simple : s.elementary
  · obtain ⟨σ', o, acts, executed⟩ := s.exec_acts disk σ simple
    rw [executed]
    cases o with
    | none => exact (acts.success_on_heap same next).exec_eq
    | some e =>
      rw [change, acts.changeBy_of_failure]
      exact (acts.failure_on_heap same).exec_eq
  · -- control statements leave the heap alone and look at their guard only
    cases s with
    | seq a b => rfl
    | ite g a b =>
      simp only [exec_ite, Store.evalGuard_on_heap same]
      rfl
    | loop g b =>
      simp only [exec_loop, Store.evalGuard_on_heap same]
      rfl
    | fork b => rfl
    | _ => simp [elementary] at simple

/-- What a step does to the heap is its change. -/
theorem Thread.heap_stepBy (ν : Valuation) (disk : Disk) (t : Thread) (h : Heap) :
    (t.stepBy ν disk h).heap = (t.changeBy h ν).apply h := by
  cases running : t.status with
  | completed => simp only [stepBy, changeBy, running, Change.apply]
  | failed e => simp only [stepBy, changeBy, running, Change.apply]
  | running =>
    cases top : t.stack with
    | nil => simp only [stepBy, changeBy, running, top, Change.apply]
    | cons s rest =>
      have heap : _ = (s.changeBy ν (t.store h)).apply h := s.heap_execBy ν disk (t.store h)
      simp only [stepBy, changeBy, running, top, ← heap]
      rcases s.execBy ν disk (t.store h) with ⟨σ, e | effect⟩ <;> rfl

/-- What a step does depends on the heap only where the step looks, and changes it in one place at most. -/
theorem Thread.step_on_heap (disk : Disk) {t : Thread} {h k : Heap} (same : h.SameAt (t.reads h) k)
    (next : (t.change h).isFresh → k.next = h.next) :
    t.step disk k = { t.step disk h with heap := (t.change h).apply k } := by
  cases running : t.status with
  | completed => simp [step_eq, change, changeBy, running, Change.apply]
  | failed e => simp [step_eq, change, changeBy, running, Change.apply]
  | running =>
    cases top : t.stack with
    | nil => simp [step_eq, change, changeBy, running, top, Change.apply]
    | cons s rest =>
      simp only [reads, change, changeBy, running, top] at same next
      -- the rest of the step is made from the outcome of the statement
      have executed : s.exec disk (t.store k) =
          ({ (s.exec disk (t.store h)).1 with heap := (s.change (t.store h)).apply k },
            (s.exec disk (t.store h)).2) :=
        s.exec_on_heap disk same next
      simp only [step_eq, change, changeBy, running, top, executed]
      rcases s.exec disk (t.store h) with ⟨σ, e | effect⟩ <;> rfl

end Lockstep

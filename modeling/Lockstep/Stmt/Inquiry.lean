import Lockstep.Stmt.Exec

/-!
Execution that others can interrupt.

Threads share their heap, and every look at a cell is an operation of its own: between two of them another
thread may have changed the heap. What a statement has to find out before it acts is an inquiry, which asks
for one cell after another and goes on with what it is told. Only then does the statement act, in one
operation. If nobody interrupts, an inquiry comes to the value that the statement has in its store.

A write looks for its cell before it evaluates anything, and again when it acts; cells do not vanish while
threads are stepped.
-/

namespace Lockstep

/-- What is still to be found out: nothing any more, or what is in the cell at `a`, to go on with what is
found there. -/
inductive Inquiry where
  | answer (r : Except Fault Value)
  | look (a : Nat) (next : Except Fault Value → Inquiry)

namespace Inquiry

/-- The outcome of an inquiry that nobody interrupts. -/
def on (h : Heap) : Inquiry → Except Fault Value
  | answer r => r
  | look a next => (next (h.get a)).on h

/-- An inquiry that goes on with another one. -/
def bind : Inquiry → (Except Fault Value → Inquiry) → Inquiry
  | answer r, rest => rest r
  | look a next, rest => look a fun r => (next r).bind rest

/-- Goes on with what a check makes of the outcome, unless there is none or the check fails. -/
def andThen {α : Type} (q : Inquiry) (check : Value → Except Fault α) (rest : α → Inquiry) : Inquiry :=
  q.bind fun r =>
    match r >>= check with
    | .ok a => rest a
    | .error e => answer (.error e)

@[simp] theorem on_answer (h : Heap) (r : Except Fault Value) : (answer r).on h = r := rfl

@[simp] theorem on_look (h : Heap) (a : Nat) (next : Except Fault Value → Inquiry) :
    (look a next).on h = (next (h.get a)).on h := rfl

@[simp] theorem on_bind (h : Heap) (q : Inquiry) (rest : Except Fault Value → Inquiry) :
    (q.bind rest).on h = (rest (q.on h)).on h := by
  induction q with
  | answer r => rfl
  | look a next ih => exact ih (h.get a)

theorem on_andThen {α : Type} (h : Heap) (q : Inquiry) (check : Value → Except Fault α)
    (rest : α → Inquiry) : (q.andThen check rest).on h = q.on h >>= check >>= fun a => (rest a).on h := by
  rw [andThen, on_bind]
  cases q.on h >>= check <;> rfl

end Inquiry

/-- What has to be found out for the value of an expression. -/
def Expr.inquiry (σ : Symbols) : Expr → Inquiry
  | const v => .answer (.ok v)
  | var x => .answer (σ.valueOf x)
  | arith op l r =>
    (l.inquiry σ).andThen (·.expectInt .first) fun a =>
      (r.inquiry σ).andThen (·.expectInt .second) fun b => .answer (arithmetic op l r a b)
  | logic op l r =>
    (l.inquiry σ).andThen (·.expectBool .first) fun a =>
      (r.inquiry σ).andThen (·.expectBool .second) fun b => .answer (.ok (.bool (op.apply a b)))
  | rel op l r =>
    (l.inquiry σ).andThen op.accept fun a =>
      (r.inquiry σ).andThen .ok fun b => .answer (op.compare a b)
  | read e => (e.inquiry σ).andThen (·.expectAddress) fun a => .look a .answer

/-- An expression that is evaluated without interruption has the value that it has in the heap. -/
theorem Expr.on_inquiry (σ : Symbols) (h : Heap) (e : Expr) : (e.inquiry σ).on h = e.eval σ h := by
  induction e with
  | const v => rfl
  | var x => rfl
  | arith op l r ihl ihr =>
    simp only [inquiry, Inquiry.on_andThen, Inquiry.on_answer, ihl, ihr, eval, bind_assoc]
  | logic op l r ihl ihr =>
    simp only [inquiry, Inquiry.on_andThen, Inquiry.on_answer, ihl, ihr, eval, bind_assoc]
    rfl
  | rel op l r ihl ihr =>
    have unchecked (r : Except Fault Value) : (r >>= Except.ok) = r := bind_pure r
    simp only [inquiry, Inquiry.on_andThen, Inquiry.on_answer, ihl, ihr, eval, bind_assoc, unchecked]
  | read e ih =>
    simp only [inquiry, Inquiry.on_andThen, Inquiry.on_answer, Inquiry.on_look, ih, eval, bind_assoc]

namespace Stmt

/-- What a statement finds out before it acts. The variable that an allocation, a write or a read is for is
checked first. -/
def inquiry (σ : Symbols) : Stmt → Inquiry
  | assign _ e => e.inquiry σ
  | ite g _ _ => g.inquiry σ
  | loop g _ => g.inquiry σ
  | print e => e.inquiry σ
  | alloc x e =>
    match σ.referenceOf x with
    | .ok _ => e.inquiry σ
    | .error err => .answer (.error err)
  | write x e =>
    match σ.referenceOf x with
    | .ok (a, _) => .look a fun
      | .ok _ => e.inquiry σ
      | .error err => .answer (.error err)
    | .error err => .answer (.error err)
  | openFile f => f.inquiry σ
  | readInt f x =>
    match σ.checkReadTarget x with
    | .ok _ => f.inquiry σ
    | .error err => .answer (.error err)
  | closeFile f => f.inquiry σ
  | _ => .answer (.ok (.bool true))

/-- A statement that nobody interrupts acts as it does by itself. -/
theorem execBy_inquiry (disk : Disk) (σ : Store) (s : Stmt) :
    s.execBy (fun _ => (s.inquiry σ.symbols).on σ.heap) disk σ = s.exec disk σ := by
  have value (e : Expr) : (e.inquiry σ.symbols).on σ.heap = σ.eval e := e.on_inquiry σ.symbols σ.heap
  cases s with
  | alloc x e =>
    cases target : σ.symbols.referenceOf x with
    | error err => simp only [exec, execBy, Store.alloc, Store.referenceOf, target]; rfl
    | ok r => simp only [inquiry, target, value]; rfl
  | write x e =>
    cases target : σ.symbols.referenceOf x with
    | error err => simp only [exec, execBy, Store.write, Store.referenceOf, target]; rfl
    | ok r =>
      -- the cell is looked for in the inquiry and by the write itself
      cases cell : σ.heap.get r.1 with
      | error err =>
        simp only [exec, execBy, Store.write, Store.referenceOf, target]
        change σ.update (σ.heap.get r.1 >>= _) = σ.update (σ.heap.get r.1 >>= _)
        rw [cell]
        rfl
      | ok old => simp only [inquiry, target, Inquiry.on_look, cell, value]; rfl
  | readInt f x =>
    cases target : σ.symbols.checkReadTarget x with
    | error err => simp only [exec, execBy, Store.readInt, Store.checkReadTarget, target]; rfl
    | ok r => simp only [inquiry, target, value]; rfl
  | assign x e => simp only [inquiry, value]; rfl
  | ite g a b => simp only [inquiry, value]; rfl
  | loop g b => simp only [inquiry, value]; rfl
  | print e => simp only [inquiry, value]; rfl
  | openFile f => simp only [inquiry, value]; rfl
  | closeFile f => simp only [inquiry, value]; rfl
  | _ => rfl

end Stmt

end Lockstep

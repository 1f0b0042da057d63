import Lockstep.Expr.Eval
import Lockstep.OpenFiles
import Lockstep.Stmt.Basic

/-!
Execution of a single statement.

A statement acts on a store. What it leaves to be done is returned and not done at once: a compound
statement, a conditional and a loop yield the statements to run next, a fork yields the thread to
start. A statement that fails leaves the store as it was, but for one case: reading a file may have
consumed a line.

The value of the expression in a statement is found before the statement acts. A thread that shares its
heap may find it while others change the heap, so the values are a parameter of execution; a statement
that is executed by itself takes them from its store.
-/

namespace Lockstep

/-- What a thread can see and change: its variables, the cells it shares, the values it has printed
and its open files. -/
structure Store where
  symbols : Symbols := ∅
  heap : Heap := {}
  output : List Value := []
  files : OpenFiles := ∅

/-- A thread to start: what it runs and the variables that it starts with. -/
structure Spawn where
  body : Stmt
  symbols : Symbols

/-- What a statement leaves to be done: statements to run before all others, the first one first, and
perhaps a thread to start. -/
structure Effect where
  push : List Stmt := []
  spawn : Option Spawn := none

/-- What expressions come to: a value for each, or why it has none. -/
abbrev Valuation := Expr → Except Fault Value

namespace Valuation

/-- The truth value of the guard of a construct. -/
def guard (ν : Valuation) (construct : String) (g : Expr) : Except Fault Bool := do
  match (← ν g).bool? with
  | some b => .ok b
  | none => .error (.guardNotBool construct g.text)

/-- The file name that an expression denotes. -/
def fileName (ν : Valuation) (file : Expr) : Except Fault String := do
  match (← ν file).string? with
  | some name => .ok name
  | none => .error (.fileNameNotString file.text)

/-- The value of an expression that must fit a cell of the given type. -/
def fitting (ν : Valuation) (construct x : String) (t : Ty) (e : Expr) : Except Fault Value := do
  let v ← ν e
  if v.ty = t then .ok v else .error (.cellType construct x t v.ty)

end Valuation

namespace Symbols

/-- The address and the cell type of a variable that must hold a reference. -/
def referenceOf (σ : Symbols) (x : String) : Except Fault (Nat × Ty) := do
  match ← σ.valueOf x with
  | .ref a t => .ok (a, t)
  | other => .error (.notReference x other.ty)

/-- Checks that a variable can take an integer. -/
def checkReadTarget (σ : Symbols) (x : String) : Except Fault Unit := do
  if (← σ.valueOf x).ty = .int then .ok () else .error (.readTargetNotInt x)

end Symbols

namespace Store

/-- The value of an expression in the store. -/
def eval (σ : Store) : Valuation :=
  fun e => e.eval σ.symbols σ.heap

/-- The truth value of the guard of a construct. -/
def evalGuard (σ : Store) (construct : String) (guard : Expr) : Except Fault Bool :=
  σ.eval.guard construct guard

/-- The file name that an expression denotes. -/
def evalFileName (σ : Store) (file : Expr) : Except Fault String :=
  σ.eval.fileName file

/-- The value of an expression that must fit a cell of the given type. -/
def evalFor (σ : Store) (construct x : String) (t : Ty) (e : Expr) : Except Fault Value :=
  σ.eval.fitting construct x t e

/-- The address and the cell type of a variable that must hold a reference. -/
def referenceOf (σ : Store) (x : String) : Except Fault (Nat × Ty) :=
  σ.symbols.referenceOf x

/-- Checks that a variable can take an integer. -/
def checkReadTarget (σ : Store) (x : String) : Except Fault Unit :=
  σ.symbols.checkReadTarget x

/-- An action that changes the store, followed by nothing. A failing action changes nothing. -/
def update (σ : Store) (action : Except Fault Store) : Store × Except Fault Effect :=
  match action with
  | .ok σ' => (σ', .ok {})
  | .error e => (σ, .error e)

/-- Rebinds a variable, followed by nothing. -/
def bindTo (σ : Store) (x : String) (v : Value) : Store × Except Fault Effect :=
  σ.update do return { σ with symbols := ← σ.symbols.assign x v }

/-- Allocates a cell for the value of `e` and lets `x` refer to it. -/
def alloc (ν : Valuation) (σ : Store) (x : String) (e : Expr) : Store × Except Fault Effect :=
  let request : Except Fault (Ty × Value) := do
    let (_, t) ← σ.referenceOf x
    return (t, ← ν.fitting "new" x t e)
  match request with
  | .error err => (σ, .error err)
  | .ok (t, v) =>
    let (a, heap) := σ.heap.allocate v
    { σ with heap }.bindTo x (.ref a t)

/-- Replaces the value of the cell that `x` refers to. The cell is looked for before `e` is
evaluated. -/
def write (ν : Valuation) (σ : Store) (x : String) (e : Expr) : Store × Except Fault Effect :=
  σ.update do
    let (a, t) ← σ.referenceOf x
    let _ ← σ.heap.get a
    let v ← ν.fitting "wH" x t e
    return { σ with heap := ← σ.heap.put a v }

/-- The integer that a line of a file stands for, zero after the last line. -/
def lineValue (file : String) : Option String → Except Fault Int64
  | none => .ok 0
  | some line =>
    match Text.readInt64? (Text.trim line) with
    | some n => .ok n
    | none => .error (.lineNotInt file (Text.trim line))

/-- Reads the next line of a file into a variable. -/
def readInt (ν : Valuation) (disk : Disk) (σ : Store) (file : Expr) (x : String) :
    Store × Except Fault Effect :=
  let request : Except Fault String := do
    σ.checkReadTarget x
    ν.fileName file
  match request with
  | .error err => (σ, .error err)
  | .ok name =>
    let (files, line) := σ.files.readLine disk name
    let σ' := { σ with files }
    match line.bind (lineValue name) with
    | .error err => (σ', .error err)
    | .ok n => σ'.bindTo x (.int n)

end Store

namespace Stmt

/-- Executes a statement whose expression has the given value: the store it leaves, and what is left to be
done or the failure. -/
def execBy (ν : Valuation) (disk : Disk) (σ : Store) : Stmt → Store × Except Fault Effect
  | nop => (σ, .ok {})
  | declare x t => σ.update do return { σ with symbols := ← σ.symbols.declare x t.initial }
  | assign x e =>
    match ν e with
    | .error err => (σ, .error err)
    | .ok v => σ.bindTo x v
  | seq a b => (σ, .ok { push := [a, b] })
  | ite g a b => (σ, (ν.guard "if" g).map fun c => { push := [if c then a else b] })
  | loop g b =>
    (σ, (ν.guard "while" g).map fun c => { push := if c then [seq b (loop g b)] else [] })
  | print e => σ.update do return { σ with output := σ.output ++ [← ν e] }
  | fork b => (σ, .ok { spawn := some { body := b, symbols := σ.symbols } })
  | alloc x e => Store.alloc ν σ x e
  | write x e => Store.write ν σ x e
  | openFile f => σ.update do
    return { σ with files := ← σ.files.openFile disk (← ν.fileName f) }
  | readInt f x => Store.readInt ν disk σ f x
  | closeFile f => σ.update do
    return { σ with files := ← σ.files.closeFile (← ν.fileName f) }

/-- Executes a statement by itself: the store it leaves, and what is left to be done or the failure. -/
def exec (disk : Disk) (σ : Store) (s : Stmt) : Store × Except Fault Effect :=
  s.execBy σ.eval disk σ

theorem exec_seq (disk : Disk) (σ : Store) (a b : Stmt) :
    (seq a b).exec disk σ = (σ, .ok { push := [a, b] }) := rfl

theorem exec_ite (disk : Disk) (σ : Store) (g : Expr) (a b : Stmt) :
    (ite g a b).exec disk σ = (σ, (σ.evalGuard "if" g).map fun c => { push := [if c then a else b] }) :=
  rfl

theorem exec_loop (disk : Disk) (σ : Store) (g : Expr) (b : Stmt) :
    (loop g b).exec disk σ =
      (σ, (σ.evalGuard "while" g).map fun c => { push := if c then [seq b (loop g b)] else [] }) := rfl

theorem exec_fork (disk : Disk) (σ : Store) (b : Stmt) :
    (fork b).exec disk σ = (σ, .ok { spawn := some { body := b, symbols := σ.symbols } }) := rfl

end Stmt

end Lockstep

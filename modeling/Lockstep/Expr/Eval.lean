import Lockstep.Expr.Basic
import Lockstep.Heap.Basic
import Lockstep.Symbols
import Lockstep.Text.Numeral

/-!
Evaluation of expressions.

The left operand is evaluated and its type checked before the right operand is looked at, so that an
unfit left operand decides the outcome. Both operands are always needed: the logical operators do not
cut evaluation short. Arithmetic is exact or fails; nothing wraps around.
-/

namespace Lockstep

namespace Value

/-- The integer that an arithmetic operand must be. -/
def expectInt (side : Side) (v : Value) : Except Fault Int64 :=
  match v.int? with
  | some n => .ok n
  | none => .error (.operandNot side "integer")

/-- The truth value that a logical operand must be. -/
def expectBool (side : Side) (v : Value) : Except Fault Bool :=
  match v.bool? with
  | some b => .ok b
  | none => .error (.operandNot side "bool")

/-- The address that the operand of a heap read must hold. -/
def expectAddress (v : Value) : Except Fault Nat :=
  match v.address? with
  | some a => .ok a
  | none => .error (.readOf v.ty)

end Value

namespace Comparison

/-- Checks the left operand of a comparison: the orderings take integers only. -/
def accept (op : Comparison) (a : Value) : Except Fault Value :=
  if op.isEquality || a.int?.isSome then .ok a else .error (.operandNot .first "integer")

/-- Whether the comparison holds between two values of one type, integers for the orderings. -/
def holds (op : Comparison) (a b : Value) : Bool :=
  let x := a.int?.getD 0
  let y := b.int?.getD 0
  match op with
  | less => x < y
  | lessEqual => x ≤ y
  | equal => a = b
  | notEqual => a ≠ b
  | greater => y < x
  | greaterEqual => y ≤ x

/-- Compares an accepted left operand with a right operand, which must have the same type. -/
def compare (op : Comparison) (a b : Value) : Except Fault Value :=
  if a.ty = b.ty then .ok (.bool (op.holds a b)) else .error (.operandNot .second a.ty.text)

end Comparison

namespace Expr

/-- The value of `l op r` when `l` and `r` have the values `a` and `b`. -/
def arithmetic (op : Arith) (l r : Expr) (a b : Int64) : Except Fault Value :=
  if op = .div ∧ b = 0 then .error (.divisionByZero (arith op l r).text)
  else match int64? (op.exact a.toInt b.toInt) with
    | some c => .ok (.int c)
    | none =>
      .error (.overflow ((Value.int a).text ++ " " ++ op.symbol ++ " " ++ (Value.int b).text))

/-- The value of an expression under the given variables and cells. -/
def eval (σ : Symbols) (h : Heap) : Expr → Except Fault Value
  | const v => .ok v
  | var x => σ.valueOf x
  | arith op l r => do
    let a ← (← l.eval σ h).expectInt .first
    let b ← (← r.eval σ h).expectInt .second
    arithmetic op l r a b
  | logic op l r => do
    let a ← (← l.eval σ h).expectBool .first
    let b ← (← r.eval σ h).expectBool .second
    return .bool (op.apply a b)
  | rel op l r => do
    let a ← op.accept (← l.eval σ h)
    let b ← r.eval σ h
    op.compare a b
  | read e => do
    let a ← (← e.eval σ h).expectAddress
    h.get a

end Expr

end Lockstep

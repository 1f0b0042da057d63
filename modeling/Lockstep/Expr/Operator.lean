import Lockstep.Fault

/-!
The operators of expressions and the tokens that denote them.

Each family of operators lists its members; a token denotes the member whose symbol it is. The same
token may mean different things in different families.
-/

namespace Lockstep

/-- Operators that take two integers to an integer. -/
inductive Arith where
  | add
  | sub
  | mul
  | div
deriving DecidableEq, Repr

/-- Operators that take two truth values to a truth value. -/
inductive Logic where
  | and
  | or
  | xor
deriving DecidableEq, Repr

/-- Comparisons: four orderings of integers and two equalities of values of one type. -/
inductive Comparison where
  | less
  | lessEqual
  | equal
  | notEqual
  | greater
  | greaterEqual
deriving DecidableEq, Repr

namespace Arith

/-- Every arithmetic operator. -/
def all : List Arith := [add, sub, mul, div]

/-- The token that denotes the operator. -/
def symbol : Arith → String
  | add => "+"
  | sub => "-"
  | mul => "*"
  | div => "/"

/-- The operator that a token denotes. -/
def ofToken (token : String) : Except Fault Arith :=
  match all.find? (·.symbol = token) with
  | some op => .ok op
  | none => .error (.unknownOperator token)

/-- The result over all integers; division goes toward zero. -/
def exact : Arith → Int → Int → Int
  | add, a, b => a + b
  | sub, a, b => a - b
  | mul, a, b => a * b
  | div, a, b => a.tdiv b

@[simp] theorem ofToken_symbol (op : Arith) : ofToken op.symbol = .ok op := by
  cases op <;> rfl

end Arith

namespace Logic

/-- Every logical operator. -/
def all : List Logic := [and, or, xor]

/-- The token that denotes the operator. -/
def symbol : Logic → String
  | and => "&&"
  | or => "||"
  | xor => "^"

/-- The operator that a token denotes. -/
def ofToken (token : String) : Except Fault Logic :=
  match all.find? (·.symbol = token) with
  | some op => .ok op
  | none => .error (.unknownOperator token)

/-- The result on two truth values. -/
def apply : Logic → Bool → Bool → Bool
  | and, a, b => a && b
  | or, a, b => a || b
  | xor, a, b => a != b

@[simp] theorem ofToken_symbol (op : Logic) : ofToken op.symbol = .ok op := by
  cases op <;> rfl

end Logic

namespace Comparison

/-- Every comparison. -/
def all : List Comparison := [less, lessEqual, equal, notEqual, greater, greaterEqual]

/-- The token that denotes the comparison. -/
def symbol : Comparison → String
  | less => "<"
  | lessEqual => "<="
  | equal => "=="
  | notEqual => "!="
  | greater => ">"
  | greaterEqual => ">="

/-- The comparison that a token denotes. -/
def ofToken (token : String) : Except Fault Comparison :=
  match all.find? (·.symbol = token) with
  | some op => .ok op
  | none => .error (.unknownOperator token)

/-- The two equalities take operands of any one type, the orderings take integers. -/
def isEquality : Comparison → Bool
  | equal => true
  | notEqual => true
  | _ => false

@[simp] theorem ofToken_symbol (op : Comparison) : ofToken op.symbol = .ok op := by
  cases op <;> rfl

end Comparison

end Lockstep

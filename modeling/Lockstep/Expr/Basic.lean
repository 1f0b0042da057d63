import Lockstep.Expr.Operator

/-!
Expression trees and their printed form.
-/

namespace Lockstep

/-- An expression; evaluating one changes nothing. -/
inductive Expr where
  | const (v : Value)
  | var (x : String)
  | arith (op : Arith) (left right : Expr)
  | logic (op : Logic) (left right : Expr)
  | rel (op : Comparison) (left right : Expr)
  /-- The value in the cell that the operand refers to. -/
  | read (e : Expr)
deriving DecidableEq, Repr, Inhabited

namespace Expr

/-- The printed form of an expression; operators stand between their operands, without brackets. -/
def text : Expr → String
  | const v => v.text
  | var x => x
  | arith op l r => l.text ++ " " ++ op.symbol ++ " " ++ r.text
  | logic op l r => l.text ++ " " ++ op.symbol ++ " " ++ r.text
  | rel op l r => l.text ++ " " ++ op.symbol ++ " " ++ r.text
  | read e => "rH(" ++ e.text ++ ")"

/-- An integer constant. -/
def int (n : Int64) : Expr := const (.int n)

/-- A truth constant. -/
def bool (b : Bool) : Expr := const (.bool b)

/-- A text constant. -/
def string (s : String) : Expr := const (.string s)

end Expr

end Lockstep

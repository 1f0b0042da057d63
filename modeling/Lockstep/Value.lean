/-!
Types and values of the language, with their printed forms.

A reference carries the type of the cell it points to, so the type of every value can be read off
the value alone. Address `0` is never handed out by a heap and serves as the null reference.
-/

namespace Lockstep

/-- The type of a value; `ref t` is the type of references to cells that hold a `t`. -/
inductive Ty where
  | int
  | bool
  | string
  | ref (target : Ty)
deriving DecidableEq, Repr, Inhabited

/-- A value; integers are signed 64-bit words. -/
inductive Value where
  | int (n : Int64)
  | bool (b : Bool)
  | string (s : String)
  | ref (address : Nat) (target : Ty)
deriving DecidableEq, Repr, Inhabited

namespace Ty

/-- The printed form of a type. -/
def text : Ty → String
  | int => "int"
  | bool => "bool"
  | string => "string"
  | ref t => "Ref(" ++ t.text ++ ")"

/-- What a freshly declared variable of this type holds. -/
def initial : Ty → Value
  | int => .int 0
  | bool => .bool false
  | string => .string ""
  | ref t => .ref 0 t

end Ty

namespace Value

/-- The type that a value carries. -/
def ty : Value → Ty
  | int _ => .int
  | bool _ => .bool
  | string _ => .string
  | ref _ t => .ref t

/-- The printed form of a value; text stands between quotes and is not escaped. -/
def text : Value → String
  | int n => n.toInt.repr
  | bool b => if b then "true" else "false"
  | string s => "\"" ++ s ++ "\""
  | ref a t => "(" ++ a.repr ++ ", " ++ t.text ++ ")"

/-- The integer, if the value is one. -/
def int? : Value → Option Int64
  | int n => some n
  | _ => none

/-- The truth value, if the value is one. -/
def bool? : Value → Option Bool
  | bool b => some b
  | _ => none

/-- The text, if the value is one. -/
def string? : Value → Option String
  | string s => some s
  | _ => none

/-- The address, if the value is a reference. -/
def address? : Value → Option Nat
  | ref a _ => some a
  | _ => none

end Value

@[simp] theorem Ty.ty_initial (t : Ty) : t.initial.ty = t := by
  cases t <;> rfl

end Lockstep

import Lockstep.Fault
import Std.Data.ExtTreeMap

/-!
Symbol tables: the variables of a thread and their values, in order of the names.

Two tables are equal exactly when they bind the same names to the same values, whatever the order in
which that came about. A bound name stays bound, and keeps the type that it was declared with.
-/

namespace Lockstep

/-- The values of the declared variables. -/
abbrev Symbols := Std.ExtTreeMap String Value compare

namespace Symbols

/-- The value of a declared variable. -/
def valueOf (σ : Symbols) (x : String) : Except Fault Value :=
  match σ[x]? with
  | some v => .ok v
  | none => .error (.undefinedVariable x)

/-- Binds a new variable; a bound name is refused. -/
def declare (σ : Symbols) (x : String) (v : Value) : Except Fault Symbols :=
  if x ∈ σ then .error (.redeclared x) else .ok (σ.insert x v)

/-- Rebinds a declared variable to a value of the type it has. -/
def assign (σ : Symbols) (x : String) (v : Value) : Except Fault Symbols :=
  match σ[x]? with
  | none => .error (.undefinedVariable x)
  | some old => if old.ty = v.ty then .ok (σ.insert x v) else .error (.assignedType x old.ty v.ty)

/-- The addresses that the variables hold, in order of the names; repetitions are kept. -/
def roots (σ : Symbols) : List Nat :=
  σ.toList.filterMap fun b => b.2.address?

/-- The bindings as lines of text, in order of the names. -/
def lines (σ : Symbols) : List String :=
  σ.toList.map fun b => b.1 ++ " -> " ++ b.2.text

end Symbols

end Lockstep

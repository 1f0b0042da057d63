import Lockstep.Value

/-!
The ways in which a thread can fail.

An error names its cause; its wording is given once, by `Fault.message`. The abbreviations
below the type are the causes that evaluation and execution raise.
-/

namespace Lockstep

/-- Why a step, an evaluation or a write to the log failed. -/
inductive Fault where
  /-- An operand or an expression has the wrong type. -/
  | type (detail : String)
  /-- A division by zero; carries the text of the division. -/
  | divisionByZero (expression : String)
  /-- A result outside the range of integers; carries the operation with its operands. -/
  | overflow (operation : String)
  /-- A token that names no operator of its family. -/
  | unknownOperator (token : String)
  /-- A variable that was never declared. -/
  | undefinedVariable (name : String)
  /-- An address without a cell. -/
  | invalidAddress (address : Nat)
  /-- A statement used against its contract. -/
  | statement (detail : String)
  /-- A file that could not be opened, read, closed or written. -/
  | file (name : String) (detail : String)
  /-- A thread stepped although it has nothing to run. -/
  | scheduling (detail : String)
deriving DecidableEq, Repr, Inhabited

/-- Which of two operands is meant. -/
inductive Side where
  | first
  | second
deriving DecidableEq, Repr

namespace Side

/-- The word for a side in messages. -/
def word : Side → String
  | first => "first"
  | second => "second"

end Side

namespace Fault

/-- The text that is shown for an error. -/
def message : Fault → String
  | type d => "Type error: " ++ d
  | divisionByZero e => "Division by zero in " ++ e
  | overflow o => "Integer overflow in operation: " ++ o
  | unknownOperator t => "Unknown operator '" ++ t ++ "'"
  | undefinedVariable x => "Undefined variable '" ++ x ++ "'"
  | invalidAddress a => "Invalid heap address " ++ a.repr
  | statement d => "Statement error: " ++ d
  | file f d => "File error on '" ++ f ++ "': " ++ d
  | scheduling d => "Scheduling error: " ++ d

/-- An operand is not of the kind that its operator takes. -/
def operandNot (side : Side) (kind : String) : Fault :=
  .type (side.word ++ " operand not " ++ kind)

/-- A heap read was given something other than a reference. -/
def readOf (found : Ty) : Fault :=
  .type ("heap read expects a reference, got " ++ found.text)

/-- A variable is declared a second time. -/
def redeclared (x : String) : Fault :=
  .statement ("variable '" ++ x ++ "' is already declared")

/-- A variable is given a value of a type other than its own. -/
def assignedType (x : String) (declared assigned : Ty) : Fault :=
  .statement ("declared type of variable '" ++ x ++ "' (" ++ declared.text ++
    ") and type of the assigned value (" ++ assigned.text ++ ") do not match")

/-- The guard of the construct named by the first argument is not a truth value. -/
def guardNotBool (construct guard : String) : Fault :=
  .statement (construct ++ " condition (" ++ guard ++ ") is not a bool")

/-- The expression that should name a file is not a text. -/
def fileNameNotString (expression : String) : Fault :=
  .statement ("the given expression (" ++ expression ++ ") is not a string")

/-- A variable that should hold a reference does not. -/
def notReference (x : String) (found : Ty) : Fault :=
  .statement ("variable '" ++ x ++ "' is not a reference (found " ++ found.text ++ ")")

/-- A cell is given a value of a type other than its own. -/
def cellType (construct x : String) (expected found : Ty) : Fault :=
  .statement (construct ++ "(" ++ x ++ ", ...) expects a value of type " ++ expected.text ++
    ", got " ++ found.text)

/-- A file is read into a variable that does not hold an integer. -/
def readTargetNotInt (x : String) : Fault :=
  .statement ("readFile target '" ++ x ++ "' is not an int")

/-- A line read from a file is not an integer. -/
def lineNotInt (file line : String) : Fault :=
  .file file ("'" ++ line ++ "' is not an integer")

/-- A file is opened while it is open. -/
def alreadyOpen (file : String) : Fault :=
  .file file "file is already open"

/-- A file is read or closed while it is not open. -/
def notOpen (file : String) : Fault :=
  .file file "file is not open"

/-- A thread that has nothing to run is stepped. -/
def nothingToRun (thread : Nat) : Fault :=
  .scheduling ("thread " ++ thread.repr ++ " has no statement to execute")

/-- The workers that step threads cannot be started. -/
def noWorkers (refusal : String) : Fault :=
  .scheduling ("failed to start worker pool: " ++ refusal)

end Fault

end Lockstep

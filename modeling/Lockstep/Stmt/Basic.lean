import Lockstep.Expr.Basic

/-!
Statement trees and their printed form.
-/

namespace Lockstep

/-- A statement. -/
inductive Stmt where
  | nop
  | declare (x : String) (t : Ty)
  | assign (x : String) (e : Expr)
  | seq (first second : Stmt)
  | ite (guard : Expr) (yes no : Stmt)
  | loop (guard : Expr) (body : Stmt)
  | print (e : Expr)
  /-- Starts a thread that runs the body beside this one. -/
  | fork (body : Stmt)
  /-- Puts the value of `e` into a fresh cell and lets `x` refer to it. -/
  | alloc (x : String) (e : Expr)
  /-- Replaces the value of the cell that `x` refers to. -/
  | write (x : String) (e : Expr)
  | openFile (file : Expr)
  /-- Reads the integer on the next line of a file into `x`, or zero at its end. -/
  | readInt (file : Expr) (x : String)
  | closeFile (file : Expr)
deriving DecidableEq, Repr, Inhabited

namespace Stmt

/-- The printed form of a statement. -/
def text : Stmt → String
  | nop => "nop"
  | declare x t => t.text ++ " " ++ x
  | assign x e => x ++ " = " ++ e.text
  | seq a b => "(" ++ a.text ++ "; " ++ b.text ++ ")"
  | ite g a b => "if (" ++ g.text ++ ") then (" ++ a.text ++ ") else (" ++ b.text ++ ")"
  | loop g b => "while (" ++ g.text ++ ") " ++ b.text
  | print e => "print(" ++ e.text ++ ")"
  | fork b => "fork(" ++ b.text ++ ")"
  | alloc x e => "new(" ++ x ++ ", " ++ e.text ++ ")"
  | write x e => "wH(" ++ x ++ ", " ++ e.text ++ ")"
  | openFile f => "openRFile(" ++ f.text ++ ")"
  | readInt f x => "readFile(" ++ f.text ++ ", " ++ x ++ ")"
  | closeFile f => "closeRFile(" ++ f.text ++ ")"

/-- The statements of a list one after another, nested to the right; no statement is `nop`. -/
def ofList : List Stmt → Stmt
  | [] => nop
  | [s] => s
  | s :: rest => seq s (ofList rest)

end Stmt

end Lockstep

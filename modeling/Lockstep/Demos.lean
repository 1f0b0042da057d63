import Lockstep.Stmt.Basic

/-!
Example programs: declarations, arithmetic, branching, files, the heap, loops and forks.
-/

namespace Lockstep

/-- A program with a name for menus. -/
structure Demo where
  name : String
  program : Stmt

namespace Demo

/-- The type of references to integers. -/
def refInt : Ty := .ref .int

/-- The file that one of the example programs reads. -/
def inputFile : String := "test.in"

/-- The example programs in the order of the menu. -/
def all : List Demo := [
  { name := "declare and print"
    program := .ofList [
      .declare "v" .int,
      .assign "v" (.int 2),
      .print (.var "v")] },
  { name := "arithmetic"
    program := .ofList [
      .declare "a" .int,
      .declare "b" .int,
      .assign "a" (.arith .add (.int 2) (.arith .mul (.int 3) (.int 5))),
      .assign "b" (.arith .add (.var "a") (.int 1)),
      .print (.var "b")] },
  { name := "if / else"
    program := .ofList [
      .declare "a" .bool,
      .declare "v" .int,
      .assign "a" (.bool true),
      .ite (.var "a") (.assign "v" (.int 2)) (.assign "v" (.int 3)),
      .print (.var "v")] },
  { name := "read integers from test.in"
    program := .ofList [
      .declare "varf" .string,
      .assign "varf" (.string inputFile),
      .openFile (.var "varf"),
      .declare "varc" .int,
      .readInt (.var "varf") "varc",
      .print (.var "varc"),
      .readInt (.var "varf") "varc",
      .print (.var "varc"),
      .closeFile (.var "varf")] },
  { name := "heap allocation"
    program := .ofList [
      .declare "v" refInt,
      .alloc "v" (.int 20),
      .declare "a" (.ref refInt),
      .alloc "a" (.var "v"),
      .print (.var "v"),
      .print (.var "a")] },
  { name := "heap read"
    program := .ofList [
      .declare "v" refInt,
      .alloc "v" (.int 20),
      .declare "a" (.ref refInt),
      .alloc "a" (.var "v"),
      .print (.read (.var "v")),
      .print (.arith .add (.read (.read (.var "a"))) (.int 5))] },
  { name := "heap write"
    program := .ofList [
      .declare "v" refInt,
      .alloc "v" (.int 20),
      .print (.read (.var "v")),
      .write "v" (.int 30),
      .print (.arith .add (.read (.var "v")) (.int 5))] },
  -- The first cell of v stays alive through a; the second one replaces it in v.
  { name := "garbage collection"
    program := .ofList [
      .declare "v" refInt,
      .alloc "v" (.int 20),
      .declare "a" (.ref refInt),
      .alloc "a" (.var "v"),
      .alloc "v" (.int 30),
      .print (.read (.read (.var "a")))] },
  { name := "while loop"
    program := .ofList [
      .declare "v" .int,
      .assign "v" (.int 4),
      .loop (.rel .greater (.var "v") (.int 0))
        (.ofList [
          .print (.var "v"),
          .assign "v" (.arith .sub (.var "v") (.int 1))]),
      .print (.var "v")] },
  { name := "fork"
    program := .ofList [
      .declare "v" .int,
      .declare "a" refInt,
      .assign "v" (.int 10),
      .alloc "a" (.int 22),
      .fork (.ofList [
        .write "a" (.int 30),
        .assign "v" (.int 32),
        .print (.var "v"),
        .print (.read (.var "a"))]),
      .print (.var "v"),
      .print (.read (.var "a"))] }]

/-- The example program with the given number in the menu; the first one is number 1. -/
def numbered? (n : Nat) : Option Demo :=
  if n = 0 then none else all[n - 1]?

end Demo

end Lockstep

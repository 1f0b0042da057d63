import Lockstep.Proofs.Action

/-!
Nodes of expressions, and the contexts that they stand in.

Evaluation goes through an expression from left to right and stops at the first failure. A node that fails
therefore settles the outcome of every expression around it, unless something on its left has failed before.
In either case nothing on its right is evaluated, and no text of an enclosing expression gets into the
failure: a division by zero names the division, but only when both its operands have been evaluated.
-/

namespace Lockstep

/-! ### Nodes and contexts -/

/-- The operators that take two operands. -/
inductive Binary where
  | arith (op : Arith)
  | logic (op : Logic)
  | rel (op : Comparison)
deriving DecidableEq, Repr

/-- The expression with the given operator and operands. -/
def Binary.join : Binary → Expr → Expr → Expr
  | arith op => .arith op
  | logic op => .logic op
  | rel op => .rel op

/-- The nodes of an expression in the order in which they are evaluated: the operands of a node from left to
right, and then the node itself. -/
def Expr.nodes : Expr → List Expr
  | const v => [const v]
  | var x => [var x]
  | arith op l r => l.nodes ++ r.nodes ++ [arith op l r]
  | logic op l r => l.nodes ++ r.nodes ++ [logic op l r]
  | rel op l r => l.nodes ++ r.nodes ++ [rel op l r]
  | read e => e.nodes ++ [read e]

/-- An expression with a hole. -/
inductive Context where
  | hole
  | left (op : Binary) (inside : Context) (r : Expr)
  | right (op : Binary) (l : Expr) (inside : Context)
  | read (inside : Context)

/-- The expression with another one in its hole. -/
def Context.fill : Context → Expr → Expr
  | hole, e => e
  | left op c r, e => op.join (c.fill e) r
  | right op l c, e => op.join l (c.fill e)
  | read c, e => .read (c.fill e)

theorem Expr.nodes_join (op : Binary) (l r : Expr) :
    (op.join l r).nodes = l.nodes ++ r.nodes ++ [op.join l r] := by
  cases op <;> rfl

/-- An expression is a leaf, has two operands, or reads the heap. -/
theorem Expr.induct_join {P : Expr → Prop} (const : ∀ v, P (const v)) (var : ∀ x, P (var x))
    (join : ∀ (op : Binary) l r, P l → P r → P (op.join l r)) (read : ∀ e, P e → P (read e)) (e : Expr) :
    P e := by
  induction e with
  | const v => exact const v
  | var x => exact var x
  | arith op l r ihl ihr => exact join (.arith op) l r ihl ihr
  | logic op l r ihl ihr => exact join (.logic op) l r ihl ihr
  | rel op l r ihl ihr => exact join (.rel op) l r ihl ihr
  | read e ih => exact read e ih

/-- Every node of an expression stands in a context. -/
theorem Expr.exists_fill_of_mem_nodes {e m : Expr} (node : m ∈ e.nodes) : ∃ c : Context, e = c.fill m := by
  induction e using induct_join with
  | const v => exact ⟨.hole, (List.mem_singleton.mp node).symm⟩
  | var x => exact ⟨.hole, (List.mem_singleton.mp node).symm⟩
  | join op l r ihl ihr =>
    rw [nodes_join, List.mem_append, List.mem_append, List.mem_singleton] at node
    rcases node with (inLeft | inRight) | rfl
    · obtain ⟨c, rfl⟩ := ihl inLeft
      exact ⟨.left op c r, rfl⟩
    · obtain ⟨c, rfl⟩ := ihr inRight
      exact ⟨.right op l c, rfl⟩
    · exact ⟨.hole, rfl⟩
  | read e ih =>
    rcases List.mem_append.mp node with inside | itself
    · obtain ⟨c, rfl⟩ := ih inside
      exact ⟨.read c, rfl⟩
    · exact ⟨.hole, (List.mem_singleton.mp itself).symm⟩

/-! ### Failing operands -/

namespace Binary

/-- An operator rejects a value as its first operand: arithmetic and the orderings take integers, logic
takes truth values, and the equalities take anything. -/
def Rejects : Binary → Value → Prop
  | arith _, v => v.ty ≠ .int
  | logic _, v => v.ty ≠ .bool
  | rel op, v => op.isEquality = false ∧ v.ty ≠ .int

/-- The failure for a first operand that is rejected. -/
def refusal : Binary → Fault
  | arith _ => .operandNot .first "integer"
  | logic _ => .operandNot .first "bool"
  | rel _ => .operandNot .first "integer"

/-- The left operand fails, or its value is rejected. -/
def Unfit (op : Binary) (σ : Symbols) (h : Heap) (l : Expr) : Prop :=
  (∃ e, l.eval σ h = .error e) ∨ ∃ v, l.eval σ h = .ok v ∧ op.Rejects v

section

variable (op : Binary) {σ : Symbols} {h : Heap} {l r : Expr}

theorem eval_join_of_error {e : Fault} (failed : l.eval σ h = .error e) :
    (op.join l r).eval σ h = .error e := by
  cases op <;> simp [join, Expr.eval, failed]

theorem eval_join_of_rejects {v : Value} (value : l.eval σ h = .ok v) (rejects : op.Rejects v) :
    (op.join l r).eval σ h = .error op.refusal := by
  cases op with
  | arith op =>
    cases v with
    | int n => exact absurd rfl rejects
    | _ => simp [join, Expr.eval, value, Value.expectInt, Value.int?, refusal]
  | logic op =>
    cases v with
    | bool b => exact absurd rfl rejects
    | _ => simp [join, Expr.eval, value, Value.expectBool, Value.bool?, refusal]
  | rel op =>
    obtain ⟨ordering, other⟩ := rejects
    cases v with
    | int n => exact absurd rfl other
    | _ => simp [join, Expr.eval, value, Comparison.accept, ordering, Value.int?, refusal]

/-- The right operand is evaluated once the left one has been accepted. -/
theorem eval_join_of_accepted {v : Value} {e : Fault} (value : l.eval σ h = .ok v)
    (accepted : ¬op.Rejects v) (failed : r.eval σ h = .error e) : (op.join l r).eval σ h = .error e := by
  cases op with
  | arith op =>
    cases v with
    | int n => simp [join, Expr.eval, value, Value.expectInt, Value.int?, failed]
    | _ => simp [Rejects, Value.ty] at accepted
  | logic op =>
    cases v with
    | bool b => simp [join, Expr.eval, value, Value.expectBool, Value.bool?, failed]
    | _ => simp [Rejects, Value.ty] at accepted
  | rel op =>
    have fine : op.isEquality ∨ v.int?.isSome := by
      cases v <;> simp_all [Rejects, Value.ty, Value.int?]
    simp [join, Expr.eval, value, Comparison.accept, fine, failed]

/-- An operator yields an integer or a truth value. -/
theorem ty_of_eval_join {op : Binary} {v : Value} (value : (op.join l r).eval σ h = .ok v) :
    v.ty = .int ∨ v.ty = .bool := by
  cases op with
  | arith op =>
    obtain ⟨_, -, value⟩ := Fault.bind_eq_ok value
    obtain ⟨a, -, value⟩ := Fault.bind_eq_ok value
    obtain ⟨_, -, value⟩ := Fault.bind_eq_ok value
    obtain ⟨b, -, value⟩ := Fault.bind_eq_ok value
    simp only [Expr.arithmetic] at value
    split at value
    · cases value
    · split at value
      · cases value
        exact .inl rfl
      · cases value
  | logic op =>
    obtain ⟨_, -, value⟩ := Fault.bind_eq_ok value
    obtain ⟨_, -, value⟩ := Fault.bind_eq_ok value
    obtain ⟨_, -, value⟩ := Fault.bind_eq_ok value
    obtain ⟨_, -, value⟩ := Fault.bind_eq_ok value
    cases value
    exact .inr rfl
  | rel op =>
    obtain ⟨_, -, value⟩ := Fault.bind_eq_ok value
    obtain ⟨_, -, value⟩ := Fault.bind_eq_ok value
    obtain ⟨_, -, value⟩ := Fault.bind_eq_ok value
    simp only [Comparison.compare] at value
    split at value
    · cases value
      exact .inr rfl
    · cases value

end

/-- Whatever stands on the right of an unfit operand, the node fails in the same way. -/
theorem Unfit.eval_join {op : Binary} {σ : Symbols} {h : Heap} {l : Expr} (unfit : op.Unfit σ h l) :
    ∃ e, ∀ r, (op.join l r).eval σ h = .error e := by
  rcases unfit with ⟨e, failed⟩ | ⟨v, value, rejects⟩
  · exact ⟨e, fun r => op.eval_join_of_error failed⟩
  · exact ⟨op.refusal, fun r => op.eval_join_of_rejects value rejects⟩

end Binary

/-- How an expression fails does not depend on what stands in its hole, as long as this fails in the given
way. -/
theorem Context.eval_fill_of_error (σ : Symbols) (h : Heap) (c : Context) (e : Fault) :
    ∃ e', ∀ m : Expr, m.eval σ h = .error e → (c.fill m).eval σ h = .error e' := by
  induction c with
  | hole => exact ⟨e, fun m failed => failed⟩
  | left op c r ih =>
    obtain ⟨e', inside⟩ := ih
    exact ⟨e', fun m failed => op.eval_join_of_error (inside m failed)⟩
  | right op l c ih =>
    obtain ⟨e', inside⟩ := ih
    by_cases unfit : op.Unfit σ h l
    · -- the hole is not reached
      obtain ⟨e'', fails⟩ := unfit.eval_join
      exact ⟨e'', fun m _ => fails _⟩
    · cases value : l.eval σ h with
      | error f => exact absurd (.inl ⟨f, value⟩) unfit
      | ok v =>
        refine ⟨e', fun m failed => op.eval_join_of_accepted value ?_ (inside m failed)⟩
        exact fun rejects => unfit (.inr ⟨v, value, rejects⟩)
  | read c ih =>
    obtain ⟨e', inside⟩ := ih
    exact ⟨e', fun m failed => by simp [fill, Expr.eval, inside m failed]⟩

/-- The left operand decides first. Every node of an expression stands in a context, and wherever a node
with two operands stands whose left operand fails or is rejected by the operator, another right operand
makes no difference to the outcome of the whole expression, be it a value or a failure. -/
theorem Expr.left_operand_decides (σ : Symbols) (h : Heap) (e : Expr) :
    (∀ m ∈ e.nodes, ∃ c : Context, e = c.fill m) ∧
    ∀ (c : Context) (op : Binary) (l r : Expr), e = c.fill (op.join l r) → op.Unfit σ h l →
      ∀ r', (c.fill (op.join l r')).eval σ h = e.eval σ h := by
  refine ⟨fun m node => exists_fill_of_mem_nodes node, ?_⟩
  rintro c op l r rfl unfit r'
  obtain ⟨f, fails⟩ := unfit.eval_join
  obtain ⟨f', outside⟩ := c.eval_fill_of_error σ h f
  rw [outside _ (fails r'), outside _ (fails r)]

/-- A sum with a truth value on its left, below the divisor of a quotient that is compared with a number:
its right operand can be an undeclared variable as well as a division by zero. -/
theorem Expr.left_operand_decides_in_divisor :
    let c : Context := .left (.rel .equal) (.right (.arith .div) (int 5) .hole) (int 2)
    let whole (r : Expr) := c.fill ((Binary.arith .add).join (bool true) r)
    whole (var "y") = rel .equal (arith .div (int 5) (arith .add (bool true) (var "y"))) (int 2) ∧
    (Binary.arith .add).Unfit ∅ {} (bool true) ∧
    (whole (var "y")).eval ∅ {} = .error (.operandNot .first "integer") ∧
    (whole (arith .div (int 1) (int 0))).eval ∅ {} = (whole (var "y")).eval ∅ {} := by
  intro c whole
  have unfit : (Binary.arith .add).Unfit ∅ {} (bool true) :=
    .inr ⟨.bool true, rfl, by simp [Binary.Rejects, Value.ty]⟩
  refine ⟨rfl, unfit, rfl, ?_⟩
  exact (left_operand_decides ∅ {} (whole (var "y"))).2 c _ _ _ rfl unfit _

end Lockstep

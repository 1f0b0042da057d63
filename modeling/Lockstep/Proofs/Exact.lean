import Lockstep.Proofs.Contexts

/-!
Arithmetic is exact, or it is reported.

Beside its value as a 64-bit integer, an arithmetic expression has an exact value, computed over all
integers. Evaluation yields the exact value as long as no node divides by zero and no node leaves the range
of 64-bit integers, be it only on the way to a result that fits again. Otherwise it reports the first node
that does, in the order in which nodes are evaluated; the operands of this node have exact values, since
nothing before it went wrong.
-/

namespace Lockstep

/-! ### Exact values -/

/-- The numbers that a 64-bit integer can be: from `-2 ^ 63` to `2 ^ 63 - 1`. -/
def FitsInt64 (n : Int) : Prop :=
  -9223372036854775808 ≤ n ∧ n ≤ 9223372036854775807

/-- Whether an expression is made of integer constants, variables that hold integers, and arithmetic. -/
def Expr.integral (σ : Symbols) : Expr → Bool
  | const v => v.int?.isSome
  | var x => (σ[x]?.bind Value.int?).isSome
  | arith _ l r => l.integral σ && r.integral σ
  | _ => false

/-- The value of an arithmetic expression over all integers, with division toward zero. There is none if
something is divided by zero. -/
def Expr.exactValue? (σ : Symbols) : Expr → Option Int
  | const v => v.int?.map Int64.toInt
  | var x => (σ[x]?.bind Value.int?).map Int64.toInt
  | arith op l r => do
    let a ← l.exactValue? σ
    let b ← r.exactValue? σ
    if op = .div ∧ b = 0 then none else some (op.exact a b)
  | _ => none

/-- A node that does not divide by zero, and whose exact value is in range. -/
def Expr.Sane (σ : Symbols) (m : Expr) : Prop :=
  (∀ l r, m = arith .div l r → r.exactValue? σ ≠ some 0) ∧ ∀ z, m.exactValue? σ = some z → FitsInt64 z

/-- `Offence σ m e` says that the node `m` must be reported, by the failure `e`: it divides by zero, or the
exact values of its operands lead out of range. -/
inductive Offence (σ : Symbols) : Expr → Fault → Prop where
  | zeroDivisor {l r : Expr} {a : Int} (left : l.exactValue? σ = some a) (right : r.exactValue? σ = some 0) :
    Offence σ (.arith .div l r) (.divisionByZero (Expr.arith .div l r).text)
  | outOfRange {op : Arith} {l r : Expr} {a b : Int} (left : l.exactValue? σ = some a)
    (right : r.exactValue? σ = some b) (divisible : ¬(op = .div ∧ b = 0))
    (exceeds : ¬FitsInt64 (op.exact a b)) :
    Offence σ (.arith op l r) (.overflow (a.repr ++ " " ++ op.symbol ++ " " ++ b.repr))

/-! ### Words and numbers -/

theorem fitsInt64_toInt (n : Int64) : FitsInt64 n.toInt := by
  have low := n.le_toInt
  have high := n.toInt_lt
  constructor <;> omega

theorem int64?_of_fits {n : Int} (fits : FitsInt64 n) : ∃ c, int64? n = some c ∧ c.toInt = n := by
  obtain ⟨low, high⟩ := fits
  refine ⟨Int64.ofInt n, ?_, Int64.toInt_ofInt_of_le (by omega) (by omega)⟩
  rw [int64?, Int64.toInt_minValue, Int64.toInt_maxValue, if_pos (by omega)]

theorem int64?_of_exceeds {n : Int} (exceeds : ¬FitsInt64 n) : int64? n = none := by
  simp only [FitsInt64] at exceeds
  rw [int64?, Int64.toInt_minValue, Int64.toInt_maxValue, if_neg (by omega)]

namespace Expr

variable {σ : Symbols} {op : Arith} {l r : Expr} {a b : Int64}

theorem exactValue?_arith {a b : Int} (left : l.exactValue? σ = some a) (right : r.exactValue? σ = some b) :
    (arith op l r).exactValue? σ = if op = .div ∧ b = 0 then none else some (op.exact a b) := by
  simp [exactValue?, left, right]

theorem arithmetic_of_zeroDivisor (zero : op = .div ∧ b = 0) :
    arithmetic op l r a b = .error (.divisionByZero (arith op l r).text) := by
  rw [arithmetic, if_pos zero]

theorem arithmetic_of_fits (divisible : ¬(op = .div ∧ b = 0))
    (fits : FitsInt64 (op.exact a.toInt b.toInt)) :
    ∃ c, arithmetic op l r a b = .ok (.int c) ∧ c.toInt = op.exact a.toInt b.toInt := by
  obtain ⟨c, result, same⟩ := int64?_of_fits fits
  exact ⟨c, by rw [arithmetic, if_neg divisible, result], same⟩

theorem arithmetic_of_exceeds (divisible : ¬(op = .div ∧ b = 0))
    (exceeds : ¬FitsInt64 (op.exact a.toInt b.toInt)) :
    arithmetic op l r a b =
      .error (.overflow (a.toInt.repr ++ " " ++ op.symbol ++ " " ++ b.toInt.repr)) := by
  rw [arithmetic, if_neg divisible, int64?_of_exceeds exceeds]
  rfl

theorem eval_arith_of_ints (op : Arith) {h : Heap} (left : l.eval σ h = .ok (.int a))
    (right : r.eval σ h = .ok (.int b)) : (arith op l r).eval σ h = arithmetic op l r a b := by
  simp [eval, left, right, Value.expectInt, Value.int?]

/-! ### The first offence -/

theorem not_sane_of_offence {m : Expr} {e : Fault} (offence : Offence σ m e) : ¬m.Sane σ := by
  rintro ⟨divides, inRange⟩
  cases offence with
  | zeroDivisor left right => exact divides _ _ rfl right
  | outOfRange left right divisible exceeds =>
    exact exceeds (inRange _ (by rw [exactValue?_arith left right, if_neg divisible]))

/-- All nodes of the expression are sane, and it evaluates to its exact value. -/
def EvaluatesExactly (σ : Symbols) (h : Heap) (e : Expr) : Prop :=
  (∀ m ∈ e.nodes, m.Sane σ) ∧ ∃ n, e.eval σ h = .ok (.int n) ∧ e.exactValue? σ = some n.toInt

/-- The expression fails with the report of a node before which all are sane. -/
def ReportsFirst (σ : Symbols) (h : Heap) (e : Expr) : Prop :=
  ∃ before m after f, e.nodes = before ++ m :: after ∧ (∀ m' ∈ before, m'.Sane σ) ∧ Offence σ m f ∧
    e.eval σ h = .error f

theorem evaluatesExactly_leaf {h : Heap} {e : Expr} {n : Int64} (leaf : e.nodes = [e])
    (notArith : ∀ op l r, e ≠ arith op l r) (value : e.eval σ h = .ok (.int n))
    (exact : e.exactValue? σ = some n.toInt) : e.EvaluatesExactly σ h := by
  refine ⟨fun m member => ?_, n, value, exact⟩
  rw [leaf, List.mem_singleton] at member
  subst member
  refine ⟨fun l r same => absurd same (notArith _ _ _), fun z same => ?_⟩
  rw [exact, Option.some.injEq] at same
  exact same ▸ fitsInt64_toInt n

theorem ReportsFirst.arith_left {h : Heap} (first : l.ReportsFirst σ h) :
    (arith op l r).ReportsFirst σ h := by
  obtain ⟨before, m, after, f, split, sane, offence, failed⟩ := first
  refine ⟨before, m, after ++ r.nodes ++ [arith op l r], f, ?_, sane, offence, ?_⟩
  · simp [nodes, split]
  · exact (Binary.arith op).eval_join_of_error failed

theorem ReportsFirst.arith_right {h : Heap} (left : l.EvaluatesExactly σ h)
    (first : r.ReportsFirst σ h) : (arith op l r).ReportsFirst σ h := by
  obtain ⟨before, m, after, f, split, sane, offence, failed⟩ := first
  obtain ⟨fine, a, value, -⟩ := left
  refine ⟨l.nodes ++ before, m, after ++ [arith op l r], f, by simp [nodes, split], ?_, offence, ?_⟩
  · intro m' member
    exact (List.mem_append.mp member).elim (fine m') (sane m')
  · have accepted : ¬(Binary.arith op).Rejects (.int a) := fun rejects => rejects rfl
    exact (Binary.arith op).eval_join_of_accepted value accepted failed

theorem sane_arith {a b : Int} (left : l.exactValue? σ = some a) (right : r.exactValue? σ = some b)
    (divisible : ¬(op = .div ∧ b = 0)) (fits : FitsInt64 (op.exact a b)) : (arith op l r).Sane σ := by
  constructor
  · intro l' r' is zero
    injection is with isDiv _ isRight
    rw [← isRight, right, Option.some.injEq] at zero
    exact divisible ⟨isDiv, zero⟩
  · intro z is
    rw [exactValue?_arith left right, if_neg divisible, Option.some.injEq] at is
    exact is ▸ fits

/-- A node whose operands are fine is fine itself, or the first one that is not. -/
theorem EvaluatesExactly.arith {h : Heap} (op : Arith) (left : l.EvaluatesExactly σ h)
    (right : r.EvaluatesExactly σ h) :
    (arith op l r).EvaluatesExactly σ h ∨ (Expr.arith op l r).ReportsFirst σ h := by
  obtain ⟨fineLeft, a, valueLeft, exactLeft⟩ := left
  obtain ⟨fineRight, b, valueRight, exactRight⟩ := right
  have fine (m : Expr) (member : m ∈ l.nodes ++ r.nodes) : m.Sane σ :=
    (List.mem_append.mp member).elim (fineLeft m) (fineRight m)
  have value := eval_arith_of_ints op valueLeft valueRight
  by_cases divides : op = .div ∧ b = 0
  · obtain ⟨rfl, rfl⟩ := divides
    refine .inr ⟨_, _, [], _, rfl, fine, .zeroDivisor exactLeft exactRight, ?_⟩
    rw [value, arithmetic_of_zeroDivisor ⟨rfl, rfl⟩]
  · -- the word is zero exactly if the number is
    have divisible : ¬(op = .div ∧ b.toInt = 0) :=
      fun ⟨isDiv, zero⟩ => divides ⟨isDiv, Int64.toInt_inj.mp zero⟩
    by_cases fits : FitsInt64 (op.exact a.toInt b.toInt)
    · obtain ⟨c, result, same⟩ := arithmetic_of_fits (l := l) (r := r) divides fits
      refine .inl ⟨fun m member => ?_, c, value.trans result, ?_⟩
      · rcases List.mem_append.mp member with operand | itself
        · exact fine m operand
        · rw [List.mem_singleton.mp itself]
          exact sane_arith exactLeft exactRight divisible fits
      · rw [exactValue?_arith exactLeft exactRight, if_neg divisible, same]
    · refine .inr ⟨_, _, [], _, rfl, fine, .outOfRange exactLeft exactRight divisible fits, ?_⟩
      rw [value, arithmetic_of_exceeds divides fits]

/-- An arithmetic expression evaluates exactly, or reports its first offence. -/
theorem evaluatesExactly_or_reportsFirst (h : Heap) {e : Expr} (integral : e.integral σ) :
    e.EvaluatesExactly σ h ∨ e.ReportsFirst σ h := by
  induction e with
  | const v =>
    cases v with
    | int n => exact .inl (evaluatesExactly_leaf rfl (by simp) rfl rfl)
    | _ => cases integral
  | var x =>
    simp only [Expr.integral, Option.isSome_iff_exists, Option.bind_eq_some_iff] at integral
    obtain ⟨n, v, bound, isInt⟩ := integral
    cases v with
    | int m =>
      cases isInt
      refine .inl (evaluatesExactly_leaf (n := n) rfl (by simp) ?_ ?_)
      · simp [eval, Symbols.valueOf, bound]
      · simp [exactValue?, bound, Value.int?]
    | _ => cases isInt
  | arith op l r ihl ihr =>
    simp only [Expr.integral, Bool.and_eq_true] at integral
    -- the nodes of the left operand come first, then those of the right one, then the node itself
    rcases ihl integral.1 with left | first
    · rcases ihr integral.2 with right | first
      · exact left.arith op right
      · exact .inr (.arith_right left first)
    · exact .inr first.arith_left
  | logic op l r => cases integral
  | rel op l r => cases integral
  | read e => cases integral

/-- Arithmetic is exact or reported. An expression made of integers and arithmetic evaluates to an integer if
and only if none of its nodes divides by an exact zero and the exact value of every node is in range, and
then the integer is the exact value of the whole. Otherwise it fails with the report of the first offending
node, in the order in which nodes are evaluated: a division by zero with the text of this node, anything else
with the exact values of its operands around its operator. -/
theorem arithmetic_exact_or_reported (σ : Symbols) (h : Heap) (e : Expr) (integral : e.integral σ) :
    ((∃ n, e.eval σ h = .ok (.int n)) ↔ ∀ m ∈ e.nodes, m.Sane σ) ∧
    (∀ n, e.eval σ h = .ok (.int n) → e.exactValue? σ = some n.toInt) ∧
    ((¬∀ m ∈ e.nodes, m.Sane σ) →
      ∃ before m after f, e.nodes = before ++ m :: after ∧ (∀ m' ∈ before, m'.Sane σ) ∧
        Offence σ m f ∧ e.eval σ h = .error f) := by
  rcases evaluatesExactly_or_reportsFirst h integral with ⟨fine, n, value, exact⟩ | first
  · refine ⟨⟨fun _ => fine, fun _ => ⟨n, value⟩⟩, fun n' result => ?_, fun insane => absurd fine insane⟩
    rw [value] at result
    cases result
    exact exact
  · have ⟨before, m, after, f, split, _, offence, failed⟩ := first
    have noValue (n : Int64) : e.eval σ h ≠ .ok (.int n) := by simp [failed]
    refine ⟨⟨fun ⟨n, value⟩ => absurd value (noValue n), fun sane => ?_⟩,
      fun n value => absurd value (noValue n), fun _ => first⟩
    exact absurd (sane m (by simp [split])) (not_sane_of_offence offence)

/-- A sum that leaves the range although the difference it stands in would come back to it, and a quotient of
a negative number. -/
theorem arithmetic_exact_or_reported_on_the_way :
    let σ : Symbols := (∅ : Symbols).insert "m" (.int Int64.minValue)
    let e := arith .sub (arith .add (var "m") (int (-1))) (int (-1))
    let q := arith .div (int (-7)) (int 2)
    e.integral σ ∧ e.exactValue? σ = some Int64.minValue.toInt ∧
    e.eval σ {} = .error (.overflow "-9223372036854775808 + -1") ∧
    (∃ before m after f, e.nodes = before ++ m :: after ∧ (∀ m' ∈ before, m'.Sane σ) ∧
      Offence σ m f ∧ e.eval σ {} = .error f) ∧
    q.integral σ ∧ q.eval σ {} = .ok (.int (-3)) ∧ ∀ m ∈ q.nodes, m.Sane σ := by
  intro σ e q
  have exact : e.exactValue? σ = some Int64.minValue.toInt := by decide +kernel
  have failed : e.eval σ {} = .error (.overflow "-9223372036854775808 + -1") := by rfl
  have quotient : q.eval σ {} = .ok (.int (-3)) := by rfl
  obtain ⟨returns, -, report⟩ := arithmetic_exact_or_reported σ {} e rfl
  have insane : ¬∀ m ∈ e.nodes, m.Sane σ := by
    rw [← returns, failed]
    rintro ⟨n, value⟩
    cases value
  refine ⟨rfl, exact, failed, report insane, rfl, quotient, ?_⟩
  exact (arithmetic_exact_or_reported σ {} q rfl).1.mp ⟨-3, quotient⟩

end Expr

end Lockstep

import Lockstep.Proofs.SoundStore

/-!
Types of expressions.

The type of an expression can be told from the types of the values that its variables hold, without a look
at the heap, since a reference carries the type of its cell. Evaluation keeps to it. An expression that
evaluates has a type, which is that of its value, and one that has a type fails only for reasons that types
do not tell: a division by zero, a result out of range, a missing cell.
-/

namespace Lockstep

/-! ### Types and values -/

/-- The type of the value that a variable holds. -/
def Symbols.tyOf? (σ : Symbols) (x : String) : Option Ty :=
  σ[x]?.map Value.ty

/-- The type of an expression, if it has one, for variables of the given types. -/
def Expr.ty? (Γ : String → Option Ty) : Expr → Option Ty
  | const v => some v.ty
  | var x => Γ x
  | arith _ l r => if l.ty? Γ = some .int ∧ r.ty? Γ = some .int then some .int else none
  | logic _ l r => if l.ty? Γ = some .bool ∧ r.ty? Γ = some .bool then some .bool else none
  | rel op l r =>
    if op.isEquality then
      if (l.ty? Γ).isSome ∧ l.ty? Γ = r.ty? Γ then some .bool else none
    else if l.ty? Γ = some .int ∧ r.ty? Γ = some .int then some .bool else none
  | read e =>
    match e.ty? Γ with
    | some (.ref t) => some t
    | _ => none

/-- A reference is well typed in a heap if the cell at its address, should there be one, holds a value of
the type that it carries; every other value is. -/
def Value.TypedIn (h : Heap) : Value → Prop
  | ref a t => ∀ v, h.cells[a]? = some v → v.ty = t
  | _ => True

/-- Whether a failure is one that types do not tell. -/
def Fault.beyondTypes : Fault → Bool
  | divisionByZero _ => true
  | overflow _ => true
  | invalidAddress _ => true
  | _ => false

/-- An outcome agrees with a type: a value has it and is well typed itself, and a failure is one that types
do not tell, unless there is no type at all. -/
def Agrees (h : Heap) (t? : Option Ty) : Except Fault Value → Prop
  | .ok v => t? = some v.ty ∧ v.TypedIn h
  | .error e => t? = none ∨ e.beyondTypes

/-! ### Operands -/

section Operands

variable {h : Heap} {t? u? : Option Ty}

/-- An operand without a type leaves the whole without one. -/
theorem Agrees.bind {r : Except Fault Value} {next : Value → Except Fault Value} (first : Agrees h t? r)
    (strict : t? = none → u? = none)
    (then_ : ∀ v, t? = some v.ty → v.TypedIn h → Agrees h u? (next v)) : Agrees h u? (r >>= next) := by
  cases r with
  | error e => exact first.imp_left strict
  | ok v => exact then_ v first.1 first.2

theorem Value.expectInt_agrees {v : Value} {side : Side} {next : Int64 → Except Fault Value}
    (mistyped : v.ty ≠ .int → u? = none) (fits : ∀ n, v = .int n → Agrees h u? (next n)) :
    Agrees h u? (v.expectInt side >>= next) := by
  cases v with
  | int n => exact fits n rfl
  | _ => exact .inl (mistyped (by simp [ty]))

theorem Value.expectBool_agrees {v : Value} {side : Side} {next : Bool → Except Fault Value}
    (mistyped : v.ty ≠ .bool → u? = none) (fits : ∀ b, v = .bool b → Agrees h u? (next b)) :
    Agrees h u? (v.expectBool side >>= next) := by
  cases v with
  | bool b => exact fits b rfl
  | _ => exact .inl (mistyped (by simp [ty]))

theorem Value.expectAddress_agrees {v : Value} {next : Nat → Except Fault Value}
    (mistyped : (∀ t, v.ty ≠ .ref t) → u? = none)
    (fits : ∀ a t, v = .ref a t → Agrees h u? (next a)) :
    Agrees h u? (v.expectAddress >>= next) := by
  cases v with
  | ref a t => exact fits a t rfl
  | _ => exact .inl (mistyped (by simp [ty]))

theorem Comparison.accept_agrees {op : Comparison} {v : Value} {next : Value → Except Fault Value}
    (mistyped : op.isEquality = false → v.ty ≠ .int → u? = none)
    (fits : (op.isEquality = false → v.ty = .int) → Agrees h u? (next v)) :
    Agrees h u? (op.accept v >>= next) := by
  simp only [accept]
  split
  next fine =>
    refine fits fun ordering => ?_
    cases v <;> simp_all [Value.int?, Value.ty]
  next unfit =>
    simp only [Bool.or_eq_true, not_or, Bool.not_eq_true] at unfit
    refine .inl (mistyped unfit.1 ?_)
    cases v <;> simp_all [Value.int?, Value.ty]

theorem Comparison.compare_agrees {op : Comparison} {a b : Value} (mistyped : a.ty ≠ b.ty → u? = none)
    (fits : a.ty = b.ty → u? = some .bool) : Agrees h u? (op.compare a b) := by
  simp only [compare]
  split
  next same => exact ⟨fits same, trivial⟩
  next differ => exact .inl (mistyped differ)

theorem Expr.arithmetic_agrees (op : Arith) (l r : Expr) (a b : Int64) :
    Agrees h (some .int) (arithmetic op l r a b) := by
  simp only [arithmetic]
  split
  · exact .inr rfl
  · split
    · exact ⟨rfl, trivial⟩
    · exact .inr rfl

theorem Heap.get_agrees (cells : ∀ (a : Nat) v, h.cells[a]? = some v → v.TypedIn h) {a : Nat} {t : Ty}
    (reference : (Value.ref a t).TypedIn h) : Agrees h (some t) (h.get a) := by
  cases cell : h.cells[a]? with
  | none => simp [get, cell, Agrees, Fault.beyondTypes]
  | some v =>
    simp only [get, cell]
    exact ⟨congrArg some (reference v cell).symm, cells a v cell⟩

end Operands

/-! ### Evaluation -/

/-- The outcome of an evaluation agrees with the type of the expression. -/
theorem Expr.eval_agrees {σ : Symbols} {h : Heap}
    (table : ∀ (x : String) v, σ[x]? = some v → v.TypedIn h)
    (cells : ∀ (a : Nat) v, h.cells[a]? = some v → v.TypedIn h) {e : Expr} (free : e.refFree) :
    Agrees h (e.ty? σ.tyOf?) (e.eval σ h) := by
  induction e with
  | const v =>
    cases v with
    | ref a t => cases free
    | _ => exact ⟨rfl, trivial⟩
  | var x =>
    cases bound : σ[x]? with
    | none => simp [eval, Symbols.valueOf, bound, ty?, Symbols.tyOf?, Agrees]
    | some v =>
      simp only [eval, Symbols.valueOf, bound]
      exact ⟨by simp [ty?, Symbols.tyOf?, bound], table x v bound⟩
  | arith op l r ihl ihr =>
    simp only [refFree, Bool.and_eq_true] at free
    have needsLeft (other : l.ty? σ.tyOf? ≠ some .int) : (arith op l r).ty? σ.tyOf? = none := by
      simp [ty?, other]
    have needsRight (other : r.ty? σ.tyOf? ≠ some .int) : (arith op l r).ty? σ.tyOf? = none := by
      simp [ty?, other]
    -- the operands come in order: one that fails or is unfit leaves the whole without a type
    refine (ihl free.1).bind (fun none => needsLeft (by simp [none])) fun v left _ =>
      Value.expectInt_agrees (fun other => needsLeft (by simp [left, other])) fun a first =>
        (ihr free.2).bind (fun none => needsRight (by simp [none])) fun u right _ =>
          Value.expectInt_agrees (fun other => needsRight (by simp [right, other])) fun b second => ?_
    have type : (arith op l r).ty? σ.tyOf? = some .int := by
      simp [ty?, left, right, first, second, Value.ty]
    rw [type]
    exact arithmetic_agrees op l r a b
  | logic op l r ihl ihr =>
    simp only [refFree, Bool.and_eq_true] at free
    have needsLeft (other : l.ty? σ.tyOf? ≠ some .bool) : (logic op l r).ty? σ.tyOf? = none := by
      simp [ty?, other]
    have needsRight (other : r.ty? σ.tyOf? ≠ some .bool) : (logic op l r).ty? σ.tyOf? = none := by
      simp [ty?, other]
    refine (ihl free.1).bind (fun none => needsLeft (by simp [none])) fun v left _ =>
      Value.expectBool_agrees (fun other => needsLeft (by simp [left, other])) fun a first =>
        (ihr free.2).bind (fun none => needsRight (by simp [none])) fun u right _ =>
          Value.expectBool_agrees (fun other => needsRight (by simp [right, other])) fun b second => ?_
    exact ⟨by simp [ty?, left, right, first, second, Value.ty], trivial⟩
  | rel op l r ihl ihr =>
    simp only [refFree, Bool.and_eq_true] at free
    refine (ihl free.1).bind (fun none => by simp [ty?, none]) fun v left _ =>
      Comparison.accept_agrees (fun ordering other => by simp [ty?, ordering, left, other]) fun ordered =>
        (ihr free.2).bind (fun none => by simp [ty?, left, none]) fun u right _ =>
          Comparison.compare_agrees (fun differ => ?_) fun same => ?_
    -- an ordering has found an integer on its left, so the types are compared in either case
    · cases equality : op.isEquality with
      | true => simp [ty?, equality, left, right, differ]
      | false =>
        rw [ordered equality] at differ
        simp [ty?, equality, right, Ne.symm differ]
    · cases equality : op.isEquality with
      | true => simp [ty?, equality, left, right, same]
      | false => simp [ty?, equality, left, right, ← same, ordered equality]
  | read e ih =>
    refine (ih free).bind (fun none => by simp [ty?, none]) fun v type typed =>
      Value.expectAddress_agrees (fun other => ?_) fun a t reference => ?_
    · cases v with
      | ref a t => exact absurd rfl (other t)
      | _ => simp [ty?, type, Value.ty]
    · subst reference
      have target : (read e).ty? σ.tyOf? = some t := by simp [ty?, type, Value.ty]
      rw [target]
      exact Heap.get_agrees cells typed

theorem Agrees.exists_ty {h : Heap} {t? : Option Ty} {r : Except Fault Value} (agrees : Agrees h t? r)
    {v : Value} (result : r = .ok v) : t? = some v.ty := by
  rw [result] at agrees
  exact agrees.1

theorem Agrees.beyondTypes {h : Heap} {t : Ty} {r : Except Fault Value} (agrees : Agrees h (some t) r)
    {e : Fault} (failure : r = .error e) : e.beyondTypes := by
  rw [failure] at agrees
  simpa [Agrees] using agrees

/-- Evaluation is type sound. Take variables and cells whose references refer to no cell or to one that holds
a value of the type that they carry, and an expression without reference constants. If it evaluates, then it
has a type, which is that of its value. If it has a type, then it evaluates, or fails for a division by
zero, a result out of range or a missing cell, but never for an operand of the wrong type or an undeclared
variable. -/
theorem Expr.evaluation_type_sound (σ : Symbols) (h : Heap) (e : Expr)
    (table : ∀ (x : String) v, σ[x]? = some v → v.TypedIn h)
    (cells : ∀ (a : Nat) v, h.cells[a]? = some v → v.TypedIn h) (free : e.refFree) :
    (∀ v, e.eval σ h = .ok v → e.ty? σ.tyOf? = some v.ty) ∧
    ∀ t, e.ty? σ.tyOf? = some t →
      ((∃ v, e.eval σ h = .ok v) ∨ (∃ text, e.eval σ h = .error (.divisionByZero text)) ∨
        (∃ operation, e.eval σ h = .error (.overflow operation)) ∨
        ∃ a, e.eval σ h = .error (.invalidAddress a)) ∧
      (∀ detail, e.eval σ h ≠ .error (.type detail)) ∧
      ∀ x, e.eval σ h ≠ .error (.undefinedVariable x) := by
  have agrees := eval_agrees table cells free
  refine ⟨fun v result => agrees.exists_ty result, fun t type => ?_⟩
  rw [type] at agrees
  refine ⟨?_, fun detail failure => ?_, fun x failure => ?_⟩
  · cases outcome : e.eval σ h with
    | ok v => exact .inl ⟨v, rfl⟩
    | error f =>
      have beyond := agrees.beyondTypes outcome
      cases f with
      | divisionByZero text => exact .inr (.inl ⟨text, rfl⟩)
      | overflow operation => exact .inr (.inr (.inl ⟨operation, rfl⟩))
      | invalidAddress a => exact .inr (.inr (.inr ⟨a, rfl⟩))
      | _ => cases beyond
  · cases agrees.beyondTypes failure
  · cases agrees.beyondTypes failure

/-- A comparison that reads through a reference to a reference, and another one whose reference refers to no
cell. Both have a type; the first evaluates, the second does not. -/
theorem Expr.evaluation_type_sound_dangling :
    let h := (((({} : Heap).allocate (.ref 2 .int)).2).allocate (.int 20)).2
    let σ : Symbols := ((∅ : Symbols).insert "p" (.ref 1 (.ref .int))).insert "q" (.ref 9 .int)
    let deep := rel .greater (arith .add (read (read (var "p"))) (int 5)) (int 24)
    let dangling := rel .equal (read (var "q")) (int 0)
    (∀ (x : String) v, σ[x]? = some v → v.TypedIn h) ∧
    (∀ (a : Nat) v, h.cells[a]? = some v → v.TypedIn h) ∧
    (deep.eval σ h = .ok (.bool true) ∧ deep.ty? σ.tyOf? = some .bool) ∧
    (dangling.ty? σ.tyOf? = some .bool ∧ dangling.eval σ h = .error (.invalidAddress 9)) ∧
    ∀ detail, dangling.eval σ h ≠ .error (.type detail) := by
  intro h σ deep dangling
  have table : ∀ (x : String) v, σ[x]? = some v → v.TypedIn h := by
    intro x v bound
    simp only [σ, Std.ExtTreeMap.getElem?_insert, Std.ExtTreeMap.getElem?_empty] at bound
    split at bound
    · cases bound
      simp [Value.TypedIn, h, Heap.getElem?_allocate]
    · split at bound
      · cases bound
        simp [Value.TypedIn, h, Heap.getElem?_allocate, Value.ty]
      · cases bound
  have cells : ∀ (a : Nat) v, h.cells[a]? = some v → v.TypedIn h := by
    intro a v found
    simp only [h, Heap.getElem?_allocate, Std.ExtTreeMap.getElem?_empty] at found
    split at found
    · cases found
      trivial
    · split at found
      · cases found
        simp [Value.TypedIn, h, Heap.getElem?_allocate, Value.ty]
      · cases found
  have value : deep.eval σ h = .ok (.bool true) := by rfl
  have typed : dangling.ty? σ.tyOf? = some .bool := by decide +kernel
  have first := evaluation_type_sound σ h deep table cells rfl
  have second := evaluation_type_sound σ h dangling table cells rfl
  exact ⟨table, cells, ⟨value, first.1 _ value⟩, ⟨typed, by rfl⟩, (second.2 _ typed).2.1⟩

end Lockstep

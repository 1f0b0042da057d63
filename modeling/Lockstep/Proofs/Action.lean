import Lockstep.Stmt.Exec

/-!
Elementary statements: what each of them can do to a store.

An elementary statement ends at once, and leaves nothing to be run or started. `Acts` lists the ways in
which it can end, with the exact condition of each; `Stmt.execBy` does nothing else.
-/

namespace Lockstep

/-- Whether a statement is done with when it has been executed once. -/
def Stmt.elementary : Stmt → Bool
  | seq _ _ => false
  | ite _ _ _ => false
  | loop _ _ => false
  | fork _ => false
  | _ => true

/-- What is left to be done after an elementary statement: nothing, or its failure is passed on. -/
def Effect.after : Option Fault → Except Fault Effect
  | none => .ok {}
  | some e => .error e

/-- `Acts ν disk σ s σ' o` says that the elementary statement `s`, whose expression has the value that `ν`
gives it, turns the store `σ` into `σ'`, and fails if `o` is a failure. -/
inductive Acts (ν : Valuation) (disk : Disk) (σ : Store) : Stmt → Store → Option Fault → Prop where
  | nop : Acts ν disk σ .nop σ none
  | declare {x : String} {t : Ty} (fresh : x ∉ σ.symbols) :
    Acts ν disk σ (.declare x t) { σ with symbols := σ.symbols.insert x t.initial } none
  | declareAgain {x : String} {t : Ty} (bound : x ∈ σ.symbols) :
    Acts ν disk σ (.declare x t) σ (some (.redeclared x))
  | assign {x : String} {e : Expr} {v old : Value} (value : ν e = .ok v)
    (bound : σ.symbols[x]? = some old) (type : old.ty = v.ty) :
    Acts ν disk σ (.assign x e) { σ with symbols := σ.symbols.insert x v } none
  | assignNoValue {x : String} {e : Expr} {err : Fault} (value : ν e = .error err) :
    Acts ν disk σ (.assign x e) σ (some err)
  | assignUnbound {x : String} {e : Expr} {v : Value} (value : ν e = .ok v)
    (unbound : σ.symbols[x]? = none) :
    Acts ν disk σ (.assign x e) σ (some (.undefinedVariable x))
  | assignMistyped {x : String} {e : Expr} {v old : Value} (value : ν e = .ok v)
    (bound : σ.symbols[x]? = some old) (type : old.ty ≠ v.ty) :
    Acts ν disk σ (.assign x e) σ (some (.assignedType x old.ty v.ty))
  | print {e : Expr} {v : Value} (value : ν e = .ok v) :
    Acts ν disk σ (.print e) { σ with output := σ.output ++ [v] } none
  | printNoValue {e : Expr} {err : Fault} (value : ν e = .error err) :
    Acts ν disk σ (.print e) σ (some err)
  | alloc {x : String} {e : Expr} {a : Nat} {v : Value}
    (bound : σ.symbols[x]? = some (.ref a v.ty)) (value : ν e = .ok v) :
    Acts ν disk σ (.alloc x e)
      { σ with
        heap := (σ.heap.allocate v).2
        symbols := σ.symbols.insert x (.ref σ.heap.next v.ty) } none
  | allocNoTarget {x : String} {e : Expr} {err : Fault} (target : σ.referenceOf x = .error err) :
    Acts ν disk σ (.alloc x e) σ (some err)
  | allocNoValue {x : String} {e : Expr} {a : Nat} {t : Ty} {err : Fault}
    (bound : σ.symbols[x]? = some (.ref a t)) (value : ν e = .error err) :
    Acts ν disk σ (.alloc x e) σ (some err)
  | allocMistyped {x : String} {e : Expr} {a : Nat} {t : Ty} {v : Value}
    (bound : σ.symbols[x]? = some (.ref a t)) (value : ν e = .ok v) (type : v.ty ≠ t) :
    Acts ν disk σ (.alloc x e) σ (some (.cellType "new" x t v.ty))
  | write {x : String} {e : Expr} {a : Nat} {v : Value}
    (bound : σ.symbols[x]? = some (.ref a v.ty)) (live : a ∈ σ.heap.cells)
    (value : ν e = .ok v) :
    Acts ν disk σ (.write x e)
      { σ with heap := { σ.heap with cells := σ.heap.cells.insert a v } } none
  | writeNoTarget {x : String} {e : Expr} {err : Fault} (target : σ.referenceOf x = .error err) :
    Acts ν disk σ (.write x e) σ (some err)
  | writeNoCell {x : String} {e : Expr} {a : Nat} {t : Ty}
    (bound : σ.symbols[x]? = some (.ref a t)) (dead : a ∉ σ.heap.cells) :
    Acts ν disk σ (.write x e) σ (some (.invalidAddress a))
  | writeNoValue {x : String} {e : Expr} {a : Nat} {t : Ty} {err : Fault}
    (bound : σ.symbols[x]? = some (.ref a t)) (live : a ∈ σ.heap.cells)
    (value : ν e = .error err) :
    Acts ν disk σ (.write x e) σ (some err)
  | writeMistyped {x : String} {e : Expr} {a : Nat} {t : Ty} {v : Value}
    (bound : σ.symbols[x]? = some (.ref a t)) (live : a ∈ σ.heap.cells)
    (value : ν e = .ok v) (type : v.ty ≠ t) :
    Acts ν disk σ (.write x e) σ (some (.cellType "wH" x t v.ty))
  | openFile {f : Expr} {name : String} {files : OpenFiles} (named : ν.fileName f = .ok name)
    (opened : σ.files.openFile disk name = .ok files) :
    Acts ν disk σ (.openFile f) { σ with files } none
  | openNoName {f : Expr} {err : Fault} (named : ν.fileName f = .error err) :
    Acts ν disk σ (.openFile f) σ (some err)
  | openRefused {f : Expr} {name : String} {err : Fault} (named : ν.fileName f = .ok name)
    (refused : σ.files.openFile disk name = .error err) :
    Acts ν disk σ (.openFile f) σ (some err)
  | readInt {f : Expr} {x name : String} {old n : Int64} {files : OpenFiles} {line : Option String}
    (bound : σ.symbols[x]? = some (.int old)) (named : ν.fileName f = .ok name)
    (read : σ.files.readLine disk name = (files, .ok line))
    (number : Store.lineValue name line = .ok n) :
    Acts ν disk σ (.readInt f x) { σ with files, symbols := σ.symbols.insert x (.int n) } none
  | readNoTarget {f : Expr} {x : String} {err : Fault} (target : σ.checkReadTarget x = .error err) :
    Acts ν disk σ (.readInt f x) σ (some err)
  | readNoName {f : Expr} {x : String} {old : Int64} {err : Fault}
    (bound : σ.symbols[x]? = some (.int old)) (named : ν.fileName f = .error err) :
    Acts ν disk σ (.readInt f x) σ (some err)
  | readRefused {f : Expr} {x name : String} {old : Int64} {files : OpenFiles} {err : Fault}
    (bound : σ.symbols[x]? = some (.int old)) (named : ν.fileName f = .ok name)
    (refused : σ.files.readLine disk name = (files, .error err)) :
    Acts ν disk σ (.readInt f x) { σ with files } (some err)
  | readNoNumber {f : Expr} {x name : String} {old : Int64} {files : OpenFiles}
    {line : Option String} {err : Fault}
    (bound : σ.symbols[x]? = some (.int old)) (named : ν.fileName f = .ok name)
    (read : σ.files.readLine disk name = (files, .ok line))
    (number : Store.lineValue name line = .error err) :
    Acts ν disk σ (.readInt f x) { σ with files } (some err)
  | closeFile {f : Expr} {name : String} {files : OpenFiles} (named : ν.fileName f = .ok name)
    (closed : σ.files.closeFile name = .ok files) :
    Acts ν disk σ (.closeFile f) { σ with files } none
  | closeNoName {f : Expr} {err : Fault} (named : ν.fileName f = .error err) :
    Acts ν disk σ (.closeFile f) σ (some err)
  | closeRefused {f : Expr} {name : String} {err : Fault} (named : ν.fileName f = .ok name)
    (refused : σ.files.closeFile name = .error err) :
    Acts ν disk σ (.closeFile f) σ (some err)

/-! ### The operations that statements are built from -/

section Operations

variable {α β : Type} {σ : Store}

@[simp] theorem Fault.ok_bind (a : α) (next : α → Except Fault β) : (.ok a >>= next) = next a := rfl

@[simp] theorem Fault.error_bind (e : Fault) (next : α → Except Fault β) :
    (.error e >>= next) = .error e := rfl

@[simp] theorem Fault.pure_eq_ok (a : α) : (pure a : Except Fault α) = .ok a := rfl

theorem Fault.bind_eq_ok {r : Except Fault α} {next : α → Except Fault β} {b : β}
    (done : (r >>= next) = .ok b) : ∃ a, r = .ok a ∧ next a = .ok b := by
  cases r with
  | error e => cases done
  | ok a => exact ⟨a, rfl, done⟩

@[simp] theorem Store.update_ok (σ' : Store) : σ.update (.ok σ') = (σ', .ok {}) := rfl

@[simp] theorem Store.update_error (e : Fault) : σ.update (.error e) = (σ, .error e) := rfl

theorem Heap.mem_cells_iff {h : Heap} {a : Nat} : a ∈ h.cells ↔ ∃ v, h.cells[a]? = some v := by
  rw [Std.ExtTreeMap.mem_iff_isSome_getElem?, Option.isSome_iff_exists]

theorem Heap.get_of_mem {h : Heap} {a : Nat} (live : a ∈ h.cells) : ∃ v, h.get a = .ok v := by
  obtain ⟨v, cell⟩ := mem_cells_iff.mp live
  exact ⟨v, by simp [get, cell]⟩

theorem Heap.get_of_not_mem {h : Heap} {a : Nat} (dead : a ∉ h.cells) :
    h.get a = .error (.invalidAddress a) := by
  simp [get, Std.ExtTreeMap.getElem?_eq_none dead]

theorem Heap.put_of_mem {h : Heap} {a : Nat} (live : a ∈ h.cells) (v : Value) :
    h.put a v = .ok { h with cells := h.cells.insert a v } := by
  simp [put, live]

theorem Store.bindTo_of_ty {x : String} {v old : Value} (bound : σ.symbols[x]? = some old)
    (type : old.ty = v.ty) :
    σ.bindTo x v = ({ σ with symbols := σ.symbols.insert x v }, .ok {}) := by
  simp [bindTo, Symbols.assign, bound, type]

theorem Symbols.referenceOf_eq_ok_iff {σ : Symbols} {x : String} {a : Nat} {t : Ty} :
    σ.referenceOf x = .ok (a, t) ↔ σ[x]? = some (.ref a t) := by
  cases found : σ[x]? with
  | none => simp [referenceOf, valueOf, found]
  | some v => cases v <;> simp [referenceOf, valueOf, found]

theorem Store.referenceOf_eq_ok_iff {x : String} {a : Nat} {t : Ty} :
    σ.referenceOf x = .ok (a, t) ↔ σ.symbols[x]? = some (.ref a t) :=
  Symbols.referenceOf_eq_ok_iff

theorem Store.checkReadTarget_eq_ok_iff {x : String} :
    σ.checkReadTarget x = .ok () ↔ ∃ n, σ.symbols[x]? = some (.int n) := by
  cases found : σ.symbols[x]? with
  | none => simp [checkReadTarget, Symbols.checkReadTarget, Symbols.valueOf, found]
  | some v => cases v <;> simp [checkReadTarget, Symbols.checkReadTarget, Symbols.valueOf, found, Value.ty]

variable {ν : Valuation} {construct x : String} {t : Ty} {e : Expr} {v : Value} {err : Fault}

theorem Valuation.fitting_of_ty (value : ν e = .ok v) :
    ν.fitting construct x v.ty e = .ok v := by
  simp [fitting, value]

theorem Valuation.fitting_of_ne (value : ν e = .ok v) (type : v.ty ≠ t) :
    ν.fitting construct x t e = .error (.cellType construct x t v.ty) := by
  simp [fitting, value, type]

theorem Valuation.fitting_of_error (value : ν e = .error err) :
    ν.fitting construct x t e = .error err := by
  simp [fitting, value]

end Operations

/-! ### Actions and execution -/

namespace Acts

variable {ν : Valuation} {disk : Disk} {σ σ' : Store} {s : Stmt} {o : Option Fault}

/-- An action is what execution does. -/
theorem execBy_eq (acts : Acts ν disk σ s σ' o) : s.execBy ν disk σ = (σ', Effect.after o) := by
  cases acts with
  | nop => rfl
  | declare fresh => simp [Stmt.execBy, Symbols.declare, fresh, Effect.after]
  | declareAgain bound => simp [Stmt.execBy, Symbols.declare, bound, Effect.after]
  | assign value bound type =>
    simp [Stmt.execBy, value, Store.bindTo_of_ty bound type, Effect.after]
  | assignNoValue value => simp [Stmt.execBy, value, Effect.after]
  | assignUnbound value unbound =>
    simp [Stmt.execBy, value, Store.bindTo, Symbols.assign, unbound, Effect.after]
  | assignMistyped value bound type =>
    simp [Stmt.execBy, value, Store.bindTo, Symbols.assign, bound, type, Effect.after]
  | print value => simp [Stmt.execBy, value, Effect.after]
  | printNoValue value => simp [Stmt.execBy, value, Effect.after]
  | alloc bound value =>
    have target := Store.referenceOf_eq_ok_iff.mpr bound
    simp only [Stmt.execBy, Store.alloc, target, Valuation.fitting_of_ty value, Fault.ok_bind,
      Fault.pure_eq_ok]
    -- the new reference has the type of the old one, so binding it cannot fail any more
    exact Store.bindTo_of_ty bound rfl
  | allocNoTarget target => simp [Stmt.execBy, Store.alloc, target, Effect.after]
  | allocNoValue bound value =>
    have target := Store.referenceOf_eq_ok_iff.mpr bound
    simp [Stmt.execBy, Store.alloc, target, Valuation.fitting_of_error value, Effect.after]
  | allocMistyped bound value type =>
    have target := Store.referenceOf_eq_ok_iff.mpr bound
    simp [Stmt.execBy, Store.alloc, target, Valuation.fitting_of_ne value type, Effect.after]
  | write bound live value =>
    have target := Store.referenceOf_eq_ok_iff.mpr bound
    -- the look-up only tells that the cell is there; what it yields is not used
    obtain ⟨old, cell⟩ := Heap.get_of_mem live
    simp [Stmt.execBy, Store.write, target, cell, Valuation.fitting_of_ty value, Heap.put_of_mem live,
      Effect.after]
  | writeNoTarget target => simp [Stmt.execBy, Store.write, target, Effect.after]
  | writeNoCell bound dead =>
    have target := Store.referenceOf_eq_ok_iff.mpr bound
    simp [Stmt.execBy, Store.write, target, Heap.get_of_not_mem dead, Effect.after]
  | writeNoValue bound live value =>
    have target := Store.referenceOf_eq_ok_iff.mpr bound
    obtain ⟨old, cell⟩ := Heap.get_of_mem live
    simp [Stmt.execBy, Store.write, target, cell, Valuation.fitting_of_error value, Effect.after]
  | writeMistyped bound live value type =>
    have target := Store.referenceOf_eq_ok_iff.mpr bound
    obtain ⟨old, cell⟩ := Heap.get_of_mem live
    simp [Stmt.execBy, Store.write, target, cell, Valuation.fitting_of_ne value type, Effect.after]
  | openFile named opened => simp [Stmt.execBy, named, opened, Effect.after]
  | openNoName named => simp [Stmt.execBy, named, Effect.after]
  | openRefused named refused => simp [Stmt.execBy, named, refused, Effect.after]
  | readInt bound named read number =>
    have target := Store.checkReadTarget_eq_ok_iff.mpr ⟨_, bound⟩
    simp only [Stmt.execBy, Store.readInt, target, named, read, number, Fault.ok_bind, Except.bind]
    exact Store.bindTo_of_ty bound rfl
  | readNoTarget target => simp [Stmt.execBy, Store.readInt, target, Effect.after]
  | readNoName bound named =>
    have target := Store.checkReadTarget_eq_ok_iff.mpr ⟨_, bound⟩
    simp [Stmt.execBy, Store.readInt, target, named, Effect.after]
  | readRefused bound named refused =>
    have target := Store.checkReadTarget_eq_ok_iff.mpr ⟨_, bound⟩
    simp [Stmt.execBy, Store.readInt, target, named, refused, Except.bind, Effect.after]
  | readNoNumber bound named read number =>
    have target := Store.checkReadTarget_eq_ok_iff.mpr ⟨_, bound⟩
    simp [Stmt.execBy, Store.readInt, target, named, read, number, Except.bind, Effect.after]
  | closeFile named closed => simp [Stmt.execBy, named, closed, Effect.after]
  | closeNoName named => simp [Stmt.execBy, named, Effect.after]
  | closeRefused named refused => simp [Stmt.execBy, named, refused, Effect.after]

theorem exists_assign (ν : Valuation) (disk : Disk) (σ : Store) (x : String) (e : Expr) :
    ∃ σ' o, Acts ν disk σ (.assign x e) σ' o := by
  cases value : ν e with
  | error err => exact ⟨_, _, .assignNoValue value⟩
  | ok v =>
    cases bound : σ.symbols[x]? with
    | none => exact ⟨_, _, .assignUnbound value bound⟩
    | some old =>
      by_cases type : old.ty = v.ty
      · exact ⟨_, _, .assign value bound type⟩
      · exact ⟨_, _, .assignMistyped value bound type⟩

theorem exists_alloc (ν : Valuation) (disk : Disk) (σ : Store) (x : String) (e : Expr) :
    ∃ σ' o, Acts ν disk σ (.alloc x e) σ' o := by
  -- the cases follow the order of the checks: variable, value, type
  cases target : σ.referenceOf x with
  | error err => exact ⟨_, _, .allocNoTarget target⟩
  | ok r =>
    have bound := Store.referenceOf_eq_ok_iff.mp target
    cases value : ν e with
    | error err => exact ⟨_, _, .allocNoValue bound value⟩
    | ok v =>
      by_cases type : v.ty = r.2
      · exact ⟨_, _, .alloc (type ▸ bound) value⟩
      · exact ⟨_, _, .allocMistyped bound value type⟩

theorem exists_write (ν : Valuation) (disk : Disk) (σ : Store) (x : String) (e : Expr) :
    ∃ σ' o, Acts ν disk σ (.write x e) σ' o := by
  -- as for an allocation, but the cell is looked for before the value
  cases target : σ.referenceOf x with
  | error err => exact ⟨_, _, .writeNoTarget target⟩
  | ok r =>
    have bound := Store.referenceOf_eq_ok_iff.mp target
    by_cases live : r.1 ∈ σ.heap.cells
    · cases value : ν e with
      | error err => exact ⟨_, _, .writeNoValue bound live value⟩
      | ok v =>
        by_cases type : v.ty = r.2
        · exact ⟨_, _, .write (type ▸ bound) live value⟩
        · exact ⟨_, _, .writeMistyped bound live value type⟩
    · exact ⟨_, _, .writeNoCell bound live⟩

theorem exists_readInt (ν : Valuation) (disk : Disk) (σ : Store) (f : Expr) (x : String) :
    ∃ σ' o, Acts ν disk σ (.readInt f x) σ' o := by
  cases target : σ.checkReadTarget x with
  | error err => exact ⟨_, _, .readNoTarget target⟩
  | ok _ =>
    obtain ⟨old, bound⟩ := Store.checkReadTarget_eq_ok_iff.mp target
    cases named : ν.fileName f with
    | error err => exact ⟨_, _, .readNoName bound named⟩
    | ok name =>
      obtain ⟨files, read⟩ : ∃ files, (σ.files.readLine disk name).1 = files := ⟨_, rfl⟩
      cases answer : (σ.files.readLine disk name).2 with
      | error err => exact ⟨_, _, .readRefused bound named (Prod.ext read answer)⟩
      | ok line =>
        cases number : Store.lineValue name line with
        | error err => exact ⟨_, _, .readNoNumber bound named (Prod.ext read answer) number⟩
        | ok n => exact ⟨_, _, .readInt bound named (Prod.ext read answer) number⟩

/-- Every elementary statement acts on every store. -/
theorem exists_of_elementary (ν : Valuation) (disk : Disk) (σ : Store) (simple : s.elementary) :
    ∃ σ' o, Acts ν disk σ s σ' o := by
  cases s with
  | nop => exact ⟨_, _, .nop⟩
  | declare x t =>
    by_cases bound : x ∈ σ.symbols
    · exact ⟨_, _, .declareAgain bound⟩
    · exact ⟨_, _, .declare bound⟩
  | assign x e => exact exists_assign ν disk σ x e
  | seq a b => cases simple
  | ite g a b => cases simple
  | loop g b => cases simple
  | print e =>
    cases value : ν e with
    | error err => exact ⟨_, _, .printNoValue value⟩
    | ok v => exact ⟨_, _, .print value⟩
  | fork b => cases simple
  | alloc x e => exact exists_alloc ν disk σ x e
  | write x e => exact exists_write ν disk σ x e
  | openFile f =>
    cases named : ν.fileName f with
    | error err => exact ⟨_, _, .openNoName named⟩
    | ok name =>
      cases opened : σ.files.openFile disk name with
      | error err => exact ⟨_, _, .openRefused named opened⟩
      | ok files => exact ⟨_, _, .openFile named opened⟩
  | readInt f x => exact exists_readInt ν disk σ f x
  | closeFile f =>
    cases named : ν.fileName f with
    | error err => exact ⟨_, _, .closeNoName named⟩
    | ok name =>
      cases closed : σ.files.closeFile name with
      | error err => exact ⟨_, _, .closeRefused named closed⟩
      | ok files => exact ⟨_, _, .closeFile named closed⟩

end Acts

/-- Execution does nothing to an elementary statement but act. -/
theorem Stmt.execBy_acts (ν : Valuation) (disk : Disk) (σ : Store) {s : Stmt} (simple : s.elementary) :
    ∃ σ' o, Acts ν disk σ s σ' o ∧ s.execBy ν disk σ = (σ', Effect.after o) := by
  obtain ⟨σ', o, acts⟩ := Acts.exists_of_elementary ν disk σ simple
  exact ⟨σ', o, acts, acts.execBy_eq⟩

theorem Acts.exec_eq {disk : Disk} {σ σ' : Store} {s : Stmt} {o : Option Fault}
    (acts : Acts σ.eval disk σ s σ' o) : s.exec disk σ = (σ', Effect.after o) :=
  acts.execBy_eq

/-- Execution by itself, likewise. -/
theorem Stmt.exec_acts (disk : Disk) (σ : Store) {s : Stmt} (simple : s.elementary) :
    ∃ σ' o, Acts σ.eval disk σ s σ' o ∧ s.exec disk σ = (σ', Effect.after o) :=
  s.execBy_acts σ.eval disk σ simple

theorem Stmt.execBy_fst_of_not_elementary (ν : Valuation) (disk : Disk) (σ : Store) {s : Stmt}
    (compound : ¬s.elementary) : (s.execBy ν disk σ).1 = σ := by
  cases s with
  | seq a b => rfl
  | ite g a b => rfl
  | loop g b => rfl
  | fork b => rfl
  | _ => simp [elementary] at compound

end Lockstep

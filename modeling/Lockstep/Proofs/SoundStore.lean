import Lockstep.Proofs.Action

/-!
References in stores that programs build.

A program in which no reference is written down as a constant gets references only from declarations,
which give the null reference, and from allocations. A reference then is null or refers to a live cell
that holds a value of the type that the reference carries. Every statement keeps this, for its own
variables and for all other threads on the heap, since it never discards a cell and never changes the
type of one.
-/

namespace Lockstep

/-! ### Programs without reference constants -/

/-- Whether no constant of an expression is a reference. -/
def Expr.refFree : Expr → Bool
  | const v => v.address?.isNone
  | var _ => true
  | arith _ l r => l.refFree && r.refFree
  | logic _ l r => l.refFree && r.refFree
  | rel _ l r => l.refFree && r.refFree
  | read e => e.refFree

/-- Whether no constant in the expressions of a statement is a reference. -/
def Stmt.refFree : Stmt → Bool
  | nop => true
  | declare _ _ => true
  | assign _ e => e.refFree
  | seq a b => a.refFree && b.refFree
  | ite g a b => g.refFree && a.refFree && b.refFree
  | loop g b => g.refFree && b.refFree
  | print e => e.refFree
  | fork b => b.refFree
  | alloc _ e => e.refFree
  | write _ e => e.refFree
  | openFile f => f.refFree
  | readInt f _ => f.refFree
  | closeFile f => f.refFree

/-! ### Sound values, heaps and stores -/

/-- A reference is sound if it is null or refers to a live cell that holds a value of the type it
carries; every other value is sound. -/
def Value.SoundIn (h : Heap) : Value → Prop
  | ref a t => a = 0 ∨ ∃ v, h.cells[a]? = some v ∧ v.ty = t
  | _ => True

/-- All that is stored in the cells is sound, and the next address is not in use and not null. -/
structure Heap.Sound (h : Heap) : Prop where
  null : 0 ∉ h.cells
  next_pos : 0 < h.next
  below : ∀ a ∈ h.cells, a < h.next
  cells : ∀ (a : Nat) v, h.cells[a]? = some v → v.SoundIn h

/-- All variables hold sound values. -/
def Symbols.SoundIn (h : Heap) (σ : Symbols) : Prop :=
  ∀ (x : String) v, σ[x]? = some v → v.SoundIn h

/-- A failed look-up in a heap was for the null reference. -/
def Fault.Sound (e : Fault) : Prop :=
  ∀ a, e = .invalidAddress a → a = 0

/-- The live cells of `h` are live in `h'`, with values of the types that they had. -/
def Heap.Grows (h h' : Heap) : Prop :=
  ∀ (a : Nat) v, h.cells[a]? = some v → ∃ v', h'.cells[a]? = some v' ∧ v'.ty = v.ty

structure Store.Sound (σ : Store) : Prop where
  heap : σ.heap.Sound
  symbols : σ.symbols.SoundIn σ.heap

theorem Heap.Grows.refl (h : Heap) : h.Grows h :=
  fun _ v found => ⟨v, found, rfl⟩

theorem Heap.Grows.trans {h₁ h₂ h₃ : Heap} (first : h₁.Grows h₂) (second : h₂.Grows h₃) :
    h₁.Grows h₃ := by
  intro a v found
  obtain ⟨v₂, found₂, type₂⟩ := first a v found
  obtain ⟨v₃, found₃, type₃⟩ := second a v₂ found₂
  exact ⟨v₃, found₃, type₃.trans type₂⟩

theorem Value.SoundIn.mono {h h' : Heap} (grows : h.Grows h') {v : Value} (sound : v.SoundIn h) :
    v.SoundIn h' := by
  cases v with
  | ref a t =>
    rcases sound with null | ⟨v, found, type⟩
    · exact .inl null
    · obtain ⟨v', found', type'⟩ := grows a v found
      exact .inr ⟨v', found', type'.trans type⟩
  | _ => trivial

theorem Symbols.SoundIn.mono {h h' : Heap} (grows : h.Grows h') {σ : Symbols}
    (sound : σ.SoundIn h) : σ.SoundIn h' :=
  fun x v bound => (sound x v bound).mono grows

theorem Symbols.SoundIn.insert {h : Heap} {σ : Symbols} (sound : σ.SoundIn h) (x : String)
    {v : Value} (value : v.SoundIn h) : SoundIn h (σ.insert x v) := by
  intro y u bound
  rw [Std.ExtTreeMap.getElem?_insert] at bound
  split at bound
  · cases bound
    exact value
  · exact sound y u bound

theorem Ty.initial_soundIn (h : Heap) (t : Ty) : t.initial.SoundIn h := by
  cases t with
  | ref t => exact .inl rfl
  | _ => trivial

/-! ### Evaluation -/

/-- An outcome that has the property `P` if it is a result, and is sound if it is a failure. -/
def Yields {α : Type} (P : α → Prop) : Except Fault α → Prop
  | .ok a => P a
  | .error e => e.Sound

theorem Yields.bind {α β : Type} {P : α → Prop} {Q : β → Prop} {r : Except Fault α}
    {next : α → Except Fault β} (first : Yields P r) (then_ : ∀ a, P a → Yields Q (next a)) :
    Yields Q (r >>= next) := by
  cases r with
  | error e => exact first
  | ok a => exact then_ a first

theorem Yields.map {α β : Type} {P : α → Prop} {Q : β → Prop} {r : Except Fault α} {f : α → β}
    (yields : Yields P r) (maps : ∀ a, P a → Q (f a)) : Yields Q (r.map f) := by
  cases r with
  | error e => exact yields
  | ok a => exact maps a yields

theorem Value.expectInt_yields (side : Side) (v : Value) :
    Yields (fun _ => True) (v.expectInt side) := by
  cases v <;> simp [expectInt, int?, Yields, Fault.Sound, Fault.operandNot]

theorem Value.expectBool_yields (side : Side) (v : Value) :
    Yields (fun _ => True) (v.expectBool side) := by
  cases v <;> simp [expectBool, bool?, Yields, Fault.Sound, Fault.operandNot]

theorem Value.expectAddress_yields {h : Heap} {v : Value} (sound : v.SoundIn h) :
    Yields (fun a => ∃ t, (ref a t).SoundIn h) v.expectAddress := by
  cases v with
  | ref a t => exact ⟨t, sound⟩
  | _ => simp [expectAddress, address?, Yields, Fault.Sound, Fault.readOf]

theorem Comparison.accept_yields (op : Comparison) (v : Value) :
    Yields (fun _ => True) (op.accept v) := by
  simp only [accept]
  split
  · trivial
  · simp [Yields, Fault.Sound, Fault.operandNot]

theorem Comparison.compare_yields (op : Comparison) (h : Heap) (a b : Value) :
    Yields (·.SoundIn h) (op.compare a b) := by
  simp only [compare]
  split
  · trivial
  · simp [Yields, Fault.Sound, Fault.operandNot]

theorem Expr.arithmetic_yields (op : Arith) (l r : Expr) (h : Heap) (a b : Int64) :
    Yields (·.SoundIn h) (arithmetic op l r a b) := by
  simp only [arithmetic]
  split
  · simp [Yields, Fault.Sound]
  · split
    · trivial
    · simp [Yields, Fault.Sound]

theorem Heap.get_yields {h : Heap} (sound : h.Sound) {a : Nat} {t : Ty}
    (value : (Value.ref a t).SoundIn h) : Yields (·.SoundIn h) (h.get a) := by
  cases found : h.cells[a]? with
  | some v =>
    simp only [get, found]
    exact sound.cells a v found
  | none =>
    simp only [get, found]
    -- a sound reference without a cell is null
    intro b same
    cases same
    rcases value with null | ⟨v, live, -⟩
    · exact null
    · simp [found] at live

/-- Evaluation yields sound values, and looks for no missing cell but that of the null reference. -/
theorem Expr.eval_yields {σ : Symbols} {h : Heap} (heap : h.Sound) (symbols : σ.SoundIn h)
    {e : Expr} (free : e.refFree) : Yields (·.SoundIn h) (e.eval σ h) := by
  -- references come from variables and cells only; operators yield none
  induction e with
  | const v =>
    cases v with
    | ref a t => cases free
    | _ => trivial
  | var x =>
    cases bound : σ[x]? with
    | none => simp [eval, Symbols.valueOf, bound, Yields, Fault.Sound]
    | some v =>
      simp only [eval, Symbols.valueOf, bound]
      exact symbols x v bound
  | arith op l r ihl ihr =>
    simp only [refFree, Bool.and_eq_true] at free
    exact (ihl free.1).bind fun v _ => (v.expectInt_yields .first).bind fun a _ =>
      (ihr free.2).bind fun u _ => (u.expectInt_yields .second).bind fun b _ =>
        arithmetic_yields op l r h a b
  | logic op l r ihl ihr =>
    simp only [refFree, Bool.and_eq_true] at free
    exact (ihl free.1).bind fun v _ => (v.expectBool_yields .first).bind fun a _ =>
      (ihr free.2).bind fun u _ => (u.expectBool_yields .second).bind fun b _ => trivial
  | rel op l r ihl ihr =>
    simp only [refFree, Bool.and_eq_true] at free
    exact (ihl free.1).bind fun v _ => (op.accept_yields v).bind fun a _ =>
      (ihr free.2).bind fun u _ => op.compare_yields h a u
  | read e ih =>
    refine (ih free).bind fun v sound => (Value.expectAddress_yields sound).bind fun a reference => ?_
    obtain ⟨t, cell⟩ := reference
    exact Heap.get_yields heap cell

/-! ### What statements ask for -/

theorem Yields.of_ok {α : Type} {P : α → Prop} {r : Except Fault α} {a : α} (yields : Yields P r)
    (result : r = .ok a) : P a := by
  rwa [result] at yields

theorem Yields.of_error {α : Type} {P : α → Prop} {r : Except Fault α} {e : Fault}
    (yields : Yields P r) (failure : r = .error e) : e.Sound := by
  rwa [failure] at yields

theorem OpenFiles.openFile_yields (disk : Disk) (files : OpenFiles) (name : String) :
    Yields (fun _ => True) (files.openFile disk name) := by
  simp only [openFile]
  split
  · simp [Yields, Fault.Sound, Fault.alreadyOpen]
  · split
    · trivial
    · simp [Yields, Fault.Sound]

theorem OpenFiles.readLine_yields (disk : Disk) (files : OpenFiles) (name : String) :
    Yields (fun _ => True) (files.readLine disk name).2 := by
  simp only [readLine]
  split
  · simp [Yields, Fault.Sound, Fault.notOpen]
  · split
    · simp [Yields, Fault.Sound]
    · trivial
    · split
      · trivial
      · simp [Yields, Fault.Sound]

theorem OpenFiles.closeFile_yields (files : OpenFiles) (name : String) :
    Yields (fun _ => True) (files.closeFile name) := by
  simp only [closeFile]
  split
  · trivial
  · simp [Yields, Fault.Sound, Fault.notOpen]

namespace Store

theorem lineValue_yields (name : String) (line : Option String) :
    Yields (fun _ => True) (lineValue name line) := by
  cases line with
  | none => trivial
  | some line =>
    simp only [lineValue]
    split
    · trivial
    · simp [Yields, Fault.Sound, Fault.lineNotInt]

end Store

namespace Symbols

theorem referenceOf_yields (σ : Symbols) (x : String) : Yields (fun _ => True) (σ.referenceOf x) := by
  cases bound : σ[x]? with
  | none => simp [referenceOf, valueOf, bound, Yields, Fault.Sound]
  | some v =>
    cases v <;> simp [referenceOf, valueOf, bound, Yields, Fault.Sound, Fault.notReference]

theorem checkReadTarget_yields (σ : Symbols) (x : String) :
    Yields (fun _ => True) (σ.checkReadTarget x) := by
  cases bound : σ[x]? with
  | none => simp [checkReadTarget, valueOf, bound, Yields, Fault.Sound]
  | some v =>
    simp only [checkReadTarget, valueOf, bound, Fault.ok_bind]
    split
    · trivial
    · simp [Yields, Fault.Sound, Fault.readTargetNotInt]

end Symbols

/-- Expressions without reference constants have sound values, or look for no missing cell but that of the
null reference. -/
def Valuation.SoundIn (h : Heap) (ν : Valuation) : Prop :=
  ∀ e : Expr, e.refFree → Yields (·.SoundIn h) (ν e)

namespace Valuation.SoundIn

variable {ν : Valuation} {h : Heap} (sound : ν.SoundIn h) {e : Expr} (free : e.refFree)
include sound free

theorem guard_yields (construct : String) : Yields (fun _ => True) (ν.guard construct e) := by
  refine (sound e free).bind fun v _ => ?_
  cases v <;> simp [Value.bool?, Yields, Fault.Sound, Fault.guardNotBool]

theorem fileName_yields : Yields (fun _ => True) (ν.fileName e) := by
  refine (sound e free).bind fun v _ => ?_
  cases v <;> simp [Value.string?, Yields, Fault.Sound, Fault.fileNameNotString]

end Valuation.SoundIn

/-! ### What statements change -/

namespace Heap

variable {h : Heap} {v : Value}

theorem Sound.fresh (sound : h.Sound) : h.next ∉ h.cells :=
  fun live => Nat.lt_irrefl _ (sound.below _ live)

theorem Sound.grows_allocate (sound : h.Sound) (v : Value) : h.Grows (h.allocate v).2 := by
  intro a u found
  have other : h.next ≠ a := fun same => sound.fresh (same ▸ mem_cells_iff.mpr ⟨u, found⟩)
  exact ⟨u, by simp [getElem?_allocate, other, found], rfl⟩

theorem Sound.allocate (sound : h.Sound) (value : v.SoundIn h) : (h.allocate v).2.Sound where
  null := by
    -- addresses start at one
    have differs : h.next ≠ 0 := Nat.ne_of_gt sound.next_pos
    simpa [Heap.allocate, differs] using sound.null
  next_pos := Nat.succ_pos _
  below := by
    intro a live
    simp only [Heap.allocate, Std.ExtTreeMap.mem_insert, Std.compare_eq_iff_eq] at live
    rcases live with rfl | old
    · exact Nat.lt_succ_self _
    · exact Nat.lt_succ_of_lt (sound.below a old)
  cells := by
    intro a u found
    rw [getElem?_allocate] at found
    split at found
    · cases found
      exact value.mono (sound.grows_allocate _)
    · exact (sound.cells a u found).mono (sound.grows_allocate _)

theorem ref_next_soundIn (h : Heap) (v : Value) :
    (Value.ref h.next v.ty).SoundIn (h.allocate v).2 :=
  .inr ⟨v, by simp [getElem?_allocate], rfl⟩

theorem grows_insert {a : Nat} {old : Value} (cell : h.cells[a]? = some old)
    (type : old.ty = v.ty) : h.Grows { h with cells := h.cells.insert a v } := by
  intro b u found
  simp only [Std.ExtTreeMap.getElem?_insert, Std.compare_eq_iff_eq]
  split
  next same =>
    subst same
    rw [cell] at found
    cases found
    exact ⟨v, rfl, type.symm⟩
  · exact ⟨u, found, rfl⟩

theorem Sound.insert (sound : h.Sound) (value : v.SoundIn h) {a : Nat} {old : Value}
    (cell : h.cells[a]? = some old) (type : old.ty = v.ty) :
    Sound { h with cells := h.cells.insert a v } where
  null := by
    have differs : a ≠ 0 := fun same => sound.null (same ▸ mem_cells_iff.mpr ⟨old, cell⟩)
    simpa [differs] using sound.null
  next_pos := sound.next_pos
  below := by
    intro b member
    simp only [Std.ExtTreeMap.mem_insert, Std.compare_eq_iff_eq] at member
    rcases member with rfl | other
    · exact sound.below _ (mem_cells_iff.mpr ⟨old, cell⟩)
    · exact sound.below b other
  cells := by
    intro b u found
    simp only [Std.ExtTreeMap.getElem?_insert, Std.compare_eq_iff_eq] at found
    split at found
    · cases found
      exact value.mono (grows_insert cell type)
    · exact (sound.cells b u found).mono (grows_insert cell type)

/-- A sound reference to a live cell tells the type of the cell. -/
theorem Sound.cell_of_ref (sound : h.Sound) {a : Nat} {t : Ty} (ref : (Value.ref a t).SoundIn h)
    (live : a ∈ h.cells) : ∃ old, h.cells[a]? = some old ∧ old.ty = t := by
  rcases ref with null | cell
  · exact absurd (null ▸ live) sound.null
  · exact cell

end Heap

/-- The store `σ'` is sound, and what is sound in the heap of `σ` is sound in its heap. -/
structure Store.Leads (σ σ' : Store) : Prop where
  sound : σ'.Sound
  grows : σ.heap.Grows σ'.heap

namespace Acts

variable {ν : Valuation} {disk : Disk} {σ σ' : Store} {s : Stmt} {o : Option Fault}

/-- An elementary statement keeps a store sound, whether it fails or not. -/
theorem leads (acts : Acts ν disk σ s σ' o) (sound : σ.Sound) (values : ν.SoundIn σ.heap)
    (free : s.refFree) : σ.Leads σ' := by
  have same : σ.Leads σ := ⟨sound, .refl _⟩
  have refiled (files : OpenFiles) : σ.Leads { σ with files } :=
    ⟨⟨sound.heap, sound.symbols⟩, .refl _⟩
  have rebound (x : String) {v : Value} (value : v.SoundIn σ.heap) (files : OpenFiles) :
      σ.Leads { σ with files, symbols := σ.symbols.insert x v } :=
    ⟨⟨sound.heap, sound.symbols.insert x value⟩, .refl _⟩
  cases acts with
  | nop => exact same
  | declare fresh => exact rebound _ (Ty.initial_soundIn _ _) _
  | declareAgain bound => exact same
  | assign value bound type => exact rebound _ ((values _ free).of_ok value) _
  | assignNoValue value => exact same
  | assignUnbound value unbound => exact same
  | assignMistyped value bound type => exact same
  | print value => exact ⟨⟨sound.heap, sound.symbols⟩, .refl _⟩
  | printNoValue value => exact same
  | alloc bound value =>
    -- the new reference is sound in the larger heap only
    have grows := sound.heap.grows_allocate
    exact ⟨⟨sound.heap.allocate ((values _ free).of_ok value),
      (sound.symbols.mono (grows _)).insert _ (Heap.ref_next_soundIn _ _)⟩, grows _⟩
  | allocNoTarget target => exact same
  | allocNoValue bound value => exact same
  | allocMistyped bound value type => exact same
  | write bound live value =>
    -- the reference is sound, so the cell holds a value of the type that the statement asks for
    obtain ⟨old, cell, type⟩ := sound.heap.cell_of_ref (sound.symbols _ _ bound) live
    have grows := Heap.grows_insert cell type
    exact ⟨⟨sound.heap.insert ((values _ free).of_ok value) cell type,
      sound.symbols.mono grows⟩, grows⟩
  | writeNoTarget target => exact same
  | writeNoCell bound dead => exact same
  | writeNoValue bound live value => exact same
  | writeMistyped bound live value type => exact same
  | openFile named opened => exact refiled _
  | openNoName named => exact same
  | openRefused named refused => exact same
  | readInt bound named read number =>
    have value (n : Int64) : (Value.int n).SoundIn σ.heap := trivial
    exact rebound _ (value _) _
  | readNoTarget target => exact same
  | readNoName bound named => exact same
  | readRefused bound named refused => exact refiled _
  | readNoNumber bound named read number => exact refiled _
  | closeFile named closed => exact refiled _
  | closeNoName named => exact same
  | closeRefused named refused => exact same

/-- An elementary statement looks for no missing cell but that of the null reference. -/
theorem fault_sound {e : Fault} (acts : Acts ν disk σ s σ' (some e)) (sound : σ.Sound)
    (values : ν.SoundIn σ.heap) (free : s.refFree) : e.Sound := by
  cases acts with
  | declareAgain bound => simp [Fault.Sound, Fault.redeclared]
  | assignNoValue value => exact (values _ free).of_error value
  | assignUnbound value unbound => simp [Fault.Sound]
  | assignMistyped value bound type => simp [Fault.Sound, Fault.assignedType]
  | printNoValue value => exact (values _ free).of_error value
  | allocNoTarget target => exact (Symbols.referenceOf_yields _ _).of_error target
  | allocNoValue bound value => exact (values _ free).of_error value
  | allocMistyped bound value type => simp [Fault.Sound, Fault.cellType]
  | writeNoTarget target => exact (Symbols.referenceOf_yields _ _).of_error target
  | writeNoCell bound dead =>
    exact (Heap.get_yields sound.heap (sound.symbols _ _ bound)).of_error (Heap.get_of_not_mem dead)
  | writeNoValue bound live value => exact (values _ free).of_error value
  | writeMistyped bound live value type => simp [Fault.Sound, Fault.cellType]
  | openNoName named => exact (values.fileName_yields free).of_error named
  | openRefused named refused => exact (OpenFiles.openFile_yields _ _ _).of_error refused
  | readNoTarget target => exact (Symbols.checkReadTarget_yields _ _).of_error target
  | readNoName bound named => exact (values.fileName_yields free).of_error named
  | readRefused bound named refused =>
    exact (OpenFiles.readLine_yields _ _ _).of_error (congrArg Prod.snd refused)
  | readNoNumber bound named read number => exact (Store.lineValue_yields _ _).of_error number
  | closeNoName named => exact (values.fileName_yields free).of_error named
  | closeRefused named refused => exact (OpenFiles.closeFile_yields _ _).of_error refused

end Acts

/-! ### Execution -/

/-- What is left to be done has no reference constants, and a thread to start has the variables that the
store has. -/
structure Effect.Sound (σ : Store) (effect : Effect) : Prop where
  push : ∀ s ∈ effect.push, s.refFree
  spawn : ∀ c, effect.spawn = some c → c.body.refFree ∧ c.symbols = σ.symbols

theorem Effect.sound_empty (σ : Store) : Effect.Sound σ {} where
  push := by simp
  spawn := by simp

/-- A statement without reference constants keeps a store sound; what it leaves to be done has none
either, and a failure of it is sound. -/
theorem Stmt.execBy_sound {ν : Valuation} (disk : Disk) {σ : Store} (sound : σ.Sound)
    (values : ν.SoundIn σ.heap) {s : Stmt} (free : s.refFree) :
    σ.Leads (s.execBy ν disk σ).1 ∧
      Yields (Effect.Sound (s.execBy ν disk σ).1) (s.execBy ν disk σ).2 := by
  have same : σ.Leads σ := ⟨sound, .refl _⟩
  by_cases simple : s.elementary
  · obtain ⟨σ', o, acts, result⟩ := execBy_acts ν disk σ simple
    rw [result]
    refine ⟨acts.leads sound values free, ?_⟩
    cases o with
    | none => exact Effect.sound_empty σ'
    | some e => exact acts.fault_sound sound values free
  · cases s with
    | seq a b =>
      simp only [refFree, Bool.and_eq_true] at free
      exact ⟨same, by simp [free], by simp⟩
    | ite g a b =>
      simp only [refFree, Bool.and_eq_true] at free
      refine ⟨same, (values.guard_yields free.1.1 "if").map fun c _ => ⟨?_, by simp⟩⟩
      cases c <;> simp [free]
    | loop g b =>
      simp only [refFree, Bool.and_eq_true] at free
      refine ⟨same, (values.guard_yields free.1 "while").map fun c _ => ⟨?_, by simp⟩⟩
      -- the loop is armed again with its own guard and body
      cases c <;> simp [refFree, free]
    | fork b =>
      have body : b.refFree := free
      exact ⟨same, by simp, by simp [execBy, body]⟩
    | _ => simp [elementary] at simple

end Lockstep

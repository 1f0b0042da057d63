import Lockstep.Total
import Lockstep.Proofs.Structured

/-!
Sequences flatten.

A list of statements can be nested as one sequence, or as a sequence of two sequences. The two trees take a
thread through different stacks, but every compound statement costs one step that only takes it apart: what
comes to an end at all does so after the steps of the elements, one after another, and one step for each
compound statement. `Lags` compares two stacks in this way, and holds between stacks that differ in a part
if it holds between the parts.
-/

namespace Lockstep

/-! ### Clearing a stack -/

/-- `Clears disk stack σ n C σ' o` says that the statements of a stack, popped and executed with all that
they push, are done with after `n` steps and have turned the store `σ` into `σ'`, or that the last of these
steps fails and leaves `σ'`. The threads `C` have been asked for by then. -/
inductive Clears (disk : Disk) :
    List Stmt → Store → Nat → List Spawn → Store → Option Fault → Prop where
  | done {σ : Store} : Clears disk [] σ 0 [] σ none
  | fails {s : Stmt} {rest : List Stmt} {σ σ' : Store} {e : Fault}
    (executed : s.exec disk σ = (σ', .error e)) : Clears disk (s :: rest) σ 1 [] σ' (some e)
  | step {s : Stmt} {rest : List Stmt} {σ σ₁ σ' : Store} {effect : Effect} {n : Nat} {C : List Spawn}
    {o : Option Fault} (executed : s.exec disk σ = (σ₁, .ok effect))
    (more : Clears disk (effect.push ++ rest) σ₁ n C σ' o) :
    Clears disk (s :: rest) σ (n + 1) (effect.spawn.toList ++ C) σ' o

section

variable {disk : Disk} {xs ys : List Stmt} {σ σ₁ σ' : Store} {m n : Nat} {C D : List Spawn}
  {o : Option Fault} {e : Fault}

namespace Clears

theorem append (front : Clears disk xs σ m C σ₁ none) (back : Clears disk ys σ₁ n D σ' o) :
    Clears disk (xs ++ ys) σ (m + n) (C ++ D) σ' o := by
  generalize ended : (none : Option Fault) = out at front
  induction front with
  | done => simpa using back
  | fails executed => cases ended
  | @step s rest σ σ₂ σ₁ effect m C _ executed more ih =>
    have later := ih back ended
    rw [List.append_assoc] at later
    have steps : m + 1 + n = m + n + 1 := by omega
    rw [steps, List.append_assoc]
    exact .step executed later

theorem append_fails (front : Clears disk xs σ n C σ' (some e)) (ys : List Stmt) :
    Clears disk (xs ++ ys) σ n C σ' (some e) := by
  generalize ended : some e = out at front
  induction front with
  | done => cases ended
  | fails executed => exact .fails executed
  | step executed more ih =>
    have later := ih ended
    rw [List.append_assoc] at later
    exact .step executed later

/-- What stands below is not touched before what stands above is done with. -/
theorem append_inv (clears : Clears disk (xs ++ ys) σ n C σ' o) :
    (∃ e, o = some e ∧ Clears disk xs σ n C σ' (some e)) ∨
    ∃ m k σ₁ C₁ C₂, Clears disk xs σ m C₁ σ₁ none ∧ Clears disk ys σ₁ k C₂ σ' o ∧
      n = m + k ∧ C = C₁ ++ C₂ := by
  generalize whole : xs ++ ys = stack at clears
  -- on the steps; the part above changes with each of them, the part below does not
  induction clears generalizing xs with
  | done =>
    obtain ⟨rfl, rfl⟩ := List.append_eq_nil_iff.mp whole
    exact .inr ⟨0, 0, _, [], [], .done, .done, rfl, rfl⟩
  | @fails s rest σ σ' e executed =>
    cases xs with
    | nil =>
      subst whole
      exact .inr ⟨0, 1, σ, [], [], .done, .fails executed, rfl, rfl⟩
    | cons x xs =>
      obtain ⟨rfl, -⟩ := List.cons_eq_cons.mp whole
      exact .inl ⟨e, rfl, .fails executed⟩
  | @step s rest σ σ₁ σ' effect n C o executed more ih =>
    cases xs with
    | nil =>
      subst whole
      exact .inr ⟨0, n + 1, σ, [], _, .done, .step executed more, (Nat.zero_add _).symm, rfl⟩
    | cons x xs =>
      obtain ⟨rfl, rfl⟩ := List.cons_eq_cons.mp whole
      rcases ih (List.append_assoc effect.push xs ys) with
        ⟨e, rfl, front⟩ | ⟨m, k, σ₂, C₁, C₂, front, back, rfl, rfl⟩
      · exact .inl ⟨e, rfl, .step executed front⟩
      · exact .inr ⟨m + 1, k, σ₂, _, C₂, .step executed front, back, by omega, by simp⟩

end Clears

/-! ### Stacks that come to the same with more steps -/

/-- The stack `S` comes to the same end as `T`; if that is no failure, `S` takes `k` steps more. -/
structure Lags (disk : Disk) (k : Nat) (S T : List Stmt) : Prop where
  forth {σ σ' : Store} {C : List Spawn} {o : Option Fault} {n : Nat} (clears : Clears disk S σ n C σ' o) :
    ∃ m, Clears disk T σ m C σ' o ∧ (o = none → n = m + k)
  back {σ σ' : Store} {C : List Spawn} {o : Option Fault} {m : Nat} (clears : Clears disk T σ m C σ' o) :
    ∃ n, Clears disk S σ n C σ' o ∧ (o = none → n = m + k)

namespace Lags

variable {k l : Nat} {S T U : List Stmt}

theorem refl (disk : Disk) (S : List Stmt) : Lags disk 0 S S where
  forth clears := ⟨_, clears, fun _ => rfl⟩
  back clears := ⟨_, clears, fun _ => rfl⟩

theorem trans (first : Lags disk k S T) (second : Lags disk l T U) : Lags disk (k + l) S U where
  forth clears := by
    obtain ⟨m, middle, here⟩ := first.forth clears
    obtain ⟨m', last, there⟩ := second.forth middle
    refine ⟨m', last, fun ended => ?_⟩
    rw [here ended, there ended]
    omega
  back clears := by
    obtain ⟨m, middle, there⟩ := second.back clears
    obtain ⟨n, last, here⟩ := first.back middle
    refine ⟨n, last, fun ended => ?_⟩
    rw [here ended, there ended]
    omega

/-- Statements on top of both stacks make no difference. -/
theorem beneath (lags : Lags disk k S T) (top : List Stmt) : Lags disk k (top ++ S) (top ++ T) where
  forth clears := by
    rcases clears.append_inv with ⟨e, rfl, front⟩ | ⟨m, n, σ₁, C, D, front, rest, rfl, rfl⟩
    · exact ⟨_, front.append_fails T, fun ended => by cases ended⟩
    · obtain ⟨n', other, more⟩ := lags.forth rest
      refine ⟨m + n', front.append other, fun ended => ?_⟩
      rw [more ended, Nat.add_assoc]
  back clears := by
    rcases clears.append_inv with ⟨e, rfl, front⟩ | ⟨m, n, σ₁, C, D, front, rest, rfl, rfl⟩
    · exact ⟨_, front.append_fails S, fun ended => by cases ended⟩
    · obtain ⟨n', other, more⟩ := lags.back rest
      refine ⟨m + n', front.append other, fun ended => ?_⟩
      rw [more ended, Nat.add_assoc]

/-- A compound statement takes one step to be taken apart. -/
theorem seq (disk : Disk) (a b : Stmt) (rest : List Stmt) :
    Lags disk 1 (.seq a b :: rest) (a :: b :: rest) where
  forth clears := by
    cases clears with
    | fails executed => cases executed
    | step executed more =>
      obtain ⟨rfl, rfl⟩ : _ = _ ∧ _ = _ := by
        simpa only [Stmt.exec_seq, Prod.mk.injEq, Except.ok.injEq] using executed
      exact ⟨_, more, fun _ => rfl⟩
  back {σ σ' C o m} clears := by
    have executed : (Stmt.seq a b).exec disk σ = (σ, .ok { push := [a, b] }) := rfl
    have apart := Clears.step executed clears
    exact ⟨m + 1, apart, fun _ => rfl⟩

/-- A sequence takes one step for each of its compound statements. -/
theorem ofList (disk : Disk) {xs : List Stmt} (some_ : xs ≠ []) (rest : List Stmt) :
    Lags disk (xs.length - 1) (.ofList xs :: rest) (xs ++ rest) := by
  induction xs with
  | nil => exact absurd rfl some_
  | cons x xs ih =>
    cases xs with
    | nil => exact .refl disk _
    | cons y more =>
      have apart := Lags.seq disk x (.ofList (y :: more)) rest
      have inner := (ih (List.cons_ne_nil y more)).beneath [x]
      have steps : (x :: y :: more).length - 1 = 1 + ((y :: more).length - 1) := by
        simp only [List.length_cons]
        omega
      rw [steps]
      exact apart.trans inner

theorem flat (disk : Disk) {xs : List Stmt} (front : xs ≠ []) (ys : List Stmt) :
    Lags disk (xs.length + ys.length - 1) [.ofList (xs ++ ys)] (xs ++ ys) := by
  have lags := Lags.ofList disk (List.append_ne_nil_of_left_ne_nil front ys) []
  rwa [List.length_append, List.append_nil] at lags

theorem nested (disk : Disk) {xs ys : List Stmt} (front : xs ≠ []) (back : ys ≠ []) :
    Lags disk (xs.length + ys.length - 1) [.seq (.ofList xs) (.ofList ys)] (xs ++ ys) := by
  have apart := Lags.seq disk (.ofList xs) (.ofList ys) []
  have first := Lags.ofList disk front [.ofList ys]
  have second := (Lags.ofList disk back []).beneath xs
  rw [List.append_nil] at second
  have steps : xs.length + ys.length - 1 = 1 + (xs.length - 1) + (ys.length - 1) := by
    have first := List.length_pos_iff.mpr front
    have second := List.length_pos_iff.mpr back
    omega
  rw [steps]
  exact (apart.trans first).trans second

end Lags

/-! ### The steps of a thread -/

variable {K above : List Stmt} {w : World} {t : Thread} {s : Stmt} {id heap : Nat}
  {children : List Thread}

theorem Clears.endsAbove (clears : Clears disk above σ n C σ' o)
    (stands : Stands w t id heap (above ++ K) σ) :
    EndsAbove disk K n w t (Spawn.threads id heap C) σ' o := by
  induction clears generalizing w t id with
  | done =>
    rw [← stands.store_eq]
    exact .reached stands.stack_eq
  | fails executed =>
    obtain ⟨w', t', stepped, rfl⟩ := stands.step_error executed
    exact .failed stands.stack_eq stepped
  | @step s rest σ σ₁ σ' effect n C o executed more ih =>
    obtain ⟨w', t', child, stepped, started, after⟩ := stands.step_ok executed
    have regrouped : effect.push ++ (rest ++ K) = effect.push ++ rest ++ K := by simp
    rw [Spawn.threads_append, ← started]
    exact .step stands.stack_eq stepped (ih (regrouped ▸ after))

theorem EndsAbove.clears (ends : EndsAbove disk K n w t children σ' o)
    (stands : Stands w t id heap (above ++ K) σ) :
    ∃ C, children = Spawn.threads id heap C ∧ Clears disk above σ n C σ' o := by
  induction ends generalizing id above σ with
  | reached bottom =>
    have empty : above = [] := by simpa [bottom] using stands.stack_eq
    subst empty
    rw [stands.store_eq]
    exact ⟨[], rfl, .done⟩
  | failed top stepped =>
    have same := List.append_cancel_right (stands.stack_eq.symm.trans top)
    subst same
    exact ⟨[], rfl, .fails (stands.step_error_inv stepped)⟩
  | @step n w w' t t' s rest child children σ' o top stepped more ih =>
    have same := List.append_cancel_right (stands.stack_eq.symm.trans top)
    subst same
    obtain ⟨σ₁, effect, executed, started, after⟩ := stands.step_ok_inv stepped
    have regrouped : effect.push ++ (rest ++ K) = effect.push ++ rest ++ K := by simp
    obtain ⟨C, later, clears⟩ := ih (regrouped ▸ after)
    refine ⟨effect.spawn.toList ++ C, ?_, .step executed clears⟩
    rw [started, later, Spawn.threads_append]

/-- The thread takes `n` steps without a failure, each of which pops a statement above `K`. -/
inductive StepsAbove (disk : Disk) (K : List Stmt) : Nat → World → Thread → Prop where
  | zero {w : World} {t : Thread} : StepsAbove disk K 0 w t
  | succ {n : Nat} {w w' : World} {t t' : Thread} {s : Stmt} {above : List Stmt} {child : Option Thread}
    (top : t.stack = s :: above ++ K) (stepped : w.step disk t = (w', t', .ok child))
    (more : StepsAbove disk K n w' t') : StepsAbove disk K (n + 1) w t

/-- The thread runs forever above `K`. -/
def Endless (disk : Disk) (K : List Stmt) (w : World) (t : Thread) : Prop :=
  ∀ n, StepsAbove disk K n w t

/-- What does not come to an end above `K` runs forever there. -/
theorem Stands.endless (stands : Stands w t id heap (above ++ K) σ)
    (never : ¬∃ n children σ' o, EndsAbove disk K n w t children σ' o) : Endless disk K w t := by
  intro n
  induction n generalizing w t id above σ with
  | zero => exact .zero
  | succ n ih =>
    -- an empty part above `K` and a failure are both an end
    cases above with
    | nil => exact absurd ⟨0, [], _, none, .reached stands.stack_eq⟩ never
    | cons s rest =>
      obtain ⟨w', t', answer, stepped⟩ :
          ∃ w' t' answer, w.step disk t = (w', t', answer) := ⟨_, _, _, rfl⟩
      cases answer with
      | error e => exact absurd ⟨1, [], _, some e, .failed stands.stack_eq stepped⟩ never
      | ok child =>
        obtain ⟨σ₁, effect, -, -, after⟩ := stands.step_ok_inv stepped
        have regrouped : effect.push ++ (rest ++ K) = effect.push ++ rest ++ K := by simp
        refine .succ stands.stack_eq stepped (ih (regrouped ▸ after) ?_)
        rintro ⟨m, children, σ', o, ends⟩
        exact never ⟨m + 1, _, σ', o, .step stands.stack_eq stepped ends⟩

/-! ### The steps of the elements -/

/-- From the store `σ` on, a statement takes `n` steps and leaves the store `σ'`, in whatever running thread
it is on top of whatever stack. -/
def Stmt.Takes (disk : Disk) (s : Stmt) (σ : Store) (n : Nat) (σ' : Store) : Prop :=
  ∀ K w t, t.status = .running → t.stack = s :: K → t.store (w.heap t.heap) = σ →
    ∃ children, EndsAbove disk K n w t children σ' none

/-- Statements take the given numbers of steps one after another, each from the store that the one before
it has left. -/
inductive TakeInTurn (disk : Disk) : List Stmt → Store → List Nat → Store → Prop where
  | nil {σ : Store} : TakeInTurn disk [] σ [] σ
  | cons {s : Stmt} {rest : List Stmt} {σ σ₁ σ' : Store} {n : Nat} {ns : List Nat}
    (first : s.Takes disk σ n σ₁) (others : TakeInTurn disk rest σ₁ ns σ') :
    TakeInTurn disk (s :: rest) σ (n :: ns) σ'

theorem Clears.takes (clears : Clears disk [s] σ n C σ' none) : s.Takes disk σ n σ' := by
  intro K w t running top store
  have stands : Stands w t w.nextThread t.heap ([s] ++ K) σ := ⟨rfl, rfl, top, store, fun _ => running⟩
  exact ⟨_, clears.endsAbove stands⟩

theorem Clears.takeInTurn {stack : List Stmt} (clears : Clears disk stack σ n C σ' none) :
    ∃ ns, TakeInTurn disk stack σ ns σ' ∧ n = total ns := by
  induction stack generalizing σ n C with
  | nil =>
    cases clears
    exact ⟨[], .nil, rfl⟩
  | cons s rest ih =>
    -- the first statement by itself, and then the others from the store that it leaves
    have apart : Clears disk ([s] ++ rest) σ n C σ' none := clears
    rcases apart.append_inv with ⟨e, failed, -⟩ | ⟨m, k, σ₁, C₁, C₂, first, others, rfl, -⟩
    · cases failed
    · obtain ⟨ns, inTurn, rfl⟩ := ih others
      exact ⟨m :: ns, .cons first.takes inTurn, rfl⟩

/-- Two statements that lag equally behind the same stack come to the same end in a thread, and take the same
number of steps if that is no failure. -/
theorem Lags.endsAbove {k : Nat} {s' : Stmt} {U : List Stmt} (first : Lags disk k [s] U)
    (second : Lags disk k [s'] U) (running : t.status = .running)
    (ends : EndsAbove disk K n w { t with stack := s :: K } children σ' o) :
    ∃ m, EndsAbove disk K m w { t with stack := s' :: K } children σ' o ∧ (o = none → m = n) := by
  have stands (s : Stmt) : Stands w { t with stack := s :: K } w.nextThread t.heap ([s] ++ K)
      (t.store (w.heap t.heap)) := ⟨rfl, rfl, rfl, rfl, fun _ => running⟩
  obtain ⟨C, rfl, clears⟩ := ends.clears (stands s)
  obtain ⟨l, common, slower⟩ := first.forth clears
  obtain ⟨m, other, asSlow⟩ := second.back common
  refine ⟨m, other.endsAbove (stands s'), fun ended => ?_⟩
  rw [slower ended, asSlow ended]

end

/-- Sequences flatten. A thread that runs `xs` and `ys` as one sequence and one that runs them as a sequence
of two, both on top of `K`, come to the same: both come to stand at `K` after the same number of steps, with
the same store and having started the same threads in the same order; or both fail with the same error,
leaving the same store; or both run forever. When they come to stand at `K`, they have taken the steps of the
elements one after another, and one step for each element but the last. -/
theorem sequences_flatten (disk : Disk) (K : List Stmt) (w : World) (t : Thread) (xs ys : List Stmt)
    (running : t.status = .running) (front : xs ≠ []) (back : ys ≠ []) :
    let flat : Thread := { t with stack := .ofList (xs ++ ys) :: K }
    let nested : Thread := { t with stack := .seq (.ofList xs) (.ofList ys) :: K }
    ((∃ n children σ', EndsAbove disk K n w flat children σ' none ∧
        EndsAbove disk K n w nested children σ' none) ∨
      (∃ e children σ', (∃ n, EndsAbove disk K n w flat children σ' (some e)) ∧
        ∃ n, EndsAbove disk K n w nested children σ' (some e)) ∨
      (Endless disk K w flat ∧ Endless disk K w nested)) ∧
    ∀ n children σ', EndsAbove disk K n w flat children σ' none →
      EndsAbove disk K n w nested children σ' none ∧
      ∃ ns, TakeInTurn disk (xs ++ ys) (t.store (w.heap t.heap)) ns σ' ∧
        n = xs.length + ys.length - 1 + total ns := by
  intro flat nested
  -- the elements on a stack by themselves are what both are compared with
  have flatLags := Lags.flat disk front ys
  have nestedLags := Lags.nested disk front back
  have stands (s : Stmt) : Stands w { t with stack := s :: K } w.nextThread t.heap ([s] ++ K)
      (t.store (w.heap t.heap)) := ⟨rfl, rfl, rfl, rfl, fun _ => running⟩
  constructor
  · by_cases ending : ∃ n children σ' o, EndsAbove disk K n w flat children σ' o
    · obtain ⟨n, children, σ', o, ends⟩ := ending
      obtain ⟨m, other, equal⟩ := flatLags.endsAbove nestedLags running ends
      cases o with
      | none => exact .inl ⟨n, children, σ', ends, equal rfl ▸ other⟩
      | some e => exact .inr (.inl ⟨e, children, σ', ⟨n, ends⟩, m, other⟩)
    · refine .inr (.inr ⟨(stands _).endless ending, (stands _).endless ?_⟩)
      rintro ⟨n, children, σ', o, ends⟩
      obtain ⟨m, other, -⟩ := nestedLags.endsAbove flatLags running ends
      exact ending ⟨m, children, σ', o, other⟩
  · intro n children σ' ends
    obtain ⟨m, other, equal⟩ := flatLags.endsAbove nestedLags running ends
    obtain ⟨C, -, clears⟩ := ends.clears (stands _)
    obtain ⟨l, elements, slower⟩ := flatLags.forth clears
    obtain ⟨ns, inTurn, rfl⟩ := elements.takeInTurn
    exact ⟨equal rfl ▸ other, ns, inTurn, by rw [slower rfl, Nat.add_comm]⟩

/-- A fork, a loop that ends at once and a print take one step each, and two steps more as a sequence; the
loop below is not reached. -/
theorem sequences_flatten_fork_loop_print :
    let xs : List Stmt := [.fork .nop, .loop (.bool false) .nop]
    let ys : List Stmt := [.print (.int 7)]
    let K : List Stmt := [.loop (.bool true) .nop]
    let t := Thread.start 1 0 .nop ∅
    t.status = .running ∧ xs ≠ [] ∧ ys ≠ [] ∧
    EndsAbove (.blank []) K 5 { nextThread := 2 } { t with stack := .seq (.ofList xs) (.ofList ys) :: K }
      [Thread.start 2 0 .nop ∅] { output := [.int 7] } none := by
  intro xs ys K t
  have stands : Stands { nextThread := 2 } { t with stack := .ofList (xs ++ ys) :: K } 2 0
      ([.ofList (xs ++ ys)] ++ K) {} := ⟨rfl, rfl, rfl, rfl, fun _ => rfl⟩
  have forked : (Stmt.fork .nop).exec (.blank []) {} =
      ({}, .ok { spawn := some { body := .nop, symbols := ∅ } }) := rfl
  have ended : (Stmt.loop (.bool false) .nop).exec (.blank []) {} = ({}, .ok { push := [] }) := rfl
  have printed : (Stmt.print (.int 7)).exec (.blank []) {} = ({ output := [.int 7] }, .ok {}) := rfl
  have elements : Clears (.blank []) (xs ++ ys) _ _ _ _ none :=
    Clears.step forked (Clears.step ended (Clears.step printed .done))
  obtain ⟨n, clears, steps⟩ := (Lags.flat (.blank []) (by simp [xs]) ys).back elements
  obtain rfl : n = 5 := steps rfl
  have flat := clears.endsAbove stands
  have results := sequences_flatten (.blank []) K { nextThread := 2 } t xs ys rfl (by simp [xs]) (by simp [ys])
  exact ⟨rfl, by simp [xs], by simp [ys], (results.2 5 _ _ flat).1⟩

end Lockstep

import Lockstep.Proofs.Action
import Lockstep.World

/-!
Structured execution, and its agreement with the stack of a thread.

`Runs` is the meaning of a statement as a whole: a compound statement runs its parts in order, a
conditional the branch that its guard picks, a loop its body as long as its guard holds, and a fork only
names the thread to start. A thread does the same in single steps: it takes statements apart and keeps
the parts on its stack. A step that pops `s` leaves `s` to be run if and only if it leaves what `s`
pushes to be run, so the steps that a thread takes above a stack `K` come to what the statements above
`K` mean, one after another.
-/

namespace Lockstep

/-! ### Structured execution -/

/-- `Runs disk s σ σ' C o` says that `s` as a whole turns the store `σ` into `σ'` and asks for the
threads `C` to be started, in this order; it fails if `o` is a failure. -/
inductive Runs (disk : Disk) : Stmt → Store → Store → List Spawn → Option Fault → Prop where
  | act {s : Stmt} {σ σ' : Store} {o : Option Fault} (acts : Acts σ.eval disk σ s σ' o) :
    Runs disk s σ σ' [] o
  | seq {a b : Stmt} {σ σ₁ σ' : Store} {C D : List Spawn} {o : Option Fault}
    (first : Runs disk a σ σ₁ C none) (second : Runs disk b σ₁ σ' D o) :
    Runs disk (.seq a b) σ σ' (C ++ D) o
  | seqFails {a b : Stmt} {σ σ' : Store} {C : List Spawn} {e : Fault}
    (first : Runs disk a σ σ' C (some e)) : Runs disk (.seq a b) σ σ' C (some e)
  | ite {g : Expr} {a b : Stmt} {σ σ' : Store} {C : List Spawn} {c : Bool} {o : Option Fault}
    (guard : σ.evalGuard "if" g = .ok c) (branch : Runs disk (if c then a else b) σ σ' C o) :
    Runs disk (.ite g a b) σ σ' C o
  | iteFails {g : Expr} {a b : Stmt} {σ : Store} {e : Fault}
    (guard : σ.evalGuard "if" g = .error e) : Runs disk (.ite g a b) σ σ [] (some e)
  | loopEnds {g : Expr} {b : Stmt} {σ : Store} (guard : σ.evalGuard "while" g = .ok false) :
    Runs disk (.loop g b) σ σ [] none
  | loop {g : Expr} {b : Stmt} {σ σ₁ σ' : Store} {C D : List Spawn} {o : Option Fault}
    (guard : σ.evalGuard "while" g = .ok true) (body : Runs disk b σ σ₁ C none)
    (again : Runs disk (.loop g b) σ₁ σ' D o) : Runs disk (.loop g b) σ σ' (C ++ D) o
  | loopBodyFails {g : Expr} {b : Stmt} {σ σ' : Store} {C : List Spawn} {e : Fault}
    (guard : σ.evalGuard "while" g = .ok true) (body : Runs disk b σ σ' C (some e)) :
    Runs disk (.loop g b) σ σ' C (some e)
  | loopFails {g : Expr} {b : Stmt} {σ : Store} {e : Fault}
    (guard : σ.evalGuard "while" g = .error e) : Runs disk (.loop g b) σ σ [] (some e)
  | fork {b : Stmt} {σ : Store} :
    Runs disk (.fork b) σ σ [{ body := b, symbols := σ.symbols }] none

/-- Statements run one after another, up to the first failure. -/
inductive RunsAll (disk : Disk) : List Stmt → Store → Store → List Spawn → Option Fault → Prop where
  | nil {σ : Store} : RunsAll disk [] σ σ [] none
  | cons {s : Stmt} {rest : List Stmt} {σ σ₁ σ' : Store} {C D : List Spawn} {o : Option Fault}
    (first : Runs disk s σ σ₁ C none) (others : RunsAll disk rest σ₁ σ' D o) :
    RunsAll disk (s :: rest) σ σ' (C ++ D) o
  | fails {s : Stmt} {rest : List Stmt} {σ σ' : Store} {C : List Spawn} {e : Fault}
    (first : Runs disk s σ σ' C (some e)) : RunsAll disk (s :: rest) σ σ' C (some e)

section

variable {disk : Disk} {s : Stmt} {σ σ₁ σ' : Store} {C : List Spawn} {o : Option Fault} {e : Fault}

theorem RunsAll.nil_inv (runs : RunsAll disk [] σ σ' C o) : σ' = σ ∧ C = [] ∧ o = none := by
  cases runs
  exact ⟨rfl, rfl, rfl⟩

theorem RunsAll.single_inv (runs : RunsAll disk [s] σ σ' C o) : Runs disk s σ σ' C o := by
  cases runs with
  | cons first others =>
    obtain ⟨rfl, rfl, rfl⟩ := others.nil_inv
    simpa using first
  | fails first => exact first

/-- Running a list of statements is running its front and, unless that fails, its back. -/
theorem RunsAll.append_inv {xs ys : List Stmt} (runs : RunsAll disk (xs ++ ys) σ σ' C o) :
    (∃ e, o = some e ∧ RunsAll disk xs σ σ' C (some e)) ∨
    ∃ σ₁ C₁ C₂, RunsAll disk xs σ σ₁ C₁ none ∧ RunsAll disk ys σ₁ σ' C₂ o ∧ C = C₁ ++ C₂ := by
  -- on the front; the store and the requests differ from one statement to the next
  induction xs generalizing σ C with
  | nil => exact .inr ⟨σ, [], C, .nil, runs, rfl⟩
  | cons x xs ih =>
    cases runs with
    | fails first => exact .inl ⟨_, rfl, .fails first⟩
    | @cons _ _ _ _ _ C D _ first others =>
      rcases ih others with ⟨e, rfl, front⟩ | ⟨σ₂, C₁, C₂, front, back, rfl⟩
      · exact .inl ⟨e, rfl, .cons first front⟩
      · exact .inr ⟨σ₂, C ++ C₁, C₂, .cons first front, back, by simp⟩

/-! ### One step of execution -/

/-- A statement whose execution fails has no other outcome as a whole. -/
theorem Runs.of_exec_error (executed : s.exec disk σ = (σ₁, .error e)) :
    Runs disk s σ σ₁ [] (some e) := by
  by_cases simple : s.elementary
  · obtain ⟨σ₂, o, acts, same⟩ := s.exec_acts disk σ simple
    rw [executed] at same
    cases o with
    | none => simp [Effect.after] at same
    | some err =>
      simp only [Effect.after, Prod.mk.injEq, Except.error.injEq] at same
      obtain ⟨rfl, rfl⟩ := same
      exact .act acts
  · cases s with
    | ite g a b =>
      cases guard : σ.evalGuard "if" g with
      | ok c => simp [Stmt.exec_ite, guard, Except.map] at executed
      | error err =>
        simp only [Stmt.exec_ite, guard, Except.map, Prod.mk.injEq, Except.error.injEq] at executed
        obtain ⟨rfl, rfl⟩ := executed
        exact .iteFails guard
    | loop g b =>
      cases guard : σ.evalGuard "while" g with
      | ok c => simp [Stmt.exec_loop, guard, Except.map] at executed
      | error err =>
        simp only [Stmt.exec_loop, guard, Except.map, Prod.mk.injEq, Except.error.injEq] at executed
        obtain ⟨rfl, rfl⟩ := executed
        exact .loopFails guard
    -- a compound statement and a fork do not fail
    | _ => simp [Stmt.exec_seq, Stmt.exec_fork, Stmt.elementary] at simple executed

/-- A statement does as a whole what its execution does, followed by what it leaves to be run. -/
theorem Runs.of_exec_ok {effect : Effect} (executed : s.exec disk σ = (σ₁, .ok effect))
    (left : RunsAll disk effect.push σ₁ σ' C o) :
    Runs disk s σ σ' (effect.spawn.toList ++ C) o := by
  by_cases simple : s.elementary
  · obtain ⟨σ₂, out, acts, same⟩ := s.exec_acts disk σ simple
    rw [executed] at same
    cases out with
    | some err => simp [Effect.after] at same
    | none =>
      simp only [Effect.after, Prod.mk.injEq, Except.ok.injEq] at same
      obtain ⟨rfl, rfl⟩ := same
      -- nothing is left to be run
      obtain ⟨rfl, rfl, rfl⟩ := left.nil_inv
      exact .act acts
  · cases s with
    | seq a b =>
      simp only [Stmt.exec_seq, Prod.mk.injEq, Except.ok.injEq] at executed
      obtain ⟨rfl, rfl⟩ := executed
      change Runs disk (.seq a b) σ σ' C o
      cases left with
      | cons first others => exact .seq first others.single_inv
      | fails first => exact .seqFails first
    | ite g a b =>
      cases guard : σ.evalGuard "if" g with
      | error err => simp [Stmt.exec_ite, guard, Except.map] at executed
      | ok c =>
        simp only [Stmt.exec_ite, guard, Except.map, Prod.mk.injEq, Except.ok.injEq] at executed
        obtain ⟨rfl, rfl⟩ := executed
        exact .ite guard left.single_inv
    | loop g b =>
      cases guard : σ.evalGuard "while" g with
      | error err => simp [Stmt.exec_loop, guard, Except.map] at executed
      | ok c =>
        simp only [Stmt.exec_loop, guard, Except.map, Prod.mk.injEq, Except.ok.injEq] at executed
        obtain ⟨rfl, rfl⟩ := executed
        cases c with
        | false =>
          obtain ⟨rfl, rfl, rfl⟩ := left.nil_inv
          exact .loopEnds guard
        | true =>
          -- the loop has armed itself again as the second part of a compound statement
          change Runs disk (.loop g b) σ σ' C o
          cases left.single_inv with
          | act acts => cases acts
          | seq first second => exact .loop guard first second
          | seqFails first => exact .loopBodyFails guard first
    | fork b =>
      simp only [Stmt.exec_fork, Prod.mk.injEq, Except.ok.injEq] at executed
      obtain ⟨rfl, rfl⟩ := executed
      obtain ⟨rfl, rfl, rfl⟩ := left.nil_inv
      exact .fork
    | _ => simp [Stmt.elementary] at simple

/-- The same for a statement on top of others. -/
theorem RunsAll.of_exec_ok {rest : List Stmt} {effect : Effect}
    (executed : s.exec disk σ = (σ₁, .ok effect))
    (left : RunsAll disk (effect.push ++ rest) σ₁ σ' C o) :
    RunsAll disk (s :: rest) σ σ' (effect.spawn.toList ++ C) o := by
  -- what is pushed belongs to `s`, what stands below to the others
  rcases left.append_inv with ⟨e, rfl, pushed⟩ | ⟨σ₂, C₁, C₂, pushed, others, rfl⟩
  · exact .fails (.of_exec_ok executed pushed)
  · rw [← List.append_assoc]
    exact .cons (.of_exec_ok executed pushed) others

end

/-! ### The steps of a thread -/

/-- The threads that are started for some requests on one heap, numbered from `id` on. -/
def Spawn.threads (id heap : Nat) : List Spawn → List Thread
  | [] => []
  | c :: cs => Thread.start id heap c.body c.symbols :: threads (id + 1) heap cs

/-- `EndsAbove disk K n w t children σ o` says that the thread `t`, stepped again and again from the
world `w` on, comes to stand at the stack `K` with the store `σ`, or fails and leaves the store `σ`. It
takes `n` steps, each of which pops a statement that stands above `K`, and starts the threads
`children`. -/
inductive EndsAbove (disk : Disk) (K : List Stmt) :
    Nat → World → Thread → List Thread → Store → Option Fault → Prop where
  | reached {w : World} {t : Thread} (bottom : t.stack = K) :
    EndsAbove disk K 0 w t [] (t.store (w.heap t.heap)) none
  | failed {w w' : World} {t t' : Thread} {s : Stmt} {above : List Stmt} {e : Fault}
    (top : t.stack = s :: above ++ K) (stepped : w.step disk t = (w', t', .error e)) :
    EndsAbove disk K 1 w t [] (t'.store (w'.heap t'.heap)) (some e)
  | step {n : Nat} {w w' : World} {t t' : Thread} {s : Stmt} {above : List Stmt}
    {child : Option Thread} {children : List Thread} {σ : Store} {o : Option Fault}
    (top : t.stack = s :: above ++ K) (stepped : w.step disk t = (w', t', .ok child))
    (more : EndsAbove disk K n w' t' children σ o) :
    EndsAbove disk K (n + 1) w t (child.toList ++ children) σ o

/-- The thread `t` of the world `w` stands at the given stack and store, on the given heap; `id` is the
number that the next thread will have. -/
structure Stands (w : World) (t : Thread) (id heap : Nat) (stack : List Stmt) (σ : Store) : Prop where
  next_eq : w.nextThread = id
  heap_eq : t.heap = heap
  stack_eq : t.stack = stack
  store_eq : t.store (w.heap t.heap) = σ
  running : stack ≠ [] → t.status = .running

section

variable {disk : Disk} {w w' : World} {t t' : Thread} {s : Stmt} {rest : List Stmt} {σ σ' : Store}
  {id heap : Nat} {child : Option Thread} {e : Fault}

theorem Spawn.threads_append (C D : List Spawn) :
    threads id heap (C ++ D) = threads id heap C ++ threads (id + C.length) heap D := by
  induction C generalizing id with
  | nil => rfl
  | cons c C ih =>
    have shift : id + (C.length + 1) = id + 1 + C.length := by omega
    simp [threads, ih, shift]

theorem Thread.step_of_exec_ok {h : Heap} {effect : Effect} (running : t.status = .running)
    (top : t.stack = s :: rest) (executed : s.exec disk (t.store h) = (σ', .ok effect)) :
    ∃ t', t.step disk h = { heap := σ'.heap, thread := t', result := .ok effect.spawn } ∧
      t'.heap = t.heap ∧ t'.stack = effect.push ++ rest ∧ t'.store σ'.heap = σ' ∧
      (effect.push ++ rest ≠ [] → t'.status = .running) := by
  simp only [step_eq, running, top, executed]
  refine ⟨_, rfl, ?_⟩
  -- the thread completes if nothing is left on its stack
  by_cases last : effect.push ++ rest = []
  · simp [resume, store, last]
  · simp [resume, store, last, running]

theorem Thread.step_of_exec_error {h : Heap} (running : t.status = .running)
    (top : t.stack = s :: rest) (executed : s.exec disk (t.store h) = (σ', .error e)) :
    ∃ t', t.step disk h = { heap := σ'.heap, thread := t', result := .error e } ∧
      t'.heap = t.heap ∧ t'.store σ'.heap = σ' := by
  simp only [step_eq, running, top, executed]
  exact ⟨_, rfl, rfl, rfl⟩

theorem Stands.step_ok {effect : Effect} (stands : Stands w t id heap (s :: rest) σ)
    (executed : s.exec disk σ = (σ', .ok effect)) :
    ∃ w' t' child, w.step disk t = (w', t', .ok child) ∧
      child.toList = Spawn.threads id heap effect.spawn.toList ∧
      Stands w' t' (id + effect.spawn.toList.length) heap (effect.push ++ rest) σ' := by
  obtain ⟨rfl, rfl, top, rfl, running⟩ := stands
  obtain ⟨t', stepped, same, stack, store, active⟩ :=
    Thread.step_of_exec_ok (running (by simp)) top executed
  simp only [World.step_eq, stepped]
  cases effect.spawn with
  | none => exact ⟨_, _, _, rfl, rfl, rfl, same, stack, by simpa [same] using store, active⟩
  | some spawn => exact ⟨_, _, _, rfl, rfl, rfl, same, stack, by simpa [same] using store, active⟩

theorem Stands.step_error (stands : Stands w t id heap (s :: rest) σ)
    (executed : s.exec disk σ = (σ', .error e)) :
    ∃ w' t', w.step disk t = (w', t', .error e) ∧ t'.store (w'.heap t'.heap) = σ' := by
  obtain ⟨rfl, rfl, top, rfl, running⟩ := stands
  obtain ⟨t', stepped, same, store⟩ :=
    Thread.step_of_exec_error (running (by simp)) top executed
  simp only [World.step_eq, stepped]
  exact ⟨_, _, rfl, by simpa [same] using store⟩

theorem Stands.step_ok_inv {w' : World} {t' : Thread} (stands : Stands w t id heap (s :: rest) σ)
    (stepped : w.step disk t = (w', t', .ok child)) :
    ∃ σ' effect, s.exec disk σ = (σ', .ok effect) ∧
      child.toList = Spawn.threads id heap effect.spawn.toList ∧
      Stands w' t' (id + effect.spawn.toList.length) heap (effect.push ++ rest) σ' := by
  obtain ⟨σ', result⟩ : ∃ σ', (s.exec disk σ).1 = σ' := ⟨_, rfl⟩
  cases answer : (s.exec disk σ).2 with
  | error e =>
    obtain ⟨w₁, t₁, failed, -⟩ := stands.step_error (Prod.ext result answer)
    simp [stepped] at failed
  | ok effect =>
    obtain ⟨w₁, t₁, child₁, succeeded, started, after⟩ := stands.step_ok (Prod.ext result answer)
    simp only [stepped, Prod.mk.injEq, Except.ok.injEq] at succeeded
    obtain ⟨rfl, rfl, rfl⟩ := succeeded
    exact ⟨σ', effect, Prod.ext result answer, started, after⟩

theorem Stands.step_error_inv {w' : World} {t' : Thread} (stands : Stands w t id heap (s :: rest) σ)
    (stepped : w.step disk t = (w', t', .error e)) :
    s.exec disk σ = (t'.store (w'.heap t'.heap), .error e) := by
  obtain ⟨σ', result⟩ : ∃ σ', (s.exec disk σ).1 = σ' := ⟨_, rfl⟩
  cases answer : (s.exec disk σ).2 with
  | error err =>
    obtain ⟨w₁, t₁, failed, store⟩ := stands.step_error (Prod.ext result answer)
    simp only [stepped, Prod.mk.injEq, Except.error.injEq] at failed
    obtain ⟨rfl, rfl, rfl⟩ := failed
    exact Prod.ext (result.trans store.symm) answer
  | ok effect =>
    obtain ⟨w₁, t₁, child₁, succeeded, -⟩ := stands.step_ok (Prod.ext result answer)
    simp [stepped] at succeeded

/-! ### Steps come to runs -/

/-- What a thread comes to above `K` is what the statements above `K` mean. -/
theorem EndsAbove.runsAll {K above : List Stmt} {n : Nat} {children : List Thread} {o : Option Fault}
    (ends : EndsAbove disk K n w t children σ' o) (stands : Stands w t id heap (above ++ K) σ) :
    ∃ C, children = Spawn.threads id heap C ∧ RunsAll disk above σ σ' C o := by
  induction ends generalizing id above σ with
  | reached bottom =>
    -- the stack is `K` itself, so nothing stands above it
    have empty : above = [] := by simpa [bottom] using stands.stack_eq
    subst empty
    rw [stands.store_eq]
    exact ⟨[], rfl, .nil⟩
  | failed top stepped =>
    have same := List.append_cancel_right (stands.stack_eq.symm.trans top)
    subst same
    exact ⟨[], rfl, .fails (.of_exec_error (stands.step_error_inv stepped))⟩
  | @step n w w' t t' s rest child children σ' o top stepped more ih =>
    have same := List.append_cancel_right (stands.stack_eq.symm.trans top)
    subst same
    obtain ⟨σ₁, effect, executed, started, after⟩ := stands.step_ok_inv stepped
    -- what the step pushed is above `K` as well
    have regrouped : effect.push ++ (rest ++ K) = effect.push ++ rest ++ K := by simp
    obtain ⟨C, later, runs⟩ := ih (regrouped ▸ after)
    refine ⟨effect.spawn.toList ++ C, ?_, .of_exec_ok executed runs⟩
    rw [started, later, Spawn.threads_append]

/-! ### Runs are taken in steps -/

/-- How a thread goes on above `K` when a statement on top of `rest` has ended in the store `σ₁`: after a
failure it has come to its end, and otherwise `rest` is still to be run. -/
def GoesOn (disk : Disk) (K rest : List Stmt) (id heap : Nat) (σ₁ : Store) (children : List Thread)
    (σ' : Store) (o : Option Fault) : Option Fault → Prop
  | none => ∀ w t, Stands w t id heap (rest ++ K) σ₁ → ∃ n, EndsAbove disk K n w t children σ' o
  | some e => children = [] ∧ σ' = σ₁ ∧ o = some e

theorem Stands.endsAbove_ok {K : List Stmt} {σ₁ : Store} {effect : Effect} {children : List Thread}
    {o : Option Fault} (stands : Stands w t id heap (s :: (rest ++ K)) σ)
    (executed : s.exec disk σ = (σ₁, .ok effect))
    (goes : GoesOn disk K (effect.push ++ rest) (id + effect.spawn.toList.length) heap σ₁ children
      σ' o none) :
    ∃ n, EndsAbove disk K n w t (Spawn.threads id heap effect.spawn.toList ++ children) σ' o := by
  obtain ⟨w', t', child, stepped, started, after⟩ := stands.step_ok executed
  rw [← List.append_assoc] at after
  obtain ⟨n, ends⟩ := goes w' t' after
  rw [← started]
  exact ⟨n + 1, .step stands.stack_eq stepped ends⟩

/-- A statement that leaves the store alone and is replaced by other statements. -/
theorem Stands.endsAbove_push {K pushed : List Stmt} {children : List Thread} {o : Option Fault}
    (stands : Stands w t id heap (s :: (rest ++ K)) σ)
    (executed : s.exec disk σ = (σ, .ok { push := pushed }))
    (goes : ∀ w' t', Stands w' t' id heap (pushed ++ (rest ++ K)) σ →
      ∃ n, EndsAbove disk K n w' t' children σ' o) :
    ∃ n, EndsAbove disk K n w t children σ' o := by
  refine stands.endsAbove_ok executed fun w' t' after => ?_
  rw [List.append_assoc] at after
  exact goes w' t' after

/-- A loop whose guard holds: one step arms it again, and another takes the compound statement apart. -/
theorem Stands.endsAbove_arm {K : List Stmt} {g : Expr} {b : Stmt} {children : List Thread}
    {o : Option Fault} (stands : Stands w t id heap (.loop g b :: (rest ++ K)) σ)
    (guard : σ.evalGuard "while" g = .ok true)
    (goes : ∀ w' t', Stands w' t' id heap (b :: .loop g b :: (rest ++ K)) σ →
      ∃ n, EndsAbove disk K n w' t' children σ' o) :
    ∃ n, EndsAbove disk K n w t children σ' o := by
  have executed : (Stmt.loop g b).exec disk σ = (σ, .ok { push := [.seq b (.loop g b)] }) := by
    simp [Stmt.exec_loop, guard, Except.map]
  refine stands.endsAbove_push executed fun w₁ t₁ armed => ?_
  have compound : Stands w₁ t₁ id heap (.seq b (.loop g b) :: (rest ++ K)) σ := armed
  exact compound.endsAbove_push rfl goes

theorem Stands.endsAbove_error {K : List Stmt} (stands : Stands w t id heap (s :: (rest ++ K)) σ)
    (executed : s.exec disk σ = (σ', .error e)) :
    ∃ n, EndsAbove disk K n w t [] σ' (some e) := by
  obtain ⟨w', t', stepped, rfl⟩ := stands.step_error executed
  exact ⟨1, .failed stands.stack_eq stepped⟩

/-- A thread with a statement on top of its stack does what the statement means as a whole, and goes on
with the rest of its stack. -/
theorem Runs.endsAbove {σ₁ : Store} {C : List Spawn} {o : Option Fault}
    (runs : Runs disk s σ σ₁ C o) {K rest : List Stmt} {children : List Thread} {out : Option Fault}
    (stands : Stands w t id heap (s :: (rest ++ K)) σ)
    (goes : GoesOn disk K rest (id + C.length) heap σ₁ children σ' out o) :
    ∃ n, EndsAbove disk K n w t (Spawn.threads id heap C ++ children) σ' out := by
  -- on the derivation; the stack below and what happens afterwards are open, so that the parts of a
  -- compound statement can be put one before the other
  induction runs generalizing w t id rest children out with
  | @act s σ σ₁ o acts =>
    cases o with
    | none => exact stands.endsAbove_ok acts.exec_eq goes
    | some e =>
      obtain ⟨rfl, rfl, rfl⟩ := goes
      exact stands.endsAbove_error acts.exec_eq
  | @seq a b σ σ₁ σ₂ C D o first second ih₁ ih₂ =>
    rw [List.length_append, ← Nat.add_assoc] at goes
    rw [Spawn.threads_append, List.append_assoc]
    refine stands.endsAbove_push rfl fun w₁ t₁ after => ?_
    have onTop : Stands w₁ t₁ id heap (a :: (b :: rest ++ K)) σ := after
    exact ih₁ onTop fun w₂ t₂ between => ih₂ between goes
  | @seqFails a b σ σ₁ C e first ih =>
    refine stands.endsAbove_push rfl fun w₁ t₁ after => ?_
    have onTop : Stands w₁ t₁ id heap (a :: (b :: rest ++ K)) σ := after
    exact ih onTop goes
  | @ite g a b σ σ₁ C c o guard branch ih =>
    have executed : (Stmt.ite g a b).exec disk σ = (σ, .ok { push := [if c then a else b] }) := by
      simp only [Stmt.exec_ite, guard, Except.map]
    exact stands.endsAbove_push executed fun w₁ t₁ after => ih after goes
  | iteFails guard =>
    obtain ⟨rfl, rfl, rfl⟩ := goes
    exact stands.endsAbove_error (by simp only [Stmt.exec_ite, guard, Except.map])
  | @loopEnds g b σ guard =>
    have executed : (Stmt.loop g b).exec disk σ = (σ, .ok { push := [] }) := by
      simp [Stmt.exec_loop, guard, Except.map]
    exact stands.endsAbove_push executed goes
  | @loop g b σ σ₁ σ₂ C D o guard body again ih₁ ih₂ =>
    rw [List.length_append, ← Nat.add_assoc] at goes
    rw [Spawn.threads_append, List.append_assoc]
    refine stands.endsAbove_arm guard fun w₁ t₁ after => ?_
    -- the body runs first, on top of the loop itself
    have onTop : Stands w₁ t₁ id heap (b :: (.loop g b :: rest ++ K)) σ := after
    exact ih₁ onTop fun w₂ t₂ between => ih₂ between goes
  | @loopBodyFails g b σ σ₁ C e guard body ih =>
    refine stands.endsAbove_arm guard fun w₁ t₁ after => ?_
    have onTop : Stands w₁ t₁ id heap (b :: (.loop g b :: rest ++ K)) σ := after
    exact ih onTop goes
  | loopFails guard =>
    obtain ⟨rfl, rfl, rfl⟩ := goes
    exact stands.endsAbove_error (by simp only [Stmt.exec_loop, guard, Except.map])
  | fork => exact stands.endsAbove_ok rfl goes

/-- The stack of a thread does what structured execution does. Stepped from a statement `s` on top of
`K`, a running thread comes to stand at `K` with the store `σ'`, or fails above `K` and leaves `σ'`, if
and only if `s` as a whole ends that way; and the threads that it has started then are those that `s`
asks for, in order, on its own heap. -/
theorem endsAbove_iff_runs (disk : Disk) (K : List Stmt) (w : World) (t : Thread) (s : Stmt)
    (running : t.status = .running) (top : t.stack = s :: K) (children : List Thread) (σ' : Store)
    (o : Option Fault) :
    (∃ n, EndsAbove disk K n w t children σ' o) ↔
      ∃ C, children = Spawn.threads w.nextThread t.heap C ∧
        Runs disk s (t.store (w.heap t.heap)) σ' C o := by
  have stands : Stands w t w.nextThread t.heap (s :: K) (t.store (w.heap t.heap)) :=
    ⟨rfl, rfl, top, rfl, fun _ => running⟩
  constructor
  · rintro ⟨n, ends⟩
    have onTop : Stands w t w.nextThread t.heap ([s] ++ K) (t.store (w.heap t.heap)) := stands
    obtain ⟨C, started, runs⟩ := ends.runsAll onTop
    exact ⟨C, started, runs.single_inv⟩
  · rintro ⟨C, rfl, runs⟩
    have onTop : Stands w t w.nextThread t.heap (s :: ([] ++ K)) (t.store (w.heap t.heap)) := stands
    rw [← List.append_nil (Spawn.threads w.nextThread t.heap C)]
    apply runs.endsAbove onTop
    cases o with
    | none =>
      rintro w' t' ⟨-, -, bottom, rfl, -⟩
      exact ⟨0, .reached bottom⟩
    | some e => exact ⟨rfl, rfl, rfl⟩

end

/-- A compound statement on top of another one starts a thread and prints, and stops above the other. -/
theorem endsAbove_fork_print :
    let s : Stmt := .seq (.fork .nop) (.print (.int 7))
    let t : Thread := { Thread.start 1 0 s ∅ with stack := [s, .loop (.bool true) .nop] }
    t.status = .running ∧ t.stack = s :: [.loop (.bool true) .nop] ∧
    ∃ n, EndsAbove (.blank []) [.loop (.bool true) .nop] n { nextThread := 2 } t
      [Thread.start 2 0 .nop ∅] { output := [.int 7] } none := by
  intro s t
  refine ⟨rfl, rfl, ?_⟩
  apply (endsAbove_iff_runs (.blank []) _ { nextThread := 2 } t s rfl rfl _ _ none).mpr
  exact ⟨[{ body := .nop, symbols := ∅ }], rfl, .seq .fork (.act (.print rfl))⟩

end Lockstep

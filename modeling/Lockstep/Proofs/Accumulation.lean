import Mathlib.Data.List.Perm.Basic
import Lockstep.Proofs.Atomicity
import Lockstep.Proofs.Turns
import Lockstep.Proofs.Typing

/-!
Threads only accumulate.

A variable is bound by a declaration and by nothing else, and whatever writes to it later compares the types
of the old and the new value first; so a bound name stays bound and keeps the type of its declaration, though
the type is written down nowhere. Output is only added to, and the part of a stack below its top is left
alone. All this is said of one statement first, then of one step, and then of whatever number of steps and
rounds, in whatever order they come.
-/

namespace Lockstep

/-! ### One statement -/

theorem Symbols.tyOf?_insert (σ : Symbols) (x y : String) (v : Value) :
    Symbols.tyOf? (σ.insert x v) y = if x = y then some v.ty else σ.tyOf? y := by
  simp only [tyOf?, Std.ExtTreeMap.getElem?_insert, Std.compare_eq_iff_eq]
  split <;> rfl

/-- What a statement does to the variables and the output. -/
structure Store.Accumulates (s : Stmt) (σ σ' : Store) : Prop where
  types : ∀ x T, σ.symbols.tyOf? x = some T → σ'.symbols.tyOf? x = some T
  declared : ∀ x T, σ.symbols.tyOf? x = none → σ'.symbols.tyOf? x = some T → s = .declare x T
  output : σ'.output = σ.output ∨ ∃ v, σ'.output = σ.output ++ [v]

namespace Store.Accumulates

variable {s : Stmt} {σ σ' : Store}

theorem of_same (symbols : σ'.symbols = σ.symbols)
    (output : σ'.output = σ.output ∨ ∃ v, σ'.output = σ.output ++ [v]) : σ.Accumulates s σ' where
  types x T type := by rw [symbols, type]
  declared x T free bound := by
    rw [symbols, free] at bound
    cases bound
  output := output

/-- A variable that has a value takes another one of the same type. -/
theorem of_rebound {x : String} {old v : Value} (bound : σ.symbols[x]? = some old)
    (type : old.ty = v.ty) (symbols : σ'.symbols = σ.symbols.insert x v)
    (output : σ'.output = σ.output) : σ.Accumulates s σ' := by
  -- no type changes, so neither is a name lost nor a new one bound
  have same (y : String) : σ'.symbols.tyOf? y = σ.symbols.tyOf? y := by
    rw [symbols, Symbols.tyOf?_insert]
    split
    next here => rw [← here, Symbols.tyOf?, bound, ← type]; rfl
    · rfl
  exact
    { types := fun y T before => by rw [same, before]
      declared := fun y T free after => by rw [same, free] at after; cases after
      output := .inl output }

end Store.Accumulates

section Statement

variable {ν : Valuation} {disk : Disk} {σ σ' : Store} {s : Stmt} {o : Option Fault}

theorem Acts.accumulates (acts : Acts ν disk σ s σ' o) : σ.Accumulates s σ' := by
  cases acts with
  | @declare x t fresh =>
    have free : σ.symbols.tyOf? x = none := by
      rw [Symbols.tyOf?, Std.ExtTreeMap.getElem?_eq_none fresh, Option.map_none]
    refine ⟨fun y T type => ?_, fun y T unbound type => ?_, .inl rfl⟩
    · rw [Symbols.tyOf?_insert, if_neg, type]
      -- a name that has a type already is not declared again
      rintro rfl
      rw [free] at type
      cases type
    · -- only the declared name is new
      rw [Symbols.tyOf?_insert] at type
      split at type
      next here => simpa [here, eq_comm] using type
      next => rw [unbound] at type; cases type
  | assign value bound type => exact .of_rebound bound type rfl rfl
  | @alloc x e a v bound value => exact .of_rebound (v := .ref σ.heap.next v.ty) bound rfl rfl rfl
  | @readInt f x name old n files line bound named read number =>
    exact .of_rebound (v := .int n) bound rfl rfl rfl
  | print value => exact .of_same rfl (.inr ⟨_, rfl⟩)
  | _ => exact .of_same rfl (.inl rfl)

theorem Stmt.execBy_accumulates (ν : Valuation) (disk : Disk) (σ : Store) (s : Stmt) :
    σ.Accumulates s (s.execBy ν disk σ).1 := by
  by_cases simple : s.elementary
  · obtain ⟨σ', o, acts, executed⟩ := s.execBy_acts ν disk σ simple
    rw [executed]
    exact acts.accumulates
  · rw [execBy_fst_of_not_elementary ν disk σ simple]
    exact .of_same rfl (.inl rfl)

/-- The statements that a statement puts on the stack; a failing one puts none there. -/
def Stmt.pushed (ν : Valuation) (disk : Disk) (σ : Store) (s : Stmt) : List Stmt :=
  match (s.execBy ν disk σ).2 with
  | .ok effect => effect.push
  | .error _ => []

theorem Stmt.length_pushed_le (ν : Valuation) (disk : Disk) (σ : Store) (s : Stmt) :
    (s.pushed ν disk σ).length ≤ 2 := by
  by_cases simple : s.elementary
  · obtain ⟨σ', o, -, executed⟩ := s.execBy_acts ν disk σ simple
    cases o <;> simp [pushed, executed, Effect.after]
  · cases s with
    | seq a b => exact Nat.le_refl 2
    | ite g a b => cases guard : ν.guard "if" g <;> simp [pushed, execBy, guard, Except.map]
    | loop g b =>
      cases guard : ν.guard "while" g with
      | error e => simp [pushed, execBy, guard, Except.map]
      | ok c => cases c <;> simp [pushed, execBy, guard, Except.map]
    | fork b => exact Nat.zero_le 2
    | _ => simp [elementary] at simple

end Statement

/-! ### One step -/

/-- What becomes of a thread that executes the given statements: its variables keep their types, and each
new one has the type of a declaration among the statements; each statement adds at most one value to the
output and at most one statement to the stack. -/
structure Thread.Accumulates (executed : List Stmt) (t t' : Thread) : Prop where
  id : t'.id = t.id
  types : ∀ x T, t.symbols.tyOf? x = some T → t'.symbols.tyOf? x = some T
  declared : ∀ x T, t.symbols.tyOf? x = none → t'.symbols.tyOf? x = some T → .declare x T ∈ executed
  output : ∃ printed, t'.output = t.output ++ printed ∧ printed.length ≤ executed.length
  depth : t'.stack.length ≤ t.stack.length + executed.length

namespace Thread.Accumulates

variable {t u v : Thread} {xs ys : List Stmt}

theorem refl (t : Thread) : t.Accumulates [] t where
  id := rfl
  types _ _ type := type
  declared x T free bound := by rw [free] at bound; cases bound
  output := ⟨[], by simp⟩
  depth := Nat.le_refl _

theorem trans (first : t.Accumulates xs u) (second : u.Accumulates ys v) : t.Accumulates (xs ++ ys) v where
  id := second.id.trans first.id
  types x T type := second.types x T (first.types x T type)
  declared x T free bound := by
    cases between : u.symbols.tyOf? x with
    | none => exact List.mem_append_right _ (second.declared x T between bound)
    | some T' =>
      -- declared by then, so the type is the one that it had then
      have same := second.types x T' between
      rw [bound, Option.some.injEq] at same
      rw [same]
      exact List.mem_append_left _ (first.declared x T' free between)
  output := by
    obtain ⟨early, before, few⟩ := first.output
    obtain ⟨late, after, few'⟩ := second.output
    refine ⟨early ++ late, by rw [after, before, List.append_assoc], ?_⟩
    rw [List.length_append, List.length_append]
    omega
  depth := by
    have := first.depth
    have := second.depth
    rw [List.length_append]
    omega

end Thread.Accumulates

/-- The thread `t` executes the statement `s`, which is on top of its stack, on the heap `h`, with the given
value for its expression, and is `t'` then. The statement is replaced by those that it leaves to be done,
which are two at most, and what is below it is as before. -/
structure Thread.Executes (ν : Valuation) (disk : Disk) (h : Heap) (s : Stmt) (t t' : Thread) : Prop where
  active : t.isActive
  stack : ∃ rest, t.stack = s :: rest ∧ t'.stack = s.pushed ν disk (t.store h) ++ rest
  depth : t'.stack.length + 1 = t.stack.length + (s.pushed ν disk (t.store h)).length
  pushed : (s.pushed ν disk (t.store h)).length ≤ 2
  accumulates : t.Accumulates [s] t'

/-- The thread `child` is at its start, and `t` is about to fork it: it is to run the body of the fork, with
the variables of `t` and on the heap of `t`. -/
def Thread.Forks (t child : Thread) : Prop :=
  t.isActive ∧ ∃ body rest, t.stack = .fork body :: rest ∧
    child = Thread.start child.id t.heap body t.symbols

namespace Thread

variable {ν : Valuation} {disk : Disk} {h : Heap} {t t' : Thread} {s : Stmt}

/-- What a step makes of a thread, but for its status. -/
theorem stepBy_thread (ν : Valuation) (disk : Disk) (h : Heap) {rest : List Stmt}
    (running : t.status = .running) (top : t.stack = s :: rest) :
    ∃ status, (t.stepBy ν disk h).thread =
      { t.resume (s.pushed ν disk (t.store h) ++ rest) (s.execBy ν disk (t.store h)).1 with status } := by
  simp only [stepBy, running, top, Stmt.pushed]
  rcases s.execBy ν disk (t.store h) with ⟨σ, e | effect⟩
  · exact ⟨t.status, rfl⟩
  · dsimp only
    split
    · exact ⟨.completed, rfl⟩
    · exact ⟨t.status, rfl⟩

/-- A step executes the top statement, whether it fails or not. -/
theorem stepBy_executes (ν : Valuation) (disk : Disk) (h : Heap) (active : t.isActive) :
    ∃ s, t.Executes ν disk h s (t.stepBy ν disk h).thread := by
  obtain ⟨running, some⟩ := status_and_stack_of_isActive active
  obtain ⟨s, rest, top⟩ := List.exists_cons_of_ne_nil some
  obtain ⟨status, stepped⟩ := stepBy_thread ν disk h running top
  have store := s.execBy_accumulates ν disk (t.store h)
  have few := s.length_pushed_le ν disk (t.store h)
  have depth : (s.pushed ν disk (t.store h) ++ rest).length + 1 =
      t.stack.length + (s.pushed ν disk (t.store h)).length := by
    rw [top, List.length_append, List.length_cons]
    omega
  rw [stepped]
  refine ⟨s, active, ⟨rest, top, rfl⟩, depth, few, rfl, store.types, ?_, ?_, ?_⟩
  · intro x T free bound
    exact List.mem_singleton.mpr (store.declared x T free bound).symm
  · rcases store.output with same | ⟨v, more⟩
    · exact ⟨[], same.trans (List.append_nil _).symm, Nat.zero_le _⟩
    · exact ⟨[v], more, Nat.le_refl 1⟩
  · change (s.pushed ν disk (t.store h) ++ rest).length ≤ t.stack.length + 1
    omega

/-- Ending a thread changes nothing of what is said here. -/
theorem Executes.fail (executes : t.Executes ν disk h s t') (e : Fault) :
    t.Executes ν disk h s (t'.fail e) where
  active := executes.active
  stack := executes.stack
  depth := executes.depth
  pushed := executes.pushed
  accumulates :=
    ⟨executes.accumulates.id, executes.accumulates.types, executes.accumulates.declared,
      executes.accumulates.output, executes.accumulates.depth⟩

end Thread

namespace World

variable (ν : Valuation) (disk : Disk) (w : World) {t : Thread}

theorem stepBy_of_inactive (inactive : ¬t.isActive) : (w.stepBy ν disk t).2.1 = t := by
  rw [stepBy_snd, Thread.stepBy_of_inactive ν disk _ inactive]

theorem stepBy_executes (active : t.isActive) :
    ∃ s, t.Executes ν disk (w.heap t.heap) s (w.stepBy ν disk t).2.1 := by
  rw [stepBy_snd]
  exact Thread.stepBy_executes ν disk _ active

end World

theorem Turn.Proper.forks {disk : Disk} {u : Turn} (proper : u.Proper disk) {child : Thread}
    (started : u.child? = some child) : u.thread.Forks child := by
  refine ⟨?_, proper.child started⟩
  obtain ⟨w, ν, outcome⟩ := proper
  by_contra inactive
  rw [child?, outcome, World.stepBy_snd, Thread.stepBy_of_inactive ν disk _ inactive] at started
  cases started

/-- The statements of the list are those that the thread has executed on the way, each of them when it was on
top of the stack. -/
inductive Thread.Goes : List Stmt → Thread → Thread → Prop where
  | still {t : Thread} : Goes [] t t
  | on {executed : List Stmt} {t u v : Thread} {ν : Valuation} {disk : Disk} {h : Heap} {s : Stmt}
    (goes : Goes executed t u) (executes : u.Executes ν disk h s v) : Goes (executed ++ [s]) t v

theorem Thread.Goes.accumulates {executed : List Stmt} {t t' : Thread} (goes : Goes executed t t') :
    t.Accumulates executed t' := by
  induction goes with
  | still => exact .refl _
  | on _ executes ih => exact ih.trans executes.accumulates

/-- The thread has executed no more than `n` statements in between. -/
def Thread.GoesWithin (n : Nat) (t t' : Thread) : Prop :=
  ∃ executed, executed.length ≤ n ∧ Goes executed t t' ∧ t.Accumulates executed t'

theorem Thread.GoesWithin.refl (n : Nat) (t : Thread) : t.GoesWithin n t :=
  ⟨[], Nat.zero_le n, .still, .refl t⟩

/-- The thread is left alone, or executes one statement. -/
def Thread.Advances (t t' : Thread) : Prop :=
  t' = t ∨ ∃ ν disk h s, t.Executes ν disk h s t'

theorem World.step_advances (disk : Disk) (w : World) (t : Thread) :
    t.Advances (w.step disk t).2.1 := by
  by_cases active : t.isActive
  · exact .inr ⟨_, disk, w.heap t.heap, w.stepBy_executes _ disk active⟩
  · exact .inl (w.stepBy_of_inactive _ disk active)

theorem Thread.GoesWithin.advance {n : Nat} {t u v : Thread} (goes : t.GoesWithin n u)
    (advances : u.Advances v) : t.GoesWithin (n + 1) v := by
  obtain ⟨executed, few, goes, accumulates⟩ := goes
  rcases advances with rfl | ⟨ν, disk, h, s, executes⟩
  · exact ⟨executed, by omega, goes, accumulates⟩
  · have longer := goes.on executes
    refine ⟨executed ++ [s], ?_, longer, longer.accumulates⟩
    rw [List.length_append, List.length_singleton]
    omega

theorem Turn.Proper.advances {disk : Disk} {u : Turn} (proper : u.Proper disk)
    (active : u.thread.isActive) : u.thread.Advances u.settled := by
  obtain ⟨w, ν, outcome⟩ := proper
  obtain ⟨s, executes⟩ := w.stepBy_executes ν disk active
  rw [← outcome] at executes
  -- the status is all that is settled after the step
  refine .inr ⟨ν, disk, w.heap u.thread.heap, s, ?_⟩
  cases answer : u.outcome.2 with
  | ok child => simpa [settled, Pool.settle, answer] using executes
  | error e => simpa [settled, Pool.settle, answer] using executes.fail e

/-! ### Many threads -/

/-- The threads `us` are what the threads `ts` have become, one by one, and new ones besides. -/
def Succession (Becomes : Thread → Thread → Prop) (New : Thread → Prop) (ts us : List Thread) : Prop :=
  ∃ later new, us.Perm (later ++ new) ∧ List.Forall₂ Becomes ts later ∧ ∀ b ∈ new, New b

theorem forall₂_comp {α β γ : Type} {R : α → β → Prop} {S : β → γ → Prop} {xs : List α} {ys : List β}
    {zs : List γ} (first : List.Forall₂ R xs ys) (second : List.Forall₂ S ys zs) :
    List.Forall₂ (Relation.Comp R S) xs zs := by
  induction first generalizing zs with
  | nil =>
    cases second
    exact .nil
  | cons here _ ih =>
    cases second with
    | cons there rest => exact .cons ⟨_, here, there⟩ (ih rest)

theorem exists_of_mem_right {α β : Type} {R : α → β → Prop} {xs : List α} {ys : List β}
    (related : List.Forall₂ R xs ys) {y : β} (member : y ∈ ys) : ∃ x ∈ xs, R x y := by
  induction related with
  | nil => cases member
  | @cons a b xs ys here _ ih =>
    rcases List.mem_cons.mp member with rfl | later
    · exact ⟨a, List.mem_cons_self, here⟩
    · obtain ⟨x, there, rel⟩ := ih later
      exact ⟨x, List.mem_cons_of_mem a there, rel⟩

namespace Succession

variable {Becomes : Thread → Thread → Prop} {New : Thread → Prop} {ts ts' us us' vs : List Thread}

theorem refl (every : ∀ t, Becomes t t) (ts : List Thread) : Succession Becomes New ts ts :=
  ⟨ts, [], by simp, List.forall₂_same.mpr fun t _ => every t, by simp⟩

theorem append (first : Succession Becomes New ts us) (second : Succession Becomes New ts' us') :
    Succession Becomes New (ts ++ ts') (us ++ us') := by
  obtain ⟨later, new, split, becomes, born⟩ := first
  obtain ⟨later', new', split', becomes', born'⟩ := second
  refine ⟨later ++ later', new ++ new', ?_, List.rel_append becomes becomes', ?_⟩
  · -- the new threads of the first part change places with the old ones of the second
    refine (split.append split').trans ?_
    rw [List.append_assoc, List.append_assoc]
    refine List.Perm.append_left later ?_
    rw [← List.append_assoc, ← List.append_assoc]
    exact List.perm_append_comm.append_right new'
  · intro b member
    exact (List.mem_append.mp member).elim (born b) (born' b)

/-- The order of the threads does not matter. -/
theorem perm (becomes : Succession Becomes New ts us) (before : ts'.Perm ts) (after : us'.Perm us) :
    Succession Becomes New ts' us' := by
  obtain ⟨later, new, split, becomes, born⟩ := becomes
  obtain ⟨later', becomes', order⟩ := List.perm_comp_forall₂ before becomes
  exact ⟨later', new, (after.trans split).trans (order.symm.append_right new), becomes', born⟩

theorem trans {Becomes' Becomes'' : Thread → Thread → Prop} {New' New'' : Thread → Prop}
    (first : Succession Becomes New ts us) (second : Succession Becomes' New' us vs)
    (goesOn : ∀ t u v, Becomes t u → Becomes' u v → Becomes'' t v)
    (older : ∀ b v, New b → Becomes' b v → New'' v) (newer : ∀ b, New' b → New'' b) :
    Succession Becomes'' New'' ts vs := by
  obtain ⟨middle, new, split, becomes, born⟩ := first
  -- in the order of the threads in the middle, the old ones come first and the new ones follow
  obtain ⟨later, new', split', becomes', born'⟩ := second.perm split.symm (List.Perm.refl vs)
  have old := List.forall₂_take middle.length becomes'
  have young := List.forall₂_drop middle.length becomes'
  rw [List.take_left] at old
  rw [List.drop_left] at young
  refine ⟨later.take middle.length, later.drop middle.length ++ new', ?_, ?_, ?_⟩
  · rw [← List.append_assoc, List.take_append_drop]
    exact split'
  · refine (forall₂_comp becomes old).imp ?_
    rintro t v ⟨u, here, there⟩
    exact goesOn t u v here there
  · intro b member
    rcases List.mem_append.mp member with grown | fresh
    · obtain ⟨b', origin, rel⟩ := exists_of_mem_right young grown
      exact older b' b (born b' origin) rel
    · exact newer b (born' b fresh)

end Succession

/-! ### Rounds -/

theorem Thread.Advances.refl (t : Thread) : t.Advances t :=
  .inl rfl

theorem Turn.succession {disk : Disk} {us : List Turn} {New : Thread → Prop}
    (proper : ∀ u ∈ us, u.Proper disk) (active : ∀ u ∈ us, u.thread.isActive)
    (born : ∀ u ∈ us, ∀ child, u.thread.Forks child → New child) :
    Succession Thread.Advances New (us.map thread) (us.map settled ++ us.filterMap child?) := by
  refine ⟨us.map settled, us.filterMap child?, List.Perm.refl _, ?_, fun child member => ?_⟩
  · rw [List.forall₂_map_left_iff, List.forall₂_map_right_iff, List.forall₂_same]
    intro u member
    exact (proper u member).advances (active u member)
  · obtain ⟨u, turn, started⟩ := List.mem_filterMap.mp member
    exact born u turn child ((proper u turn).forks started)

/-- A round advances the threads that are active and leaves the others alone. -/
theorem Pool.succession_advance (sweep : World → List Thread → World) (disk : Disk) (order : List Nat)
    (p : Pool) {New : Thread → Prop} (born : ∀ t ∈ p.active, ∀ child, t.Forks child → New child) :
    Succession Thread.Advances New (p.retired ++ p.active)
      ((p.advance sweep disk order).1.retired ++ (p.advance sweep disk order).1.active) := by
  have threads : (p.turns sweep disk order).map Turn.thread = p.active.filter (·.isActive) :=
    World.map_thread_turns _ _ _ _
  have active (u : Turn) (turn : u ∈ p.turns sweep disk order) :
      u.thread ∈ p.active ∧ u.thread.isActive := by
    have member := List.mem_map_of_mem (f := Turn.thread) turn
    rw [threads] at member
    exact List.mem_filter.mp member
  have proper (u : Turn) (turn : u ∈ p.turns sweep disk order) : u.Proper disk :=
    World.proper_of_mem_turns _ _ _ turn
  have turns := Turn.succession proper (fun u turn => (active u turn).2)
    (fun u turn => born u.thread (active u turn).1)
  rw [threads] at turns
  have others : Succession Thread.Advances New (p.retired ++ p.active.filter (!·.isActive))
      (p.retired ++ p.active.filter (!·.isActive)) := .refl .refl _
  -- what is listed after the turns is split once more, into the active threads and those that have ended
  refine (others.append turns).perm ?_ ?_
  · rw [List.append_assoc]
    refine List.Perm.append_left p.retired ?_
    exact (List.filter_append_perm (·.isActive) p.active).symm.trans List.perm_append_comm
  · rw [retired_advance, active_advance, List.append_assoc]
    refine List.Perm.append_left p.retire.retired ?_
    exact List.perm_append_comm.trans (List.filter_append_perm (·.isActive) (p.listed sweep disk order))

/-! ### Sessions -/

/-- A scheduler, and the threads that are not in its hands. All threads live in the world of the scheduler. -/
structure Session where
  scheduler : Scheduler
  loose : List Thread := []

/-- What can be done in a session. The disk is the one that is found at the time. -/
inductive Move where
  /-- Steps the thread with the given place among the loose ones; a thread that it starts is loose as well. -/
  | step (disk : Disk) (place : Nat)
  /-- Gives the loose thread with the given place to the scheduler. -/
  | add (place : Nat)
  /-- Runs a round of the scheduler, with the given course. -/
  | round (disk : Disk) (course : Course)
  /-- Takes the retired threads from the scheduler. -/
  | release

namespace Session

/-- The session after a move; a place where no thread is changes nothing. -/
def apply (c : Session) : Move → Session
  | .step disk place =>
    match c.loose[place]? with
    | none => c
    | some t =>
      let (world, outcome) := c.scheduler.pool.world.step disk t
      { scheduler := { c.scheduler with pool := { c.scheduler.pool with world } }
        loose := c.loose.set place outcome.1 ++ (Pool.child? outcome).toList }
  | .add place =>
    match c.loose[place]? with
    | none => c
    | some t =>
      { scheduler := { c.scheduler with pool := c.scheduler.pool.add t }
        loose := c.loose.eraseIdx place }
  | .round disk course => { c with scheduler := ({ c.scheduler with disk }.round course).1 }
  | .release =>
    let (retired, scheduler) := c.scheduler.takeRetired
    { scheduler, loose := c.loose ++ retired }

/-- The session after some moves. -/
def run (c : Session) (moves : List Move) : Session :=
  moves.foldl apply c

/-- All threads of a session. -/
def threads (c : Session) : List Thread :=
  c.loose ++ (c.scheduler.pool.retired ++ c.scheduler.pool.active)

variable (c : Session)

theorem run_concat (moves : List Move) (move : Move) :
    c.run (moves ++ [move]) = (c.run moves).apply move := by
  rw [run, List.foldl_append]
  rfl

/-- A step of a thread in a list: it advances, and the thread that it starts comes behind the others. -/
theorem succession_step (disk : Disk) (w : World) {ts : List Thread} {place : Nat} {t : Thread}
    (found : ts[place]? = some t) {New : Thread → Prop} (born : ∀ child, t.Forks child → New child) :
    Succession Thread.Advances New ts
      (ts.set place (w.step disk t).2.1 ++ (Pool.child? (w.step disk t).2).toList) := by
  refine ⟨_, _, List.Perm.refl _, ?_, fun child member => ?_⟩
  · rw [List.forall₂_iff_get]
    refine ⟨List.length_set.symm, fun i here there => ?_⟩
    simp only [List.get_eq_getElem, List.getElem_set]
    split
    next same =>
      subst same
      rw [List.getElem?_eq_getElem here, Option.some.injEq] at found
      rw [found]
      exact w.step_advances disk t
    · exact .refl _
  · rw [Option.mem_toList] at member
    have turn : Turn.Proper disk ⟨t, (w.step disk t).2⟩ := ⟨w, _, rfl⟩
    exact born child (turn.forks member)

theorem apply_succession (move : Move) {New : Thread → Prop}
    (born : ∀ t ∈ c.threads, ∀ child, t.Forks child → New child) :
    Succession Thread.Advances New c.threads (c.apply move).threads := by
  have still (ts : List Thread) : Succession Thread.Advances New ts ts := .refl .refl ts
  cases move with
  | step disk place =>
    cases found : c.loose[place]? with
    | none => simpa only [apply, found] using still c.threads
    | some t =>
      have member : t ∈ c.threads := List.mem_append_left _ (List.mem_of_getElem? found)
      simp only [apply, found]
      exact (succession_step disk c.scheduler.pool.world found (born t member)).append (still _)
  | add place =>
    cases found : c.loose[place]? with
    | none => simpa only [apply, found] using still c.threads
    | some t =>
      -- the thread goes from one list to the other as it is
      obtain ⟨inside, rfl⟩ := List.getElem?_eq_some_iff.mp found
      refine (still c.threads).perm (List.Perm.refl _) ?_
      simp only [apply, found, threads, Pool.add, ← List.append_assoc]
      refine (List.perm_append_singleton _ _).trans ?_
      rw [← List.cons_append, ← List.cons_append]
      exact ((List.getElem_cons_eraseIdx_perm inside).append_right _).append_right _
  | round disk course =>
    have advanced := Pool.succession_advance World.sweep
      (Scheduler.roundDisk World.sweep course { c.scheduler with disk }) course.order c.scheduler.pool
      (fun t member => born t (List.mem_append_right _ (List.mem_append_right _ member)))
    simp only [apply, threads, Scheduler.round, Scheduler.pool_fst_roundWith]
    exact (still c.loose).append advanced
  | release =>
    simpa [apply, threads, Scheduler.takeRetired] using still c.threads

theorem apply_children (move : Move) :
    Succession Thread.Advances (fun b => ∃ t ∈ c.threads, t.Forks b) c.threads
      (c.apply move).threads :=
  c.apply_succession move fun t member _ forks => ⟨t, member, forks⟩

/-- The thread `b` was started by a fork in one of the moves, and has gone on since. -/
def Grown (moves : List Move) (b : Thread) : Prop :=
  ∃ before move after, moves = before ++ move :: after ∧
    ∃ t ∈ (c.run before).threads, ∃ child, t.Forks child ∧ child.GoesWithin after.length b

theorem run_succession (moves : List Move) :
    Succession (Thread.GoesWithin moves.length) (c.Grown moves) c.threads (c.run moves).threads := by
  -- the last move comes on top: it carries on what is there, and its own children are at their start
  induction moves using List.reverseRecOn with
  | nil => exact .refl (.refl 0) c.threads
  | append_singleton moves move ih =>
    have last := (c.run moves).apply_children move
    rw [run_concat, List.length_append, List.length_singleton]
    refine ih.trans last (fun t u v goes advances => goes.advance advances) ?_ ?_
    · rintro b v ⟨before, other, after, rfl, t, member, child, forks, goes⟩ advances
      refine ⟨before, other, after ++ [move], by simp, t, member, child, forks, ?_⟩
      rw [List.length_append, List.length_singleton]
      exact goes.advance advances
    · rintro b ⟨t, member, forks⟩
      exact ⟨moves, move, [], rfl, t, member, b, forks, .refl 0 b⟩

/-- Variables keep their types, and threads only accumulate. Whatever thread takes a step in whatever world,
with whatever it has found out of the heap while others changed it, whether the step fails or not: if the
thread is active, it executes the statement on top of its stack, which is replaced by those that it leaves to
be done, and otherwise it stays as it is. A thread that a step starts has the variables of its parent. A move
of a session, such as a round whose steps interleave in any order, does no more to each of the threads, and
starts no others. So after any moves each thread has every variable that it had, with the type that it had,
and others only with the types of declarations that it has executed; its output goes on from where it was, by
at most one value for each statement; and the same is true of a thread that was started on the way, from its
start on. -/
theorem threads_only_accumulate (c : Session) (moves : List Move) :
    (∀ (ν : Valuation) (disk : Disk) (w : World) (t : Thread),
      (t.isActive → ∃ s, t.Executes ν disk (w.heap t.heap) s (w.stepBy ν disk t).2.1) ∧
      (¬t.isActive → (w.stepBy ν disk t).2.1 = t) ∧
      ∀ child, (w.stepBy ν disk t).2.2 = .ok (some child) → t.Forks child) ∧
    (∀ move, Succession Thread.Advances (fun b => ∃ t ∈ c.threads, t.Forks b) c.threads
      (c.apply move).threads) ∧
    Succession (Thread.GoesWithin moves.length) (c.Grown moves) c.threads (c.run moves).threads := by
  refine ⟨fun ν disk w t => ⟨w.stepBy_executes ν disk, w.stepBy_of_inactive ν disk,
    fun child started => ?_⟩, c.apply_children, c.run_succession moves⟩
  have turn : Turn.Proper disk ⟨t, (w.stepBy ν disk t).2⟩ := ⟨w, ν, rfl⟩
  exact turn.forks (by simp [Turn.child?, Pool.child?, started])

/-- A thread whose first statement fails forks another one, is given to the scheduler and declares a variable
there, while the other one prints. -/
theorem threads_only_accumulate_past_a_failure :
    let disk := Disk.blank []
    let t : Thread :=
      { Thread.start 1 0 .nop ((∅ : Symbols).insert "x" (.int 3)) with
        stack := [.assign "x" (.bool true), .fork (.print (.var "x")), .declare "y" .bool] }
    let c : Session :=
      { scheduler := { pool := { world := { nextThread := 2 } }, disk }, loose := [t] }
    let noon := Course.smooth ⟨2024, 1, 1, 12, 0, 0⟩
    let moves : List Move := [.step disk 0, .step disk 0, .add 0, .round disk noon, .step disk 0]
    t.isActive ∧
    (c.scheduler.pool.world.step disk t).2.2 = .error (.assignedType "x" .int .bool) ∧
    (∃ s, t.Executes (t.store (c.scheduler.pool.world.heap 0)).eval disk (c.scheduler.pool.world.heap 0) s
      (c.scheduler.pool.world.step disk t).2.1) ∧
    ((c.run moves).threads.map fun u =>
        (u.id, u.output, u.symbols.tyOf? "x", u.symbols.tyOf? "y")) =
      [(2, [.int 3], some .int, none), (1, [], some .int, some .bool)] ∧
    Succession (Thread.GoesWithin 5) (c.Grown moves) [t] (c.run moves).threads := by
  intro disk t c noon moves
  obtain ⟨step, -, run⟩ := threads_only_accumulate c moves
  exact ⟨rfl, by rfl, (step _ disk c.scheduler.pool.world t).1 rfl, by decide +kernel, run⟩

end Session

end Lockstep

import Lockstep.Proofs.Round

/-!
Operations of threads that interleave.

Whatever is left of the steps of a round can be carried out by giving every thread enough turns, so a round is
a sequence of single operations, at whose end all threads are done. What every operation keeps is therefore
kept by the round, and what two phases have in common after every operation they have in common at the end.
If nobody interrupts anybody, the threads are stepped one after another.
-/

namespace Lockstep

namespace Phase

variable (disk : Disk)

theorem run_append (f : Phase) (first second : List Nat) :
    f.run disk (first ++ second) = (f.run disk first).run disk second :=
  List.foldl_append

theorem run_cons (f : Phase) (place : Nat) (rest : List Nat) :
    f.run disk (place :: rest) = (f.turn disk place).run disk rest := rfl

theorem turn_of_some {f : Phase} {place : Nat} {j : Job} (here : f.jobs[place]? = some j) :
    f.turn disk place =
      { world := (f.world.act disk j).1, jobs := f.jobs.set place (f.world.act disk j).2 } := by
  simp only [turn, here]

theorem turn_of_none {f : Phase} {place : Nat} (nobody : f.jobs[place]? = none) :
    f.turn disk place = f := by
  simp only [turn, nobody]

theorem turn_append (w : World) (front : List Job) (j : Job) (back : List Job) :
    turn disk ⟨w, front ++ j :: back⟩ front.length =
      ⟨(w.act disk j).1, front ++ (w.act disk j).2 :: back⟩ := by
  rw [turn_of_some disk (f := ⟨w, front ++ j :: back⟩) (j := j) (by simp)]
  simp

theorem turn_split {f : Phase} {place : Nat} {j : Job} (here : f.jobs[place]? = some j) :
    ∃ front back, f.jobs = front ++ j :: back ∧ front.length = place ∧
      f.turn disk place = ⟨(f.world.act disk j).1, front ++ (f.world.act disk j).2 :: back⟩ := by
  obtain ⟨less, rfl⟩ := List.getElem?_eq_some_iff.mp here
  have parts := List.take_append_drop place f.jobs
  rw [List.drop_eq_getElem_cons less] at parts
  have length : (f.jobs.take place).length = place := List.length_take_of_le (Nat.le_of_lt less)
  refine ⟨_, _, parts.symm, length, ?_⟩
  have turned := turn_append disk f.world (f.jobs.take place) f.jobs[place] (f.jobs.drop (place + 1))
  rwa [parts, length] at turned

/-- What a turn can come to: nothing, a look, or an action, which ends the step of the thread. -/
theorem turn_cases (f : Phase) (place : Nat) :
    f.turn disk place = f ∨
    (∃ front t a next back, f.jobs = front ++ .reading t (.look a next) :: back ∧ front.length = place ∧
      f.turn disk place =
        ⟨f.world, front ++ .reading t (next ((f.world.heap t.heap).get a)) :: back⟩) ∨
    ∃ front t r back, f.jobs = front ++ .reading t (.answer r) :: back ∧ front.length = place ∧
      f.turn disk place = ⟨(f.world.stepBy (fun _ => r) disk t).1,
        front ++ .ended (f.world.stepBy (fun _ => r) disk t).2 :: back⟩ := by
  cases here : f.jobs[place]? with
  | none => exact .inl (turn_of_none disk here)
  | some j =>
    obtain ⟨front, back, split, length, turned⟩ := turn_split disk here
    cases j with
    | ended outcome =>
      refine .inl (turned.trans ?_)
      rw [World.act, ← split]
    | reading t q =>
      cases q with
      | look a next => exact .inr (.inl ⟨front, t, a, next, back, split, length, turned⟩)
      | answer r => exact .inr (.inr ⟨front, t, r, back, split, length, turned⟩)

@[simp] theorem length_jobs_turn (f : Phase) (place : Nat) :
    (f.turn disk place).jobs.length = f.jobs.length := by
  cases here : f.jobs[place]? with
  | none => rw [turn_of_none disk here]
  | some j => rw [turn_of_some disk here, List.length_set]

@[simp] theorem length_jobs_run (f : Phase) (order : List Nat) :
    (f.run disk order).jobs.length = f.jobs.length := by
  induction order generalizing f with
  | nil => rfl
  | cons place rest ih => rw [run_cons, ih, length_jobs_turn]

/-- What every operation keeps is kept by all of them. -/
theorem run_invariant {P : Phase → Prop} {disk : Disk}
    (kept : ∀ f place, P f → P (f.turn disk place)) {f : Phase} (first : P f) (order : List Nat) :
    P (f.run disk order) := by
  induction order generalizing f with
  | nil => exact first
  | cons place rest ih => exact ih (kept f place first)

theorem reading_mem_start (w : World) (threads : List Thread) (t : Thread) (q : Inquiry)
    (reading : .reading t q ∈ (start w threads).jobs) : t ∈ threads := by
  obtain ⟨u, member, same⟩ := List.mem_map.mp reading
  cases same
  exact member

/-- The threads that are still at their steps are among those that were at first. -/
theorem reading_mem_turn {f : Phase} {threads : List Thread}
    (members : ∀ t q, .reading t q ∈ f.jobs → t ∈ threads) (place : Nat) (t : Thread) (q : Inquiry)
    (reading : .reading t q ∈ (f.turn disk place).jobs) : t ∈ threads := by
  rcases f.turn_cases disk place with same | ⟨front, u, a, next, back, split, -, looked⟩ |
    ⟨front, u, r, back, split, -, acted⟩
  · rw [same] at reading
    exact members t q reading
  · rw [looked] at reading
    rw [split] at members
    simp only [List.mem_append, List.mem_cons, Job.reading.injEq] at reading members
    rcases reading with before | ⟨rfl, -⟩ | after
    · exact members t q (.inl before)
    · exact members t _ (.inr (.inl ⟨rfl, rfl⟩))
    · exact members t q (.inr (.inr after))
  · rw [acted] at reading
    rw [split] at members
    simp only [List.mem_append, List.mem_cons, reduceCtorEq, false_or] at reading
    rcases reading with before | after
    · exact members t q (List.mem_append_left _ before)
    · exact members t q (List.mem_append_right _ (List.mem_cons_of_mem _ after))

end Phase

/-! ### Coming to the end -/

/-- The number of cells that an inquiry looks at if nobody interrupts it. -/
def Inquiry.looks (h : Heap) : Inquiry → Nat
  | answer _ => 0
  | look a next => (next (h.get a)).looks h + 1

/-- The number of operations that a thread has left if nobody interrupts it. -/
def Job.left (w : World) : Job → Nat
  | reading t q => q.looks (w.heap t.heap) + 1
  | ended _ => 0

/-- The places of some threads, the first of which is `place`, each as often as its thread has operations left
when it comes to them. -/
def World.leftover (disk : Disk) (w : World) (place : Nat) : List Job → List Nat
  | [] => []
  | j :: js => List.replicate (j.left w) place ++ (w.finish disk j).1.leftover disk (place + 1) js

namespace Phase

variable (disk : Disk)

/-- All threads are done. -/
def ended (r : World × List (Thread × Except Fault (Option Thread))) : Phase where
  world := r.1
  jobs := r.2.map .ended

/-- The operations that are left, thread by thread. -/
def leftover (f : Phase) : List Nat :=
  f.world.leftover disk 0 f.jobs

/-- An order that gives each of `n` places the same number of turns, one place after another. -/
def amply (n turns : Nat) : List Nat :=
  (List.range n).flatMap (List.replicate turns)

/-- A thread that gets enough turns comes to the end of its step; more turns do no harm. -/
theorem run_replicate (w : World) (front : List Job) (j : Job) (back : List Job) {m : Nat}
    (enough : j.left w ≤ m) :
    run disk ⟨w, front ++ j :: back⟩ (List.replicate m front.length) =
      ⟨(w.finish disk j).1, front ++ .ended (w.finish disk j).2 :: back⟩ := by
  have stays (w : World) (outcome : Thread × Except Fault (Option Thread)) (m : Nat) :
      run disk ⟨w, front ++ .ended outcome :: back⟩ (List.replicate m front.length) =
        ⟨w, front ++ .ended outcome :: back⟩ := by
    induction m with
    | zero => rfl
    | succ m ih => rw [List.replicate_succ, run_cons, turn_append, World.act, ih]
  cases j with
  | ended outcome => exact stays w outcome m
  | reading t q =>
    induction q generalizing m with
    | answer r =>
      have one : 1 ≤ m := enough
      obtain ⟨m, rfl⟩ := Nat.exists_eq_add_of_le' one
      rw [List.replicate_succ, run_cons, turn_append]
      exact stays _ _ m
    | look a next ih =>
      -- the look takes a turn, and what comes after it takes those that the induction gives
      obtain ⟨m, rfl⟩ := Nat.exists_eq_add_of_le' (Nat.le_trans (Nat.le_add_left 1 _) enough)
      rw [List.replicate_succ, run_cons, turn_append]
      exact ih ((w.heap t.heap).get a) (Nat.le_of_add_le_add_right enough)

theorem run_places (w : World) (front js : List Job) :
    ∃ k, ∀ m ≥ k, run disk ⟨w, front ++ js⟩
        ((List.range' front.length js.length).flatMap (List.replicate m)) =
      ⟨(w.finishAll disk js).1, front ++ (w.finishAll disk js).2.map .ended⟩ := by
  induction js generalizing w front with
  | nil => exact ⟨0, fun m _ => rfl⟩
  | cons j js ih =>
    obtain ⟨k, others⟩ := ih (w.finish disk j).1 (front ++ [.ended (w.finish disk j).2])
    refine ⟨max (j.left w) k, fun m enough => ?_⟩
    have rest := others m (by omega)
    rw [List.append_assoc, List.singleton_append, List.length_append, List.length_singleton] at rest
    rw [List.length_cons, List.range'_succ, List.flatMap_cons, run_append,
      run_replicate disk w front j js (by omega), rest]
    simp only [World.finishAll, List.map_cons, List.append_assoc, List.singleton_append]

/-- To finish all steps is to give every thread enough turns. -/
theorem run_amply (f : Phase) :
    ∃ k, ∀ m ≥ k, f.run disk (amply f.jobs.length m) = ended (f.world.finishAll disk f.jobs) := by
  obtain ⟨k, all⟩ := run_places disk f.world [] f.jobs
  refine ⟨k, fun m enough => ?_⟩
  rw [amply, List.range_eq_range']
  exact all m enough

/-- To finish all steps is to carry out the operations that are left. -/
theorem run_leftover (f : Phase) :
    f.run disk (f.leftover disk) = ended (f.world.finishAll disk f.jobs) := by
  have rest (w : World) (front js : List Job) :
      run disk ⟨w, front ++ js⟩ (w.leftover disk front.length js) =
        ⟨(w.finishAll disk js).1, front ++ (w.finishAll disk js).2.map .ended⟩ := by
    induction js generalizing w front with
    | nil => rfl
    | cons j js ih =>
      have others := ih (w.finish disk j).1 (front ++ [.ended (w.finish disk j).2])
      rw [List.append_assoc, List.singleton_append, List.length_append, List.length_singleton] at others
      rw [World.leftover, run_append, run_replicate disk w front j js (Nat.le_refl _), others]
      simp only [World.finishAll, List.map_cons, List.append_assoc, List.singleton_append]
  exact rest f.world [] f.jobs

end Phase

/-! ### Steps of a round -/

namespace World

open Phase (amply)

variable {disk : Disk} {w : World} {threads : List Thread}

/-- An operation of a thread that reads the same from two disks. -/
theorem act_congr {disk disk' : Disk} (w : World) {j : Job}
    (same : ∀ t q, j = .reading t q → ∀ (ν : Valuation) (w : World),
      w.stepBy ν disk' t = w.stepBy ν disk t) : w.act disk' j = w.act disk j := by
  cases j with
  | ended outcome => rfl
  | reading t q =>
    cases q with
    | look a next => rfl
    | answer r => simp only [act, same t _ rfl]

/-- A round of steps is a sequence of single operations. -/
theorem run_start (disk : Disk) (order : List Nat) (w : World) (threads : List Thread) :
    ∃ k, ∀ m ≥ k, (Phase.start w threads).run disk (order ++ amply threads.length m) =
      .ended (w.stepTogether disk order threads) := by
  obtain ⟨k, finished⟩ := Phase.run_amply disk ((Phase.start w threads).run disk order)
  refine ⟨k, fun m enough => ?_⟩
  have count : ((Phase.start w threads).run disk order).jobs.length = threads.length := by
    rw [Phase.length_jobs_run, Phase.start, List.length_map]
  rw [Phase.run_append, ← count]
  exact finished m enough

/-- What every operation keeps holds when all threads are done. -/
theorem stepTogether_invariant {P : Phase → Prop} (kept : ∀ f place, P f → P (f.turn disk place))
    (order : List Nat) (first : P (.start w threads)) : P (.ended (w.stepTogether disk order threads)) := by
  obtain ⟨k, whole⟩ := run_start disk order w threads
  rw [← whole k (Nat.le_refl k)]
  exact Phase.run_invariant kept first _

/-- What two phases have in common after every operation, they have in common when all threads are done. The
threads at one place need not have the same number of operations. -/
theorem stepTogether_relation {R : Phase → Phase → Prop} {disk' : Disk} {w' : World}
    {threads' : List Thread} (kept : ∀ f g place, R f g → R (f.turn disk place) (g.turn disk' place))
    (order : List Nat) (count : threads'.length = threads.length)
    (first : R (.start w threads) (.start w' threads')) :
    R (.ended (w.stepTogether disk order threads)) (.ended (w'.stepTogether disk' order threads')) := by
  have runs (f g : Phase) (related : R f g) (order : List Nat) :
      R (f.run disk order) (g.run disk' order) := by
    induction order generalizing f g with
    | nil => exact related
    | cons place rest ih => exact ih _ _ (kept f g place related)
  obtain ⟨k, whole⟩ := run_start disk order w threads
  obtain ⟨l, whole'⟩ := run_start disk' order w' threads'
  rw [← whole (max k l) (Nat.le_max_left k l), ← whole' (max k l) (Nat.le_max_right k l), count]
  exact runs _ _ first _

/-- What every operation of a thread keeps, of the thread and what it has come to, holds at the end of its
step, whatever others do meanwhile. -/
theorem stepTogether_each {Q : Thread → Job → Prop} (starts : ∀ t ∈ threads, Q t (.reading t t.inquiry))
    (acts : ∀ (w : World) t j, Q t j → Q t (w.act disk j).2) (order : List Nat) {i : Nat}
    {r : Thread × Except Fault (Option Thread)}
    (outcome : (w.stepTogether disk order threads).2[i]? = some r) :
    ∃ t, threads[i]? = some t ∧ Q t (.ended r) := by
  let P (f : Phase) : Prop := ∀ (i : Nat) j, f.jobs[i]? = some j → ∃ t, threads[i]? = some t ∧ Q t j
  have kept (f : Phase) (place : Nat) (each : P f) : P (f.turn disk place) := by
    intro i j found
    cases here : f.jobs[place]? with
    | none =>
      rw [Phase.turn_of_none disk here] at found
      exact each i j found
    | some k =>
      rw [Phase.turn_of_some disk here, List.getElem?_set] at found
      split at found
      next same =>
        subst same
        obtain ⟨t, member, holds⟩ := each place k here
        rw [if_pos (List.getElem?_eq_some_iff.mp here).1, Option.some.injEq] at found
        exact ⟨t, member, found ▸ acts _ t k holds⟩
      · exact each i j found
  have first : P (.start w threads) := by
    intro i j found
    rw [Phase.start, List.getElem?_map, Option.map_eq_some_iff] at found
    obtain ⟨t, member, rfl⟩ := found
    exact ⟨t, member, starts t (List.mem_of_getElem? member)⟩
  refine stepTogether_invariant kept order first i (.ended r) ?_
  rw [Phase.ended, List.getElem?_map, outcome, Option.map_some]

@[simp] theorem length_stepTogether (disk : Disk) (order : List Nat) (w : World)
    (threads : List Thread) : (w.stepTogether disk order threads).2.length = threads.length := by
  have count : (Phase.ended (w.stepTogether disk order threads)).jobs.length = threads.length :=
    stepTogether_invariant (P := fun f => f.jobs.length = threads.length)
      (fun f place same => (f.length_jobs_turn disk place).trans same) order (by simp [Phase.start])
  rwa [Phase.ended, List.length_map] at count

theorem stepTogether_nobody (disk : Disk) (order : List Nat) (w : World) :
    w.stepTogether disk order [] = (w, []) := by
  have still : (Phase.start w []).run disk order = .start w [] :=
    Phase.run_invariant (P := fun f => f = .start w []) (fun f place same => by rw [same]; rfl) rfl order
  rw [stepTogether, still]
  rfl

theorem finish_start (disk : Disk) (w : World) (t : Thread) :
    w.finish disk (.reading t t.inquiry) = w.step disk t := by
  simp only [finish, step, stepBy, t.stepBy_inquiry, Thread.step]

/-- If nobody interrupts anybody, the threads are stepped one after another. -/
theorem stepTogether_nil (disk : Disk) (w : World) (threads : List Thread) :
    w.stepTogether disk [] threads = w.stepAll disk threads := by
  change w.finishAll disk (threads.map fun t => .reading t t.inquiry) = w.stepAll disk threads
  induction threads generalizing w with
  | nil => rfl
  | cons t ts ih => simp only [List.map_cons, finishAll, finish_start, ih, stepAll]

/-- Threads that read the same from two disks go through the same operations. -/
theorem stepTogether_congr {disk' : Disk} (w : World)
    (same : ∀ t ∈ threads, ∀ (ν : Valuation) (w : World), w.stepBy ν disk' t = w.stepBy ν disk t)
    (order : List Nat) : w.stepTogether disk' order threads = w.stepTogether disk order threads := by
  let R (f g : Phase) : Prop := f = g ∧ ∀ t q, .reading t q ∈ f.jobs → t ∈ threads
  have kept (f g : Phase) (place : Nat) (related : R f g) :
      R (f.turn disk place) (g.turn disk' place) := by
    obtain ⟨rfl, members⟩ := related
    refine ⟨?_, Phase.reading_mem_turn disk members place⟩
    cases here : f.jobs[place]? with
    | none => rw [Phase.turn_of_none _ here, Phase.turn_of_none _ here]
    | some j =>
      have acted : f.world.act disk' j = f.world.act disk j :=
        f.world.act_congr fun t q reading ν w =>
          same t (members t q (reading ▸ List.mem_of_getElem? here)) ν w
      rw [Phase.turn_of_some _ here, Phase.turn_of_some _ here, acted]
  have ends : R (.ended _) (.ended _) := stepTogether_relation kept order rfl
    ⟨rfl, Phase.reading_mem_start w threads⟩
  have world := congrArg Phase.world ends.1
  have jobs := congrArg Phase.jobs ends.1
  have outcomes := (List.map_inj_right fun _ _ => Job.ended.inj).mp jobs
  exact (Prod.ext world outcomes).symm

end World

end Lockstep

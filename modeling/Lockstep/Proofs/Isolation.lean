import Lockstep.Proofs.Atomicity
import Lockstep.Proofs.LogBarrier

/-!
A thread that fails leaves no trace in the others.

A statement that fails has changed nothing but perhaps how far a file has been read. So the round in which
a thread fails gives the same world as a round in which the thread does nothing and completes: whatever the
order is in which the threads get on, after each operation the heaps, the numbers of new threads and the steps
of all other threads are the same. From then on the thread is not in the list any more, and the two runs stay
together. Where a log is kept, they also write different records; what other threads can read of these is the
same.
-/

namespace Lockstep

/-! ### Failing steps -/

/-- The same files are open under the same names, and may have been read to different points. -/
def OpenFiles.SamePlaces (t t' : OpenFiles) : Prop :=
  ∀ name : String, t'[name]?.map Handle.place = t[name]?.map Handle.place

theorem OpenFiles.LineRead.samePlaces {disk : Disk} {name : String} {t t' : OpenFiles}
    (read : t.LineRead disk name t') : t.SamePlaces t' := by
  obtain ⟨handle, bytes, opened, -, -, rfl⟩ := read
  intro other
  -- the entry is written back with another offset
  simp only [Std.ExtTreeMap.getElem?_insert, Std.compare_eq_iff_eq]
  split
  next same => rw [← same, opened]; rfl
  · rfl

theorem OpenFiles.samePlaces_readLine (disk : Disk) (t : OpenFiles) (name : String) :
    t.SamePlaces (t.readLine disk name).1 := by
  rcases t.readLine_fst disk name with same | read
  · rw [same]
    exact fun _ => rfl
  · exact read.samePlaces

namespace Thread

variable {t : Thread} {disk : Disk} {e : Fault}

/-- The thread with nothing left to do but a statement without effect. -/
def idle (t : Thread) : Thread :=
  { t with stack := [.nop] }

theorem isActive_idle (active : t.isActive) : t.idle.isActive := by
  simp [isActive, idle, (status_and_stack_of_isActive active).1]

theorem stepBy_error {ν : Valuation} {h : Heap} (active : t.isActive)
    (failed : (t.stepBy ν disk h).result = .error e) :
    ∃ files, t.files.SamePlaces files ∧
      t.stepBy ν disk h = ⟨h, { t with stack := t.stack.tail, files }, .error e⟩ := by
  obtain ⟨s, rest, files, top, stepped, moved⟩ := stepBy_of_failure active failed
  refine ⟨files, ?_, by rw [stepped, top, List.tail_cons]⟩
  rcases moved with rfl | ⟨f, x, name, -, -, read⟩
  · exact fun _ => rfl
  · exact read.samePlaces

theorem stepBy_idle (ν : Valuation) (disk : Disk) (h : Heap) (active : t.isActive) :
    t.idle.stepBy ν disk h = ⟨h, { t with stack := [], status := .completed }, .ok none⟩ := by
  simp only [stepBy, idle, (status_and_stack_of_isActive active).1]
  rfl

theorem inquiry_idle (active : t.isActive) : t.idle.inquiry = .answer (.ok (.bool true)) := by
  simp only [inquiry, idle, (status_and_stack_of_isActive active).1]
  rfl

end Thread

namespace World

variable {ν : Valuation} {disk : Disk} {w : World} {t : Thread} {e : Fault}

theorem setHeap_heap {n : Nat} (known : n ∈ w.heaps) : w.setHeap n (w.heap n) = w := by
  have same : w.heaps.insert n (w.heap n) = w.heaps := by
    apply Std.ExtTreeMap.ext_getElem?
    intro m
    rw [Std.ExtTreeMap.getElem?_insert]
    simp only [Std.compare_eq_iff_eq]
    split
    next here =>
      subst here
      rw [heap, Std.ExtTreeMap.getElem?_eq_some_getElem known, Option.getD_some]
    · rfl
  rw [setHeap, same]

/-- Between collection and steps, the heaps of all threads are there. -/
theorem heap_mem_sweep (w : World) {threads : List Thread} (member : t ∈ threads) :
    t.heap ∈ (w.sweep threads).heaps := by
  rw [Std.ExtTreeMap.mem_iff_isSome_getElem?, sweep, heaps_collect,
    if_pos (List.mem_map_of_mem member), Option.isSome_some]

theorem heaps_mono {n : Nat} (known : n ∈ w.heaps) : n ∈ (w.stepBy ν disk t).1.heaps := by
  have set : n ∈ (w.setHeap t.heap (t.stepBy ν disk (w.heap t.heap)).heap).heaps :=
    Std.ExtTreeMap.mem_insert.mpr (.inr known)
  simp only [stepBy]
  split <;> exact set

theorem stepBy_error (active : t.isActive) (known : t.heap ∈ w.heaps)
    (failed : (w.stepBy ν disk t).2.2 = .error e) :
    ∃ files, t.files.SamePlaces files ∧
      w.stepBy ν disk t = (w, { t with stack := t.stack.tail, files }, .error e) := by
  obtain ⟨files, places, stepped⟩ := Thread.stepBy_error active (result_of_failure failed)
  refine ⟨files, places, ?_⟩
  simp only [stepBy, stepped, setHeap_heap known]

theorem stepBy_idle (ν : Valuation) (disk : Disk) (active : t.isActive) (known : t.heap ∈ w.heaps) :
    w.stepBy ν disk t.idle = (w, { t with stack := [], status := .completed }, .ok none) := by
  have same : t.idle.heap = t.heap := rfl
  simp only [stepBy, same, Thread.stepBy_idle ν disk _ active, setHeap_heap known]

end World

/-! ### Operations beside a failing thread -/

/-- The thread has not acted yet, or has failed. -/
inductive Job.Fails (t : Thread) : Job → Prop where
  | reading (q : Inquiry) : Fails t (.reading t q)
  | ended {files : OpenFiles} {e : Fault} (places : t.files.SamePlaces files) :
    Fails t (.ended ({ t with stack := t.stack.tail, files }, .error e))

/-- The thread has nothing to do but a statement without effect, and may have done so. -/
inductive Job.Idles (t : Thread) : Job → Prop where
  | reading (r : Except Fault Value) : Idles t (.reading t.idle (.answer r))
  | ended : Idles t (.ended ({ t with stack := [], status := .completed }, .ok none))

namespace World

variable (disk : Disk) {w : World} {t : Thread} (active : t.isActive) (known : t.heap ∈ w.heaps)
include active known

/-- Whatever a thread that does not succeed has to do, it leaves the world alone. -/
theorem act_fails {j : Job} (fails : j.Fails t) :
    (w.act disk j).1 = w ∧ (w.act disk j).2.Fails t ∨
      ∃ r, (w.act disk j).2 = .ended r ∧ r.2.isOk := by
  cases fails with
  | ended places => exact .inl ⟨rfl, .ended places⟩
  | reading q =>
    cases q with
    | look a next => exact .inl ⟨rfl, .reading _⟩
    | answer r =>
      simp only [act]
      cases answer : (w.stepBy (fun _ => r) disk t).2.2 with
      | ok child => exact .inr ⟨_, rfl, by rw [answer]; rfl⟩
      | error e =>
        obtain ⟨files, places, stepped⟩ := stepBy_error active known answer
        rw [stepped]
        exact .inl ⟨rfl, .ended places⟩

theorem act_idles {j : Job} (idles : j.Idles t) : (w.act disk j).1 = w ∧ (w.act disk j).2.Idles t := by
  cases idles with
  | ended => exact ⟨rfl, .ended⟩
  | reading r =>
    simp only [act, stepBy_idle _ disk active known]
    exact ⟨trivial, .ended⟩

end World

namespace Phase

/-- The phases differ in the job at one place only, whose thread has not succeeded in the one and has nothing
to do in the other. -/
structure ButFor (t : Thread) (place : Nat) (f g : Phase) : Prop where
  fails : ∃ j, f.jobs[place]? = some j ∧ j.Fails t
  idles : ∃ j, j.Idles t ∧ g = { f with jobs := f.jobs.set place j }
  known : t.heap ∈ f.world.heaps

/-- The step of the thread at a place has succeeded. -/
def Succeeded (place : Nat) (f : Phase) : Prop :=
  ∃ r, f.jobs[place]? = some (.ended r) ∧ r.2.isOk

variable {disk disk' : Disk} {t : Thread} {place : Nat} {f g : Phase}

theorem Succeeded.turn (succeeded : f.Succeeded place) (other : Nat) :
    (f.turn disk other).Succeeded place := by
  obtain ⟨r, here, ok⟩ := succeeded
  cases there : f.jobs[other]? with
  | none => rw [turn_of_none disk there]; exact ⟨r, here, ok⟩
  | some j =>
    rw [turn_of_some disk there]
    by_cases same : other = place
    · -- a thread that is done has no operation left
      subst same
      obtain rfl : Job.ended r = j := Option.some.inj (here.symm.trans there)
      exact ⟨r, by simp [World.act, List.getElem?_set_self (List.getElem?_eq_some_iff.mp here).1], ok⟩
    · exact ⟨r, by rwa [List.getElem?_set_ne same], ok⟩

theorem ButFor.turn (butFor : f.ButFor t place g) (active : t.isActive)
    (reads : ∀ u q, .reading u q ∈ f.jobs → ∀ (ν : Valuation) (w : World),
      w.stepBy ν disk' u = w.stepBy ν disk u) (other : Nat) :
    (f.turn disk other).ButFor t place (g.turn disk' other) ∨ (f.turn disk other).Succeeded place := by
  obtain ⟨⟨j, here, fails⟩, ⟨j', idles, rfl⟩, known⟩ := butFor
  have inside := (List.getElem?_eq_some_iff.mp here).1
  by_cases same : other = place
  · subst same
    have here' : (f.jobs.set other j')[other]? = some j' := List.getElem?_set_self inside
    obtain ⟨world', idles'⟩ := f.world.act_idles disk' active known idles
    rcases f.world.act_fails disk active known fails with ⟨world, fails'⟩ | ⟨r, ended, ok⟩
    · left
      rw [turn_of_some disk here, turn_of_some disk' here', world, world', List.set_set]
      exact ⟨⟨_, List.getElem?_set_self inside, fails'⟩, ⟨_, idles', by rw [List.set_set]⟩, known⟩
    · right
      rw [turn_of_some disk here, ended]
      exact ⟨r, List.getElem?_set_self inside, ok⟩
  · left
    have there' : (f.jobs.set place j')[other]? = f.jobs[other]? := List.getElem?_set_ne (Ne.symm same)
    cases there : f.jobs[other]? with
    | none =>
      rw [turn_of_none disk there, turn_of_none disk' (there'.trans there)]
      exact ⟨⟨j, here, fails⟩, ⟨j', idles, rfl⟩, known⟩
    | some k =>
      -- any other thread does the same in both phases
      have acted : f.world.act disk' k = f.world.act disk k :=
        f.world.act_congr fun u q reading ν w =>
          reads u q (reading ▸ List.mem_of_getElem? there) ν w
      have known' : t.heap ∈ (f.world.act disk k).1.heaps := by
        cases k with
        | ended r => exact known
        | reading u q =>
          cases q with
          | look a next => exact known
          | answer r => exact World.heaps_mono known
      rw [turn_of_some disk there, turn_of_some disk' (there'.trans there), acted]
      refine ⟨⟨j, ?_, fails⟩, ⟨j', idles, ?_⟩, known'⟩
      · rwa [List.getElem?_set_ne same]
      · rw [List.set_comm _ _ same]

end Phase

namespace World

variable {disk disk' : Disk} {w : World} {t : Thread} {e : Fault}

/-- Where one thread fails, the others are stepped as if it had done nothing. -/
theorem stepTogether_failure {threads : List Thread} {place : Nat} (listed : threads[place]? = some t)
    (active : t.isActive) (known : t.heap ∈ w.heaps) {order : List Nat} {u : Thread}
    (failed : (w.stepTogether disk order threads).2[place]? = some (u, .error e))
    (reads : ∀ u ∈ threads, ∀ (ν : Valuation) (h : Heap), u.stepBy ν disk' h = u.stepBy ν disk h) :
    ∃ files, t.files.SamePlaces files ∧ u = { t with stack := t.stack.tail, files } ∧
      w.stepTogether disk' order (threads.set place t.idle) =
        ((w.stepTogether disk order threads).1, (w.stepTogether disk order threads).2.set place
          ({ t with stack := [], status := .completed }, .ok none)) := by
  let R (f g : Phase) : Prop :=
    (f.ButFor t place g ∨ f.Succeeded place) ∧ ∀ u q, .reading u q ∈ f.jobs → u ∈ threads
  have kept (f g : Phase) (other : Nat) (related : R f g) :
      R (f.turn disk other) (g.turn disk' other) := by
    obtain ⟨together, members⟩ := related
    refine ⟨?_, Phase.reading_mem_turn disk members other⟩
    rcases together with butFor | succeeded
    · exact butFor.turn active (fun u q reading ν w => by simp only [stepBy, reads u (members u q reading)])
        other
    · exact .inr (succeeded.turn other)
  have first : R (.start w threads) (.start w (threads.set place t.idle)) := by
    refine ⟨.inl ⟨⟨_, ?_, .reading t.inquiry⟩, ⟨_, .reading (.ok (.bool true)), ?_⟩, known⟩,
      Phase.reading_mem_start w threads⟩
    · simp only [Phase.start, List.getElem?_map, listed, Option.map_some]
    · simp only [Phase.start, List.map_set, Thread.inquiry_idle active]
  have last := (stepTogether_relation kept order List.length_set first).1
  generalize w.stepTogether disk order threads = p at failed last ⊢
  generalize w.stepTogether disk' order (threads.set place t.idle) = q at last ⊢
  have outcome : (Phase.ended p).jobs[place]? = some (.ended (u, .error e)) := by
    rw [Phase.ended, List.getElem?_map, failed, Option.map_some]
  rcases last with ⟨⟨j, here, fails⟩, ⟨j', idles, ended⟩, -⟩ | ⟨r, here, ok⟩
  · rw [outcome, Option.some.injEq] at here
    subst here
    cases fails with
    | ended places =>
      refine ⟨_, places, rfl, ?_⟩
      obtain ⟨world, jobs⟩ := Phase.mk.inj ended
      -- in the other phase all threads are done as well
      have inside := (List.getElem?_eq_some_iff.mp outcome).1
      have done : j' ∈ q.2.map Job.ended := by
        rw [jobs]
        exact List.mem_of_getElem? (List.getElem?_set_self inside)
      cases idles with
      | reading r => simp at done
      | ended =>
        refine Prod.ext world ((List.map_inj_right fun _ _ => Job.ended.inj).mp ?_)
        rw [jobs, List.map_set]
        rfl
  · rw [outcome, Option.some.injEq] at here
    cases here
    cases ok

theorem addRoots_idle (t : Thread) (groups : List (Nat × List Nat)) :
    addRoots t.idle groups = addRoots t groups := by
  induction groups with
  | nil => rfl
  | cons g rest ih =>
    simp only [addRoots, ih]
    rfl

/-- What a thread is about to run does not matter to a collection. -/
theorem sweep_idle (w : World) (front back : List Thread) (t : Thread) :
    w.sweep (front ++ t.idle :: back) = w.sweep (front ++ t :: back) := by
  simp only [sweep, collect, rootGroups, List.foldl_append, List.foldl_cons, addRoots_idle]

end World

/-! ### Rounds -/

namespace Pool

variable (disk : Disk) (order : List Nat) (p : Pool)

theorem threads_of_results {before after : List (Thread × Except Fault (Option Thread))}
    {r : Thread × Except Fault (Option Thread)} (noChild : child? r = none) :
    (before ++ r :: after).map settle ++ (before ++ r :: after).filterMap child? =
      before.map settle ++
        settle r :: (after.map settle ++ (before.filterMap child? ++ after.filterMap child?)) := by
  simp [noChild]

/-- The pool with nothing left to do for the thread `t` behind `front`. -/
def idling (front : List Thread) (t : Thread) (back : List Thread) : Pool :=
  { p with active := front ++ t.idle :: back }

/-- The pools only differ in one retired thread, which is `x` in the first and `y` in the second. -/
structure ButFor (x y : Thread) (p q : Pool) : Prop where
  world : q.world = p.world
  active : q.active = p.active
  round : q.round = p.round
  retired : ∃ before after, p.retired = before ++ x :: after ∧ q.retired = before ++ y :: after

variable {disk order p}

theorem ButFor.advance {x y : Thread} {q : Pool} (butFor : p.ButFor x y q) {disk' : Disk}
    (same : ∀ w : World,
      w.stepTogether disk' order p.retire.active = w.stepTogether disk order p.retire.active) :
    q.listed World.sweep disk' order = p.listed World.sweep disk order ∧
      (p.advance World.sweep disk order).1.ButFor x y (q.advance World.sweep disk' order).1 := by
  have kept : q.retire.active = p.retire.active := by simp only [retire, butFor.active]
  have turns : q.turns World.sweep disk' order = p.turns World.sweep disk order := by
    simp only [Pool.turns, World.turns, kept, butFor.world, same]
  have listed : q.listed World.sweep disk' order = p.listed World.sweep disk order := by
    simp only [Pool.listed, children, turns]
  refine ⟨listed, ?_⟩
  refine ⟨?_, ?_, ?_, ?_⟩
  · rw [world_advance, world_advance, kept, butFor.world, same]
  · rw [active_advance, active_advance, listed]
  · rw [round_advance, round_advance, turns, butFor.round]
  · obtain ⟨before, after, left, right⟩ := butFor.retired
    -- whatever a round adds comes behind
    refine ⟨before, after ++ p.active.filter (!·.isActive) ++
      (p.listed World.sweep disk order).filter (!·.isActive), ?_, ?_⟩
    · simp only [retired_advance, retire, left, List.append_assoc, List.cons_append]
    · simp only [retired_advance, retire, listed, right, butFor.active, List.append_assoc,
        List.cons_append]

section Failure

variable {front back : List Thread} {t : Thread} {e : Fault}
  (split : p.active = front ++ t :: back) (active : t.isActive)
include split active

theorem retire_active_eq :
    p.retire.active = front.filter (·.isActive) ++ t :: back.filter (·.isActive) := by
  simp only [retire, split, List.filter_append, List.filter_cons_of_pos active]

theorem retire_retired_eq :
    p.retire.retired =
      p.retired ++ (front.filter (!·.isActive) ++ back.filter (!·.isActive)) := by
  simp [retire, split, active]

/-- A round in which a thread fails, and one in which it does nothing instead. -/
theorem butFor_of_failure {u : Turn}
    (turn : (p.turns World.sweep disk order)[(front.filter (·.isActive)).length]? = some u)
    (failed : u.outcome.2 = .error e) {disk' : Disk}
    (reads : ∀ u ∈ p.retire.active, ∀ (ν : Valuation) (h : Heap), u.stepBy ν disk' h = u.stepBy ν disk h) :
    ∃ files, t.files.SamePlaces files ∧
      ((p.idling front t back).listed World.sweep disk' order).length =
        (p.listed World.sweep disk order).length ∧
      (p.advance World.sweep disk order).1.ButFor
        { t with stack := t.stack.tail, files, status := .failed e }
        { t with stack := [], status := .completed }
        ((p.idling front t back).advance World.sweep disk' order).1 := by
  have kept := retire_active_eq split active
  have listed : p.retire.active[(front.filter (·.isActive)).length]? = some t := by simp [kept]
  have known := p.world.heap_mem_sweep (List.mem_of_getElem? listed)
  obtain ⟨r, outcome, rfl⟩ : ∃ r, ((p.world.sweep p.retire.active).stepTogether disk order
      p.retire.active).2[(front.filter (·.isActive)).length]? = some r ∧ u.outcome = r := by
    rw [Pool.turns, World.turns, List.getElem?_zipWith_eq_some] at turn
    obtain ⟨-, r, -, found, rfl⟩ := turn
    exact ⟨r, found, rfl⟩
  rw [← Prod.eta u.outcome, failed] at outcome
  obtain ⟨files, places, thread, right⟩ := World.stepTogether_failure listed active known outcome reads
  rw [thread] at outcome
  generalize other : p.idling front t back = q
  have split' : q.active = front ++ t.idle :: back := by rw [← other, idling]
  have active' := Thread.isActive_idle active
  have kept' := retire_active_eq split' active'
  -- the rounds begin with the same collection, and the other threads are the same
  have swept : q.world.sweep q.retire.active = p.world.sweep p.retire.active := by
    rw [kept, kept', World.sweep_idle, ← other, idling]
  have replaced : p.retire.active.set (front.filter (·.isActive)).length t.idle = q.retire.active := by
    rw [kept, kept']
    simp
  have retired' : q.retire.retired = p.retire.retired := by
    rw [retire_retired_eq split active, retire_retired_eq split' active', ← other,
      idling]
  have stepping : p.turns World.sweep disk order ≠ [] := by simp [turns_eq_nil_iff, kept]
  have stepping' : q.turns World.sweep disk' order ≠ [] := by simp [turns_eq_nil_iff, kept']
  rw [replaced, ← swept] at right
  -- the outcomes before and after that of the thread are those of the other round
  obtain ⟨inside, here⟩ := List.getElem?_eq_some_iff.mp outcome
  let done : Thread × Except Fault (Option Thread) :=
    ({ t with stack := [], status := .completed }, .ok none)
  obtain ⟨before, after, left, -, set⟩ := @List.exists_of_set _ _ done _ inside
  rw [here] at left
  rw [← swept] at left set
  rw [set] at right
  refine ⟨files, places, ?_, ?_, ?_, ?_, ?_⟩
  · rw [listed_eq, listed_eq, right, ← swept, left, threads_of_results rfl, threads_of_results rfl]
    simp
  · rw [world_advance, world_advance, right, ← swept]
  · -- neither of the two threads is active any more, and neither has started another
    rw [active_advance, active_advance, listed_eq, listed_eq, right, ← swept, left, threads_of_results rfl,
      threads_of_results rfl]
    simp [settle, Thread.fail, Thread.isActive]
  · rw [round_advance, round_advance, if_neg stepping, if_neg stepping', ← other, idling]
  · refine ⟨p.retire.retired ++ (before.map settle).filter (!·.isActive),
      (after.map settle ++ (before.filterMap child? ++ after.filterMap child?)).filter
        (!·.isActive), ?_, ?_⟩
    · rw [retired_advance, listed_eq, ← swept, left, threads_of_results rfl]
      simp [settle, Thread.fail, Thread.isActive]
    · rw [retired_advance, listed_eq, right, retired', threads_of_results rfl]
      simp [done, settle, Thread.isActive]

end Failure

end Pool

/-! ### Runs -/

namespace Scheduler

/-- The scheduler with nothing left to do for the thread `t` behind `front`. -/
def idling (s : Scheduler) (front : List Thread) (t : Thread) (back : List Thread) : Scheduler :=
  { s with pool := s.pool.idling front t back }

/-- The schedulers only differ in one retired thread, and in records that no thread can tell apart. -/
structure ButFor (x y : Thread) (s s' : Scheduler) : Prop where
  pool : s.pool.ButFor x y s'.pool
  logPath : s'.journal.logPath = s.journal.logPath
  unseen : s.journal.Unseen s.pool.active s.disk s'.disk

variable {s s' : Scheduler} {c c' : Course}

theorem active_roundWith :
    (s.roundWith World.sweep c).1.pool.active =
      (s.pool.listed World.sweep (s.roundDisk World.sweep c) c.order).filter (·.isActive) := by
  rw [pool_fst_roundWith, Pool.active_advance]

theorem roundDisk_eq_logAll :
    s.roundDisk World.sweep c = (s.journal.logAll c.early s.disk (s.pool.retire.active.map fun t =>
      Snapshot.ofThread ((s.pool.world.sweep s.pool.retire.active).heap t.heap) t)).1 := rfl

/-- What has not been seen in the steps of a round is not seen later, if the rounds end with as many
threads. -/
theorem unseen_roundWith (logPath : s'.journal.logPath = s.journal.logPath)
    (busy : s.pool.retire.active ≠ []) (busy' : s'.pool.retire.active ≠ [])
    (count : (s'.pool.listed World.sweep (s'.roundDisk World.sweep c) c.order).length =
      (s.pool.listed World.sweep (s.roundDisk World.sweep c) c.order).length)
    (unseen : s.journal.Unseen s.pool.active (s.roundDisk World.sweep c) (s'.roundDisk World.sweep c)) :
    (s.roundWith World.sweep c).1.journal.Unseen (s.roundWith World.sweep c).1.pool.active
      (s.roundWith World.sweep c).1.disk (s'.roundWith World.sweep c).1.disk := by
  obtain ⟨records, many, last⟩ := disk_roundWith World.sweep c busy
  obtain ⟨records', many', last'⟩ := disk_roundWith World.sweep c busy'
  rw [active_roundWith, last, last']
  have stepped := unseen.listed World.sweep c.order
  exact (stepped.logAll logPath c.late (by rw [many, many', count])).of_logPath
    (logPath_roundWith World.sweep c)

theorem ButFor.roundWith {x y : Thread} (butFor : s.ButFor x y s') (c : Course) :
    (s.roundWith World.sweep c).1.ButFor x y (s'.roundWith World.sweep c).1 := by
  have kept : s'.pool.retire.active = s.pool.retire.active := by
    simp only [Pool.retire, butFor.pool.active]
  have reads : s.journal.Unseen s.pool.active (s.roundDisk World.sweep c)
      (s'.roundDisk World.sweep c) := by
    rw [roundDisk_eq_logAll, roundDisk_eq_logAll]
    exact butFor.unseen.logAll butFor.logPath c.early (by simp [kept])
  obtain ⟨listed, pool⟩ := butFor.pool.advance fun w =>
    w.stepTogether_of_reads (fun t member => reads.stepBy (List.mem_filter.mp member).1) c.order
  rw [← pool_fst_roundWith, ← pool_fst_roundWith] at pool
  refine ⟨pool, by rw [logPath_roundWith, logPath_roundWith, butFor.logPath], ?_⟩
  by_cases idle : s.pool.retire.active = []
  · rw [roundWith_of_idle _ _ idle, roundWith_of_idle _ _ (kept.trans idle)]
    exact butFor.unseen.sub fun t member => (List.mem_filter.mp member).1
  · exact unseen_roundWith butFor.logPath idle (by rwa [kept]) (by rw [listed]) reads

section Failure

variable {front back : List Thread} {t : Thread} {e : Fault}
  (listed : s.pool.active = front ++ t :: back) (active : t.isActive)
include listed active

theorem butFor_roundWith_of_failure (inRange : s.InRange) {u : Turn}
    (turn : (s.pool.turns World.sweep (s.roundDisk World.sweep c) c.order)[
      (front.filter (·.isActive)).length]? = some u)
    (failed : u.outcome.2 = .error e) :
    ∃ files, t.files.SamePlaces files ∧
      (s.roundWith World.sweep c).1.ButFor
        { t with stack := t.stack.tail, files, status := .failed e }
        { t with stack := [], status := .completed }
        ((s.idling front t back).roundWith World.sweep c).1 := by
  have kept := Pool.retire_active_eq listed active
  have kept' : (s.idling front t back).pool.retire.active =
      front.filter (·.isActive) ++ t.idle :: back.filter (·.isActive) :=
    Pool.retire_active_eq rfl (Thread.isActive_idle active)
  -- both rounds begin with as many records
  have reads : s.journal.Unseen s.pool.active (s.roundDisk World.sweep c)
      ((s.idling front t back).roundDisk World.sweep c) := by
    rw [roundDisk_eq_logAll, roundDisk_eq_logAll]
    exact (Journal.Unseen.same inRange).logAll rfl c.early (by simp [kept, kept'])
  obtain ⟨files, places, count, pool⟩ := Pool.butFor_of_failure listed active turn failed
    fun t member => reads.stepBy (List.mem_filter.mp member).1
  refine ⟨files, places, ?_, ?_, ?_⟩
  · rw [pool_fst_roundWith, pool_fst_roundWith]
    exact pool
  · rw [logPath_roundWith, logPath_roundWith]
    rfl
  · exact unseen_roundWith rfl (by simp [kept]) (by simp [kept']) count reads

end Failure

/-- A thread that fails leaves no trace in the others. Take a scheduler whose threads have not read past the
ends of files, as in any run from threads that have just been started, and a thread of its list whose step in
the coming round fails, in whatever order the threads of the round get on. Compare the run with the one in
which this thread is only to do nothing, and which takes the same course in every round. After this round and
after every later one the active threads are the same in every respect, as are the heaps, the next numbers and
the number of rounds. The retired threads are the same but for the thread itself: it has failed and has the
rest of its stack in the one, and has completed in the other, and the files that it had open may have been
read to different points. -/
theorem failure_isolated (s : Scheduler) (inRange : s.InRange) (course : Nat → Course)
    (front : List Thread) (t : Thread) (back : List Thread)
    (listed : s.pool.active = front ++ t :: back) (active : t.isActive) (u : Turn)
    (turn : (s.turns course 0)[(front.filter (·.isActive)).length]? = some u) (e : Fault)
    (failed : u.outcome.2 = .error e) :
    u.thread = t ∧ ∃ files, t.files.SamePlaces files ∧ ∀ n,
      let p := (s.after course (n + 1)).pool
      let q := ((s.idling front t back).after course (n + 1)).pool
      q.active = p.active ∧ q.world = p.world ∧ q.round = p.round ∧
      ∃ before after,
        p.retired =
          before ++ { t with stack := t.stack.tail, files, status := .failed e } :: after ∧
        q.retired = before ++ { t with stack := [], status := .completed } :: after := by
  have thread : u.thread = t := by
    have here := congrArg (Option.map Turn.thread) turn
    rw [← List.getElem?_map, turns, Pool.turns, World.map_thread_turns, after_zero,
      Pool.retire_active_eq listed active] at here
    simpa using here.symm
  obtain ⟨files, places, first⟩ := butFor_roundWith_of_failure listed active inRange turn failed
  refine ⟨thread, files, places, fun n => ?_⟩
  have later : (s.after course (n + 1)).ButFor
      { t with stack := t.stack.tail, files, status := .failed e }
      { t with stack := [], status := .completed }
      ((s.idling front t back).after course (n + 1)) := by
    induction n with
    | zero => exact first
    | succ n ih => exact ih.roundWith (course (n + 1))
  exact ⟨later.pool.active, later.pool.world, later.pool.round, later.pool.retired⟩

/-- Two threads, of which one reads the log and the other fails at once, and gets on before it. The logs of
the two runs differ, and the first thread fails at the time of the first record in both. -/
theorem failure_isolated_log_reader :
    let first := ({} : World).launch (.ofList [.openFile (.string "log"), .declare "x" .int,
      .print (.int 7), .readInt (.string "log") "x"])
    let second := first.1.launchOn first.2.heap (.print (.var "y"))
    let s : Scheduler :=
      { pool := ({ world := second.1 } : Pool).add first.2 |>.add second.2
        disk := .blank [], journal := { logPath := some "log" } }
    let s' := s.idling [first.2] second.2 []
    let course := fun _ => Course.smooth ⟨2024, 5, 6, 7, 8, 9⟩ [1]
    s.InRange ∧ (s'.after course 1).disk.content? "log" ≠ (s.after course 1).disk.content? "log" ∧
    (s.after course 8).pool.retired.map (fun t => (t.id, t.output, t.status)) =
      [(2, [], .failed (.undefinedVariable "y")),
        (1, [.int 7], .failed (.lineNotInt "log" "2024/05/06 07:08:09"))] ∧
    ∀ n, (s'.after course (n + 1)).pool.active = (s.after course (n + 1)).pool.active ∧
      (s'.after course (n + 1)).pool.world = (s.after course (n + 1)).pool.world := by
  intro first second s s' course
  have fresh : s.Fresh := (fresh_empty second.1 _ _).add first.2 rfl (by decide) (by decide)
    |>.add second.2 rfl (by decide) (by decide)
  have inRange : s.InRange := fresh.loaded.inRange_after course 0
  obtain ⟨-, files, -, runs⟩ := failure_isolated s inRange course [first.2] second.2 [] rfl rfl _ rfl
    (.undefinedVariable "y") rfl
  refine ⟨inRange, by decide +kernel, by decide +kernel, fun n => ?_⟩
  obtain ⟨active, world, -⟩ := runs n
  exact ⟨active, world⟩

end Scheduler

end Lockstep

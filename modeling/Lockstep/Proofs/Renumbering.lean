import Lockstep.Proofs.Census
import Mathlib.Order.Monotone.Defs

/-!
Threads under other numbers, and pools inside of larger pools.

What a thread does depends on its number only in that it keeps it. If some heaps are set apart, the threads
on these heaps make up a pool of their own: in a round of the whole pool, the heaps, the steps and the new
threads are those of a round of the smaller pool in which its threads get on in the same order, except that
threads are started under other numbers. Threads that are started later have larger numbers in either pool, so
the order of the numbers is the same.
-/

namespace Lockstep

/-! ### Orders -/

/-- The rank of a place among those that are marked, if it is one of them. -/
def rank? (marks : List Bool) (place : Nat) : Option Nat :=
  if marks[place]? = some true then some ((marks.take place).count true) else none

/-- What is left of an order for the places that are marked, which are counted among themselves. -/
def restrict (marks : List Bool) (order : List Nat) : List Nat :=
  order.filterMap (rank? marks)

section Orders

variable {marks : List Bool} {place r : Nat}

theorem marked_of_rank? (found : rank? marks place = some r) :
    marks[place]? = some true ∧ (marks.take place).count true = r := by
  simpa [rank?] using found

theorem rank?_concat_of_lt (less : place < marks.length) (b : Bool) :
    rank? (marks ++ [b]) place = rank? marks place := by
  simp only [rank?, List.getElem?_append_left less, List.take_append_of_le_length less.le]

theorem rank?_concat (marks : List Bool) (b : Bool) :
    rank? (marks ++ [b]) marks.length = if b then some (marks.count true) else none := by
  simp [rank?]

theorem rank?_lt (found : rank? marks place = some r) : r < marks.count true := by
  obtain ⟨marked, rfl⟩ := marked_of_rank? found
  obtain ⟨less, here⟩ := List.getElem?_eq_some_iff.mp marked
  have parts := congrArg (List.count true) (List.take_append_drop place marks)
  rw [List.drop_eq_getElem_cons less, here, List.count_append, List.count_cons_self] at parts
  omega

theorem exists_rank? (less : r < marks.count true) : ∃ place, rank? marks place = some r := by
  -- the last mark has the largest rank, and the others have their ranks without it
  induction marks using List.reverseRecOn with
  | nil => simp at less
  | append_singleton marks b ih =>
    by_cases before : r < marks.count true
    · obtain ⟨place, found⟩ := ih before
      have inside := (List.getElem?_eq_some_iff.mp (marked_of_rank? found).1).1
      exact ⟨place, by rw [rank?_concat_of_lt inside, found]⟩
    · rw [List.count_append] at less
      have last : b = true := by
        cases b
        · simp at less
          omega
        · rfl
      subst last
      have equal : marks.count true = r := by
        simp at less
        omega
      exact ⟨marks.length, by rw [rank?_concat, if_pos rfl, equal]⟩

variable (marks)

theorem restrict_append (first second : List Nat) :
    restrict marks (first ++ second) = restrict marks first ++ restrict marks second :=
  List.filterMap_append

/-- No order has more than the places that are marked. -/
theorem filter_restrict (order : List Nat) :
    (restrict marks order).filter (· < marks.count true) = restrict marks order := by
  rw [List.filter_eq_self]
  intro r member
  obtain ⟨place, -, found⟩ := List.mem_filterMap.mp member
  exact decide_eq_true (rank?_lt found)

/-- Every order of the places that are marked is left of some order of all places. -/
theorem exists_restrict (order : List Nat) :
    ∃ whole, restrict marks whole = order.filter (· < marks.count true) := by
  induction order with
  | nil => exact ⟨[], rfl⟩
  | cons r rest ih =>
    obtain ⟨whole, same⟩ := ih
    by_cases less : r < marks.count true
    · obtain ⟨place, found⟩ := exists_rank? less
      refine ⟨place :: whole, ?_⟩
      rw [restrict, List.filterMap_cons_some found, List.filter_cons_of_pos (by simpa using less),
        ← same, restrict]
    · exact ⟨whole, by rw [same, List.filter_cons_of_neg (by simpa using less)]⟩

/-- If every place gets the same number of turns, one after another, so does every place that is marked. -/
theorem restrict_amply (m : Nat) :
    restrict marks (Phase.amply marks.length m) = Phase.amply (marks.count true) m := by
  induction marks using List.reverseRecOn with
  | nil => rfl
  | append_singleton marks b ih =>
    have before : ((List.range marks.length).flatMap (List.replicate m)).filterMap (rank? (marks ++ [b])) =
        restrict marks (Phase.amply marks.length m) := by
      apply List.filterMap_congr
      intro place member
      obtain ⟨i, inside, here⟩ := List.mem_flatMap.mp member
      rw [List.eq_of_mem_replicate here]
      exact rank?_concat_of_lt (List.mem_range.mp inside) b
    rw [restrict, Phase.amply, List.length_append, List.length_singleton, List.range_succ,
      List.flatMap_append, List.flatMap_singleton, List.filterMap_append, before, ih,
      List.filterMap_replicate, rank?_concat, List.count_append]
    cases b <;> simp [Phase.amply, List.range_succ]

end Orders

/-- Places without a thread do not count. -/
theorem World.stepTogether_filter (disk : Disk) (order : List Nat) (w : World) (threads : List Thread) :
    w.stepTogether disk (order.filter (· < threads.length)) threads =
      w.stepTogether disk order threads := by
  have runs (f : Phase) (count : f.jobs.length = threads.length) :
      f.run disk (order.filter (· < threads.length)) = f.run disk order := by
    induction order generalizing f with
    | nil => rfl
    | cons place rest ih =>
      rw [Phase.run_cons, ← ih _ ((f.length_jobs_turn disk place).trans count)]
      by_cases inside : place < threads.length
      · rw [List.filter_cons_of_pos (by simpa using inside), Phase.run_cons]
      · rw [List.filter_cons_of_neg (by simpa using inside),
          Phase.turn_of_none disk (List.getElem?_eq_none (by omega))]
  simp only [stepTogether, runs (Phase.start w threads) (by simp [Phase.start])]

/-! ### Renumbered threads -/

/-- The thread under another number. -/
def Thread.renumber (ρ : Nat → Nat) (t : Thread) : Thread :=
  { t with id := ρ t.id }

namespace Thread

variable {ρ τ : Nat → Nat} {t : Thread}

@[simp] theorem heap_renumber : (t.renumber ρ).heap = t.heap := rfl

theorem renumber_congr (same : τ t.id = ρ t.id) : t.renumber τ = t.renumber ρ := by
  simp only [renumber, same]

theorem map_renumber_congr {n : Nat} (same : ∀ i < n, τ i = ρ i) {threads : List Thread}
    (known : ∀ t ∈ threads, t.id < n) : threads.map (renumber τ) = threads.map (renumber ρ) :=
  List.map_congr_left fun t member => renumber_congr (same t.id (known t member))

/-- Only a thread that cannot be stepped has its number in the failure. -/
theorem stepBy_renumber (active : t.isActive) (ν : Valuation) (disk : Disk) (h : Heap) :
    (t.renumber ρ).stepBy ν disk h =
      { t.stepBy ν disk h with thread := (t.stepBy ν disk h).thread.renumber ρ } := by
  obtain ⟨running, busy⟩ := status_and_stack_of_isActive active
  obtain ⟨s, rest, top⟩ := List.exists_cons_of_ne_nil busy
  have store : (t.renumber ρ).store h = t.store h := rfl
  have running' : (t.renumber ρ).status = .running := running
  have top' : (t.renumber ρ).stack = s :: rest := top
  simp only [stepBy, running, top, running', top', store]
  rcases s.execBy ν disk (t.store h) with ⟨σ, e | effect⟩
  · rfl
  · -- the thread completes under either number
    simp only [resume]
    cases effect.push ++ rest <;> rfl

end Thread

/-- The outcome of a step under another number, with that of a thread it started changed as well. -/
def Pool.renumbered (ρ : Nat → Nat) (r : Thread × Except Fault (Option Thread)) :
    Thread × Except Fault (Option Thread) :=
  (r.1.renumber ρ, r.2.map (Option.map (Thread.renumber ρ)))

namespace Pool

variable {ρ τ : Nat → Nat} {r : Thread × Except Fault (Option Thread)}

theorem settle_renumbered : settle (renumbered ρ r) = (settle r).renumber ρ := by
  simp only [settle, renumbered]
  cases r.2 <;> rfl

theorem child?_renumbered : child? (renumbered ρ r) = (child? r).map (Thread.renumber ρ) := by
  simp only [child?, renumbered]
  cases r.2 <;> rfl

theorem renumbered_congr {n : Nat} (same : ∀ i < n, τ i = ρ i) (known : r.1.id < n)
    (started : ∀ c, child? r = some c → c.id < n) : renumbered τ r = renumbered ρ r := by
  obtain ⟨t, result⟩ := r
  rw [renumbered, renumbered, Thread.renumber_congr (same t.id known)]
  rcases result with e | _ | c
  · rfl
  · rfl
  · have child := Thread.renumber_congr (same c.id (started c rfl))
    simp only [Except.map, Option.map_some, child]

end Pool

namespace Job

/-- What a thread under another number has come to. -/
def renumber (ρ : Nat → Nat) : Job → Job
  | reading t q => reading (t.renumber ρ) q
  | ended r => ended (Pool.renumbered ρ r)

/-- The numbers of the thread, and of the thread that it has started, are below `n`. -/
def Known (n : Nat) (j : Job) : Prop :=
  j.thread.id < n ∧ ∀ c, j.child? = some c → c.id < n

variable {ρ τ : Nat → Nat} {n : Nat} {j : Job}

@[simp] theorem heap_thread_renumber : (j.renumber ρ).thread.heap = j.thread.heap := by
  cases j <;> rfl

theorem Known.mono (known : j.Known n) {m : Nat} (le : n ≤ m) : j.Known m :=
  ⟨known.1.trans_le le, fun c started => (known.2 c started).trans_le le⟩

theorem renumber_congr (same : ∀ i < n, τ i = ρ i) (known : j.Known n) : j.renumber τ = j.renumber ρ := by
  cases j with
  | reading t q => rw [renumber, renumber, Thread.renumber_congr (same t.id known.1)]
  | ended r => rw [renumber, renumber, Pool.renumbered_congr same known.1 known.2]

end Job

theorem World.heap_thread_act (w : World) (disk : Disk) (j : Job) :
    (w.act disk j).2.thread.heap = j.thread.heap := by
  cases j with
  | ended r => rfl
  | reading t q =>
    cases q with
    | look a next => rfl
    | answer r => simp only [act, Job.thread, stepBy_snd, Thread.heap_thread_stepBy]

/-- A renumbering that is continued from `m` on with the numbers from `n` on. -/
def continued (ρ : Nat → Nat) (m n : Nat) (i : Nat) : Nat :=
  if i < m then ρ i else n + (i - m)

theorem continued_of_lt {ρ : Nat → Nat} {m n i : Nat} (less : i < m) : continued ρ m n i = ρ i :=
  if_pos less

theorem continued_self (ρ : Nat → Nat) (m n : Nat) : continued ρ m n m = n := by
  simp [continued]

theorem strictMono_continued {ρ : Nat → Nat} (mono : StrictMono ρ) {m n : Nat}
    (below : ∀ i < m, ρ i < n) : StrictMono (continued ρ m n) := by
  intro i j less
  simp only [continued]
  split
  next first =>
    split
    · exact mono less
    · have bound := below i first
      omega
  · rw [if_neg (by omega)]
    omega

/-! ### Worlds -/

/-- The second world has the same heaps as the first where `own` says so, and has numbers for the threads of
the first that are in the same order. -/
structure World.Beside (own : Nat → Bool) (ρ : Nat → Nat) (w v : World) : Prop where
  heaps : ∀ n, own n → v.heap n = w.heap n
  mono : StrictMono ρ
  next : ∀ i < w.nextThread, ρ i < v.nextThread

/-- The threads on heaps that `own` accepts. -/
def kin (own : Nat → Bool) (threads : List Thread) : List Thread :=
  threads.filter fun t => own t.heap

/-- The turns of threads on heaps that `own` accepts. -/
def kinTurns (own : Nat → Bool) (turns : List Turn) : List Turn :=
  turns.filter fun u => own u.thread.heap

theorem kin_append (own : Nat → Bool) (ts us : List Thread) :
    kin own (ts ++ us) = kin own ts ++ kin own us :=
  List.filter_append ts us

theorem count_own (own : Nat → Bool) (us : List Thread) :
    (us.map fun u => own u.heap).count true = (kin own us).length := by
  rw [List.count, List.countP_map, kin, ← List.countP_eq_length_filter]
  exact List.countP_congr fun u _ => by simp

section Kin

variable {own : Nat → Bool} {ρ : Nat → Nat} {ts us : List Thread}
  (same : kin own us = ts.map (Thread.renumber ρ))
include same

theorem own_of_kin {t : Thread} (member : t ∈ ts) : own t.heap := by
  have listed : t.renumber ρ ∈ kin own us := by
    rw [same]
    exact List.mem_map_of_mem member
  exact (List.mem_filter.mp listed).2

theorem exists_kin_iff {n : Nat} (owned : own n) {P : Thread → Prop}
    (blind : ∀ t, P (t.renumber ρ) ↔ P t) :
    (∃ u ∈ us, u.heap = n ∧ P u) ↔ ∃ t ∈ ts, t.heap = n ∧ P t := by
  constructor
  · rintro ⟨u, member, here, holds⟩
    have listed : u ∈ kin own us := List.mem_filter.mpr ⟨member, by rwa [here]⟩
    rw [same] at listed
    obtain ⟨t, found, rfl⟩ := List.mem_map.mp listed
    exact ⟨t, found, here, (blind t).mp holds⟩
  · rintro ⟨t, member, here, holds⟩
    have listed : t.renumber ρ ∈ kin own us := by
      rw [same]
      exact List.mem_map_of_mem member
    exact ⟨_, (List.mem_filter.mp listed).1, here, (blind t).mpr holds⟩

end Kin

namespace World.Beside

variable {own : Nat → Bool} {ρ : Nat → Nat} {w v : World} (beside : w.Beside own ρ v)
include beside

/-- A heap is collected with the roots of its own threads. -/
theorem sweep {ts us : List Thread} (same : kin own us = ts.map (Thread.renumber ρ)) :
    (w.sweep ts).Beside own ρ (v.sweep us) where
  heaps := by
    intro n owned
    have used : n ∈ us.map Thread.heap ↔ n ∈ ts.map Thread.heap := by
      simpa using exists_kin_iff same owned (P := fun _ => True) fun t => Iff.rfl
    have roots : (v.heap n).collect (((rootGroups us).lookup n).getD []) =
        (w.heap n).collect (((rootGroups ts).lookup n).getD []) := by
      rw [beside.heaps n owned]
      apply Heap.collect_congr
      intro a
      rw [mem_lookup_rootGroups, mem_lookup_rootGroups]
      exact exists_kin_iff same owned fun t => Iff.rfl
    rw [World.sweep, World.sweep, heap_collect, heap_collect, roots, beside.heaps n owned]
    simp only [used]
  mono := beside.mono
  next := by simpa using beside.next

section Step

variable {ν : Valuation} {disk disk' : Disk} {t : Thread} (active : t.isActive) (owned : own t.heap)
  (reads : ∀ h, t.stepBy ν disk' h = t.stepBy ν disk h)
include active owned reads

theorem stepBy_snd_renumber :
    (v.stepBy ν disk' (t.renumber ρ)).2 = ((t.stepBy ν disk (w.heap t.heap)).thread.renumber ρ,
      (t.stepBy ν disk (w.heap t.heap)).result.map
        (Option.map fun c => Thread.start v.nextThread t.heap c.body c.symbols)) := by
  rw [stepBy_snd, Thread.stepBy_renumber active, Thread.heap_renumber, beside.heaps _ owned, reads]

theorem child_stepBy :
    (Pool.child? (v.stepBy ν disk' (t.renumber ρ)).2).toList.length =
      (Pool.child? (w.stepBy ν disk t).2).toList.length := by
  rw [beside.stepBy_snd_renumber active owned reads, stepBy_snd]
  rcases (t.stepBy ν disk (w.heap t.heap)).result with e | _ | c <;> rfl

/-- A step on a heap of the first world takes both worlds along. -/
theorem stepBy :
    (w.stepBy ν disk t).1.Beside own (continued ρ w.nextThread v.nextThread)
      (v.stepBy ν disk' (t.renumber ρ)).1 where
  heaps := by
    intro n here
    rw [heap_stepBy, heap_stepBy, Thread.stepBy_renumber active, Thread.heap_renumber,
      beside.heaps _ owned, beside.heaps n here, reads]
  mono := strictMono_continued beside.mono beside.next
  next := by
    intro i less
    rw [nextThread_stepBy] at less ⊢
    rw [beside.child_stepBy active owned reads]
    by_cases old : i < w.nextThread
    · have bound := beside.next i old
      rw [continued_of_lt old]
      omega
    · -- as many numbers are taken in the one world as in the other
      rw [continued, if_neg old]
      omega

/-- The outcome is the same, and a thread that is started takes the next number in either world. -/
theorem stepBy_snd_eq (known : t.id < w.nextThread) :
    (v.stepBy ν disk' (t.renumber ρ)).2 =
      Pool.renumbered (continued ρ w.nextThread v.nextThread) (w.stepBy ν disk t).2 := by
  have thread : (t.stepBy ν disk (w.heap t.heap)).thread.renumber (continued ρ w.nextThread v.nextThread) =
      (t.stepBy ν disk (w.heap t.heap)).thread.renumber ρ := by
    apply Thread.renumber_congr
    rw [Thread.id_stepBy, continued_of_lt known]
  rw [beside.stepBy_snd_renumber active owned reads, stepBy_snd, Pool.renumbered, thread]
  rcases (t.stepBy ν disk (w.heap t.heap)).result with e | _ | c
  · rfl
  · rfl
  · simp only [Except.map, Option.map_some, Thread.renumber, Thread.start, continued_self]

end Step

/-- An operation on another heap makes no difference. -/
theorem act_other (disk : Disk) {j : Job} (other : ¬own j.thread.heap) :
    w.Beside own ρ (v.act disk j).1 := by
  cases j with
  | ended r => exact beside
  | reading t q =>
    cases q with
    | look a next => exact beside
    | answer r =>
      refine ⟨fun n owned => ?_, beside.mono, fun i less => ?_⟩
      · rw [act, heap_stepBy, if_neg, beside.heaps n owned]
        rintro rfl
        exact other owned
      · have bound := beside.next i less
        rw [act, nextThread_stepBy]
        omega

/-- An operation on a heap of the first world takes both worlds along. -/
theorem act {disk disk' : Disk} {j : Job} (owned : own j.thread.heap) (known : j.Known w.nextThread)
    (reads : ∀ t q, j = .reading t q →
      t.isActive ∧ ∀ (ν : Valuation) (h : Heap), t.stepBy ν disk' h = t.stepBy ν disk h) :
    ∃ τ, (∀ i < w.nextThread, τ i = ρ i) ∧
      (w.act disk j).1.Beside own τ (v.act disk' (j.renumber ρ)).1 ∧
      (v.act disk' (j.renumber ρ)).2 = (w.act disk j).2.renumber τ := by
  cases j with
  | ended r => exact ⟨ρ, fun _ _ => rfl, beside, rfl⟩
  | reading t q =>
    cases q with
    | look a next =>
      refine ⟨ρ, fun _ _ => rfl, beside, ?_⟩
      have heap : v.heap t.heap = w.heap t.heap := beside.heaps t.heap owned
      simp only [Job.renumber, World.act, Thread.heap_renumber, heap]
    | answer r =>
      obtain ⟨active, same⟩ := reads t _ rfl
      have stepped := beside.stepBy active owned (same fun _ => r)
      have outcome := beside.stepBy_snd_eq active owned (same fun _ => r) known.1
      refine ⟨continued ρ w.nextThread v.nextThread, fun _ => continued_of_lt, stepped, ?_⟩
      simp only [Job.renumber, World.act, outcome]

end World.Beside

/-! ### Phases -/

theorem World.nextThread_act_le (w : World) (disk : Disk) (j : Job) :
    w.nextThread ≤ (w.act disk j).1.nextThread := by
  cases j with
  | ended r => exact Nat.le_refl _
  | reading t q =>
    cases q with
    | look a next => exact Nat.le_refl _
    | answer r =>
      rw [act, nextThread_stepBy]
      omega

theorem World.known_act (w : World) (disk : Disk) {j : Job} (known : j.Known w.nextThread) :
    (w.act disk j).2.Known (w.act disk j).1.nextThread := by
  cases j with
  | ended r => exact known
  | reading t q =>
    cases q with
    | look a next => exact ⟨known.1, fun c started => by cases started⟩
    | answer r =>
      have grown := w.nextThread_act_le disk (.reading t (.answer r))
      refine ⟨?_, fun c started => ?_⟩
      · rw [act, Job.thread, stepBy_snd, Thread.id_stepBy]
        exact known.1.trans_le grown
      · have child : Pool.child? (w.stepBy (fun _ => r) disk t).2 = some c := started
        rw [id_child disk w child, act, nextThread_stepBy, child]
        exact Nat.lt_succ_self _

namespace Phase

/-- The jobs of threads on heaps that `own` accepts. -/
def kinJobs (own : Nat → Bool) (jobs : List Job) : List Job :=
  jobs.filter fun j => own j.thread.heap

theorem kinJobs_append_of_pos {own : Nat → Bool} {j : Job} (owned : own j.thread.heap)
    (front back : List Job) :
    kinJobs own (front ++ j :: back) = kinJobs own front ++ j :: kinJobs own back := by
  simp only [kinJobs, List.filter_append, List.filter_cons, owned, if_true]

theorem kinJobs_append_of_neg {own : Nat → Bool} {j : Job} (other : ¬own j.thread.heap)
    (front back : List Job) : kinJobs own (front ++ j :: back) = kinJobs own front ++ kinJobs own back := by
  simp only [kinJobs, List.filter_append, List.filter_cons, other, if_false, Bool.false_eq_true]

/-- The places of the threads on heaps that `own` accepts. -/
def marks (own : Nat → Bool) (g : Phase) : List Bool :=
  g.jobs.map fun j => own j.thread.heap

/-- The jobs of the second phase on the heaps that `own` accepts are those of the first under other numbers,
in the same order. The threads that are still at their steps in the first are among `ts`. -/
structure Within (own : Nat → Bool) (ts : List Thread) (ρ : Nat → Nat) (f g : Phase) : Prop where
  world : f.world.Beside own ρ g.world
  jobs : kinJobs own g.jobs = f.jobs.map (Job.renumber ρ)
  known : ∀ j ∈ f.jobs, j.Known f.world.nextThread
  members : ∀ t q, .reading t q ∈ f.jobs → t ∈ ts

variable {own : Nat → Bool} {ts : List Thread} {ρ : Nat → Nat} {f g : Phase} {disk disk' : Disk}

theorem marks_turn (own : Nat → Bool) (g : Phase) (disk : Disk) (place : Nat) :
    (g.turn disk place).marks own = g.marks own := by
  cases here : g.jobs[place]? with
  | none => rw [turn_of_none disk here]
  | some j =>
    obtain ⟨front, back, split, -, turned⟩ := turn_split disk here
    rw [turned, marks, marks, split]
    simp only [List.map_append, List.map_cons, World.heap_thread_act]

theorem rank?_marks (own : Nat → Bool) {g : Phase} {front back : List Job} {j : Job}
    (split : g.jobs = front ++ j :: back) :
    rank? (g.marks own) front.length =
      if own j.thread.heap then some (kinJobs own front).length else none := by
  have count : (front.map fun j => own j.thread.heap).count true = (kinJobs own front).length := by
    rw [List.count, List.countP_map, kinJobs, ← List.countP_eq_length_filter]
    exact List.countP_congr fun j _ => by simp
  simp [rank?, marks, split, ← count]

section Within

variable (active : ∀ t ∈ ts, t.isActive)
  (reads : ∀ t ∈ ts, ∀ (ν : Valuation) (h : Heap), t.stepBy ν disk' h = t.stepBy ν disk h)
include active reads

theorem Within.turn_own {w v : World} {front back front' back' : List Job} {j : Job}
    (within : Within own ts ρ ⟨w, front' ++ j :: back'⟩ ⟨v, front ++ j.renumber ρ :: back⟩)
    (before : kinJobs own front = front'.map (Job.renumber ρ))
    (behind : kinJobs own back = back'.map (Job.renumber ρ)) (owned : own j.thread.heap) :
    ∃ τ, (∀ i < w.nextThread, τ i = ρ i) ∧
      Within own ts τ ⟨(w.act disk j).1, front' ++ (w.act disk j).2 :: back'⟩
        ⟨(v.act disk' (j.renumber ρ)).1, front ++ (v.act disk' (j.renumber ρ)).2 :: back⟩ := by
  have known := within.known
  simp only [List.forall_mem_append, List.forall_mem_cons] at known
  obtain ⟨first, own_known, second⟩ := known
  obtain ⟨τ, agrees, world, outcome⟩ := within.world.act owned own_known fun t q same => by
    have member := within.members t q (List.mem_append_right _ (same ▸ List.mem_cons_self))
    exact ⟨active t member, reads t member⟩
  have grown := w.nextThread_act_le disk j
  refine ⟨τ, agrees, world, ?_, ?_, ?_⟩
  · -- the numbers in the jobs of the others stay as they are
    have others {js : List Job} (known : ∀ j ∈ js, j.Known w.nextThread) :
        js.map (Job.renumber τ) = js.map (Job.renumber ρ) :=
      List.map_congr_left fun j member => Job.renumber_congr agrees (known j member)
    rw [kinJobs_append_of_pos (by simpa [World.heap_thread_act] using owned), List.map_append,
      List.map_cons, others first, others second, before, behind, outcome]
  · simp only [List.forall_mem_append, List.forall_mem_cons]
    exact ⟨fun j member => (first j member).mono grown, w.known_act disk own_known,
      fun j member => (second j member).mono grown⟩
  · have still := reading_mem_turn disk within.members front'.length
    rwa [turn_append] at still

/-- An operation of a thread on the heaps that are set apart is one of the first phase as well; any other
leaves the first phase where it is. -/
theorem Within.turn (within : f.Within own ts ρ g) (place : Nat) :
    ∃ τ, (∀ i < f.world.nextThread, τ i = ρ i) ∧
      f.world.nextThread ≤ (f.run disk (rank? (g.marks own) place).toList).world.nextThread ∧
      (f.run disk (rank? (g.marks own) place).toList).Within own ts τ (g.turn disk' place) := by
  cases here : g.jobs[place]? with
  | none =>
    have unmarked : rank? (g.marks own) place = none := by simp [rank?, marks, here]
    rw [unmarked, turn_of_none disk' here]
    exact ⟨ρ, fun _ _ => rfl, Nat.le_refl _, within⟩
  | some j =>
    obtain ⟨front, back, split, rfl, turned⟩ := turn_split disk' here
    have jobs := within.jobs
    rw [rank?_marks own split, turned]
    by_cases owned : own j.thread.heap
    · rw [split, kinJobs_append_of_pos owned] at jobs
      obtain ⟨front', rest, split', before, rest'⟩ := List.map_eq_append_iff.mp jobs.symm
      obtain ⟨j', back', rfl, rfl, behind⟩ := List.map_eq_cons_iff.mp rest'
      obtain ⟨w, jobs'⟩ := f
      obtain ⟨v, jobs⟩ := g
      dsimp only at split split'
      subst split split'
      obtain ⟨τ, agrees, after⟩ := within.turn_own active reads before.symm behind.symm (by simpa using owned)
      rw [if_pos owned, Option.toList_some, ← before, List.length_map, run_cons, turn_append]
      exact ⟨τ, agrees, w.nextThread_act_le disk j', after⟩
    · rw [split, kinJobs_append_of_neg owned] at jobs
      rw [if_neg owned]
      refine ⟨ρ, fun _ _ => rfl, Nat.le_refl _, within.world.act_other disk' owned, ?_, within.known,
        within.members⟩
      rw [kinJobs_append_of_neg (by rwa [World.heap_thread_act])]
      exact jobs

theorem Within.run (within : f.Within own ts ρ g) (order : List Nat) :
    ∃ τ, (∀ i < f.world.nextThread, τ i = ρ i) ∧
      (f.run disk (restrict (g.marks own) order)).Within own ts τ (g.run disk' order) := by
  induction order generalizing f g ρ with
  | nil => exact ⟨ρ, fun _ _ => rfl, within⟩
  | cons place rest ih =>
    obtain ⟨σ, first, grown, turned⟩ := within.turn active reads place
    obtain ⟨τ, later, done⟩ := ih turned
    refine ⟨τ, fun i less => ?_, ?_⟩
    · rw [later i (less.trans_le grown), first i less]
    · rw [marks_turn, ← run_append] at done
      rw [run_cons]
      convert done using 2
      rw [restrict, List.filterMap_cons]
      cases rank? (g.marks own) place <;> rfl

end Within

end Phase

/-- The steps on the heaps that are set apart are those of the first world, if the threads on these heaps get
on in the same order. -/
theorem World.Beside.stepTogether {own : Nat → Bool} {ρ : Nat → Nat} {w v : World}
    (beside : w.Beside own ρ v) {disk disk' : Disk} {ts us : List Thread}
    (same : kin own us = ts.map (Thread.renumber ρ)) (active : ∀ t ∈ ts, t.isActive)
    (known : ∀ t ∈ ts, t.id < w.nextThread)
    (reads : ∀ t ∈ ts, ∀ (ν : Valuation) (h : Heap), t.stepBy ν disk' h = t.stepBy ν disk h)
    (order : List Nat) :
    let r := w.stepTogether disk (restrict (us.map fun u => own u.heap) order) ts
    let r' := v.stepTogether disk' order us
    ∃ τ, (∀ i < w.nextThread, τ i = ρ i) ∧ r.1.Beside own τ r'.1 ∧
      r'.2.filter (fun o => own o.1.heap) = r.2.map (Pool.renumbered τ) := by
  intro r r'
  have first : (Phase.start w ts).Within own ts ρ (.start v us) := by
    refine ⟨beside, ?_, fun j member => ?_, Phase.reading_mem_start w ts⟩
    · have start : (Phase.start v us).jobs = us.map fun t => .reading t t.inquiry := rfl
      rw [start, Phase.kinJobs, List.filter_map]
      change (kin own us).map _ = _
      rw [same, Phase.start, List.map_map, List.map_map]
      rfl
    · obtain ⟨t, listed, rfl⟩ := List.mem_map.mp member
      exact ⟨known t listed, fun c started => by cases started⟩
  have marks : (Phase.start v us).marks own = us.map fun u => own u.heap := by
    simp only [Phase.marks, Phase.start, List.map_map]
    rfl
  have count : (us.map fun u => own u.heap).count true = ts.length := by
    rw [count_own, same, List.length_map]
  -- both rounds are run to their ends by giving every thread enough turns
  obtain ⟨k, whole⟩ := run_start disk (restrict (us.map fun u => own u.heap) order) w ts
  obtain ⟨l, whole'⟩ := run_start disk' order v us
  have ample := restrict_amply (us.map fun u => own u.heap) (max k l)
  rw [List.length_map, count] at ample
  obtain ⟨τ, agrees, last⟩ := first.run active reads (order ++ Phase.amply us.length (max k l))
  rw [marks, restrict_append, ample, whole _ (Nat.le_max_left k l), whole' _ (Nat.le_max_right k l)] at last
  refine ⟨τ, agrees, last.world, ?_⟩
  have jobs := last.jobs
  rw [Phase.ended, Phase.ended, Phase.kinJobs, List.filter_map] at jobs
  apply (List.map_inj_right fun _ _ => Job.ended.inj).mp
  rw [List.map_map]
  rw [List.map_map] at jobs
  exact jobs

/-! ### Pools -/

/-- The threads of the second pool on the heaps that `own` accepts are the threads of the first under other
numbers, in the same order. -/
structure Pool.Embeds (own : Nat → Bool) (ρ : Nat → Nat) (p q : Pool) : Prop where
  world : p.world.Beside own ρ q.world
  active : kin own q.active = p.active.map (Thread.renumber ρ)
  retired : kin own q.retired = p.retired.map (Thread.renumber ρ)

namespace Pool

variable {own : Nat → Bool} {ρ : Nat → Nat} {disk disk' : Disk} {p q : Pool}

theorem kin_filter (threads : List Thread) (P : Thread → Bool) :
    kin own (threads.filter P) = (kin own threads).filter P :=
  List.filter_comm _ _ _

section Turns

variable {turns : List Turn} (proper : ∀ u ∈ turns, u.Proper disk)
include proper

theorem kin_settled : kin own (turns.map Turn.settled) = (kinTurns own turns).map Turn.settled := by
  rw [kin, List.filter_map]
  refine congrArg _ (List.filter_congr fun u member => ?_)
  rw [Function.comp_apply, (proper u member).heap_settled]

theorem kin_children :
    kin own (turns.filterMap Turn.child?) = (kinTurns own turns).filterMap Turn.child? := by
  rw [kin, List.filter_filterMap, kinTurns, List.filterMap_filter]
  refine List.filterMap_congr fun u member => ?_
  cases started : u.child? with
  | none => simp
  | some c => simp only [Option.filter_some, (proper u member).heap_child started]

theorem outcome_kinTurns :
    (kinTurns own turns).map Turn.outcome =
      (turns.map Turn.outcome).filter fun o => own o.1.heap := by
  rw [List.filter_map, kinTurns]
  refine congrArg _ (List.filter_congr fun u member => ?_)
  rw [Function.comp_apply, (proper u member).heap_outcome]

end Turns

/-- A round of the larger pool holds a round of the smaller one, in which the threads get on in the same
order. -/
theorem Embeds.advance (embeds : p.Embeds own ρ q) (tidy : p.Tidy) (tidy' : q.Tidy)
    (reads : ∀ t ∈ p.active, ∀ (ν : Valuation) (h : Heap), t.stepBy ν disk' h = t.stepBy ν disk h)
    {order order' : List Nat}
    (same : order.filter (· < p.active.length) = restrict (q.active.map fun t => own t.heap) order') :
    ∃ τ, (p.advance World.sweep disk order).1.Embeds own τ (q.advance World.sweep disk' order').1 := by
  have known (t : Thread) (member : t ∈ p.active) : t.id < (p.world.sweep p.active).nextThread := by
    rw [World.nextThread_sweep]
    exact tidy.numbered t (List.mem_append_left _ member)
  obtain ⟨τ, agrees, world, outcomes⟩ :=
    (embeds.world.sweep embeds.active).stepTogether embeds.active tidy.active known reads order'
  rw [World.nextThread_sweep] at agrees
  rw [← same, World.stepTogether_filter] at world outcomes
  have proper (u : Turn) (member : u ∈ q.turns World.sweep disk' order') : u.Proper disk' :=
    World.proper_of_mem_turns _ _ _ member
  -- the lists at the end of the rounds are made of the outcomes in the same way
  have turned : (kinTurns own (q.turns World.sweep disk' order')).map Turn.outcome =
      (p.turns World.sweep disk order).map fun u => renumbered τ u.outcome := by
    rw [outcome_kinTurns proper, Pool.turns, World.map_outcome_turns,
      tidy'.retire_eq, outcomes, Pool.turns, tidy.retire_eq, ← World.map_outcome_turns, List.map_map]
    rfl
  have listed : kin own (q.listed World.sweep disk' order') =
      (p.listed World.sweep disk order).map (Thread.renumber τ) := by
    have settled := congrArg (List.map settle) turned
    have started := congrArg (List.filterMap child?) turned
    rw [List.map_map, List.map_map] at settled
    rw [List.filterMap_map, List.filterMap_map] at started
    rw [Pool.listed, kin_append, kin_settled proper, children,
      kin_children proper, Pool.listed, children, List.map_append,
      List.map_map, List.map_filterMap]
    refine congrArg₂ (· ++ ·) (settled.trans ?_) (started.trans ?_)
    · exact List.map_congr_left fun u _ => settle_renumbered
    · exact List.filterMap_congr fun u _ => child?_renumbered
  refine ⟨τ, ?_, ?_, ?_⟩
  · rw [world_advance, world_advance, tidy.retire_eq, tidy'.retire_eq]
    exact world
  · rw [active_advance, active_advance, kin_filter, listed, List.filter_map]
    rfl
  · have before : p.retired.map (Thread.renumber ρ) = p.retired.map (Thread.renumber τ) :=
      (Thread.map_renumber_congr agrees fun t member =>
        tidy.numbered t (List.mem_append_right _ member)).symm
    rw [retired_advance, retired_advance, tidy.retire_eq, tidy'.retire_eq, kin_append, kin_filter,
      embeds.retired, before, listed, List.filter_map, List.map_append]
    rfl

end Pool

end Lockstep

import Lockstep.Proofs.Fairness
import Lockstep.Proofs.Frames
import Lockstep.Proofs.LogBarrier

/-!
The log of a run.

A round writes its two frames to the log, one behind the other, and nothing else is ever written to the
disk. So a thread has two records for every round that it is stepped in, and one more from the end of the
round that has started it. From the end of a round to the beginning of the next one nothing happens to a
thread, except that cells of its heap may be collected. All of this can be read off the text of the log, since
it falls into records in one way only.
-/

namespace Lockstep

/-! ### Writing to the log -/

namespace Snapshot

/-- Snapshots with the times of their records. -/
def stamped (writings : Nat → Writing) (xs : List Snapshot) : List (String × Snapshot) :=
  xs.mapIdx fun i x => ((writings i).stamp.text, x)

variable (writings : Nat → Writing)

theorem stamped_cons (x : Snapshot) (xs : List Snapshot) :
    stamped writings (x :: xs) =
      ((writings 0).stamp.text, x) :: stamped (fun i => writings (i + 1)) xs := by
  simp [stamped, List.mapIdx_cons]

theorem map_snd_stamped (xs : List Snapshot) : (stamped writings xs).map Prod.snd = xs := by
  induction xs generalizing writings with
  | nil => rfl
  | cons x xs ih => rw [stamped_cons, List.map_cons, ih]

variable {writings} in
theorem exists_of_mem_stamped {e : String × Snapshot} {xs : List Snapshot}
    (member : e ∈ stamped writings xs) : e.2 ∈ xs ∧ ∃ t : Stamp, e.1 = t.text := by
  obtain ⟨i, inside, rfl⟩ := List.mem_mapIdx.mp member
  exact ⟨List.getElem_mem inside, _, rfl⟩

/-- The text of a log: the lines of its records, one behind the other. -/
def logText (log : List (String × Snapshot)) : String :=
  Text.unlines (log.flatMap fun e => e.2.recordLines e.1)

theorem logText_append (log log' : List (String × Snapshot)) :
    logText (log ++ log') = logText log ++ logText log' := by
  simp [logText, Text.unlines, String.join_append]

theorem logText_cons (e : String × Snapshot) (log : List (String × Snapshot)) :
    logText (e :: log) = e.2.record e.1 ++ logText log := by
  rw [← List.singleton_append, logText_append]
  simp [logText, record]

/-- How many records a log has of the thread with the number `id`. -/
def countOf (id : Nat) (log : List (String × Snapshot)) : Nat :=
  (log.map fun e => e.2.id).count id

theorem countOf_append (id : Nat) (log log' : List (String × Snapshot)) :
    countOf id (log ++ log') = countOf id log + countOf id log' := by
  simp [countOf]

theorem countOf_stamped (id : Nat) (xs : List Snapshot) :
    countOf id (stamped writings xs) = (xs.map Snapshot.id).count id := by
  rw [← congrArg (List.map Snapshot.id) (map_snd_stamped writings xs), List.map_map]
  rfl

theorem countOf_congr {log log' : List (String × Snapshot)} (same : List.Forall₂ SameRecord log log')
    (id : Nat) : countOf id log' = countOf id log := by
  induction same with
  | nil => rfl
  | cons first _ ih =>
    simp only [countOf, List.map_cons, List.count_cons] at ih ⊢
    rw [ih, first.id]

end Snapshot

theorem Writing.bytes_of_whole {w : Writing} (whole : w.torn = none) (x : Snapshot) :
    w.bytes x = (x.record w.stamp.text).toUTF8 := by
  simp only [bytes, part, whole]

/-- Where the log can be written to, all records get into it. -/
theorem Journal.logAll_of_target {j : Journal} {path : String} (logPath : j.logPath = some path)
    {d : Disk} {place : Place} {content : ByteArray} (found : d.target path = .ok (place, content))
    {writings : Nat → Writing} (whole : ∀ i, (writings i).torn = none) (x : Snapshot) (xs : List Snapshot) :
    (j.logAll writings d (x :: xs)).1 =
      d.setFile place (content ++ (Snapshot.logText (Snapshot.stamped writings (x :: xs))).toUTF8) := by
  induction xs generalizing d content x writings with
  | nil =>
    simp only [logAll]
    rw [log_of_target logPath found, Writing.bytes_of_whole (whole 0)]
    rw [Snapshot.stamped_cons, Snapshot.logText_cons]
    simp [Snapshot.stamped, Snapshot.logText, Text.unlines]
  | cons y ys ih =>
    rw [logAll, Snapshot.stamped_cons, Snapshot.logText_cons]
    simp only [log_of_target logPath found, Writing.bytes_of_whole (whole 0)]
    rw [ih (Disk.target_setFile found _) (fun i => whole (i + 1)), Disk.setFile_setFile]
    simp only [String.toUTF8, String.toByteArray_append, ByteArray.append_assoc]

namespace Scheduler

/-! ### The records of a round -/

variable (course : Nat → Course) (s : Scheduler)

/-- The records from the beginning of the round that follows `k` others: of its threads, after the collection
and before they are stepped. -/
def recordsBefore (k : Nat) : List (String × Snapshot) :=
  Snapshot.stamped (course k).early (s.opening course k).threads

/-- The records from the end of the round that follows `k` others: of the threads that have been stepped in
it, and then of those that have been started in it. -/
def recordsAfter (k : Nat) : List (String × Snapshot) :=
  Snapshot.stamped (course k).late (s.closing course k).threads

/-- The records of the first `n` rounds. -/
def records (n : Nat) : List (String × Snapshot) :=
  (List.range n).flatMap fun k => s.recordsBefore course k ++ s.recordsAfter course k

theorem records_succ (n : Nat) :
    s.records course (n + 1) =
      s.records course n ++ (s.recordsBefore course n ++ s.recordsAfter course n) := by
  rw [records, List.range_succ, List.flatMap_append, List.flatMap_singleton, records]

theorem diskAt_eq (k : Nat) :
    s.diskAt course k = ((s.after course k).journal.logAll (course k).early (s.after course k).disk
      (s.opening course k).threads).1 := rfl

variable {course s} {k : Nat}

theorem participants_eq_nil_iff : s.participants course k = [] ↔ s.turns course k = [] :=
  (Pool.turns_eq_nil_iff World.sweep (s.diskAt course k) (course k).order (s.after course k).pool).symm

theorem threads_opening_eq_nil_iff : (s.opening course k).threads = [] ↔ s.turns course k = [] := by
  rw [← participants_eq_nil_iff, opening, Frame.ofThreads, List.map_eq_nil_iff]

theorem threads_closing_eq_nil_iff : (s.closing course k).threads = [] ↔ s.turns course k = [] := by
  rw [closing, Frame.ofThreads, List.map_eq_nil_iff, List.append_eq_nil_iff, List.map_eq_nil_iff]
  refine ⟨And.left, fun none => ⟨none, ?_⟩⟩
  rw [turns] at none
  rw [children, Pool.children, none, List.filterMap_nil]

theorem disk_after_succ_of_target {path : String} (logPath : s.journal.logPath = some path) {place : Place}
    {content : ByteArray} (found : (s.after course k).disk.target path = .ok (place, content))
    (whole : ∀ i, ((course k).early i).torn = none ∧ ((course k).late i).torn = none)
    (turns : s.turns course k ≠ []) :
    (s.after course (k + 1)).disk = (s.after course k).disk.setFile place (content ++
      (Snapshot.logText (s.recordsBefore course k ++ s.recordsAfter course k)).toUTF8) := by
  have path_now := (logPath_after course k).trans logPath
  obtain ⟨x, xs, before⟩ := List.exists_cons_of_ne_nil (mt threads_opening_eq_nil_iff.mp turns)
  obtain ⟨y, ys, after⟩ := List.exists_cons_of_ne_nil (mt threads_closing_eq_nil_iff.mp turns)
  have first := Journal.logAll_of_target path_now found (fun i => (whole i).1) x xs
  rw [disk_after_succ turns, diskAt_eq, before, first, after,
    Journal.logAll_of_target path_now (Disk.target_setFile found _) (fun i => (whole i).2) y ys,
    Disk.setFile_setFile, recordsBefore, before, recordsAfter, after, Snapshot.logText_append]
  simp only [String.toUTF8, String.toByteArray_append, ByteArray.append_assoc]

/-! ### How often a thread is in the log -/

variable (course s) in
/-- The number of records that the thread with the number `id` gets in the first `n` rounds. -/
def recordCount (id n : Nat) : Nat :=
  Snapshot.countOf id (s.records course n)

theorem recordCount_succ (id n : Nat) :
    s.recordCount course id (n + 1) = s.recordCount course id n +
      (((s.opening course n).threads.map Snapshot.id).count id +
        ((s.closing course n).threads.map Snapshot.id).count id) := by
  rw [recordCount, records_succ, Snapshot.countOf_append, Snapshot.countOf_append, recordsBefore,
    Snapshot.countOf_stamped, recordsAfter, Snapshot.countOf_stamped, recordCount]

/-- The number of a thread that a round starts has not been given before. -/
theorem not_mem_children {id : Nat} (old : id < (s.after course k).pool.world.nextThread) :
    id ∉ (s.children course k).map Thread.id := by
  intro new
  obtain ⟨c, started, rfl⟩ := List.mem_map.mp new
  have bounds := child_bounds course started
  omega

section Loaded

variable (course) (loaded : s.Loaded)
include loaded

theorem Loaded.participants_eq (k : Nat) : s.participants course k = (s.after course k).pool.active := by
  rw [participants, (loaded.tidy_after course k).retire_eq]

theorem Loaded.ids_opening (k : Nat) :
    (s.opening course k).threads.map Snapshot.id = (s.after course k).pool.active.map Thread.id := by
  rw [← loaded.participants_eq course k]
  simp only [opening, Frame.ofThreads, List.map_map]
  rfl

/-- A round adds two records for each of its threads, and one for each thread that it starts. -/
theorem Loaded.recordCount_succ (id n : Nat) :
    s.recordCount course id (n + 1) = s.recordCount course id n +
      ((if id ∈ (s.after course n).pool.active.map Thread.id then 2 else 0) +
        if id ∈ (s.children course n).map Thread.id then 1 else 0) := by
  rw [Scheduler.recordCount_succ, loaded.ids_opening course n, ids_closing, List.map_append,
    loaded.ids_settled course n, List.count_append, (loaded.tidy_after course n).distinct_active.count,
    (s.distinct_children course n).count]
  split <;> omega

theorem Loaded.lt_nextThread_of_active {id n : Nat}
    (active : id ∈ (s.after course n).pool.active.map Thread.id) :
    id < (s.after course n).pool.world.nextThread := by
  obtain ⟨t, member, rfl⟩ := List.mem_map.mp active
  exact (loaded.tidy_after course n).numbered t (List.mem_append_left _ member)

theorem Loaded.recordCount_of_active {id n : Nat}
    (active : id ∈ (s.after course n).pool.active.map Thread.id) :
    s.recordCount course id (n + 1) = s.recordCount course id n + 2 := by
  have old := loaded.lt_nextThread_of_active course active
  rw [loaded.recordCount_succ, if_pos active, if_neg (not_mem_children old)]

theorem Loaded.recordCount_of_child {n : Nat} {c : Thread} (started : c ∈ s.children course n) :
    s.recordCount course c.id (n + 1) = s.recordCount course c.id n + 1 := by
  have absent : c.id ∉ (s.after course n).pool.active.map Thread.id := by
    intro active
    have old := loaded.lt_nextThread_of_active course active
    have new := (child_bounds course started).1
    omega
  rw [loaded.recordCount_succ, if_neg absent, if_pos (List.mem_map_of_mem started)]

theorem Loaded.recordCount_of_absent {id n : Nat}
    (absent : id ∉ (s.after course n).pool.active.map Thread.id)
    (unborn : id ∉ (s.children course n).map Thread.id) :
    s.recordCount course id (n + 1) = s.recordCount course id n := by
  rw [loaded.recordCount_succ, if_neg absent, if_neg unborn, Nat.add_zero]

theorem Loaded.recordCount_of_retired {n : Nat} {t : Thread}
    (retired : t ∈ (s.after course n).pool.retired) :
    s.recordCount course t.id (n + 1) = s.recordCount course t.id n := by
  have tidy := loaded.tidy_after course n
  apply loaded.recordCount_of_absent course
  · exact tidy.not_active_of_retired retired
  · exact not_mem_children (tidy.numbered t (List.mem_append_right _ retired))

theorem Loaded.recordCount_of_new {id n : Nat} (new : (s.after course n).pool.world.nextThread ≤ id) :
    s.recordCount course id n = 0 := by
  induction n with
  | zero => rfl
  | succ n ih =>
    have before : (s.after course n).pool.world.nextThread ≤ id :=
      (nextThread_mono course (Nat.le_succ n)).trans new
    rw [loaded.recordCount_of_absent course, ih before]
    · intro active
      have old := loaded.lt_nextThread_of_active course active
      omega
    · intro child
      obtain ⟨c, started, rfl⟩ := List.mem_map.mp child
      have bounds := child_bounds course started
      omega

/-- A thread that a round retires has been stepped in it. -/
theorem Loaded.active_of_leaver {k : Nat} {t : Thread} (left : t ∈ s.leavers course k) :
    t.id ∈ (s.after course k).pool.active.map Thread.id := by
  rw [loaded.leavers_eq, List.mem_filter] at left
  obtain ⟨listed, ended⟩ := left
  rcases List.mem_append.mp listed with settled | started
  · rw [← loaded.ids_settled course k]
    exact List.mem_map_of_mem settled
  · -- a thread that has just been started goes on
    obtain ⟨u, turn, child⟩ := List.mem_filterMap.mp started
    simp [(s.proper_of_mem_turns course turn).isActive_child child] at ended

theorem Loaded.retired_of_departure {M n : Nat} {t : Thread} (departed : (M, t) ∈ s.departures course n) :
    t ∈ (s.after course n).pool.retired := by
  simp only [departures, List.mem_flatMap, List.mem_range, List.mem_map, Prod.mk.injEq] at departed
  obtain ⟨k, inside, t, left, rfl, rfl⟩ := departed
  refine loaded.retired_mono course (Nat.succ_le_of_lt inside) ?_
  rw [loaded.leavers_eq] at left
  rw [loaded.retired_succ]
  exact List.mem_append_right _ left

end Loaded

/-- The number of records that a thread has at the end of round `M` if it came up in round `K` and has been
stepped in every round since. -/
def lifeRecords (K M : Nat) : Nat :=
  if K = 0 then 2 * M else 2 * (M - K) + 1

theorem lifeRecords_succ {K M : Nat} (le : K ≤ M) : lifeRecords K (M + 1) = lifeRecords K M + 2 := by
  simp only [lifeRecords]
  split <;> omega

/-- Up to here, threads have the records that their lives say. -/
structure Counted (course : Nat → Course) (s : Scheduler) (n : Nat) : Prop where
  active : ∀ t ∈ (s.after course n).pool.active, ∃ K ≤ n, s.CreatedIn course t.id K ∧
    s.recordCount course t.id n = lifeRecords K n
  departed : ∀ M t, (M, t) ∈ s.departures course n → ∃ K < M, s.CreatedIn course t.id K ∧
    s.recordCount course t.id n = lifeRecords K M

theorem Loaded.counted_succ (loaded : s.Loaded) {n : Nat} (counted : s.Counted course n) :
    s.Counted course (n + 1) := by
  -- a thread of the round gets two records in it, whatever becomes of it
  have goesOn {id : Nat} (active : id ∈ (s.after course n).pool.active.map Thread.id) :
      ∃ K ≤ n, s.CreatedIn course id K ∧ s.recordCount course id (n + 1) = lifeRecords K (n + 1) := by
    obtain ⟨t, member, rfl⟩ := List.mem_map.mp active
    obtain ⟨K, le, created, count⟩ := counted.active t member
    exact ⟨K, le, created, by rw [loaded.recordCount_of_active course active, count, lifeRecords_succ le]⟩
  constructor
  · intro t member
    rw [pool_after_succ, Pool.active_advance] at member
    rcases List.mem_append.mp (List.mem_filter.mp member).1 with settled | started
    · have before := List.mem_map_of_mem (f := Thread.id) settled
      obtain ⟨K, le, rest⟩ := goesOn ((loaded.ids_settled course n) ▸ before)
      exact ⟨K, by omega, rest⟩
    · -- its first record is the one from the end of this round
      refine ⟨n + 1, Nat.le_refl _, List.mem_map_of_mem started, ?_⟩
      have none := loaded.recordCount_of_new course (child_bounds course started).1
      rw [loaded.recordCount_of_child course started, none]
      simp [lifeRecords]
  · intro M t departed
    rw [departures, List.range_succ, List.flatMap_append, List.flatMap_singleton] at departed
    rcases List.mem_append.mp departed with earlier | now
    · -- nothing is written about retired threads
      rw [loaded.recordCount_of_retired course (loaded.retired_of_departure course earlier)]
      exact counted.departed M t earlier
    · obtain ⟨u, left, same⟩ := List.mem_map.mp now
      obtain ⟨rfl, rfl⟩ := Prod.mk.inj same
      obtain ⟨K, le, rest⟩ := goesOn (loaded.active_of_leaver course left)
      exact ⟨K, by omega, rest⟩

theorem Loaded.counted (loaded : s.Loaded) (n : Nat) : s.Counted course n := by
  induction n with
  | zero =>
    constructor
    · intro t member
      exact ⟨0, Nat.le_refl 0, List.mem_map_of_mem member, rfl⟩
    · intro M t departed
      exact absurd departed List.not_mem_nil
  | succ n ih => exact loaded.counted_succ ih

end Scheduler

/-! ### From one round to the next -/

namespace Snapshot

/-- The lines of the heap section of a log record. -/
def heapLines (x : Snapshot) : List String :=
  x.heap.map fun c => c.1.repr ++ " -> " ++ c.2

/-- Records that differ in the time and in the lines of the heap section only, and the second has no others
there than the first. -/
def TrimmedTo (e e' : String × Snapshot) : Prop :=
  ∃ front back,
    e.2.recordLines e.1 = e.1 :: (front ++ "Heap:" :: e.2.heapLines ++ "Symbol Table:" :: back) ∧
    e'.2.recordLines e'.1 = e'.1 :: (front ++ "Heap:" :: e'.2.heapLines ++ "Symbol Table:" :: back) ∧
    e'.2.heapLines.Sublist e.2.heapLines

theorem trimmedTo {h h' : Heap} (t : Thread) (less : h'.cells.toList.Sublist h.cells.toList)
    (stamp stamp' : String) : TrimmedTo (stamp, ofThread h t) (stamp', ofThread h' t) := by
  let front := ["Thread " ++ t.id.repr ++ " (" ++ t.status.text ++ ")", "Execution Stack:"] ++
    t.stack.map Stmt.text
  let back := t.symbols.toList.map (fun b => b.1 ++ " -> " ++ b.2.text) ++ ["Output:"] ++
    t.output.map Value.text ++ [rule]
  have lines (k : Heap) (now : String) : (ofThread k t).recordLines now =
      now :: (front ++ "Heap:" :: (ofThread k t).heapLines ++ "Symbol Table:" :: back) := by
    simp [recordLines, heapLines, ofThread, front, back]
  exact ⟨front, back, lines h stamp, lines h' stamp', (less.map _).map _⟩

end Snapshot

theorem World.toList_cells_sweep (w : World) (threads : List Thread) (n : Nat) :
    ((w.sweep threads).heap n).cells.toList.Sublist (w.heap n).cells.toList := by
  rw [sweep, heap_collect]
  split
  · simp only [Heap.collect, Heap.rebuild_fst, Heap.keep, Std.ExtTreeMap.toList_filter]
    exact List.filter_sublist
  · exact List.Sublist.refl _

namespace Scheduler

section Loaded

variable {s : Scheduler} (course : Nat → Course) (loaded : s.Loaded)
include loaded

theorem Loaded.ids_closing_nodup (k : Nat) : ((s.closing course k).threads.map Snapshot.id).Nodup := by
  rw [ids_closing, List.map_append, loaded.ids_settled course k, List.nodup_append]
  refine ⟨(loaded.tidy_after course k).distinct_active, s.distinct_children course k, ?_⟩
  rintro id active _ new rfl
  exact not_mem_children (loaded.lt_nextThread_of_active course active) new

/-- The threads that a round begins with are in the last frame of the round before, where the heaps have not
been collected. -/
theorem Loaded.opening_succ {k : Nat} {y : Snapshot} (member : y ∈ (s.opening course (k + 1)).threads) :
    ∃ x ∈ (s.closing course k).threads, x.id = y.id ∧
      ∀ stamp stamp', Snapshot.TrimmedTo (stamp, x) (stamp', y) := by
  obtain ⟨t, active, rfl⟩ := List.mem_map.mp member
  -- the thread itself is the same in both frames; only the world has been swept in between
  let x := Snapshot.ofThread ((s.after course (k + 1)).pool.world.heap t.heap) t
  have listed : x ∈ (s.closing course k).threads := by
    rw [loaded.participants_eq, pool_after_succ, Pool.active_advance] at active
    exact List.mem_map_of_mem (List.mem_filter.mp active).1
  refine ⟨x, listed, rfl, fun stamp stamp' => Snapshot.trimmedTo t ?_ stamp stamp'⟩
  exact World.toList_cells_sweep _ _ t.heap

/-- A thread that a round begins with has one record from the end of the round before, and since then cells of
its heap may have been collected. -/
theorem Loaded.recordsBefore_succ {k : Nat} {e' : String × Snapshot}
    (member : e' ∈ s.recordsBefore course (k + 1)) :
    (∃ e ∈ s.recordsAfter course k, e.2.id = e'.2.id) ∧
      ∀ e ∈ s.recordsAfter course k, e.2.id = e'.2.id → Snapshot.TrimmedTo e e' := by
  obtain ⟨x, listed, same, trimmed⟩ :=
    loaded.opening_succ course (Snapshot.exists_of_mem_stamped member).1
  constructor
  · rw [← Snapshot.map_snd_stamped (course k).late (s.closing course k).threads] at listed
    obtain ⟨e, inside, rfl⟩ := List.mem_map.mp listed
    exact ⟨e, inside, same⟩
  · intro e inside same'
    -- no two snapshots of a frame are of the same thread
    have here : e.2 = x := List.inj_on_of_nodup_map (loaded.ids_closing_nodup course k)
      (Snapshot.exists_of_mem_stamped inside).1 listed (same'.trans same.symm)
    have lines := trimmed e.1 e'.1
    rwa [← here] at lines

end Loaded

section Log

variable {s : Scheduler} {path : String} (logPath : s.journal.logPath = some path) {place : Place}
  {content : ByteArray} (writable : s.disk.target path = .ok (place, content)) {course : Nat → Course}
  (whole : ∀ k i, ((course k).early i).torn = none ∧ ((course k).late i).torn = none)
include logPath writable whole

theorem target_after (n : Nat) :
    (s.after course n).disk.target path =
      .ok (place, content ++ (Snapshot.logText (s.records course n)).toUTF8) := by
  induction n with
  | zero => simpa [after_zero, records, Snapshot.logText, Text.unlines] using writable
  | succ n ih =>
    rw [records_succ]
    by_cases turns : s.turns course n = []
    · rw [after_succ_of_no_turns turns, recordsBefore, threads_opening_eq_nil_iff.mpr turns, recordsAfter,
        threads_closing_eq_nil_iff.mpr turns, disk_retire, ih]
      simp [Snapshot.stamped]
    · rw [disk_after_succ_of_target logPath ih (whole n) turns, Disk.target_setFile ih,
        Snapshot.logText_append (s.records course n)]
      simp only [String.toUTF8, String.toByteArray_append, ByteArray.append_assoc]

end Log

theorem isLine_of_mem_records {s : Scheduler} {course : Nat → Course} {n : Nat} {e : String × Snapshot}
    (member : e ∈ s.records course n) : Text.IsLine e.1 := by
  obtain ⟨k, -, inside⟩ := List.mem_flatMap.mp member
  have stamp : ∃ t : Stamp, e.1 = t.text := by
    rcases List.mem_append.mp inside with before | after
    · exact (Snapshot.exists_of_mem_stamped before).2
    · exact (Snapshot.exists_of_mem_stamped after).2
  obtain ⟨t, same⟩ := stamp
  rw [same]
  exact t.isLine_text

/-- The log of a run has every thread twice a round. Give a scheduler that has not run yet threads that have
just been started, and a log that can be opened and whose records are always written to the end. Then, in
whatever order the threads get on, the text that is added to the log round by round consists of the lines of
the records of the threads that the round begins with, after the collection, followed by those of the same
threads after they have been stepped and of the threads that they have started, each with its own time;
nothing else on the disk changes, and a round that does not count changes nothing at all. So a thread that was
there from the beginning and is retired in round `M` has `2 * M` records, and one that a fork of round `K` has
started has `2 * (M - K) + 1`; if the records are legible, whoever reads the text of the log as a list of
legible records finds this many in it. The record that a thread has at the beginning of a round differs from
the one that it has at the end of the round before in nothing but the time and the lines of its heap, and of
these some may be missing. -/
theorem log_has_every_thread_twice (s : Scheduler) (loaded : s.Loaded) (start : s.pool.round = 0)
    {path : String} (logPath : s.journal.logPath = some path) {place : Place} {content : ByteArray}
    (writable : s.disk.target path = .ok (place, content)) (course : Nat → Course)
    (whole : ∀ k i, ((course k).early i).torn = none ∧ ((course k).late i).torn = none) :
    let log (k : Nat) := content ++ (Snapshot.logText (s.records course k)).toUTF8
    (∀ k, (s.after course k).disk.target path = .ok (place, log k) ∧
      (s.turns course k = [] → (s.after course (k + 1)).disk = (s.after course k).disk) ∧
      (s.turns course k ≠ [] → (s.after course (k + 1)).pool.round = k + 1 ∧
        s.participants course k = (s.after course k).pool.active ∧
        (s.turns course k).map Turn.thread = (s.after course k).pool.active ∧
        (s.recordsBefore course k).map Prod.snd = (s.opening course k).threads ∧
        (s.recordsAfter course k).map Prod.snd = (s.closing course k).threads ∧
        (s.after course (k + 1)).disk = (s.after course k).disk.setFile place (log k ++
          (Snapshot.logText (s.recordsBefore course k ++ s.recordsAfter course k)).toUTF8))) ∧
    (∀ n M t, (M, t) ∈ s.departures course n → ∃ K < M, (∀ r, s.CreatedIn course t.id r ↔ r = K) ∧
      Snapshot.countOf t.id (s.records course n) = (if K = 0 then 2 * M else 2 * (M - K) + 1) ∧
      ((∀ e ∈ s.records course n, e.2.Legible) → ∀ reading : List (String × Snapshot),
        (∀ e ∈ reading, Text.IsLine e.1 ∧ e.2.Legible) →
        Snapshot.logText reading = Snapshot.logText (s.records course n) →
        Snapshot.countOf t.id reading = if K = 0 then 2 * M else 2 * (M - K) + 1)) ∧
    ∀ k, ∀ e' ∈ s.recordsBefore course (k + 1),
      (∃ e ∈ s.recordsAfter course k, e.2.id = e'.2.id) ∧
      ∀ e ∈ s.recordsAfter course k, e.2.id = e'.2.id → Snapshot.TrimmedTo e e' := by
  intro log
  have found (k : Nat) := target_after logPath writable whole k
  refine ⟨fun k => ⟨found k, fun none => ?_, fun turns => ⟨?_, ?_, ?_, ?_, ?_, ?_⟩⟩,
    fun n M t departed => ?_, fun k e' member => loaded.recordsBefore_succ course member⟩
  · rw [after_succ_of_no_turns none, disk_retire]
  · exact (loaded.round_succ course start turns).2
  · exact loaded.participants_eq course k
  · exact loaded.threads_turns course k
  · exact Snapshot.map_snd_stamped _ _
  · exact Snapshot.map_snd_stamped _ _
  · exact disk_after_succ_of_target logPath (found k) (whole k) turns
  · obtain ⟨K, less, created, count⟩ := (loaded.counted n).departed M t departed
    refine ⟨K, less, loaded.createdIn_iff course created, count, fun legible reading read same => ?_⟩
    have records := Snapshot.sameRecord_of_unlines
      (fun e member => ⟨isLine_of_mem_records member, legible e member⟩) read same.symm
    rw [Snapshot.countOf_congr records]
    exact count

/-- A thread that starts another in its second round, and a log that does not exist yet; every record has
another time. Both threads complete in the third round, so whoever reads the log finds six records of the
first and three of the second. -/
theorem log_has_every_thread_twice_with_fork :
    let s := ofProgram (.blank []) { logPath := some "log" } (Stmt.ofList [.fork .nop, .nop])
    let course (k : Nat) : Course := {
      order := [1, 0]
      early i := { stamp := ⟨2024, 5, 6, 7, k, 2 * i⟩ }
      late i := { stamp := ⟨2024, 5, 6, 7, k, 2 * i + 1⟩ } }
    s.Loaded ∧ s.disk.target "log" = .ok (["log"], .empty) ∧
    (s.after course 4).disk.target "log" =
      .ok (["log"], .empty ++ (Snapshot.logText (s.records course 4)).toUTF8) ∧
    (∀ e ∈ s.records course 4, Text.IsLine e.1 ∧ e.2.Legible) ∧
    ∀ reading : List (String × Snapshot), (∀ e ∈ reading, Text.IsLine e.1 ∧ e.2.Legible) →
      Snapshot.logText reading = Snapshot.logText (s.records course 4) →
      Snapshot.countOf 1 reading = 6 ∧ Snapshot.countOf 2 reading = 3 := by
  intro s course
  have loaded : s.Loaded := (fresh_ofProgram _ _ _).loaded
  have writable : s.disk.target "log" = .ok (["log"], .empty) := by rfl
  have legible : ∀ e ∈ s.records course 4, Text.IsLine e.1 ∧ e.2.Legible := by decide +kernel
  have first : ∃ d ∈ s.departures course 4, d.1 = 3 ∧ d.2.id = 1 := by decide +kernel
  have second : ∃ d ∈ s.departures course 4, d.1 = 3 ∧ d.2.id = 2 := by decide +kernel
  have initial : s.CreatedIn course 1 0 := by
    change 1 ∈ s.pool.active.map Thread.id
    decide +kernel
  have forked : s.CreatedIn course 2 2 := by
    change 2 ∈ (s.children course 1).map Thread.id
    decide +kernel
  obtain ⟨text, count, -⟩ :=
    log_has_every_thread_twice s loaded rfl rfl writable course fun k i => ⟨rfl, rfl⟩
  have decoded := fun e member => (legible e member).2
  refine ⟨loaded, writable, (text 4).1, legible, fun reading read same => ⟨?_, ?_⟩⟩
  · obtain ⟨⟨M, t⟩, departed, three, one⟩ := first
    obtain ⟨K, -, created, -, records⟩ := count 4 M t departed
    dsimp only at three one
    rw [one, three] at records
    rw [records decoded reading read same, ← (created 0).mp (one ▸ initial)]
    rfl
  · obtain ⟨⟨M, t⟩, departed, three, two⟩ := second
    obtain ⟨K, -, created, -, records⟩ := count 4 M t departed
    dsimp only at three two
    rw [two, three] at records
    rw [records decoded reading read same, ← (created 2).mp (two ▸ forked)]
    rfl

end Scheduler

end Lockstep

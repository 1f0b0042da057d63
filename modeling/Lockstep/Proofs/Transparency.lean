import Lockstep.Proofs.SoundPool

/-!
Collections cannot be observed.

A run that collects and a run that does not, of one program without reference constants, go through the
same rounds, if their threads get on in the same order. At any time the heaps of the second hold the cells
of the first, and more. What the extra cells are does not matter: a thread only looks at cells that a sound
reference leads to, and such a cell is live in the smaller heap already. So every operation comes to the same
in both runs.
-/

namespace Lockstep

/-- Every cell of `h` is a cell of `k`, with the same value; the next addresses agree, and null is not
live in `k`. -/
structure Heap.Within (h k : Heap) : Prop where
  next : h.next = k.next
  cells : ∀ (a : Nat) v, h.cells[a]? = some v → k.cells[a]? = some v
  null : 0 ∉ k.cells

namespace Heap.Within

variable {h k : Heap}

theorem mem (within : h.Within k) {a : Nat} (live : a ∈ h.cells) : a ∈ k.cells := by
  obtain ⟨v, found⟩ := mem_cells_iff.mp live
  exact mem_cells_iff.mpr ⟨v, within.cells a v found⟩

theorem allocate (within : h.Within k) (next_pos : 0 < h.next) (v : Value) :
    (h.allocate v).2.Within (k.allocate v).2 where
  next := by simp [within.next]
  cells := by
    intro a u found
    rw [getElem?_allocate, within.next] at found
    rw [getElem?_allocate]
    split at found
    next same => rwa [if_pos same]
    next differs =>
      rw [if_neg differs]
      exact within.cells a u found
  null := by
    have differs : k.next ≠ 0 := within.next ▸ Nat.ne_of_gt next_pos
    simpa [Heap.allocate, differs] using within.null

theorem insert (within : h.Within k) {a : Nat} (proper : a ≠ 0) (v : Value) :
    Within { h with cells := h.cells.insert a v } { k with cells := k.cells.insert a v } where
  next := within.next
  cells := by
    intro b u found
    simp only [Std.ExtTreeMap.getElem?_insert, Std.compare_eq_iff_eq] at found ⊢
    split at found
    next same => rwa [if_pos same]
    next differs =>
      rw [if_neg differs]
      exact within.cells b u found
  null := by
    simpa [proper] using within.null

end Heap.Within

/-! ### Execution -/

section Execution

variable {h k : Heap} (sound : h.Sound) (within : h.Within k)
include sound within

/-- Two heaps agree on the cell that a sound reference refers to. -/
theorem Heap.Within.getElem?_eq {a : Nat} {t : Ty} (ref : (Value.ref a t).SoundIn h) :
    k.cells[a]? = h.cells[a]? := by
  rcases ref with rfl | ⟨v, found, -⟩
  · rw [Std.ExtTreeMap.getElem?_eq_none within.null, Std.ExtTreeMap.getElem?_eq_none sound.null]
  · rw [found]
    exact within.cells a v found

theorem Heap.Within.get_eq {a : Nat} {t : Ty} (ref : (Value.ref a t).SoundIn h) : k.get a = h.get a := by
  simp only [Heap.get, within.getElem?_eq sound ref]

end Execution

section Execution

variable {ν : Valuation} {disk : Disk} {σ : Store} {k : Heap} (sound : σ.Sound)
  (within : σ.heap.Within k)
include sound within

/-- What a statement does on a heap it does in the same way on a heap with more cells. -/
theorem Acts.within_heap {σ' : Store} {s : Stmt} {o : Option Fault} (acts : Acts ν disk σ s σ' o) :
    ∃ k', σ'.heap.Within k' ∧ Acts ν disk { σ with heap := k } s { σ' with heap := k' } o := by
  cases acts with
  | nop => exact ⟨k, within, .nop⟩
  | declare fresh => exact ⟨k, within, .declare fresh⟩
  | declareAgain bound => exact ⟨k, within, .declareAgain bound⟩
  | assign value bound type => exact ⟨k, within, .assign value bound type⟩
  | assignNoValue value => exact ⟨k, within, .assignNoValue value⟩
  | assignUnbound value unbound => exact ⟨k, within, .assignUnbound value unbound⟩
  | assignMistyped value bound type => exact ⟨k, within, .assignMistyped value bound type⟩
  | print value => exact ⟨k, within, .print value⟩
  | printNoValue value => exact ⟨k, within, .printNoValue value⟩
  | alloc bound value =>
    -- both heaps hand out the same address
    refine ⟨_, within.allocate sound.heap.next_pos _, ?_⟩
    rw [within.next]
    exact .alloc bound value
  | allocNoTarget target => exact ⟨k, within, .allocNoTarget target⟩
  | allocNoValue bound value => exact ⟨k, within, .allocNoValue bound value⟩
  | allocMistyped bound value type => exact ⟨k, within, .allocMistyped bound value type⟩
  | write bound live value =>
    exact ⟨_, within.insert (fun null => sound.heap.null (null ▸ live)) _,
      .write bound (within.mem live) value⟩
  | writeNoTarget target => exact ⟨k, within, .writeNoTarget target⟩
  | writeNoCell bound dead =>
    -- a sound reference without a cell is null, and has none in the larger heap either
    refine ⟨k, within, .writeNoCell bound ?_⟩
    rw [Heap.mem_cells_iff] at dead ⊢
    rwa [within.getElem?_eq sound.heap (sound.symbols _ _ bound)]
  | writeNoValue bound live value => exact ⟨k, within, .writeNoValue bound (within.mem live) value⟩
  | writeMistyped bound live value type =>
    exact ⟨k, within, .writeMistyped bound (within.mem live) value type⟩
  | openFile named opened => exact ⟨k, within, .openFile named opened⟩
  | openNoName named => exact ⟨k, within, .openNoName named⟩
  | openRefused named refused => exact ⟨k, within, .openRefused named refused⟩
  | readInt bound named read number => exact ⟨k, within, .readInt bound named read number⟩
  | readNoTarget target => exact ⟨k, within, .readNoTarget target⟩
  | readNoName bound named => exact ⟨k, within, .readNoName bound named⟩
  | readRefused bound named refused => exact ⟨k, within, .readRefused bound named refused⟩
  | readNoNumber bound named read number => exact ⟨k, within, .readNoNumber bound named read number⟩
  | closeFile named closed => exact ⟨k, within, .closeFile named closed⟩
  | closeNoName named => exact ⟨k, within, .closeNoName named⟩
  | closeRefused named refused => exact ⟨k, within, .closeRefused named refused⟩

theorem Stmt.execBy_within (s : Stmt) :
    ∃ k', (s.execBy ν disk σ).1.heap.Within k' ∧
      s.execBy ν disk { σ with heap := k } =
        ({ (s.execBy ν disk σ).1 with heap := k' }, (s.execBy ν disk σ).2) := by
  by_cases simple : s.elementary
  · obtain ⟨σ', o, acts, executed⟩ := execBy_acts ν disk σ simple
    obtain ⟨k', within', larger⟩ := acts.within_heap sound within
    rw [executed]
    exact ⟨k', within', larger.execBy_eq⟩
  · -- a control statement leaves the heap alone
    refine ⟨k, ?_, ?_⟩
    · rwa [execBy_fst_of_not_elementary ν disk σ simple]
    · cases s with
      | seq a b => rfl
      | ite g a b => rfl
      | loop g b => rfl
      | fork b => rfl
      | _ => simp [elementary] at simple

end Execution

/-! ### Steps -/

theorem Thread.stepBy_within (ν : Valuation) (disk : Disk) {h k : Heap} {t : Thread} (heap : h.Sound)
    (symbols : t.symbols.SoundIn h) (within : h.Within k) :
    ∃ k', (t.stepBy ν disk h).heap.Within k' ∧
      t.stepBy ν disk k = { t.stepBy ν disk h with heap := k' } := by
  simp only [stepBy]
  split
  next s rest running top =>
    have store : (t.store h).Sound := ⟨heap, symbols⟩
    obtain ⟨k', within', executed⟩ : ∃ k', (s.execBy ν disk (t.store h)).1.heap.Within k' ∧
        s.execBy ν disk (t.store k) =
          ({ (s.execBy ν disk (t.store h)).1 with heap := k' }, (s.execBy ν disk (t.store h)).2) :=
      s.execBy_within store within
    rw [executed]
    rcases answer : s.execBy ν disk (t.store h) with ⟨σ, e | effect⟩
    · exact ⟨k', by rwa [answer] at within', rfl⟩
    · exact ⟨k', by rwa [answer] at within', rfl⟩
  · exact ⟨k, within, rfl⟩

/-- Threads get the same numbers in both worlds, and the heaps of `v` have every cell that those of `w`
have. -/
structure World.Within (w v : World) : Prop where
  nextThread : w.nextThread = v.nextThread
  heaps : ∀ n, (w.heap n).Within (v.heap n)

namespace World

variable {w v : World} (disk : Disk)

theorem stepBy_within (ν : Valuation) {t : Thread} (within : w.Within v) (heaps : ∀ n, (w.heap n).Sound)
    (sound : t.SoundIn w) :
    (w.stepBy ν disk t).1.Within (v.stepBy ν disk t).1 ∧
      (v.stepBy ν disk t).2 = (w.stepBy ν disk t).2 := by
  -- the larger world goes through the same step, up to the cells of its heap
  obtain ⟨k, within', larger⟩ := Thread.stepBy_within ν disk (heaps t.heap) sound.symbols
    (within.heaps t.heap)
  have outcome : (v.stepBy ν disk t).2 = (w.stepBy ν disk t).2 := by
    rw [stepBy_snd, stepBy_snd, larger, within.nextThread]
  refine ⟨⟨?_, fun n => ?_⟩, outcome⟩
  · rw [nextThread_stepBy, nextThread_stepBy, outcome, within.nextThread]
  · rw [heap_stepBy, heap_stepBy, larger]
    split
    · exact within'
    · exact within.heaps n

theorem act_within {j : Job} (within : w.Within v) (heaps : ∀ n, (w.heap n).Sound)
    (sound : j.SoundIn w) :
    (w.act disk j).1.Within (v.act disk j).1 ∧ (v.act disk j).2 = (w.act disk j).2 := by
  cases j with
  | ended outcome => exact ⟨within, rfl⟩
  | reading t q =>
    obtain ⟨thread, inquiry⟩ := sound
    cases q with
    | look a next =>
      -- only sound references are followed, and there both heaps have the same
      obtain ⟨⟨target, reference⟩, -⟩ := inquiry
      refine ⟨within, ?_⟩
      simp only [act, (within.heaps t.heap).get_eq (heaps t.heap) reference]
    | answer r =>
      obtain ⟨within', outcome⟩ := stepBy_within disk (fun _ => r) within heaps thread
      exact ⟨within', congrArg Job.ended outcome⟩

theorem stepTogether_within (order : List Nat) {threads : List Thread} (within : w.Within v)
    (sound : w.Sound threads) :
    (w.stepTogether disk order threads).1.Within (v.stepTogether disk order threads).1 ∧
      (v.stepTogether disk order threads).2 = (w.stepTogether disk order threads).2 := by
  -- the phases have the same jobs all the time
  let Same (f g : Phase) : Prop := f.Sound ∧ f.world.Within g.world ∧ g.jobs = f.jobs
  have kept (f g : Phase) (place : Nat) (same : Same f g) :
      Same (f.turn disk place) (g.turn disk place) := by
    obtain ⟨sound, within, jobs⟩ := same
    refine ⟨sound.turn disk place, ?_⟩
    cases here : f.jobs[place]? with
    | none =>
      rw [Phase.turn_of_none disk here, Phase.turn_of_none disk (jobs ▸ here)]
      exact ⟨within, jobs⟩
    | some j =>
      obtain ⟨within', outcome⟩ :=
        act_within disk within sound.heaps (sound.jobs j (List.mem_of_getElem? here))
      rw [Phase.turn_of_some disk here, Phase.turn_of_some disk (jobs ▸ here)]
      exact ⟨within', by rw [outcome, jobs]⟩
  obtain ⟨-, within', jobs⟩ := stepTogether_relation (R := Same) kept order rfl
    ⟨.start sound, within, rfl⟩
  exact ⟨within', (List.map_inj_right fun _ _ => Job.ended.inj).mp jobs⟩

/-- A collection only makes the smaller heaps smaller. -/
theorem sweep_within (within : w.Within v) (threads : List Thread) : (w.sweep threads).Within v where
  nextThread := by rw [nextThread_sweep, within.nextThread]
  heaps n := by
    refine ⟨(w.next_collect threads n).trans (within.heaps n).next, ?_, (within.heaps n).null⟩
    intro a u found
    exact (within.heaps n).cells a u (w.cells_sweep_sub threads n a u found)

/-- Leaves all heaps as they are, in the place of a collection. -/
def skip (w : World) (_ : List Thread) : World := w

end World

/-! ### Rounds -/

/-- The pools differ in nothing but cells that only `q` has. -/
structure Pool.Agree (p q : Pool) : Prop where
  world : p.world.Within q.world
  active : q.active = p.active
  retired : q.retired = p.retired
  round : q.round = p.round

namespace Pool.Agree

variable {p q : Pool}

theorem retire (agree : p.Agree q) : p.retire.Agree q.retire where
  world := agree.world
  active := by simp only [Pool.retire, agree.active]
  retired := by simp only [Pool.retire, agree.active, agree.retired]
  round := agree.round

theorem openRound (agree : p.Agree q) :
    (p.openRound World.sweep).Agree (q.openRound World.skip) where
  world := World.sweep_within agree.world p.active
  active := agree.active
  retired := agree.retired
  round := by simp only [Pool.openRound, agree.round]

theorem stepAll (disk : Disk) (order : List Nat) (agree : p.Agree q) (sound : p.Sound) :
    (p.stepAll disk order).1.Agree (q.stepAll disk order).1 := by
  obtain ⟨within, outcomes⟩ := World.stepTogether_within disk order agree.world sound.world
  refine ⟨?_, ?_, agree.retired, agree.round⟩
  · simpa only [Pool.stepAll, agree.active] using within
  · simp only [Pool.stepAll, outcomes, agree.active]

theorem advance (disk : Disk) (order : List Nat) (agree : p.Agree q) (sound : p.Sound) :
    (p.advance World.sweep disk order).1.Agree (q.advance World.skip disk order).1 ∧
      (q.advance World.skip disk order).2 = (p.advance World.sweep disk order).2 := by
  have start := agree.retire
  have finish := (start.openRound.stepAll disk order sound.retire.openRound).retire
  simp only [Pool.advance, start.active]
  split
  · exact ⟨start, rfl⟩
  · exact ⟨finish, by simp only [finish.active]⟩

end Pool.Agree

/-! ### Reachable cells -/

section Reachable

variable {h k : Heap} {Root : Nat → Prop} (sound : h.Sound)
  (roots : ∀ a, Root a → ∃ t, (Value.ref a t).SoundIn h)
include sound roots

/-- Only sound references lead to a reachable address. -/
theorem Heap.Reach.exists_soundIn {a : Nat} (reached : h.Reach Root a) :
    ∃ t, (Value.ref a t).SoundIn h := by
  cases reached with
  | root member => exact roots a member
  | @step b _ source link =>
    obtain ⟨v, cell, stored⟩ := Option.bind_eq_some_iff.mp link
    obtain ⟨t, rfl⟩ := Value.address?_eq_some_iff.mp stored
    exact ⟨t, sound.cells b _ cell⟩

theorem Heap.Within.reach {a : Nat} (within : h.Within k) (reached : k.Reach Root a) :
    h.Reach Root a := by
  induction reached with
  | root member => exact .root member
  | @step a b source link ih =>
    -- a sound reference leads here, so the cell that is followed is the same in both heaps
    obtain ⟨t, reference⟩ := ih.exists_soundIn sound roots
    refine .step ih ?_
    rwa [target?, ← within.getElem?_eq sound reference]

end Reachable

theorem World.Sound.heldOn {w : World} {threads : List Thread} (sound : w.Sound threads) {n a : Nat}
    (held : HeldOn threads n a) : ∃ t, (Value.ref a t).SoundIn (w.heap n) := by
  obtain ⟨t, member, rfl, x, target, bound⟩ := held
  exact ⟨target, (sound.threads t member).symbols x _ bound⟩

/-! ### Runs -/

/-- Whatever becomes of the records for the log, the disk is the same afterwards. -/
def Journal.Still (j : Journal) (disk : Disk) : Prop :=
  ∀ (writing : Writing) (s : Snapshot), (j.log writing disk s).1 = disk

theorem Journal.Still.logAll {j : Journal} {disk : Disk} (still : j.Still disk) (writings : Nat → Writing)
    (snapshots : List Snapshot) : (j.logAll writings disk snapshots).1 = disk := by
  induction snapshots generalizing writings with
  | nil => rfl
  | cons s rest ih => simp only [Journal.logAll, still (writings 0) s, ih]

theorem Journal.log_record (j : Journal) (f : Frame) : (j.record f).1.log = j.log := by
  simp only [record]
  split <;> rfl

/-- The threads read the given disk, and logging leaves it as it is. -/
structure Scheduler.Reads (disk : Disk) (s : Scheduler) : Prop where
  disk_eq : s.disk = disk
  still : s.journal.Still disk

namespace Scheduler.Reads

variable {disk : Disk} {s : Scheduler} (c : Course) (sweep : World → List Thread → World)

theorem withPool (reads : s.Reads disk) (p : Pool) : Scheduler.Reads disk { s with pool := p } :=
  ⟨reads.disk_eq, reads.still⟩

theorem logAll (reads : s.Reads disk) (writings : Nat → Writing) : (s.logAll writings).Reads disk := by
  obtain ⟨rfl, still⟩ := reads
  exact ⟨still.logAll writings _, still⟩

theorem stepAll (reads : s.Reads disk) (order : List Nat) : (s.stepAll order).Reads disk :=
  ⟨reads.disk_eq, reads.still⟩

theorem record (reads : s.Reads disk) : s.record.Reads disk := by
  refine ⟨reads.disk_eq, fun writing snapshot => ?_⟩
  have same : s.record.journal.log = s.journal.log := s.journal.log_record s.frame
  rw [same]
  exact reads.still writing snapshot

theorem roundDisk_eq (reads : s.Reads disk) : s.roundDisk sweep c = disk :=
  ((reads.withPool _).logAll c.early).disk_eq

theorem roundWith (reads : s.Reads disk) : (s.roundWith sweep c).1.Reads disk := by
  simp only [Scheduler.roundWith]
  split
  · exact reads.withPool _
  · exact (((((reads.withPool _).logAll c.early).stepAll c.order).logAll c.late).record).withPool _

theorem roundsWith (reads : s.Reads disk) (course : Nat → Course) (n : Nat) :
    (s.roundsWith sweep course n).1.Reads disk := by
  induction n with
  | zero => exact reads
  | succ n ih => exact ih.roundWith (course n) sweep

end Scheduler.Reads

/-- Round by round, a run that collects and one that does not agree. -/
theorem Scheduler.roundsWith_agree {disk : Disk} {journal : Journal} (still : journal.Still disk)
    {course course' : Nat → Course} (orders : ∀ k, (course' k).order = (course k).order) {program : Stmt}
    (free : program.refFree) (n : Nat) :
    let p := (ofProgram disk journal program).roundsWith World.sweep course n
    let q := (ofProgram disk journal program).roundsWith World.skip course' n
    p.1.pool.Agree q.1.pool ∧ q.2 = p.2 := by
  have reads : (ofProgram disk journal program).Reads disk := ⟨rfl, still⟩
  induction n with
  | zero =>
    refine ⟨⟨⟨rfl, fun n => ?_⟩, rfl, rfl, rfl⟩, rfl⟩
    have sound := (ofProgram_sound disk journal free).world.heaps n
    exact ⟨rfl, fun _ _ found => found, sound.null⟩
  | succ n ih =>
    obtain ⟨agree, answers⟩ := ih
    have sound := roundsWith_sound disk journal course free n
    obtain ⟨agree', answer⟩ := agree.advance disk (course n).order sound
    -- both rounds read the disk that the run began with
    have left := pool_roundWith World.sweep (course n)
      ((ofProgram disk journal program).roundsWith World.sweep course n).1
    have right := pool_roundWith World.skip (course' n)
      ((ofProgram disk journal program).roundsWith World.skip course' n).1
    rw [(reads.roundsWith World.sweep course n).roundDisk_eq] at left
    rw [(reads.roundsWith World.skip course' n).roundDisk_eq, orders n] at right
    rw [← left, ← right] at agree' answer
    dsimp only at answer
    exact ⟨agree', by simp only [roundsWith, answers, answer]⟩

/-- Collections cannot be observed. On a disk that nothing changes, a program without reference constants
goes through the same rounds with and without them, whatever the order is in which its threads get on in each
round, as long as it is the same: the active and the retired threads are the same in every respect, as are the
answers of the rounds and their number. The next addresses agree, no cell is there with the collections that
is not there without them, and the cells that can be reached from the variables of active threads are the
same. -/
theorem collection_unobservable (disk : Disk) (journal : Journal) (still : journal.Still disk)
    (course course' : Nat → Course) (orders : ∀ k, (course' k).order = (course k).order) (program : Stmt)
    (free : program.refFree) (n : Nat) :
    let p := (Scheduler.ofProgram disk journal program).roundsWith World.sweep course n
    let q := (Scheduler.ofProgram disk journal program).roundsWith World.skip course' n
    q.1.pool.active = p.1.pool.active ∧ q.1.pool.retired = p.1.pool.retired ∧
    q.2 = p.2 ∧ q.1.pool.round = p.1.pool.round ∧
    ∀ k, (q.1.pool.world.heap k).next = (p.1.pool.world.heap k).next ∧
      (∀ (a : Nat) v, (p.1.pool.world.heap k).cells[a]? = some v →
        (q.1.pool.world.heap k).cells[a]? = some v) ∧
      ∀ a : Nat,
        ((p.1.pool.world.heap k).Reach (HeldOn p.1.pool.active k) a ∨
          (q.1.pool.world.heap k).Reach (HeldOn q.1.pool.active k) a) →
        (q.1.pool.world.heap k).cells[a]? = (p.1.pool.world.heap k).cells[a]? := by
  intro p q
  obtain ⟨agree, answers⟩ := Scheduler.roundsWith_agree still orders free n
  have sound : p.1.pool.Sound := Scheduler.roundsWith_sound disk journal course free n
  refine ⟨agree.active, agree.retired, answers, agree.round, fun k => ?_⟩
  have within := agree.world.heaps k
  have roots (a : Nat) (held : HeldOn p.1.pool.active k a) := sound.world.heldOn held
  refine ⟨within.next.symm, within.cells, fun a reached => ?_⟩
  -- what is reachable among more cells is reachable among fewer
  have smaller : (p.1.pool.world.heap k).Reach (HeldOn p.1.pool.active k) a := by
    rcases reached with here | there
    · exact here
    · rw [agree.active] at there
      exact within.reach (sound.world.heaps k) roots there
  obtain ⟨t, reference⟩ := smaller.exists_soundIn (sound.world.heaps k) roots
  exact within.getElem?_eq (sound.world.heaps k) reference

/-- A program that drops its first cell. The collection of the seventh round discards it; threads and
reachable cells show no trace of that, then and later. The second thread gets on before the first one in every
round. -/
theorem collection_unobservable_dropped_cell :
    let program : Stmt := .ofList [.declare "r" (.ref .int), .alloc "r" (.int 1),
      .alloc "r" (.int 2), .fork (.write "r" (.int 3)), .print (.read (.var "r"))]
    let course := fun _ => Course.smooth ⟨2024, 1, 1, 0, 0, 0⟩ [1, 1]
    let run := fun sweep n =>
      ((Scheduler.ofProgram (.blank []) {} program).roundsWith sweep course n).1.pool
    Journal.Still {} (.blank []) ∧ program.refFree ∧
    ((run World.sweep 7).world.heap 0).size = 1 ∧ ((run World.skip 7).world.heap 0).size = 2 ∧
    ∀ n, (run World.skip n).active = (run World.sweep n).active ∧
      (run World.skip n).retired = (run World.sweep n).retired ∧
      ∀ a : Nat,
        ((run World.sweep n).world.heap 0).Reach (HeldOn (run World.sweep n).active 0) a →
        ((run World.skip n).world.heap 0).cells[a]? =
          ((run World.sweep n).world.heap 0).cells[a]? := by
  intro program course run
  have still : Journal.Still {} (.blank []) := fun _ _ => rfl
  have free : program.refFree := by decide
  refine ⟨still, free, by decide +kernel, by decide +kernel, fun n => ?_⟩
  obtain ⟨active, retired, -, -, heaps⟩ :=
    collection_unobservable (.blank []) {} still course course (fun _ => rfl) program free n
  exact ⟨active, retired, fun a reached => (heaps 0).2.2 a (.inl reached)⟩

end Lockstep

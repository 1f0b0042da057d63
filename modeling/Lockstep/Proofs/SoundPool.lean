import Lockstep.Proofs.Collection
import Lockstep.Proofs.Interleaving
import Lockstep.Proofs.SoundInquiry

/-!
References in a run.

In a run of a program without reference constants, every reference that a variable or a live cell holds
is null or refers to a live cell that holds a value of the type that the reference carries. Every single
operation of a thread keeps this for all threads, since heaps only grow in it, and what other threads have
found out by then stays sound. A collection keeps it because it discards nothing that a reference of a kept
cell or of a variable refers to. The only missing address that a thread of such a run can fail on is null.
-/

namespace Lockstep

/-- What is sound in a heap of `w` is sound in the same heap of `w'`. -/
def World.Grows (w w' : World) : Prop :=
  ∀ n, (w.heap n).Grows (w'.heap n)

/-- The variables hold sound values, nothing left to run has reference constants, and the thread did not
fail on an address other than null. -/
structure Thread.SoundIn (w : World) (t : Thread) : Prop where
  symbols : t.symbols.SoundIn (w.heap t.heap)
  stack : ∀ s ∈ t.stack, s.refFree
  status : ∀ e, t.status = .failed e → e.Sound

structure World.Sound (w : World) (threads : List Thread) : Prop where
  heaps : ∀ n, (w.heap n).Sound
  threads : ∀ t ∈ threads, t.SoundIn w

theorem World.Grows.refl (w : World) : w.Grows w :=
  fun n => .refl (w.heap n)

theorem Thread.SoundIn.mono {w w' : World} (grows : w.Grows w') {t : Thread} (sound : t.SoundIn w) :
    t.SoundIn w' :=
  ⟨sound.symbols.mono (grows t.heap), sound.stack, sound.status⟩

/-! ### A step of one thread -/

/-- What a step comes to is sound: the heap has grown, and the thread and what it starts fit it. -/
structure Thread.Step.Sound (h : Heap) (t : Thread) (r : Thread.Step) : Prop where
  heap : r.heap.Sound
  grows : h.Grows r.heap
  place : r.thread.heap = t.heap
  symbols : r.thread.symbols.SoundIn r.heap
  stack : ∀ s ∈ r.thread.stack, s.refFree
  status : ∀ e, r.thread.status = .failed e → t.status = .failed e
  result : Yields (fun spawn => ∀ c, spawn = some c → c.body.refFree ∧ c.symbols.SoundIn r.heap)
    r.result

theorem Thread.stepBy_sound {ν : Valuation} (disk : Disk) {h : Heap} {t : Thread} (heap : h.Sound)
    (values : ν.SoundIn h) (symbols : t.symbols.SoundIn h) (stack : ∀ s ∈ t.stack, s.refFree) :
    (t.stepBy ν disk h).Sound h t := by
  simp only [stepBy]
  split
  next s rest running top =>
    -- the statement that is popped has no reference constants, nor have those below it
    rw [top] at stack
    have store : (t.store h).Sound := ⟨heap, symbols⟩
    obtain ⟨leads, yields⟩ := Stmt.execBy_sound disk store values (stack s List.mem_cons_self)
    have left : ∀ s ∈ rest, s.refFree := fun s member => stack s (List.mem_cons_of_mem _ member)
    rcases executed : s.execBy ν disk (t.store h) with ⟨σ, e | effect⟩
    · rw [executed] at leads yields
      exact ⟨leads.sound.heap, leads.grows, rfl, leads.sound.symbols, left, fun _ failed => failed,
        yields⟩
    · rw [executed] at leads yields
      have later : ∀ s ∈ effect.push ++ rest, s.refFree := by
        intro s member
        rcases List.mem_append.mp member with pushed | old
        · exact yields.push s pushed
        · exact left s old
      have started : ∀ c, effect.spawn = some c → c.body.refFree ∧ c.symbols.SoundIn σ.heap := by
        intro c spawned
        obtain ⟨body, same⟩ := yields.spawn c spawned
        exact ⟨body, same ▸ leads.sound.symbols⟩
      -- whether the stack is empty now only decides between the statuses running and completed
      refine ⟨leads.sound.heap, leads.grows, ?_, ?_, ?_, ?_, started⟩ <;> dsimp only <;> split
      · rfl
      · rfl
      · exact leads.sound.symbols
      · exact leads.sound.symbols
      · exact later
      · exact later
      · intro e failed
        cases failed
      · exact fun _ failed => failed
  · refine ⟨heap, .refl h, rfl, symbols, stack, fun _ failed => failed, ?_⟩
    simp [Yields, Fault.Sound, Fault.nothingToRun]

/-! ### Steps of all threads -/

/-- A thread after a step and the thread that it started fit the world. -/
structure World.Fits (w : World) (r : Thread × Except Fault (Option Thread)) : Prop where
  thread : r.1.SoundIn w
  result : Yields (fun child => ∀ t, child = some t → t.SoundIn w) r.2

/-- A thread that is being stepped fits the world, and so does what it has found out. -/
def Job.SoundIn (w : World) : Job → Prop
  | reading t q => t.SoundIn w ∧ q.SoundIn (w.heap t.heap)
  | ended outcome => w.Fits outcome

structure Phase.Sound (f : Phase) : Prop where
  heaps : ∀ n, (f.world.heap n).Sound
  jobs : ∀ j ∈ f.jobs, j.SoundIn f.world

variable {w w' : World}

theorem World.Fits.mono (grows : w.Grows w') {r : Thread × Except Fault (Option Thread)}
    (fits : w.Fits r) : w'.Fits r := by
  refine ⟨fits.thread.mono grows, ?_⟩
  have result := fits.result
  cases answer : r.2 with
  | error e => exact result.of_error answer
  | ok child => exact fun t started => (result.of_ok answer t started).mono grows

/-- Whatever others do meanwhile does not harm. -/
theorem Job.SoundIn.mono (grows : w.Grows w') {j : Job} (sound : j.SoundIn w) : j.SoundIn w' := by
  cases j with
  | reading t q => exact ⟨sound.1.mono grows, sound.2.mono (grows t.heap)⟩
  | ended outcome => exact World.Fits.mono grows sound

namespace World

/-- A step keeps the heaps sound, whatever the other threads are. -/
theorem stepBy_sound {ν : Valuation} (disk : Disk) {t : Thread} (heaps : ∀ n, (w.heap n).Sound)
    (values : ν.SoundIn (w.heap t.heap)) (sound : t.SoundIn w) :
    (∀ n, ((w.stepBy ν disk t).1.heap n).Sound) ∧ w.Grows (w.stepBy ν disk t).1 ∧
      (w.stepBy ν disk t).1.Fits (w.stepBy ν disk t).2 := by
  have stepped := Thread.stepBy_sound disk (heaps t.heap) values sound.symbols sound.stack
  have here : (w.stepBy ν disk t).1.heap t.heap = (t.stepBy ν disk (w.heap t.heap)).heap := by
    rw [heap_stepBy, if_pos rfl]
  refine ⟨?_, ?_, ?_⟩
  · intro n
    rw [heap_stepBy]
    split
    · exact stepped.heap
    · exact heaps n
  · intro n
    rw [heap_stepBy]
    split
    next same => exact same ▸ stepped.grows
    · exact .refl _
  · rw [stepBy_snd]
    refine ⟨⟨?_, stepped.stack, fun e failed => sound.status e (stepped.status e failed)⟩, ?_⟩
    · rw [stepped.place, here]
      exact stepped.symbols
    · refine stepped.result.map fun spawn fits child started => ?_
      obtain ⟨c, rfl, rfl⟩ := Option.map_eq_some_iff.mp started
      -- the child has a copy of the variables and works on the heap of its parent
      obtain ⟨body, symbols⟩ := fits c rfl
      refine ⟨?_, by simpa [Thread.start] using body, by simp [Thread.start]⟩
      exact here ▸ symbols

/-- An operation of a thread keeps the heaps sound, whatever the other threads are. -/
theorem act_sound (disk : Disk) {j : Job} (heaps : ∀ n, (w.heap n).Sound) (sound : j.SoundIn w) :
    (∀ n, ((w.act disk j).1.heap n).Sound) ∧ w.Grows (w.act disk j).1 ∧
      (w.act disk j).2.SoundIn (w.act disk j).1 := by
  cases j with
  | ended outcome => exact ⟨heaps, .refl w, sound⟩
  | reading t q =>
    obtain ⟨thread, inquiry⟩ := sound
    cases q with
    | look a next => exact ⟨heaps, .refl w, thread, inquiry.look (heaps t.heap)⟩
    | answer r => exact stepBy_sound disk heaps (fun _ _ => inquiry) thread

end World

namespace Phase

variable {f : Phase}

theorem Sound.turn (disk : Disk) (sound : f.Sound) (place : Nat) : (f.turn disk place).Sound := by
  cases here : f.jobs[place]? with
  | none => rwa [turn_of_none disk here]
  | some j =>
    obtain ⟨heaps, grows, acted⟩ :=
      World.act_sound disk sound.heaps (sound.jobs j (List.mem_of_getElem? here))
    rw [turn_of_some disk here]
    refine ⟨heaps, fun i member => ?_⟩
    rcases List.mem_or_eq_of_mem_set member with other | rfl
    · exact (sound.jobs i other).mono grows
    · exact acted

theorem Sound.start {threads : List Thread} (sound : w.Sound threads) : (Phase.start w threads).Sound := by
  refine ⟨sound.heaps, fun j member => ?_⟩
  obtain ⟨t, listed, rfl⟩ := List.mem_map.mp member
  have thread := sound.threads t listed
  exact ⟨thread, t.inquiry_soundIn (sound.heaps t.heap) thread.symbols thread.stack⟩

end Phase

namespace World

theorem stepTogether_sound (disk : Disk) (order : List Nat) {threads : List Thread}
    (sound : w.Sound threads) :
    (∀ n, ((w.stepTogether disk order threads).1.heap n).Sound) ∧
      ∀ r ∈ (w.stepTogether disk order threads).2, (w.stepTogether disk order threads).1.Fits r := by
  have ends := stepTogether_invariant (P := Phase.Sound) (fun f place kept => kept.turn disk place) order
    (.start sound)
  exact ⟨ends.heaps, fun r member => ends.jobs _ (List.mem_map_of_mem member)⟩

/-! ### Collections -/

/-- A value stays sound in a collection if what it refers to is reachable. -/
theorem soundIn_sweep {threads : List Thread} {n : Nat} (used : n ∈ threads.map Thread.heap)
    {v : Value} (sound : v.SoundIn (w.heap n))
    (reached : ∀ a, v.address? = some a → (w.heap n).Reach (HeldOn threads n) a) :
    v.SoundIn ((w.sweep threads).heap n) := by
  cases v with
  | ref a t =>
    rcases sound with null | ⟨u, found, type⟩
    · exact .inl null
    · exact .inr ⟨u, (w.cells_collect used a u).mpr ⟨found, reached a rfl⟩, type⟩
  | _ => trivial

theorem sweep_sound {threads : List Thread} (sound : w.Sound threads) :
    (w.sweep threads).Sound threads where
  heaps n := by
    have before := sound.heaps n
    by_cases used : n ∈ threads.map Thread.heap
    · have old (a : Nat) (live : a ∈ ((w.sweep threads).heap n).cells) : a ∈ (w.heap n).cells := by
        obtain ⟨v, found⟩ := Heap.mem_cells_iff.mp live
        exact Heap.mem_cells_iff.mpr ⟨v, w.cells_sweep_sub threads n a v found⟩
      have next : ((w.sweep threads).heap n).next = (w.heap n).next := w.next_collect threads n
      refine ⟨fun live => before.null (old 0 live), next ▸ before.next_pos, ?_, ?_⟩
      · intro a live
        rw [next]
        exact before.below a (old a live)
      · -- a kept cell is reachable, so what it refers to is reachable too
        intro a v found
        obtain ⟨cell, reached⟩ := (w.cells_collect used a v).mp found
        apply soundIn_sweep used (before.cells a v cell)
        intro b link
        exact reached.step (by simp [Heap.target?, cell, link])
    · rw [sweep, heap_collect, if_neg used]
      exact before
  threads t member := by
    have here := sound.threads t member
    have used : t.heap ∈ threads.map Thread.heap := List.mem_map_of_mem member
    refine ⟨?_, here.stack, here.status⟩
    -- what a variable refers to is a root
    intro x v bound
    apply soundIn_sweep used (here.symbols x v bound)
    intro a link
    obtain ⟨target, rfl⟩ := Value.address?_eq_some_iff.mp link
    exact .root ⟨t, member, rfl, x, target, bound⟩

end World

/-! ### Rounds -/

theorem World.Fits.settle {r : Thread × Except Fault (Option Thread)} (fits : w.Fits r) :
    (Pool.settle r).SoundIn w := by
  have thread := fits.thread
  cases answer : r.2 with
  | ok child => simpa [Pool.settle, answer] using thread
  | error e =>
    have failed : Pool.settle r = r.1.fail e := by simp [Pool.settle, answer]
    rw [failed]
    refine ⟨thread.symbols, thread.stack, ?_⟩
    rintro _ ⟨⟩
    exact fits.result.of_error answer

theorem World.Fits.child {r : Thread × Except Fault (Option Thread)} (fits : w.Fits r)
    {t : Thread} (started : Pool.child? r = some t) : t.SoundIn w := by
  cases answer : r.2 with
  | ok child =>
    have same : child = some t := by simpa [Pool.child?, answer] using started
    exact fits.result.of_ok answer t same
  | error e => simp [Pool.child?, answer] at started

theorem Job.SoundIn.thread {j : Job} (sound : j.SoundIn w) : j.thread.SoundIn w := by
  cases j with
  | reading t q => exact sound.1
  | ended outcome => exact World.Fits.thread sound

theorem Job.SoundIn.child {j : Job} (sound : j.SoundIn w) {t : Thread} (started : j.child? = some t) :
    t.SoundIn w := by
  cases j with
  | reading u q => cases started
  | ended outcome => exact World.Fits.child sound started

namespace Pool

structure Sound (p : Pool) : Prop where
  world : p.world.Sound p.active
  retired : ∀ t ∈ p.retired, ∀ e, t.status = .failed e → e.Sound

variable {p : Pool}

theorem Sound.retire (sound : p.Sound) : p.retire.Sound where
  world := ⟨sound.world.heaps, fun t member => sound.world.threads t (List.mem_filter.mp member).1⟩
  retired t member := by
    rcases List.mem_append.mp member with old | ended
    · exact sound.retired t old
    · exact (sound.world.threads t (List.mem_filter.mp ended).1).status

theorem Sound.openRound (sound : p.Sound) : (p.openRound World.sweep).Sound :=
  ⟨World.sweep_sound sound.world, sound.retired⟩

theorem Sound.stepAll (disk : Disk) (order : List Nat) (sound : p.Sound) :
    (p.stepAll disk order).1.Sound := by
  obtain ⟨heaps, fits⟩ := World.stepTogether_sound disk order sound.world
  refine ⟨⟨heaps, fun t member => ?_⟩, sound.retired⟩
  -- a thread of the new list was stepped or has just been started
  rcases List.mem_append.mp member with settled | started
  · obtain ⟨r, listed, rfl⟩ := List.mem_map.mp settled
    exact (fits r listed).settle
  · obtain ⟨r, listed, child⟩ := List.mem_filterMap.mp started
    exact (fits r listed).child child

theorem Sound.advance (disk : Disk) (order : List Nat) (sound : p.Sound) :
    (p.advance World.sweep disk order).1.Sound := by
  simp only [Pool.advance]
  split
  · exact sound.retire
  · exact (sound.retire.openRound.stepAll disk order).retire

/-- A pool that is sound at the start of a round is sound all through it. -/
theorem Sound.moment {disk : Disk} {w : World} {threads : List Thread} (sound : p.Sound)
    (moment : p.Moment World.sweep disk w threads) : w.Sound threads := by
  cases moment with
  | start => exact sound.world
  | opened => exact sound.retire.world
  | during operations =>
    have now : (p.during World.sweep disk operations).Sound :=
      Phase.run_invariant (P := Phase.Sound) (fun f place kept => kept.turn disk place)
        (.start sound.retire.openRound.world) operations
    refine ⟨now.heaps, fun t member => ?_⟩
    rcases List.mem_append.mp member with stepped | started
    · obtain ⟨j, listed, rfl⟩ := List.mem_map.mp stepped
      exact (now.jobs j listed).thread
    · obtain ⟨j, listed, child⟩ := List.mem_filterMap.mp started
      exact (now.jobs j listed).child child
  | joined order => exact (sound.retire.openRound.stepAll disk order).world
  | closed order => exact (sound.advance disk order).world

end Pool

/-! ### Runs -/

theorem Heap.sound_empty : Heap.Sound {} where
  null := by simp
  next_pos := Nat.one_pos
  below := by simp
  cells := by simp

theorem Scheduler.ofProgram_sound (disk : Disk) (journal : Journal) {program : Stmt}
    (free : program.refFree) : (ofProgram disk journal program).pool.Sound where
  world := by
    refine ⟨fun n => ?_, fun t member => ?_⟩
    · rw [heap_ofProgram]
      exact Heap.sound_empty
    · rw [active_ofProgram, List.mem_singleton] at member
      subst member
      refine ⟨?_, by simpa [Thread.start] using free, by simp [Thread.start]⟩
      intro x v bound
      simp [Thread.start] at bound
  retired := by simp [ofProgram]

theorem Scheduler.roundsWith_sound (disk : Disk) (journal : Journal) (course : Nat → Course)
    {program : Stmt} (free : program.refFree) (n : Nat) :
    ((ofProgram disk journal program).roundsWith World.sweep course n).1.pool.Sound :=
  roundsWith_invariant World.sweep (fun disk order _ sound => Pool.Sound.advance disk order sound) course
    (ofProgram_sound disk journal free) n

/-- In a run of a program without reference constants, in whatever order its threads get on, at the start of
each round, before and after its collection, between any two operations of its threads and at its end: null is
not live, and a reference that a variable of an existing thread or a live cell holds is null or refers to a
live cell of the same heap, which holds a value of exactly the type that the reference carries. Hence no
thread ends for want of a cell at an address other than null. -/
theorem references_sound (disk : Disk) (journal : Journal) (course : Nat → Course) {program : Stmt}
    (free : program.refFree) (n : Nat) :
    let p := ((Scheduler.ofProgram disk journal program).roundsWith World.sweep course n).1.pool
    (∀ (disk' : Disk) (w : World) (threads : List Thread), p.Moment World.sweep disk' w threads →
      (∀ k, 0 ∉ (w.heap k).cells) ∧
      (∀ t ∈ threads, ∀ (x : String) (a : Nat) (target : Ty),
        t.symbols[x]? = some (.ref a target) →
          a = 0 ∨ ∃ v, (w.heap t.heap).cells[a]? = some v ∧ v.ty = target) ∧
      ∀ (k b a : Nat) (target : Ty), (w.heap k).cells[b]? = some (.ref a target) →
        a = 0 ∨ ∃ v, (w.heap k).cells[a]? = some v ∧ v.ty = target) ∧
    ∀ t ∈ p.retired, ∀ a, t.status = .failed (.invalidAddress a) → a = 0 := by
  intro p
  have sound : p.Sound := Scheduler.roundsWith_sound disk journal course free n
  refine ⟨fun disk' w threads moment => ?_, fun t ended a failed => ?_⟩
  · have there := sound.moment moment
    refine ⟨fun k => (there.heaps k).null, ?_, ?_⟩
    · intro t member x a target bound
      exact (there.threads t member).symbols x _ bound
    · intro k b a target cell
      exact (there.heaps k).cells b _ cell
  · exact sound.retired t ended _ failed a rfl

/-- A program with a reference to a reference that two threads share, which ends by writing to null. While the
second thread finds out what to write, the first one gets on. -/
theorem references_sound_null_write :
    let program : Stmt := .ofList [.declare "x" (.ref .int), .declare "r" (.ref (.ref .int)),
      .alloc "x" (.int 5), .alloc "r" (.var "x"), .fork (.write "x" (.read (.read (.var "r")))),
      .declare "n" (.ref .int), .write "n" (.int 1)]
    let course := fun _ => Course.smooth ⟨2024, 1, 1, 0, 0, 0⟩ [1, 1, 0]
    let p := ((Scheduler.ofProgram (.blank []) {} program).roundsWith World.sweep course 13).1.pool
    program.refFree ∧ p.retired.map (·.status) = [.completed, .failed (.invalidAddress 0)] ∧
    (∀ t ∈ p.retired, ∀ a, t.status = .failed (.invalidAddress a) → a = 0) ∧
    ∀ (b a : Nat) (target : Ty), (p.world.heap 0).cells[b]? = some (.ref a target) →
      a = 0 ∨ ∃ v, (p.world.heap 0).cells[a]? = some v ∧ v.ty = target := by
  intro program course p
  have free : program.refFree := by decide
  obtain ⟨moments, ended⟩ := references_sound (.blank []) {} course free 13
  obtain ⟨-, -, cells⟩ := moments (.blank []) p.world p.active .start
  exact ⟨free, by decide +kernel, ended, cells 0⟩

end Lockstep

import Lockstep.Proofs.Census
import Lockstep.Proofs.Isolation
import Lockstep.Proofs.Registers

/-!
The journal only looks on.

All that a journal does to a disk is to put one file there, or to write to it, whether all of a record gets
there or not. A thread that opens no name of this file does not read from it. If the file is new, there is one
more thing that shows: a name that leads through its place is refused because there is nothing before the file
is there, and because it is no directory afterwards. Where no thread opens such a name either, two runs with
different journals go through the same states, if their threads get on in the same order.
-/

namespace Lockstep

/-! ### Names that do not lead to a file -/

namespace Disk

variable {d : Disk} {p : Place}

/-- A name that neither denotes the file at `p` nor, if this file does not exist yet, leads through its
place: it does not come to `p` with all its components, or with some of them. -/
def Avoids (d : Disk) (p : Place) (name : String) : Prop :=
  checkName name = .ok () → ∀ way, way <+: components name → (p ∈ d.nodes → way = components name) →
    (d.setFile p .empty).walk (d.origin name) way ≠ .ok p

instance (d : Disk) (p : Place) (name : String) : Decidable (d.Avoids p name) :=
  decidable_of_iff
    (checkName name = .ok () → ∀ way ∈ (components name).inits, (p ∈ d.nodes → way = components name) →
      (d.setFile p .empty).walk (d.origin name) way ≠ .ok p)
    (by simp only [Avoids, List.mem_inits])

theorem walk_setFile_congr (content bytes : ByteArray) (here : Place) (cs : List String) :
    (d.setFile p bytes).walk here cs = (d.setFile p content).walk here cs := by
  apply walk_congr
  · intro q
    simp only [isDirectory, getElem?_setFile]
    by_cases same : p = q
    · simp only [if_pos same]
    · simp only [if_neg same]
  · intro q
    rw [mem_setFile, mem_setFile]

theorem walk_setFile_of_mem {content : ByteArray} (based : d.base? p = some content) (there : p ∈ d.nodes)
    (bytes : ByteArray) (here : Place) (cs : List String) :
    (d.setFile p bytes).walk here cs = d.walk here cs := by
  apply walk_congr (isDirectory_setFile based bytes)
  intro q
  rw [mem_setFile]
  constructor
  · rintro (rfl | member)
    · exact there
    · exact member
  · exact .inr

theorem enter_setFile {content : ByteArray} (based : d.base? p = some content) {bytes : ByteArray}
    {here : Place} {c : String} (around : (d.setFile p bytes).enter here c ≠ .ok p) :
    (d.setFile p bytes).enter here c = d.enter here c := by
  simp only [enter, isDirectory_setFile based, mem_setFile] at around ⊢
  by_cases next : p = here ++ [c]
  · -- a component that does not stand for a place below is looked up nowhere
    simp only [← next, true_or, if_true] at around ⊢
    split_ifs at around ⊢ <;> simp_all
  · simp only [next, false_or]

/-- A file that no part of a walk comes to makes no difference to the walk. -/
theorem walk_setFile_of_way {content : ByteArray} (based : d.base? p = some content) {bytes : ByteArray}
    {here : Place} {cs : List String}
    (around : ∀ way, way <+: cs → (d.setFile p bytes).walk here way ≠ .ok p) :
    (d.setFile p bytes).walk here cs = d.walk here cs := by
  induction cs generalizing here with
  | nil => rfl
  | cons c rest ih =>
    have onward (way : List String) (sub : way <+: rest) :=
      around (c :: way) (List.cons_prefix_cons.mpr ⟨rfl, sub⟩)
    have entered : (d.setFile p bytes).enter here c = d.enter here c := by
      apply enter_setFile based
      intro reached
      apply onward [] List.nil_prefix
      rw [walk_cons, reached]
      rfl
    simp only [walk_cons, entered] at onward ⊢
    cases next : d.enter here c with
    | error e => rfl
    | ok place =>
      rw [next] at onward
      exact ih onward

theorem resolve_setFile {content : ByteArray} (based : d.base? p = some content) {name : String}
    (avoids : d.Avoids p name) (bytes : ByteArray) : (d.setFile p bytes).resolve name = d.resolve name := by
  cases named : checkName name with
  | error e => simp [resolve, named, bind, Except.bind]
  | ok u =>
    have origin : (d.setFile p bytes).origin name = d.origin name := rfl
    have walked : (d.setFile p bytes).walk (d.origin name) (components name) =
        d.walk (d.origin name) (components name) := by
      -- only a new file can change where a name leads
      by_cases there : p ∈ d.nodes
      · exact walk_setFile_of_mem based there bytes _ _
      · apply walk_setFile_of_way based
        intro way sub
        rw [walk_setFile_congr .empty bytes]
        exact avoids named way sub fun member => absurd member there
    simp only [resolve, named, bind, Except.bind, origin, walked]

theorem resolve_ne_of_avoids {content : ByteArray} (based : d.base? p = some content) {name : String}
    (avoids : d.Avoids p name) : d.resolve name ≠ .ok p := by
  rw [← resolve_setFile based avoids .empty]
  cases named : checkName name with
  | error e => simp [resolve, named, bind, Except.bind]
  | ok u =>
    have whole := avoids named _ (List.prefix_refl _) fun _ => rfl
    simpa [resolve, named, bind, Except.bind, origin] using whole

end Disk

/-! ### Disks with a log -/

namespace Disk

/-- The place of the log with the given path name, if there is a log and it can be written to. -/
def logPlace? (d : Disk) (logPath : Option String) : Option Place :=
  logPath.bind fun path => (d.target path).toOption.map Prod.fst

/-- How a disk can come to stand when nothing is written but a log. -/
inductive Grown (d : Disk) (logPath : Option String) : Disk → Prop where
  | unchanged : Grown d logPath d
  | written {p : Place} (found : d.logPlace? logPath = some p) (content : ByteArray) :
    Grown d logPath (d.setFile p content)

variable {d d' : Disk} {logPath : Option String} {p : Place}

theorem logPlace?_of_target {path : String} {content : ByteArray}
    (found : d.target path = .ok (p, content)) : d.logPlace? (some path) = some p := by
  simp [logPlace?, found, Except.toOption]

theorem base_of_logPlace (found : d.logPlace? logPath = some p) : ∃ content, d.base? p = some content := by
  obtain ⟨path, -, found⟩ := Option.bind_eq_some_iff.mp found
  cases target : d.target path with
  | error e => simp [target, Except.toOption] at found
  | ok r =>
    simp only [target, Except.toOption, Option.map_some, Option.some.injEq] at found
    subst found
    exact ⟨r.2, base_of_target target⟩

theorem Grown.append {path : String} {bytes : ByteArray} (grown : d.Grown (some path) d')
    {d'' : Disk} (appended : d'.append path bytes = .ok d'') : d.Grown (some path) d'' := by
  cases found : d.target path with
  | error e =>
    -- a log that cannot be written to leaves the disk as it is
    cases grown with
    | unchanged => simp [append_of_no_target found] at appended
    | written there => simp [logPlace?, found, Except.toOption] at there
  | ok r =>
    have here := logPlace?_of_target found
    cases grown with
    | unchanged =>
      rw [(append_of_target found bytes).1, Except.ok.injEq] at appended
      subst appended
      exact .written here _
    | written there content =>
      -- the log has been found where it was, so one file is all that is ever written
      obtain rfl : r.1 = _ := Option.some.inj (here.symm.trans there)
      have target := target_setFile found content
      rw [(append_of_target target bytes).1, Except.ok.injEq, setFile_setFile] at appended
      subst appended
      exact .written here _

theorem Grown.log {j : Journal} (grown : d.Grown j.logPath d') (w : Writing) (x : Snapshot) :
    d.Grown j.logPath (j.log w d' x).1 := by
  simp only [Journal.log]
  cases path : j.logPath with
  | none => rwa [path] at grown
  | some name =>
    rw [path] at grown
    dsimp only
    split
    next appended => exact grown.append appended
    · exact grown

theorem Grown.logAll {j : Journal} (grown : d.Grown j.logPath d') (writings : Nat → Writing)
    (xs : List Snapshot) : d.Grown j.logPath (j.logAll writings d' xs).1 := by
  induction xs generalizing d' writings with
  | nil => exact grown
  | cons x xs ih => exact ih (grown.log (writings 0) x) _

/-- A name that avoids all of some logs. -/
def Clear (d : Disk) (logPaths : List (Option String)) (name : String) : Prop :=
  ∀ logPath ∈ logPaths, ∀ p ∈ d.logPlace? logPath, d.Avoids p name

/-- A place where none of some logs is. -/
def Spared (d : Disk) (logPaths : List (Option String)) (place : Place) : Prop :=
  ∀ logPath ∈ logPaths, d.logPlace? logPath ≠ some place

/-- Disks that are the same to those who keep away from some logs. -/
structure AgreeAside (d : Disk) (logPaths : List (Option String)) (d₁ d₂ : Disk) : Prop where
  resolve : ∀ name, d.Clear logPaths name → d₂.resolve name = d₁.resolve name
  nodes : ∀ place, d.Spared logPaths place → d₂.nodes[place]? = d₁.nodes[place]?

variable {logPaths : List (Option String)}

theorem Clear.spared {name : String} (clear : d.Clear logPaths name) {place : Place}
    (resolved : d.resolve name = .ok place) : d.Spared logPaths place := by
  intro logPath member found
  obtain ⟨content, based⟩ := base_of_logPlace found
  exact resolve_ne_of_avoids based (clear logPath member place found) resolved

theorem Grown.agreeAside (grown : d.Grown logPath d') (member : logPath ∈ logPaths) :
    d.AgreeAside logPaths d d' := by
  cases grown with
  | unchanged => exact ⟨fun _ _ => rfl, fun _ _ => rfl⟩
  | @written p found content =>
    constructor
    · intro name clear
      obtain ⟨old, based⟩ := base_of_logPlace found
      exact resolve_setFile based (clear logPath member p found) content
    · intro place spared
      rw [getElem?_setFile, if_neg]
      rintro rfl
      exact spared logPath member found

theorem Grown.agree {d₁ d₂ : Disk} {logPath₁ logPath₂ : Option String} (grown₁ : d.Grown logPath₁ d₁)
    (grown₂ : d.Grown logPath₂ d₂) : d.AgreeAside [logPath₁, logPath₂] d₁ d₂ := by
  have first : d.AgreeAside [logPath₁, logPath₂] d d₁ := grown₁.agreeAside (by simp)
  have second : d.AgreeAside [logPath₁, logPath₂] d d₂ := grown₂.agreeAside (by simp)
  constructor
  · intro name clear
    rw [second.resolve name clear, first.resolve name clear]
  · intro place spared
    rw [second.nodes place spared, first.nodes place spared]

end Disk

/-! ### What threads open -/

/-- The name of the file that a thread is to open with its next step. -/
def Thread.opening? (ν : Valuation) (t : Thread) : Option String :=
  match t.status, t.stack with
  | .running, .openFile f :: _ => (ν.fileName f).toOption
  | _, _ => none

namespace Job

/-- The name of the file that a thread opens with its next operation. -/
def opening? : Job → Option String
  | reading t (.answer r) => t.opening? fun _ => r
  | _ => none

/-- The name of the file that a thread opens if nobody interrupts it any more. -/
def lastOpening? (w : World) : Job → Option String
  | reading t q => t.opening? fun _ => q.on (w.heap t.heap)
  | ended _ => none

end Job

/-- The names of the files that threads open when they come to the end of their steps one after another. -/
def World.lastOpenings (disk : Disk) (w : World) : List Job → List String
  | [] => []
  | j :: js => (j.lastOpening? w).toList ++ (w.finish disk j).1.lastOpenings disk js

/-- The names of the files that threads open, with their operations in the given order. -/
def Phase.openings (disk : Disk) (f : Phase) : List Nat → List String
  | [] => f.world.lastOpenings disk f.jobs
  | place :: rest => (f.jobs[place]?.bind Job.opening?).toList ++ (f.turn disk place).openings disk rest

/-- The names of the files that threads open in the round that follows `k` others, or try to. -/
def Scheduler.openings (course : Nat → Course) (s : Scheduler) (k : Nat) : List String :=
  (s.during course k []).openings (s.diskAt course k) (course k).order

/-! ### Where open files come from -/

/-- A file that is open after a statement was open under this name before, or has just been opened. -/
theorem Acts.place_of_opened {ν : Valuation} {disk : Disk} {σ σ' : Store} {s : Stmt} {o : Option Fault}
    (acts : Acts ν disk σ s σ' o) {name : String} {handle : Handle}
    (opened : σ'.files[name]? = some handle) :
    (∃ before, σ.files[name]? = some before ∧ before.place = handle.place) ∨
      ∃ f, s = .openFile f ∧ ν.fileName f = .ok name ∧ disk.resolve name = .ok handle.place := by
  have kept (file : String) (there : (σ.files.readLine disk file).1[name]? = some handle) :
      ∃ before, σ.files[name]? = some before ∧ before.place = handle.place := by
    have places := σ.files.samePlaces_readLine disk file name
    rw [there, Option.map_some] at places
    exact Option.map_eq_some_iff.mp places.symm
  cases acts with
  | @openFile f file files named there =>
    simp only [OpenFiles.openFile] at there
    split at there
    · cases there
    next new =>
      split at there
      next place resolved =>
        cases there
        rw [Std.ExtTreeMap.getElem?_insert] at opened
        simp only [Std.compare_eq_iff_eq] at opened
        split at opened
        next same =>
          cases opened
          exact .inr ⟨f, rfl, same ▸ named, same ▸ resolved⟩
        · exact .inl ⟨handle, opened, rfl⟩
      · cases there
  | @readInt f x file old n files line bound named read number =>
    exact .inl (kept file (by rw [read]; exact opened))
  | @readRefused f x file old files e bound named refused =>
    exact .inl (kept file (by rw [refused]; exact opened))
  | @readNoNumber f x file old files line e bound named read number =>
    exact .inl (kept file (by rw [read]; exact opened))
  | @closeFile f file files named closed =>
    simp only [OpenFiles.closeFile] at closed
    split at closed
    · cases closed
      simp only [Std.ExtTreeMap.getElem?_erase, Std.compare_eq_iff_eq] at opened
      split at opened
      · cases opened
      · exact .inl ⟨handle, opened, rfl⟩
    · cases closed
  | _ => exact .inl ⟨handle, opened, rfl⟩

theorem Stmt.place_of_opened (ν : Valuation) (disk : Disk) (σ : Store) (s : Stmt) {name : String}
    {handle : Handle} (opened : (s.execBy ν disk σ).1.files[name]? = some handle) :
    (∃ before, σ.files[name]? = some before ∧ before.place = handle.place) ∨
      ∃ f, s = .openFile f ∧ ν.fileName f = .ok name ∧ disk.resolve name = .ok handle.place := by
  by_cases simple : s.elementary
  · obtain ⟨σ', o, acts, executed⟩ := s.execBy_acts ν disk σ simple
    rw [executed] at opened
    exact acts.place_of_opened opened
  · rw [execBy_fst_of_not_elementary ν disk σ simple] at opened
    exact .inl ⟨handle, opened, rfl⟩

theorem Thread.place_of_opened (ν : Valuation) (disk : Disk) (h : Heap) (t : Thread) {name : String}
    {handle : Handle} (opened : (t.stepBy ν disk h).thread.files[name]? = some handle) :
    (∃ before, t.files[name]? = some before ∧ before.place = handle.place) ∨
      t.opening? ν = some name ∧ disk.resolve name = .ok handle.place := by
  simp only [stepBy] at opened
  split at opened
  next s rest running top =>
    have files : (s.execBy ν disk (t.store h)).1.files[name]? = some handle := by
      rcases executed : s.execBy ν disk (t.store h) with ⟨σ, e | effect⟩
      · simp only [executed] at opened
        exact opened
      · simp only [executed] at opened
        split at opened <;> exact opened
    rcases s.place_of_opened ν disk (t.store h) files with before | ⟨f, rfl, named, resolved⟩
    · exact .inl before
    · refine .inr ⟨?_, resolved⟩
      simp only [opening?, running, top, named, Except.toOption]
  · exact .inl ⟨handle, opened, rfl⟩

/-! ### Steps that keep away from logs -/

/-- No file that is open is one of some logs. -/
def OpenFiles.Aside (d : Disk) (logPaths : List (Option String)) (t : OpenFiles) : Prop :=
  t.Every fun handle => d.Spared logPaths handle.place

/-- No thread that is being stepped has one of some logs open. -/
def Phase.Aside (d : Disk) (logPaths : List (Option String)) (f : Phase) : Prop :=
  ∀ j ∈ f.jobs, j.thread.files.Aside d logPaths

section Steps

variable {d d₁ d₂ : Disk} {logPaths : List (Option String)} (grown : d.AgreeAside logPaths d d₁)
  (agree : d.AgreeAside logPaths d₁ d₂)

section Reading

include agree

theorem OpenFiles.Aside.readLine {t : OpenFiles} (aside : t.Aside d logPaths) (name : String) :
    t.readLine d₂ name = t.readLine d₁ name := by
  cases opened : t[name]? with
  | none => simp only [OpenFiles.readLine, opened]
  | some handle =>
    have same := agree.nodes handle.place (aside name handle opened)
    simp only [OpenFiles.readLine, opened, Disk.readFrom, same]

theorem Stmt.execBy_aside {ν : Valuation} {σ : Store} (aside : σ.files.Aside d logPaths) {s : Stmt}
    (clear : ∀ f name, s = .openFile f → ν.fileName f = .ok name → d.Clear logPaths name) :
    s.execBy ν d₂ σ = s.execBy ν d₁ σ := by
  cases s with
  | openFile f =>
    cases named : ν.fileName f with
    | error e => simp only [execBy, named]; rfl
    | ok name =>
      simp only [execBy, named, Fault.ok_bind, OpenFiles.openFile,
        agree.resolve name (clear f name rfl named)]
  | readInt f x => simp only [execBy, Store.readInt, aside.readLine agree]
  | _ => rfl

end Reading

include grown agree

/-- A step that opens no log is the same on both disks, and no log is open after it. -/
theorem Thread.stepBy_aside {ν : Valuation} {t : Thread} {h : Heap} (aside : t.files.Aside d logPaths)
    (clear : ∀ name, t.opening? ν = some name → d.Clear logPaths name) :
    t.stepBy ν d₂ h = t.stepBy ν d₁ h ∧ (t.stepBy ν d₁ h).thread.files.Aside d logPaths := by
  constructor
  · simp only [stepBy]
    split
    next s rest running top =>
      have store : (t.store h).files.Aside d logPaths := aside
      rw [Stmt.execBy_aside agree store]
      rintro f name rfl named
      apply clear name
      simp only [opening?, running, top, named, Except.toOption]
    · rfl
  · -- a file that stays open stays where it is, and one that is opened is no log
    intro name handle opened
    rcases t.place_of_opened ν d₁ h opened with ⟨old, there, same⟩ | ⟨opening, resolved⟩
    · rw [← same]
      exact aside name old there
    · have known := clear name opening
      rw [grown.resolve name known] at resolved
      exact known.spared resolved

namespace World

variable (w : World)

theorem stepBy_aside {ν : Valuation} {t : Thread} (aside : t.files.Aside d logPaths)
    (clear : ∀ name, t.opening? ν = some name → d.Clear logPaths name) :
    w.stepBy ν d₂ t = w.stepBy ν d₁ t ∧ (w.stepBy ν d₁ t).2.1.files.Aside d logPaths := by
  have stepped (h : Heap) := Thread.stepBy_aside (h := h) grown agree aside clear
  refine ⟨by simp only [stepBy, (stepped _).1], ?_⟩
  rw [stepBy_snd]
  exact (stepped _).2

theorem act_aside {j : Job} (aside : j.thread.files.Aside d logPaths)
    (clear : ∀ name ∈ j.opening?, d.Clear logPaths name) :
    w.act d₂ j = w.act d₁ j ∧ (w.act d₁ j).2.thread.files.Aside d logPaths := by
  cases j with
  | ended outcome => exact ⟨rfl, aside⟩
  | reading t q =>
    cases q with
    | look a next => exact ⟨rfl, aside⟩
    | answer r =>
      have stepped := w.stepBy_aside (t := t) grown agree aside clear
      exact ⟨by simp only [act, stepped.1], stepped.2⟩

theorem finish_aside {j : Job} (aside : j.thread.files.Aside d logPaths)
    (clear : ∀ name ∈ j.lastOpening? w, d.Clear logPaths name) :
    w.finish d₂ j = w.finish d₁ j ∧ (w.finish d₁ j).2.1.files.Aside d logPaths := by
  cases j with
  | ended outcome => exact ⟨rfl, aside⟩
  | reading t q => exact w.stepBy_aside grown agree aside clear

theorem finishAll_aside {jobs : List Job} (aside : ∀ j ∈ jobs, j.thread.files.Aside d logPaths)
    (clear : ∀ name ∈ w.lastOpenings d₁ jobs, d.Clear logPaths name) :
    w.finishAll d₂ jobs = w.finishAll d₁ jobs ∧
      ∀ r ∈ (w.finishAll d₁ jobs).2, r.1.files.Aside d logPaths := by
  induction jobs generalizing w with
  | nil => exact ⟨rfl, by simp [finishAll]⟩
  | cons j js ih =>
    obtain ⟨first, others⟩ := List.forall_mem_cons.mp aside
    simp only [lastOpenings, List.mem_append, Option.mem_toList] at clear
    obtain ⟨same, after⟩ := w.finish_aside grown agree first fun name opens => clear name (.inl opens)
    obtain ⟨rest, behind⟩ := ih (w.finish d₁ j).1 others fun name opens => clear name (.inr opens)
    simp only [finishAll, same, rest, List.forall_mem_cons]
    exact ⟨trivial, after, behind⟩

end World

/-- Operation by operation, threads that keep away from the logs do the same on both disks. -/
theorem Phase.turn_aside {f : Phase} {place : Nat} (aside : f.Aside d logPaths)
    (clear : ∀ name ∈ f.jobs[place]?.bind Job.opening?, d.Clear logPaths name) :
    f.turn d₂ place = f.turn d₁ place ∧ (f.turn d₁ place).Aside d logPaths := by
  cases here : f.jobs[place]? with
  | none =>
    rw [turn_of_none _ here, turn_of_none _ here]
    exact ⟨rfl, aside⟩
  | some j =>
    rw [here, Option.bind_some] at clear
    obtain ⟨same, after⟩ := f.world.act_aside grown agree (aside j (List.mem_of_getElem? here)) clear
    rw [turn_of_some _ here, turn_of_some _ here, same]
    refine ⟨rfl, fun k member => ?_⟩
    rcases List.mem_or_eq_of_mem_set member with old | rfl
    · exact aside k old
    · exact after

theorem Phase.run_aside {f : Phase} {order : List Nat} (aside : f.Aside d logPaths)
    (clear : ∀ name ∈ f.openings d₁ order, d.Clear logPaths name) :
    f.run d₂ order = f.run d₁ order ∧ (f.run d₁ order).Aside d logPaths ∧
      ∀ name ∈ (f.run d₁ order).openings d₁ [], d.Clear logPaths name := by
  induction order generalizing f with
  | nil => exact ⟨Eq.refl f, aside, clear⟩
  | cons place rest ih =>
    simp only [openings, List.mem_append, Option.mem_toList] at clear
    obtain ⟨same, after⟩ := f.turn_aside grown agree aside fun name opens => clear name (.inl opens)
    rw [run_cons, run_cons, same]
    exact ih after fun name opens => clear name (.inr opens)

theorem World.stepTogether_aside (w : World) {threads : List Thread} {order : List Nat}
    (aside : ∀ t ∈ threads, t.files.Aside d logPaths)
    (clear : ∀ name ∈ (Phase.start w threads).openings d₁ order, d.Clear logPaths name) :
    w.stepTogether d₂ order threads = w.stepTogether d₁ order threads ∧
      ∀ r ∈ (w.stepTogether d₁ order threads).2, r.1.files.Aside d logPaths := by
  have start : (Phase.start w threads).Aside d logPaths := by
    intro j member
    obtain ⟨t, listed, rfl⟩ := List.mem_map.mp member
    exact aside t listed
  obtain ⟨same, after, left⟩ := Phase.run_aside grown agree start clear
  simp only [stepTogether, same]
  exact World.finishAll_aside grown agree _ after left

end Steps

/-! ### Rounds -/

theorem Pool.advance_congr {p : Pool} {d d' : Disk} {order : List Nat}
    (same : (p.world.sweep p.retire.active).stepTogether d' order p.retire.active =
      (p.world.sweep p.retire.active).stepTogether d order p.retire.active) :
    p.advance World.sweep d' order = p.advance World.sweep d order := by
  have stepped : (p.retire.openRound World.sweep).stepAll d' order =
      (p.retire.openRound World.sweep).stepAll d order := by
    simp only [stepAll, openRound]
    rw [show p.retire.world = p.world from rfl, same]
  simp only [advance, stepped]

/-- Threads that have no log open after their steps have none open at the end of the round. -/
theorem Pool.aside_listed {p : Pool} {d₀ d : Disk} {order : List Nat} {logPaths : List (Option String)}
    (aside : ∀ r ∈ ((p.world.sweep p.retire.active).stepTogether d order p.retire.active).2,
      r.1.files.Aside d₀ logPaths) :
    ∀ t ∈ p.listed World.sweep d order, t.files.Aside d₀ logPaths := by
  intro t member
  rcases List.mem_append.mp member with settled | started
  · obtain ⟨u, turn, rfl⟩ := List.mem_map.mp settled
    have outcome := List.mem_map_of_mem (f := Turn.outcome) turn
    rw [turns, World.map_outcome_turns] at outcome
    have files : u.settled.files = u.outcome.1.files := by
      simp only [Turn.settled, settle]
      split <;> rfl
    rw [files]
    exact aside u.outcome outcome
  · -- a thread that was just started has no files open
    obtain ⟨u, turn, child⟩ := List.mem_filterMap.mp started
    obtain ⟨body, rest, -, same⟩ := (World.proper_of_mem_turns _ _ _ turn).child child
    rw [same]
    exact OpenFiles.Every.empty

namespace Scheduler

/-- Schedulers with the same pool and different logs, both of which have been written to the disk `d`, and
threads that have not opened either. -/
structure Beside (d : Disk) (s s' : Scheduler) : Prop where
  pool : s'.pool = s.pool
  left : d.Grown s.journal.logPath s.disk
  right : d.Grown s'.journal.logPath s'.disk
  aside : ∀ t ∈ s.pool.active, t.files.Aside d [s.journal.logPath, s'.journal.logPath]

theorem grown_roundDisk {d : Disk} {s : Scheduler} (grown : d.Grown s.journal.logPath s.disk)
    (c : Course) : d.Grown s.journal.logPath (s.roundDisk World.sweep c) := by
  rw [roundDisk_eq_logAll]
  exact grown.logAll c.early _

theorem grown_roundWith {d : Disk} {s : Scheduler} (grown : d.Grown s.journal.logPath s.disk)
    (c : Course) : d.Grown s.journal.logPath (s.roundWith World.sweep c).1.disk := by
  by_cases idle : s.pool.retire.active = []
  · rw [roundWith_of_idle _ _ idle]
    exact grown
  · obtain ⟨records, -, last⟩ := disk_roundWith World.sweep c idle
    rw [last]
    exact (grown_roundDisk grown c).logAll c.late records

theorem Beside.roundWith {d : Disk} {s s' : Scheduler} (beside : s.Beside d s') {c c' : Course}
    (order : c'.order = c.order)
    (clear : ∀ name ∈ (s.pool.during World.sweep (s.roundDisk World.sweep c) []).openings
      (s.roundDisk World.sweep c) c.order, d.Clear [s.journal.logPath, s'.journal.logPath] name) :
    (s.roundWith World.sweep c).1.Beside d (s'.roundWith World.sweep c').1 ∧
      (s'.roundWith World.sweep c').2 = (s.roundWith World.sweep c).2 := by
  have left := grown_roundDisk beside.left c
  have right := grown_roundDisk beside.right c'
  obtain ⟨stepped, after⟩ := World.stepTogether_aside (left.agreeAside (by simp)) (left.agree right)
    (s.pool.world.sweep s.pool.retire.active)
    (fun t member => beside.aside t (List.mem_filter.mp member).1) clear
  -- both rounds do the same to the pool
  have same : ((s'.roundWith World.sweep c').1.pool, (s'.roundWith World.sweep c').2) =
      ((s.roundWith World.sweep c).1.pool, (s.roundWith World.sweep c).2) := by
    rw [pool_roundWith, pool_roundWith, beside.pool, order, Pool.advance_congr stepped]
  obtain ⟨pool, answer⟩ := Prod.mk.inj same
  refine ⟨⟨pool, ?_, ?_, ?_⟩, answer⟩
  · rw [logPath_roundWith]
    exact grown_roundWith beside.left c
  · rw [logPath_roundWith]
    exact grown_roundWith beside.right c'
  · intro t member
    rw [active_roundWith] at member
    rw [logPath_roundWith, logPath_roundWith]
    exact Pool.aside_listed after t (List.mem_filter.mp member).1

/-- The journal only looks on. Give threads that have just been started to two schedulers which differ in
their journals: in where the log is, if there is one, if it can be opened and if the disk fails on the way
when records are written, and in the history and its budget. The threads of each round get on in the same
order, whatever it is. If no name that a thread opens denotes the log of either, or leads through the place of
a log that does not exist at the start, then the answers of the rounds are the same, and so are, after every
round, the number of rounds, the active and the retired threads and the heaps. -/
theorem journal_only_looks_on (s : Scheduler) (loaded : s.Loaded) (j : Journal)
    (course course' : Nat → Course) (orders : ∀ k, (course' k).order = (course k).order) (n : Nat)
    (avoids : ∀ k < n, ∀ name ∈ s.openings course k, ∀ logPath ∈ [s.journal.logPath, j.logPath],
      ∀ p ∈ s.disk.logPlace? logPath, s.disk.Avoids p name) :
    let s' : Scheduler := { s with journal := j }
    (s'.roundsWith World.sweep course' n).2 = (s.roundsWith World.sweep course n).2 ∧
    ∀ k ≤ n, (s'.after course' k).pool = (s.after course k).pool := by
  intro s'
  have run (k : Nat) (le : k ≤ n) : (s.after course k).Beside s.disk (s'.after course' k) ∧
      (s'.roundsWith World.sweep course' k).2 = (s.roundsWith World.sweep course k).2 := by
    induction k with
    | zero =>
      refine ⟨⟨rfl, .unchanged, .unchanged, fun t member => ?_⟩, rfl⟩
      rw [loaded.started t member]
      exact OpenFiles.Every.empty
    | succ k ih =>
      obtain ⟨beside, answers⟩ := ih (Nat.le_of_succ_le le)
      obtain ⟨next, answer⟩ := beside.roundWith (orders k) (by
        rw [logPath_after, logPath_after]
        exact avoids k le)
      refine ⟨next, ?_⟩
      simp only [roundsWith]
      rw [answers]
      exact congrArg (_ ++ [·]) answer
  exact ⟨(run n (Nat.le_refl n)).2, fun k le => (run k le).1.pool⟩

/-- A thread that prints the number in a file. In the one run there is a log, which does not exist at the
start and which the disk is too full to write to, so that there are but the first bytes of each record in it.
In the other one the directory of the log is missing, and the history has no room. -/
theorem journal_only_looks_on_reader :
    let program := Stmt.ofList [.openFile (.string "data"), .declare "x" .int,
      .readInt (.string "data") "x", .print (.var "x")]
    let disk := (Disk.blank []).put "data" (.file "7\n".toUTF8)
    let s := ofProgram disk { logPath := some "log" } program
    let s' : Scheduler := { s with journal := { logPath := some "missing/log", history := { limit := 0 } } }
    let noon : Stamp := ⟨2024, 1, 1, 12, 0, 0⟩
    let full : Writing := { stamp := noon, torn := some (3, "No space left on device (os error 28)") }
    let course := fun _ => { Course.smooth noon with early := fun _ => full, late := fun _ => full }
    let course' := fun _ => Course.smooth noon
    s.Loaded ∧ s.openings course 1 = ["data"] ∧
    disk.logPlace? (some "log") = some ["log"] ∧ disk.logPlace? (some "missing/log") = none ∧
    (s.after course 1).disk.content? "log" = some "202202".toUTF8 ∧
    (s'.after course' 8).pool = (s.after course 8).pool ∧
    (s'.after course' 8).pool.retired.map Thread.output = [[.int 7]] := by
  intro program disk s s' noon full course course'
  have loaded : s.Loaded := (fresh_ofProgram _ _ _).loaded
  have same := (journal_only_looks_on s loaded s'.journal course course' (fun _ => rfl) 8
    (by decide +kernel)).2 8 (by decide)
  refine ⟨loaded, by decide +kernel, by decide +kernel, by decide +kernel, by decide +kernel, same, ?_⟩
  rw [same]
  decide +kernel

/-- It is not enough that no name denotes the log. A thread that opens `log/x` fails in both of these runs,
and for another reason where a log is kept that did not exist before. -/
theorem journal_seen_on_the_way :
    let s := ofProgram (.blank []) {} (.openFile (.string "log/x"))
    let s' : Scheduler := { s with journal := { logPath := some "log" } }
    let course := fun _ => Course.smooth ⟨2024, 1, 1, 12, 0, 0⟩
    s.Loaded ∧
    (∀ k < 1, ∀ name ∈ s.openings course k ++ s'.openings course k, ∀ p ∈ s.disk.logPlace? (some "log"),
      (s.disk.setFile p .empty).resolve name ≠ .ok p) ∧
    (s.after course 1).pool.retired.map (·.status.text) =
      ["errored: File error on 'log/x': No such file or directory (os error 2)"] ∧
    (s'.after course 1).pool.retired.map (·.status.text) =
      ["errored: File error on 'log/x': Not a directory (os error 20)"] := by
  refine ⟨(fresh_ofProgram _ _ _).loaded, ?_, ?_, ?_⟩ <;> decide +kernel

end Scheduler

end Lockstep

import Lockstep.Journal
import Lockstep.Proofs.Printing
import Mathlib.Data.List.Forall2
import Mathlib.Data.List.Infix
import Mathlib.Tactic.MkIffOfInductiveProp

/-!
The log can be decoded in one way only.

A record has no lengths and no escapes in it. Each of its sections ends where the line stands that heads the
next one, so a section is safe if none of its own lines is that line. Cells and variables are, since their
lines have an arrow in them; statements and printed values are, since none of them looks like a heading or a
rule. A record is therefore known together with the place where it ends, and a log is read from its
beginning, record by record.
-/

namespace Lockstep

namespace Text

/-- There is no line feed in a text. -/
def IsLine (s : String) : Prop :=
  '\n' ∉ s.toList

instance (s : String) : Decidable (IsLine s) :=
  inferInstanceAs (Decidable ('\n' ∉ s.toList))

theorem IsLine.append {s t : String} (line : IsLine s) (line' : IsLine t) : IsLine (s ++ t) := by
  simpa [IsLine] using ⟨line, line'⟩

theorem isLine_repr (n : Nat) : IsLine n.repr :=
  not_mem_repr (by decide) n

/-- Lines are found again in the text that holds them. -/
theorem unlines_inj {ls ls' : List String} (lines : ∀ l ∈ ls, IsLine l) (lines' : ∀ l ∈ ls', IsLine l)
    (same : unlines ls = unlines ls') : ls = ls' := by
  -- each line ends at the first line feed; a text is empty only if it has no lines
  induction ls generalizing ls' with
  | nil =>
    cases ls' with
    | nil => rfl
    | cons l' rest' => simpa [unlines_cons, unlines] using congrArg String.toList same
  | cons l rest ih =>
    cases ls' with
    | nil => simpa [unlines_cons, unlines] using congrArg String.toList same
    | cons l' rest' =>
      obtain ⟨line, lines⟩ := List.forall_mem_cons.mp lines
      obtain ⟨line', lines'⟩ := List.forall_mem_cons.mp lines'
      have chars : l.toList ++ '\n' :: (unlines rest).toList =
          l'.toList ++ '\n' :: (unlines rest').toList := by
        simpa [unlines_cons] using congrArg String.toList same
      obtain ⟨first, behind⟩ := append_mark_inj line line' chars
      rw [String.toList_inj.mp first, ih lines lines' (String.toList_inj.mp behind)]

end Text

/-- A time is written on one line. -/
theorem Stamp.isLine_text (s : Stamp) : Text.IsLine s.text := by
  have figures (width n : Nat) : Text.IsLine (padded width n) := by
    refine Text.IsLine.append ?_ (Text.isLine_repr n)
    simp [Text.IsLine]
  have behind {before : String} (line : Text.IsLine before) (mark : String) (plain : Text.IsLine mark)
      (width n : Nat) : Text.IsLine (before ++ mark ++ padded width n) :=
    (line.append plain).append (figures width n)
  have date := behind (behind (figures 4 s.year) "/" (by decide) 2 s.month) "/" (by decide) 2 s.day
  exact behind (behind (behind date " " (by decide) 2 s.hour) ":" (by decide) 2 s.minute) ":" (by decide)
    2 s.second

namespace Text

/-! ### Entries -/

/-- There is no arrow in a text. -/
def NoArrow (s : String) : Prop :=
  ¬ ['-', '>'] <:+: s.toList

instance (s : String) : Decidable (NoArrow s) :=
  inferInstanceAs (Decidable (¬ ['-', '>'] <:+: s.toList))

/-- A line that gives a name and its value. -/
def entry (b : String × String) : String :=
  b.1 ++ " -> " ++ b.2

theorem noArrow_repr (n : Nat) : NoArrow n.repr := by
  intro arrow
  exact not_mem_repr (by decide) n (arrow.subset (List.mem_cons_self ..))

theorem entry_ne {b : String × String} {heading : String} (plain : '>' ∉ heading.toList) :
    entry b ≠ heading := by
  rintro rfl
  simp [entry] at plain

/-- The first arrow of a line is the one behind the name, so one name cannot go on where another ends. -/
theorem name_not_longer {name value value' tail : List Char} (clean : ¬ ['-', '>'] <:+: name ++ tail)
    (same : ' ' :: '-' :: '>' :: ' ' :: value = tail ++ ' ' :: '-' :: '>' :: ' ' :: value') : tail = [] := by
  cases tail with
  | nil => rfl
  | cons a tail =>
    -- the tail would have to begin with the blank and the arrow of the shorter line
    obtain ⟨rfl, arrow⟩ := List.cons.inj same
    cases tail with
    | nil => cases arrow
    | cons b tail =>
      obtain ⟨rfl, point⟩ := List.cons.inj arrow
      cases tail with
      | nil => cases point
      | cons c tail =>
        obtain ⟨rfl, -⟩ := List.cons.inj point
        exact absurd ⟨name ++ [' '], tail, by simp⟩ clean

theorem entry_inj {b b' : String × String} (clean : NoArrow b.1) (clean' : NoArrow b'.1)
    (same : entry b = entry b') : b = b' := by
  obtain ⟨x, v⟩ := b
  obtain ⟨y, w⟩ := b'
  have chars : x.toList ++ ' ' :: '-' :: '>' :: ' ' :: v.toList =
      y.toList ++ ' ' :: '-' :: '>' :: ' ' :: w.toList := by
    simpa [entry] using congrArg String.toList same
  -- whichever name is the longer one goes on into the line of the other
  have name : x.toList = y.toList := by
    rcases List.append_eq_append_iff.mp chars with ⟨tail, longer, rest⟩ | ⟨tail, longer, rest⟩
    · rw [NoArrow, longer] at clean'
      rw [longer, name_not_longer clean' rest, List.append_nil]
    · rw [NoArrow, longer] at clean
      rw [longer, name_not_longer clean rest, List.append_nil]
  have value : v.toList = w.toList := by simpa [name] using chars
  rw [String.toList_inj.mp name, String.toList_inj.mp value]

theorem entries_inj {bs bs' : List (String × String)} (clean : ∀ b ∈ bs, NoArrow b.1)
    (clean' : ∀ b ∈ bs', NoArrow b.1) (same : bs.map entry = bs'.map entry) : bs = bs' := by
  induction bs generalizing bs' with
  | nil => exact (List.map_eq_nil_iff.mp same.symm).symm
  | cons b rest ih =>
    cases bs' with
    | nil => cases same
    | cons b' rest' =>
      obtain ⟨head, tail⟩ := List.cons.inj same
      obtain ⟨first, clean⟩ := List.forall_mem_cons.mp clean
      obtain ⟨first', clean'⟩ := List.forall_mem_cons.mp clean'
      rw [entry_inj first first' head, ih clean clean' tail]

end Text

/-! ### Records -/

namespace Snapshot

open Text

/-- The line of a record that names the thread and its status. -/
def threadLine (s : Snapshot) : String :=
  "Thread " ++ s.id.repr ++ " (" ++ s.status ++ ")"

/-- The cells, with their addresses as names. -/
def namedCells (s : Snapshot) : List (String × String) :=
  s.heap.map fun c => (c.1.repr, c.2)

theorem recordLines_eq (stamp : String) (s : Snapshot) :
    s.recordLines stamp = stamp :: s.threadLine :: "Execution Stack:" :: (s.stack ++
      "Heap:" :: (s.namedCells.map entry ++
      "Symbol Table:" :: (s.symbols.map entry ++ "Output:" :: (s.output ++ [rule])))) := by
  simp only [recordLines, namedCells, List.map_map, List.append_assoc, List.cons_append, List.nil_append]
  rfl

theorem threadLine_inj {s s' : Snapshot} (same : s.threadLine = s'.threadLine) :
    s.id = s'.id ∧ s.status = s'.status := by
  have chars : s.id.repr.toList ++ ' ' :: '(' :: (s.status.toList ++ [')']) =
      s'.id.repr.toList ++ ' ' :: '(' :: (s'.status.toList ++ [')']) := by
    simpa [threadLine] using congrArg String.toList same
  -- the status may have brackets of its own, but the line ends with the bracket around it
  obtain ⟨id, behind⟩ := repr_mark_inj (by decide) chars
  exact ⟨id, String.toList_inj.mp (by simpa using behind)⟩

theorem namedCells_inj {s s' : Snapshot} (same : s.namedCells = s'.namedCells) : s.heap = s'.heap := by
  refine (List.map_inj_right ?_).mp same
  intro c c' named
  obtain ⟨address, value⟩ := Prod.mk.inj named
  exact Prod.ext (repr_inj.mp address) value

theorem noArrow_namedCells (s : Snapshot) : ∀ b ∈ s.namedCells, NoArrow b.1 := by
  intro b member
  obtain ⟨c, -, rfl⟩ := List.mem_map.mp member
  exact noArrow_repr c.1

/-- A snapshot whose record can be decoded: every text in the record is a line, and no text can be mistaken
for the end of the section or of the name that it stands in. -/
@[mk_iff]
structure Legible (s : Snapshot) : Prop where
  status : IsLine s.status
  stack : ∀ l ∈ s.stack, IsLine l ∧ l ≠ "Heap:"
  heap : ∀ c ∈ s.heap, IsLine c.2
  symbols : ∀ b ∈ s.symbols, IsLine b.1 ∧ NoArrow b.1 ∧ IsLine b.2
  output : ∀ l ∈ s.output, IsLine l ∧ l ≠ rule

instance (s : Snapshot) : Decidable s.Legible :=
  decidable_of_iff' _ (legible_iff s)

theorem Legible.isLine_recordLines {s : Snapshot} (legible : s.Legible) {stamp : String}
    (line : IsLine stamp) : ∀ l ∈ s.recordLines stamp, IsLine l := by
  have thread : IsLine s.threadLine :=
    (((IsLine.append (by decide) (isLine_repr s.id)).append (by decide)).append legible.status).append
      (by decide)
  have cells : ∀ l ∈ s.namedCells.map entry, IsLine l := by
    intro l member
    simp only [namedCells, List.map_map, List.mem_map] at member
    obtain ⟨c, inside, rfl⟩ := member
    exact ((isLine_repr c.1).append (by decide)).append (legible.heap c inside)
  have symbols : ∀ l ∈ s.symbols.map entry, IsLine l := by
    intro l member
    obtain ⟨b, inside, rfl⟩ := List.mem_map.mp member
    obtain ⟨name, -, value⟩ := legible.symbols b inside
    exact (name.append (by decide)).append value
  rw [recordLines_eq]
  simp only [List.forall_mem_cons, List.forall_mem_append]
  exact ⟨line, thread, by decide, fun l member => (legible.stack l member).1, by decide, cells,
    by decide, symbols, by decide, fun l member => (legible.output l member).1, by decide, by simp⟩

/-- Two snapshots with their time stamps agree on everything that a record shows. -/
structure SameRecord (e e' : String × Snapshot) : Prop where
  stamp : e.1 = e'.1
  id : e.2.id = e'.2.id
  status : e.2.status = e'.2.status
  stack : e.2.stack = e'.2.stack
  heap : e.2.heap = e'.2.heap
  symbols : e.2.symbols = e'.2.symbols
  output : e.2.output = e'.2.output

/-- A record determines what it shows and where it ends, whatever follows it. -/
theorem recordLines_append_inj {e e' : String × Snapshot} {rest rest' : List String}
    (legible : e.2.Legible) (legible' : e'.2.Legible)
    (same : e.2.recordLines e.1 ++ rest = e'.2.recordLines e'.1 ++ rest') :
    SameRecord e e' ∧ rest = rest' := by
  simp only [recordLines_eq, List.cons_append, List.append_assoc, List.nil_append] at same
  obtain ⟨stamp, same⟩ := List.cons.inj same
  obtain ⟨thread, same⟩ := List.cons.inj same
  obtain ⟨-, same⟩ := List.cons.inj same
  obtain ⟨id, status⟩ := threadLine_inj thread
  have noHeap {s : Snapshot} (legible : s.Legible) : "Heap:" ∉ s.stack :=
    fun member => (legible.stack _ member).2 rfl
  have noHeading {heading : String} (plain : '>' ∉ heading.toList) (bs : List (String × String)) :
      heading ∉ bs.map entry := by
    intro member
    obtain ⟨b, -, shown⟩ := List.mem_map.mp member
    exact entry_ne plain shown
  have noRule {s : Snapshot} (legible : s.Legible) : rule ∉ s.output :=
    fun member => (legible.output _ member).2 rfl
  -- section by section, each up to the line that ends it
  obtain ⟨stack, same⟩ := append_mark_inj (noHeap legible) (noHeap legible') same
  obtain ⟨cells, same⟩ := append_mark_inj (noHeading (by decide) _) (noHeading (by decide) _) same
  obtain ⟨symbols, same⟩ := append_mark_inj (noHeading (by decide) _) (noHeading (by decide) _) same
  obtain ⟨output, same⟩ := append_mark_inj (noRule legible) (noRule legible') same
  have heap := entries_inj e.2.noArrow_namedCells e'.2.noArrow_namedCells cells
  have bindings := entries_inj (fun b member => (legible.symbols b member).2.1)
    (fun b member => (legible'.symbols b member).2.1) symbols
  exact ⟨⟨stamp, id, status, stack, namedCells_inj heap, bindings, output⟩, same⟩

/-! ### Logs -/

theorem join_record (log : List (String × Snapshot)) :
    String.join (log.map fun e => e.2.record e.1) =
      unlines (log.flatMap fun e => e.2.recordLines e.1) := by
  induction log with
  | nil => rfl
  | cons e rest ih =>
    rw [List.map_cons, String.join_cons, ih, record]
    simp [unlines, String.join_append]

/-- Records one after another are told apart from the front. -/
theorem flatMap_recordLines_inj {log log' : List (String × Snapshot)} (legible : ∀ e ∈ log, e.2.Legible)
    (legible' : ∀ e ∈ log', e.2.Legible)
    (same : (log.flatMap fun e => e.2.recordLines e.1) = log'.flatMap fun e => e.2.recordLines e.1) :
    List.Forall₂ SameRecord log log' := by
  -- along both logs at once; a record has at least its headings, so no log ends before the other
  induction log generalizing log' with
  | nil =>
    cases log' with
    | nil => exact .nil
    | cons e' rest' => simp [recordLines_eq] at same
  | cons e rest ih =>
    cases log' with
    | nil => simp [recordLines_eq] at same
    | cons e' rest' =>
      rw [List.flatMap_cons, List.flatMap_cons] at same
      obtain ⟨first, legible⟩ := List.forall_mem_cons.mp legible
      obtain ⟨first', legible'⟩ := List.forall_mem_cons.mp legible'
      obtain ⟨record, behind⟩ := recordLines_append_inj first first' same
      exact .cons record (ih legible legible' behind)

/-- Legible records with their times on one line are found again in the text that holds them. -/
theorem sameRecord_of_unlines {log log' : List (String × Snapshot)}
    (legible : ∀ e ∈ log, IsLine e.1 ∧ e.2.Legible) (legible' : ∀ e ∈ log', IsLine e.1 ∧ e.2.Legible)
    (same : unlines (log.flatMap fun e => e.2.recordLines e.1) =
      unlines (log'.flatMap fun e => e.2.recordLines e.1)) :
    List.Forall₂ SameRecord log log' := by
  have lines {log : List (String × Snapshot)} (legible : ∀ e ∈ log, IsLine e.1 ∧ e.2.Legible) :
      ∀ l ∈ log.flatMap fun e => e.2.recordLines e.1, IsLine l := by
    intro l member
    obtain ⟨e, inside, line⟩ := List.mem_flatMap.mp member
    exact (legible e inside).2.isLine_recordLines (legible e inside).1 l line
  exact flatMap_recordLines_inj (fun e member => (legible e member).2)
    (fun e member => (legible' e member).2) (unlines_inj (lines legible) (lines legible') same)

end Snapshot

/-! ### Texts of statements and values -/

/-- Every statement but the empty one has a blank or a bracket in its printed form. -/
theorem Stmt.text_eq_nop_or (s : Stmt) : s.text = "nop" ∨ ' ' ∈ s.text.toList ∨ '(' ∈ s.text.toList := by
  cases s with
  | nop => exact .inl rfl
  | _ => simp [text]

theorem Stmt.text_ne_heading (s : Stmt) : s.text ≠ "Heap:" := by
  intro same
  have shape := s.text_eq_nop_or
  rw [same] at shape
  revert shape
  decide

/-- A row of dashes would have to be the printed form of an integer, but no integer is read from it. -/
theorem Value.text_ne_rule (v : Value) : v.text ≠ Snapshot.rule := by
  intro same
  have dashes : Snapshot.rule.toList = '-' :: Snapshot.rule.toList.tail := by decide
  obtain ⟨c, rest, text, opening⟩ := v.exists_opening
  rw [same, dashes] at text
  obtain ⟨rfl, -⟩ := List.cons.inj text
  cases v with
  | int n =>
    have read := readInt64?_text n
    have unread : Text.readInt64? Snapshot.rule = none := by decide
    rw [same, unread] at read
    cases read
  | _ => exact absurd opening (by simp [kind, Kind.ofOpening])

namespace Snapshot

open Text

/-- The log can be decoded in one way only. If two lists of legible snapshots, each with a time stamp on one
line, have the same log, then they have the same length and agree, one by one, on time stamp, number, status,
stack, cells, variables and output. Moreover, nothing on the stack of a thread looks like the heading of the
heap, and nothing in its output like the rule that closes a record. -/
theorem log_decodes_uniquely (log log' : List (String × Snapshot))
    (legible : ∀ e ∈ log, IsLine e.1 ∧ e.2.Legible) (legible' : ∀ e ∈ log', IsLine e.1 ∧ e.2.Legible)
    (same : String.join (log.map fun e => e.2.record e.1) =
      String.join (log'.map fun e => e.2.record e.1)) :
    (log.length = log'.length ∧ List.Forall₂ SameRecord log log') ∧
    ∀ (h : Heap) (t : Thread), (∀ l ∈ (ofThread h t).stack, l ≠ "Heap:") ∧
      ∀ l ∈ (ofThread h t).output, l ≠ rule := by
  rw [join_record, join_record] at same
  have records := sameRecord_of_unlines legible legible' same
  refine ⟨⟨records.length_eq, records⟩, fun h t => ⟨fun l member => ?_, fun l member => ?_⟩⟩
  · obtain ⟨s, -, rfl⟩ := List.mem_map.mp member
    exact s.text_ne_heading
  · obtain ⟨v, -, rfl⟩ := List.mem_map.mp member
    exact v.text_ne_rule

/-- Two logs of a thread whose texts look like headings, arrows and rules of a record wherever they may, and
of one with nothing to show. The snapshots differ only in what a record leaves out. -/
theorem log_decodes_uniquely_tricky_texts :
    let tricky : Snapshot := {
      id := 12, status := "errored: )", stack := ["Symbol Table:", "Output:", rule, ""],
      heap := [(1, "Heap:"), (10, "x -> y")], symbols := [("", "-> 1"), ("a-", ">"), ("a -", "Output:")],
      output := ["Heap:", "Output:", rule ++ "-"] }
    let log := [("12:00", tricky), ("", { id := 0 })]
    let log' := [("12:00", { tricky with finished := true, files := ["in"] }), ("", { id := 0 })]
    log ≠ log' ∧
    ((∀ e ∈ log, IsLine e.1 ∧ e.2.Legible) ∧ (∀ e ∈ log', IsLine e.1 ∧ e.2.Legible)) ∧
    log.length = log'.length ∧ List.Forall₂ SameRecord log log' := by
  intro tricky log log'
  have legible : ∀ e ∈ log, IsLine e.1 ∧ e.2.Legible := by decide +kernel
  have legible' : ∀ e ∈ log', IsLine e.1 ∧ e.2.Legible := by decide +kernel
  have records := log_decodes_uniquely log log' legible legible' rfl
  exact ⟨by decide, ⟨legible, legible'⟩, records.1⟩

end Snapshot

end Lockstep

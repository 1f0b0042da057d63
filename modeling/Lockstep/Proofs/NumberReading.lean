import Lockstep.Proofs.Contexts
import Lockstep.Proofs.LineReading
import Lockstep.Proofs.Numerals
import Lockstep.Proofs.Unreadable
import Mathlib.Data.List.Forall2

/-!
Integers are read back as they were written.

A read takes the next line of a file, whatever is in it, and binds the integer that the line shows; at the end
of the file it binds zero. A line that shows no integer has been taken all the same, and nothing is bound. So
the lines of a file with one integer each come back one by one, in order and without loss, whatever blanks
stand around the integers.
-/

namespace Lockstep

/-! ### Lines with integers -/

namespace Text

theorem bytes_append (s r : String) :
    (s ++ r).toByteArray.data.toList = s.toByteArray.data.toList ++ r.toByteArray.data.toList := by
  simp only [bytes_eq_flatMap, String.toList_append, List.flatMap_append]

/-- Trimming a text takes away what was cut off its end before, if that was blank. -/
theorem trim_trimEnd {p : Char → Bool} (blank : ∀ c, p c = true → isBlank c = true) (s : String) :
    trim (trimEnd p s) = trim s := by
  obtain ⟨tail, whole, gone, -⟩ := stripsEnd_trimEnd p s
  have trims := (trims_trim (trimEnd p s)).append_blank fun c member => blank c (gone c member)
  rw [← whole] at trims
  exact String.toList_inj.mp trims.trim_eq.symm

end Text

/-- A line that holds an integer in its printed form: spaces and tabs may stand around it, and the line ends
in a line feed, perhaps with a carriage return before it. -/
def NumberLine (n : Int64) (line : String) : Prop :=
  ∃ front back ending : String, line = front ++ (Value.int n).text ++ back ++ ending ∧
    (∀ c ∈ front.toList ++ back.toList, c = ' ' ∨ c = '\t') ∧ (ending = "\n" ∨ ending = "\r\n")

namespace NumberLine

variable {n : Int64} {line : String}

theorem shows (numbered : NumberLine n line) : Text.Shows line n.toInt := by
  obtain ⟨front, back, ending, rfl, padding, ended⟩ := numbered
  have denotes := Text.denotes_text n
  have blank (c : Char) (member : c ∈ front.toList ++ back.toList) : Text.isBlank c = true := by
    rcases padding c member with rfl | rfl <;> decide
  have ends : ∀ c ∈ ending.toList, Text.isBlank c = true := by
    rcases ended with rfl | rfl <;> exact List.all_eq_true.mp (by decide)
  refine ⟨(Value.int n).text.toList, ⟨front.toList, back.toList ++ ending.toList, ?_, ?_, ?_, ?_, ?_⟩, denotes⟩
  · simp [String.toList_append, List.append_assoc]
  · exact fun c member => blank c (List.mem_append_left _ member)
  · intro c member
    rcases List.mem_append.mp member with inner | outer
    · exact blank c (List.mem_append_right _ inner)
    · exact ends c outer
  · exact fun c head => denotes.isBlank_eq_false (List.mem_of_head? head)
  · exact fun c last => denotes.isBlank_eq_false (List.mem_of_getLast? last)

/-- The line feed at the end of the line is the only one. -/
theorem exists_body (numbered : NumberLine n line) :
    ∃ body : String, line = body ++ "\n" ∧ '\n' ∉ body.toList := by
  obtain ⟨front, back, ending, rfl, padding, ended⟩ := numbered
  have inside : '\n' ∉ (front ++ (Value.int n).text ++ back).toList := by
    simp only [String.toList_append, List.mem_append, not_or]
    refine ⟨⟨fun member => ?_, fun member => ?_⟩, fun member => ?_⟩
    · exact absurd (padding _ (List.mem_append_left _ member)) (by decide)
    · exact absurd ((Text.denotes_text n).isBlank_eq_false member) (by decide)
    · exact absurd (padding _ (List.mem_append_right _ member)) (by decide)
  rcases ended with rfl | rfl
  · exact ⟨_, rfl, inside⟩
  · refine ⟨front ++ (Value.int n).text ++ back ++ "\r", ?_, ?_⟩
    · have ending : "\r\n" = "\r" ++ "\n" := rfl
      rw [ending, ← String.append_assoc]
    · rw [String.toList_append, List.mem_append]
      rintro (member | member)
      · exact inside member
      · exact absurd member (by decide)

/-- Lines with integers are the lines of the file that holds them. -/
theorem cut {ns : List Int64} {lines : List String} (numbered : List.Forall₂ NumberLine ns lines) :
    Line.Cut (String.join lines).toUTF8.data.toList (lines.map fun line => line.toUTF8.data.toList) := by
  induction numbered with
  | nil => exact .nil
  | @cons n line ns lines here _ ih =>
    obtain ⟨body, rfl, inside⟩ := here.exists_body
    have feedless : Line.feed ∉ body.toByteArray.data.toList := fun member =>
      inside (Text.mem_toList_of_mem_bytes (by decide) member)
    have bytes : (body ++ "\n").toByteArray.data.toList = body.toByteArray.data.toList ++ [Line.feed] :=
      Text.bytes_append body "\n"
    simp only [String.toUTF8_eq_toByteArray, String.join_cons, List.map_cons] at ih ⊢
    rw [Text.bytes_append, bytes]
    exact .line feedless ih

end NumberLine

/-! ### File names -/

/-- The value of an expression, if it is neither an integer nor a truth value, does not depend on what an
integer variable holds. -/
theorem Expr.eval_insert_int {σ : Symbols} {h : Heap} {x : String} {old : Int64}
    (bound : σ[x]? = some (.int old)) (n : Int64) {e : Expr} {v : Value} (value : e.eval σ h = .ok v)
    (kind : v.ty ≠ .int ∧ v.ty ≠ .bool) : e.eval (σ.insert x (.int n)) h = .ok v := by
  -- on the expression: such a value comes from a constant, another variable or a cell, and the cell is found
  -- by a reference, which is such a value as well
  induction e using induct_join generalizing v with
  | const w => exact value
  | var y =>
    by_cases same : x = y
    · subst same
      simp only [eval, Symbols.valueOf, bound, Except.ok.injEq] at value
      subst value
      exact absurd rfl kind.1
    · simpa [eval, Symbols.valueOf, Std.ExtTreeMap.getElem?_insert, same] using value
  | join op l r =>
    rcases Binary.ty_of_eval_join value with int | bool
    · exact absurd int kind.1
    · exact absurd bool kind.2
  | read e ih =>
    obtain ⟨reference, found, value⟩ := Fault.bind_eq_ok value
    obtain ⟨a, address, value⟩ := Fault.bind_eq_ok value
    have apart : reference.ty ≠ .int ∧ reference.ty ≠ .bool := by
      cases reference with
      | ref b t => simp [Value.ty]
      | _ => cases address
    simp only [eval, ih found apart, address, Fault.ok_bind, value]

/-! ### One read -/

theorem Line.reply_text (name whole : String) :
    reply name whole.toUTF8.data.toList = .ok (some (Text.trimEnd (fun c => c = '\r' || c = '\n') whole)) := by
  simp only [reply, text?, String.toUTF8_eq_toByteArray, fromUTF8?_eq_some_iff.mpr rfl, Option.map_some]

namespace OpenFiles

variable {disk : Disk} {t : OpenFiles} {name whole : String} {bytes : List UInt8}
  {later : List (List UInt8)}

/-- From the files `t` to the files `t'` nothing has happened but that the next line of the named file has been
taken, so that the given bytes come next. -/
def TakesLine (disk : Disk) (t : OpenFiles) (name : String) (t' : OpenFiles) (bytes : List UInt8) : Prop :=
  t'.Ahead disk name bytes ∧ ∀ other ≠ name, t'[other]? = t[other]?

theorem readLine_of_text (ahead : t.Ahead disk name bytes)
    (cut : Line.Cut bytes (whole.toUTF8.data.toList :: later)) :
    ∃ t', t.readLine disk name =
        (t', .ok (some (Text.trimEnd (fun c => c = '\r' || c = '\n') whole))) ∧
      t.TakesLine disk name t' later.flatten := by
  obtain ⟨handle, read, left⟩ := readLine_of_line ahead cut
  rw [Line.reply_text] at read
  refine ⟨_, read, ⟨handle, Std.ExtTreeMap.getElem?_insert_self, left⟩, fun other differs => ?_⟩
  simp [Std.ExtTreeMap.getElem?_insert, Ne.symm differs]

end OpenFiles

namespace Store

/-- The reads of a file into a variable that find both as they should be: the expression denotes the name of
the file, and the variable is declared for integers. -/
structure Accepts (σ : Store) (name : String) (file : Expr) (x : String) : Prop where
  declared : ∃ old, σ.symbols[x]? = some (.int old)
  named : σ.evalFileName file = .ok name

section

variable {name whole : String} {n : Int64}

/-- The two trimmings of a line are one, since what ends a line is blank. -/
theorem lineValue_trimEnd : lineValue name (some (Text.trimEnd (fun c => c = '\r' || c = '\n') whole)) =
    lineValue name (some whole) := by
  have blank (c : Char) (ending : (c = '\r' || c = '\n') = true) : Text.isBlank c = true := by
    simp only [Bool.or_eq_true, decide_eq_true_eq] at ending
    rcases ending with rfl | rfl <;> decide
  simp only [lineValue, Text.trim_trimEnd blank]

theorem lineValue_of_shows (name : String) (shown : Text.Shows whole n.toInt) :
    lineValue name (some whole) = .ok n := by
  simp only [lineValue, Text.readInt64?_eq_some_iff.mpr (Text.shows_iff.mp shown)]

theorem lineValue_of_not_shows (name : String) (strange : ∀ n : Int64, ¬Text.Shows whole n.toInt) :
    lineValue name (some whole) = .error (.lineNotInt name (Text.trim whole)) := by
  cases number : Text.readInt64? (Text.trim whole) with
  | some n => exact absurd (Text.shows_iff.mpr (Text.readInt64?_eq_some_iff.mp number)) (strange n)
  | none => simp only [lineValue, number]

end

variable {disk : Disk} {σ : Store} {name x whole : String} {file : Expr} {bytes : List UInt8}
  {later : List (List UInt8)}

namespace Accepts

theorem exec_of_end (ready : σ.Accepts name file x) (ahead : σ.files.Ahead disk name bytes)
    (cut : Line.Cut bytes []) :
    (Stmt.readInt file x).exec disk σ = ({ σ with symbols := σ.symbols.insert x (.int 0) }, .ok {}) := by
  obtain ⟨⟨old, bound⟩, named⟩ := ready
  exact (Acts.readInt bound named (OpenFiles.readLine_of_end ahead cut) rfl).exec_eq

theorem exec_of_shows (ready : σ.Accepts name file x) (ahead : σ.files.Ahead disk name bytes)
    (cut : Line.Cut bytes (whole.toUTF8.data.toList :: later)) {n : Int64}
    (shown : Text.Shows whole n.toInt) :
    ∃ files, (Stmt.readInt file x).exec disk σ =
        ({ σ with files, symbols := σ.symbols.insert x (.int n) }, .ok {}) ∧
      σ.files.TakesLine disk name files later.flatten := by
  obtain ⟨⟨old, bound⟩, named⟩ := ready
  obtain ⟨files, read, taken⟩ := OpenFiles.readLine_of_text ahead cut
  have number := lineValue_trimEnd.trans (lineValue_of_shows name shown)
  exact ⟨files, (Acts.readInt bound named read number).exec_eq, taken⟩

theorem exec_of_not_shows (ready : σ.Accepts name file x) (ahead : σ.files.Ahead disk name bytes)
    (cut : Line.Cut bytes (whole.toUTF8.data.toList :: later))
    (strange : ∀ n : Int64, ¬Text.Shows whole n.toInt) :
    ∃ files, (Stmt.readInt file x).exec disk σ =
        ({ σ with files }, .error (.lineNotInt name (Text.trim whole))) ∧
      σ.files.TakesLine disk name files later.flatten := by
  obtain ⟨⟨old, bound⟩, named⟩ := ready
  obtain ⟨files, read, taken⟩ := OpenFiles.readLine_of_text ahead cut
  have number := lineValue_trimEnd.trans (lineValue_of_not_shows name strange)
  exact ⟨files, (Acts.readNoNumber bound named read number).exec_eq, taken⟩

/-- What a read binds does not get in the way of other reads. -/
theorem insert_int {y : String} {f : Expr} (ready : σ.Accepts name f y) {old : Int64}
    (bound : σ.symbols[x]? = some (.int old)) (files : OpenFiles) (n : Int64) :
    { σ with files, symbols := σ.symbols.insert x (.int n) }.Accepts name f y := by
  obtain ⟨⟨older, declared⟩, named⟩ := ready
  constructor
  · by_cases same : x = y
    · exact ⟨n, by simp [same]⟩
    · exact ⟨older, by simpa [Std.ExtTreeMap.getElem?_insert, same] using declared⟩
  · obtain ⟨v, value, text⟩ := Fault.bind_eq_ok named
    have kind : v.ty ≠ .int ∧ v.ty ≠ .bool := by
      cases v with
      | string s => simp [Value.ty]
      | _ => cases text
    simp only [evalFileName, Valuation.fileName, eval, Expr.eval_insert_int bound n value kind, Fault.ok_bind, text]

end Accepts

/-! ### Read after read -/

/-- The store after some reads, one after another. -/
def afterReads (disk : Disk) (σ : Store) (reads : List (Expr × String)) : Store :=
  reads.foldl (fun σ read => ((Stmt.readInt read.1 read.2).exec disk σ).1) σ

variable {ns : List Int64} {lines : List String}

/-- A read takes the first of the integers, or zero if none is left. -/
theorem Accepts.exec_numbers (ready : σ.Accepts name file x) (numbered : List.Forall₂ NumberLine ns lines)
    (ahead : σ.files.Ahead disk name (String.join lines).toUTF8.data.toList) :
    ∃ files, (Stmt.readInt file x).exec disk σ =
        ({ σ with files, symbols := σ.symbols.insert x (.int (ns[0]?.getD 0)) }, .ok {}) ∧
      files.Ahead disk name (String.join (lines.drop 1)).toUTF8.data.toList := by
  cases numbered with
  | nil =>
    -- at the end of the file nothing is taken any more
    exact ⟨_, ready.exec_of_end ahead .nil, ahead⟩
  | @cons n line ns lines here later =>
    obtain ⟨files, executed, behind, -⟩ :=
      ready.exec_of_shows ahead (NumberLine.cut (.cons here later)) here.shows
    rw [(NumberLine.cut later).flatten] at behind
    exact ⟨files, executed, behind⟩

theorem afterReads_numbers (numbered : List.Forall₂ NumberLine ns lines)
    (ahead : σ.files.Ahead disk name (String.join lines).toUTF8.data.toList) {reads : List (Expr × String)}
    (ready : ∀ read ∈ reads, σ.Accepts name read.1 read.2) :
    (σ.afterReads disk reads).files.Ahead disk name
        (String.join (lines.drop reads.length)).toUTF8.data.toList ∧
      ∀ f y, σ.Accepts name f y → (σ.afterReads disk reads).Accepts name f y := by
  induction reads generalizing σ ns lines with
  | nil => exact ⟨ahead, fun f y accepted => accepted⟩
  | cons read reads ih =>
    -- after the first read the others find what they need as before, and one line less
    have first := ready read (List.mem_cons_self ..)
    obtain ⟨files, executed, behind⟩ := first.exec_numbers numbered ahead
    obtain ⟨old, bound⟩ := first.declared
    have stays (f : Expr) (y : String) (accepted : σ.Accepts name f y) :=
      accepted.insert_int bound files (ns[0]?.getD 0)
    have later := ih (List.forall₂_drop 1 numbered) behind
      fun other member => stays _ _ (ready other (List.mem_cons_of_mem _ member))
    rw [List.drop_drop, Nat.add_comm 1] at later
    rw [afterReads, List.foldl_cons, executed]
    exact ⟨later.1, fun f y accepted => later.2 f y (stays f y accepted)⟩

/-! ### Reading back -/

/-- Integers are read back as they were written. If what is left of an open file holds the printed form of an
integer on each line, then the reads of it, into whatever variables for integers, bind these integers in
order, and zero from then on. A read of any line that is text succeeds if and only if the text shows a 64-bit
integer, which is then bound; otherwise it is a failure of the file, and no variable changes. In both cases
the line has been taken and nothing else. -/
theorem numbers_read_back (disk : Disk) (σ : Store) (name : String) (file : Expr) (x : String)
    (ready : σ.Accepts name file x) :
    (∀ ns lines, List.Forall₂ NumberLine ns lines →
      σ.files.Ahead disk name (String.join lines).toUTF8.data.toList →
      ∀ earlier : List (Expr × String), (∀ read ∈ earlier, σ.Accepts name read.1 read.2) →
        let σ' := σ.afterReads disk earlier
        let after := (Stmt.readInt file x).exec disk σ'
        after.2 = .ok {} ∧
          after.1.symbols = σ'.symbols.insert x (.int (ns[earlier.length]?.getD 0))) ∧
    ∀ bytes (whole : String) later, σ.files.Ahead disk name bytes →
      Line.Cut bytes (whole.toUTF8.data.toList :: later) →
      let after := (Stmt.readInt file x).exec disk σ
      (after.2 = .ok {} ↔ ∃ n : Int64, Text.Shows whole n.toInt) ∧
      (∀ n : Int64, Text.Shows whole n.toInt → after.1.symbols = σ.symbols.insert x (.int n)) ∧
      (after.2 ≠ .ok {} → (∃ detail, after.2 = .error (.file name detail)) ∧
        after.1.symbols = σ.symbols) ∧
      σ.files.TakesLine disk name after.1.files later.flatten := by
  constructor
  · intro ns lines numbered ahead earlier accepted σ' after
    obtain ⟨behind, stays⟩ := afterReads_numbers numbered ahead accepted
    obtain ⟨files, executed, -⟩ :=
      (stays file x ready).exec_numbers (List.forall₂_drop earlier.length numbered) behind
    rw [List.getElem?_drop, Nat.add_zero] at executed
    exact ⟨congrArg Prod.snd executed, congrArg (·.1.symbols) executed⟩
  · intro bytes whole later ahead cut after
    by_cases shown : ∃ n : Int64, Text.Shows whole n.toInt
    · obtain ⟨n, shows⟩ := shown
      obtain ⟨files, executed, taken⟩ := ready.exec_of_shows ahead cut shows
      rw [show after = _ from executed]
      refine ⟨⟨fun _ => ⟨n, shows⟩, fun _ => rfl⟩, fun k also => ?_, fun fails => absurd rfl fails, taken⟩
      -- one text does not show two integers
      have same := (lineValue_of_shows name shows).symm.trans (lineValue_of_shows name also)
      rw [Except.ok.inj same]
    · have strange : ∀ n : Int64, ¬Text.Shows whole n.toInt := fun n shows => shown ⟨n, shows⟩
      obtain ⟨files, executed, taken⟩ := ready.exec_of_not_shows ahead cut strange
      rw [show after = _ from executed]
      refine ⟨⟨fun done => ?_, fun some_ => absurd some_ shown⟩, fun n shows => absurd shows (strange n),
        fun _ => ⟨⟨_, rfl⟩, rfl⟩, taken⟩
      cases done

/-- A file with the least integer between tabs and a seven, each on a line with another ending, and a file with
a number that is one too large. The second read of the first file binds the seven and the third one zero; the
read of the second file fails. -/
theorem numbers_read_back_least_and_too_large :
    let lines := ["\t-9223372036854775808\t\r\n", "7 \n"]
    let strange := "9223372036854775808\n"
    let disk := ((Disk.blank []).put "in" (.file (String.join lines).toUTF8)).put "odd" (.file strange.toUTF8)
    let σ : Store := {
      symbols := (∅ : Symbols).insert "x" (.int 3)
      files := OpenFiles.run disk ∅ [.openFile "in", .openFile "odd"] }
    let read (name : String) : Expr × String := (.const (.string name), "x")
    ((Stmt.readInt (read "in").1 "x").exec disk (σ.afterReads disk [read "in"])).1.symbols =
      (σ.afterReads disk [read "in"]).symbols.insert "x" (.int 7) ∧
    ((Stmt.readInt (read "in").1 "x").exec disk (σ.afterReads disk [read "in", read "in"])).1.symbols =
      (σ.afterReads disk [read "in", read "in"]).symbols.insert "x" (.int 0) ∧
    ((Stmt.readInt (read "odd").1 "x").exec disk σ).2 ≠ .ok {} := by
  intro lines strange disk σ read
  have accepts (name : String) : σ.Accepts name (read name).1 "x" := ⟨⟨3, by rfl⟩, by rfl⟩
  have numbered : List.Forall₂ NumberLine [Int64.minValue, 7] lines :=
    .cons ⟨"\t", "\t", "\r\n", by decide, by simp, .inr rfl⟩
      (.cons ⟨"", " ", "\n", by decide, by simp, .inl rfl⟩ .nil)
  have inAhead : σ.files.Ahead disk "in" (String.join lines).toUTF8.data.toList := ⟨_, by rfl, by rfl⟩
  have oddAhead : σ.files.Ahead disk "odd" strange.toUTF8.data.toList := ⟨_, by rfl, by rfl⟩
  have cut : Line.Cut strange.toUTF8.data.toList [strange.toUTF8.data.toList] :=
    @Line.Cut.line "9223372036854775808".toUTF8.data.toList _ _ (by decide +kernel) .nil
  have inOrder := (numbers_read_back disk σ "in" _ "x" (accepts "in")).1 _ _ numbered inAhead
  have inReads : ∀ r ∈ [read "in", read "in"], σ.Accepts "in" r.1 r.2 := by
    intro r member
    rw [show r = read "in" by simpa using member]
    exact accepts "in"
  refine ⟨(inOrder [read "in"] fun r member => inReads r (List.mem_cons_of_mem _ member)).2,
    (inOrder [read "in", read "in"] inReads).2, fun done => ?_⟩
  obtain ⟨n, shown⟩ :=
    ((numbers_read_back disk σ "odd" _ "x" (accepts "odd")).2 _ strange [] oddAhead cut).1.mp done
  have none : Text.readInt64? (Text.trim strange) = none := by decide +kernel
  rw [Text.readInt64?_eq_some_iff.mpr (Text.shows_iff.mp shown)] at none
  cases none

end Store

end Lockstep

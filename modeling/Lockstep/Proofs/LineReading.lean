import Lockstep.Proofs.Atomicity

/-!
Reading a file line by line loses and repeats nothing.

An open file remembers how many of its bytes have been read. Each read moves on by exactly one line, also if
the line is not text and the read fails for that, so the offset is always the length of the lines read so
far. What happens to one name does not touch the others, and a file that is opened again starts again.
-/

namespace Lockstep

/-! ### The lines of a file -/

/-- `line` is `whole` without the characters at its end that satisfy `p`. -/
def Text.StripsEnd (p : Char → Bool) (whole line : String) : Prop :=
  ∃ tail, whole.toList = line.toList ++ tail ∧ (∀ c ∈ tail, p c = true) ∧
    ∀ c, line.toList.getLast? = some c → p c = false

theorem Text.stripsEnd_trimEnd (p : Char → Bool) (s : String) : StripsEnd p s (trimEnd p s) := by
  refine ⟨(s.toList.reverse.takeWhile p).reverse, ?_, ?_, ?_⟩
  · rw [trimEnd, String.toList_ofList, dropEndWhile, ← List.reverse_append,
      List.takeWhile_append_dropWhile, List.reverse_reverse]
  · intro c member
    exact List.all_eq_true.mp List.all_takeWhile c (List.mem_reverse.mp member)
  · intro c last
    rw [trimEnd, String.toList_ofList, dropEndWhile, List.getLast?_reverse] at last
    have stays := List.head?_dropWhile_not p s.toList.reverse
    rwa [last] at stays

namespace Line

/-- `Cut bytes lines` says that the lines together are the bytes. Every line ends in a line feed and holds no
other, but for the last one, which may lack it and is not empty then. -/
inductive Cut : List UInt8 → List (List UInt8) → Prop where
  | nil : Cut [] []
  | last {body : List UInt8} (some_ : body ≠ []) (unended : feed ∉ body) : Cut body [body]
  | line {body bytes : List UInt8} {lines : List (List UInt8)} (inside : feed ∉ body)
    (rest : Cut bytes lines) : Cut (body ++ [feed] ++ bytes) ((body ++ [feed]) :: lines)

theorem exists_cut (bytes : List UInt8) : ∃ lines, Cut bytes lines := by
  induction bytes with
  | nil => exact ⟨[], .nil⟩
  | cons b rest ih =>
    obtain ⟨lines, cut⟩ := ih
    by_cases ends : b = feed
    · subst ends
      have empty : feed ∉ ([] : List UInt8) := List.not_mem_nil
      exact ⟨_, .line empty cut⟩
    · -- the byte belongs to the line that the rest begins with, if there is one
      have other : feed ∉ [b] := by simpa using Ne.symm ends
      cases cut with
      | nil => exact ⟨_, .last (List.cons_ne_nil b []) other⟩
      | last some_ unended =>
        exact ⟨_, .last (List.cons_ne_nil b rest) (List.not_mem_append other unended)⟩
      | line inside later => exact ⟨_, .line (List.not_mem_append other inside) later⟩

namespace Cut

variable {bytes line : List UInt8} {lines later : List (List UInt8)}

theorem flatten (cut : Cut bytes lines) : lines.flatten = bytes := by
  induction cut with
  | nil => rfl
  | last _ _ => simp
  | line _ _ ih => simp [ih]

theorem first_eq (cut : Cut bytes (line :: later)) : first bytes = line := by
  cases cut with
  | last _ unended =>
    have whole := first_append_of_not_mem unended []
    rwa [List.append_nil, first, List.append_nil] at whole
  | @line body rest _ inside later =>
    rw [List.append_assoc, first_append_of_not_mem inside]
    simp [first]

theorem ne_nil (cut : Cut bytes (line :: later)) : bytes ≠ [] := by
  cases cut with
  | last some_ _ => exact some_
  | line _ _ => simp

theorem tail (cut : Cut bytes (line :: later)) : Cut later.flatten later := by
  cases cut with
  | last _ _ => exact .nil
  | line _ rest => exact rest.flatten ▸ rest

theorem drop (cut : Cut bytes lines) (k : Nat) : Cut (lines.drop k).flatten (lines.drop k) := by
  induction k generalizing bytes lines with
  | zero => exact cut.flatten ▸ cut
  | succ k ih =>
    cases lines with
    | nil => exact .nil
    | cons line later => exact ih cut.tail

end Cut

/-- The text of a line, or the failure if the line is not text. -/
def reply (name : String) (line : List UInt8) : Except Fault (Option String) :=
  match text? line with
  | some text => .ok (some text)
  | none => .error (.file name DiskFault.notText.message)

/-- What reading a line must answer: if the line is the UTF-8 encoding of a text, the text without all line
feeds and carriage returns at its end; otherwise a failure of the file. -/
def Answers (name : String) (line : List UInt8) : Except Fault (Option String) → Prop
  | .ok (some text) => ∃ whole : String, whole.toUTF8.data.toList = line ∧
      Text.StripsEnd (fun c => c = '\r' || c = '\n') whole text
  | .ok none => False
  | .error e => (∀ whole : String, whole.toUTF8.data.toList ≠ line) ∧ ∃ detail, e = .file name detail

theorem answers_reply (name : String) (line : List UInt8) : Answers name line (reply name line) := by
  unfold reply text?
  cases decoded : String.fromUTF8? ⟨line.toArray⟩ with
  | some whole =>
    exact ⟨whole, fromUTF8?_eq_some_iff.mp decoded, Text.stripsEnd_trimEnd _ whole⟩
  | none =>
    refine ⟨fun whole bytes => ?_, _, rfl⟩
    rw [fromUTF8?_eq_some_iff.mpr bytes] at decoded
    cases decoded

end Line

theorem Disk.readFrom_add (d : Disk) {p : Place} {offset : Nat} {front back : List UInt8}
    (left : d.readFrom p offset = .ok (front ++ back)) :
    d.readFrom p (offset + front.length) = .ok back := by
  simp only [readFrom] at left ⊢
  split at left
  next content there =>
    have rest := Except.ok.inj left
    rw [← List.drop_drop, rest, List.drop_left]
  · cases left
  · cases left

/-! ### Calls -/

namespace OpenFiles

/-- A request to a table of open files. -/
inductive Call where
  | openFile (name : String)
  | readLine (name : String)
  | closeFile (name : String)
deriving DecidableEq

/-- The name that a request is about. -/
def Call.file : Call → String
  | openFile name => name
  | readLine name => name
  | closeFile name => name

/-- The table after a request, and the answer: the text of a line where one has been read, or the failure. -/
def call (disk : Disk) (t : OpenFiles) : Call → OpenFiles × Except Fault (Option String)
  | .openFile name =>
    match t.openFile disk name with
    | .ok t' => (t', .ok none)
    | .error e => (t, .error e)
  | .readLine name => t.readLine disk name
  | .closeFile name =>
    match t.closeFile name with
    | .ok t' => (t', .ok none)
    | .error e => (t, .error e)

/-- The table after some requests, one after another. -/
def run (disk : Disk) (t : OpenFiles) (calls : List Call) : OpenFiles :=
  calls.foldl (fun t c => (t.call disk c).1) t

variable {disk : Disk} {t t' : OpenFiles} {name : String}

@[simp] theorem run_cons (c : Call) (calls : List Call) :
    t.run disk (c :: calls) = (t.call disk c).1.run disk calls := rfl

theorem mem_iff_getElem? : name ∈ t ↔ ∃ handle, t[name]? = some handle := by
  rw [Std.ExtTreeMap.mem_iff_isSome_getElem?, Option.isSome_iff_exists]

theorem call_openFile_of_mem (opened : name ∈ t) :
    t.call disk (.openFile name) = (t, .error (.alreadyOpen name)) := by
  simp [call, openFile, opened]

theorem call_openFile_of_refused (closed : name ∉ t) {fault : DiskFault}
    (refused : disk.resolve name = .error fault) :
    t.call disk (.openFile name) = (t, .error (.file name fault.message)) := by
  simp [call, openFile, closed, refused]

theorem call_openFile_of_resolved (closed : name ∉ t) {place : Place}
    (found : disk.resolve name = .ok place) :
    t.call disk (.openFile name) = (t.insert name { place, offset := 0 }, .ok none) := by
  simp [call, openFile, closed, found]

theorem call_closeFile_of_mem (opened : name ∈ t) :
    t.call disk (.closeFile name) = (t.erase name, .ok none) := by
  simp [call, closeFile, opened]

theorem call_closeFile_of_not_mem (closed : name ∉ t) :
    t.call disk (.closeFile name) = (t, .error (.notOpen name)) := by
  simp [call, closeFile, closed]

theorem readLine_of_not_mem (closed : name ∉ t) :
    t.readLine disk name = (t, .error (.notOpen name)) := by
  simp [readLine, Std.ExtTreeMap.getElem?_eq_none closed]

theorem mem_call_of_failure {c : Call} {e : Fault} (failed : (t.call disk c).2 = .error e)
    (other : String) : other ∈ (t.call disk c).1 ↔ other ∈ t := by
  cases c with
  | openFile name =>
    simp only [call] at failed ⊢
    split at failed
    · cases failed
    · rfl
  | closeFile name =>
    simp only [call] at failed ⊢
    split at failed
    · cases failed
    · rfl
  | readLine name =>
    -- a line that is not text has been read, but its file is still open
    rcases t.readLine_fst disk name with same | read
    · rw [call, same]
    · exact read.mem_iff other

/-! ### One name among others -/

theorem getElem?_call_of_ne {c : Call} (other : c.file ≠ name) : (t.call disk c).1[name]? = t[name]? := by
  have inserted (handle : Handle) : (t.insert c.file handle)[name]? = t[name]? := by
    simp [Std.ExtTreeMap.getElem?_insert, other]
  cases c with
  | openFile file =>
    by_cases opened : file ∈ t
    · rw [call_openFile_of_mem opened]
    · cases found : disk.resolve file with
      | error fault => rw [call_openFile_of_refused opened found]
      | ok place => rw [call_openFile_of_resolved opened found]; exact inserted _
  | closeFile file =>
    by_cases opened : file ∈ t
    · rw [call_closeFile_of_mem opened]
      simp only [Call.file] at other
      simp [Std.ExtTreeMap.getElem?_erase, other]
    · rw [call_closeFile_of_not_mem opened]
  | readLine file =>
    rcases t.readLine_fst disk file with same | ⟨handle, bytes, -, -, -, moved⟩
    · rw [call, same]
    · rw [call, moved]; exact inserted _

/-- What a request does to its own name, and what it is answered, depends on that name alone. -/
theorem call_congr {c : Call} (same : t[c.file]? = t'[c.file]?) :
    (t.call disk c).2 = (t'.call disk c).2 ∧
      (t.call disk c).1[c.file]? = (t'.call disk c).1[c.file]? := by
  have members : c.file ∈ t ↔ c.file ∈ t' := by rw [mem_iff_getElem?, mem_iff_getElem?, same]
  cases c with
  | openFile name =>
    simp only [Call.file] at same members ⊢
    by_cases opened : name ∈ t
    · rw [call_openFile_of_mem opened, call_openFile_of_mem (members.mp opened)]
      exact ⟨rfl, same⟩
    · have closed : name ∉ t' := fun member => opened (members.mpr member)
      cases found : disk.resolve name with
      | error fault =>
        rw [call_openFile_of_refused opened found, call_openFile_of_refused closed found]
        exact ⟨rfl, same⟩
      | ok place =>
        rw [call_openFile_of_resolved opened found, call_openFile_of_resolved closed found]
        simp
  | closeFile name =>
    simp only [Call.file] at same members ⊢
    by_cases opened : name ∈ t
    · rw [call_closeFile_of_mem opened, call_closeFile_of_mem (members.mp opened)]
      simp
    · have closed : name ∉ t' := fun member => opened (members.mpr member)
      rw [call_closeFile_of_not_mem opened, call_closeFile_of_not_mem closed]
      exact ⟨rfl, same⟩
  | readLine name =>
    simp only [Call.file] at same ⊢
    simp only [call, readLine, same]
    split
    · exact ⟨rfl, same⟩
    · split
      · exact ⟨rfl, same⟩
      · exact ⟨rfl, same⟩
      · split <;> simp

/-- The requests about other names make no difference to a name. -/
theorem getElem?_run_filter (calls : List Call) (same : t[name]? = t'[name]?) :
    (t.run disk calls)[name]? = (t'.run disk (calls.filter (·.file = name)))[name]? := by
  -- along the calls, for two tables that agree on the name
  induction calls generalizing t t' with
  | nil => exact same
  | cons c calls ih =>
    by_cases own : c.file = name
    · subst own
      simpa using ih (call_congr same).2
    · simpa [own] using ih ((getElem?_call_of_ne own).trans same)

/-! ### Reading on -/

/-- A file is open under the name, and the given bytes of it are still to be read. -/
def Ahead (disk : Disk) (t : OpenFiles) (name : String) (bytes : List UInt8) : Prop :=
  ∃ handle, t[name]? = some handle ∧ disk.readFrom handle.place handle.offset = .ok bytes

variable {bytes line : List UInt8} {lines later : List (List UInt8)}

theorem Ahead.mem (ahead : t.Ahead disk name bytes) : name ∈ t := by
  obtain ⟨handle, opened, -⟩ := ahead
  exact mem_iff_getElem?.mpr ⟨handle, opened⟩

theorem readLine_of_end (ahead : t.Ahead disk name bytes) (cut : Line.Cut bytes []) :
    t.readLine disk name = (t, .ok none) := by
  obtain ⟨handle, opened, left⟩ := ahead
  rw [← cut.flatten] at left
  simp only [readLine, opened, left, List.flatten_nil]

/-- Reading moves on by the next line, whatever is in it. -/
theorem readLine_of_line (ahead : t.Ahead disk name bytes) (cut : Line.Cut bytes (line :: later)) :
    ∃ handle, t.readLine disk name = (t.insert name handle, Line.reply name line) ∧
      disk.readFrom handle.place handle.offset = .ok later.flatten := by
  obtain ⟨handle, opened, left⟩ := ahead
  refine ⟨{ handle with offset := handle.offset + line.length }, ?_, ?_⟩
  · have first := cut.first_eq
    cases bytes with
    | nil => exact absurd rfl cut.ne_nil
    | cons b rest =>
      simp only [readLine, opened, left, first, Line.reply]
      cases Line.text? line <;> rfl
  · -- the offset has moved by the length of the line, not by that of its text
    rw [← cut.flatten, List.flatten_cons] at left
    exact disk.readFrom_add left

/-- A read answers the next line, or nothing at the end, and leaves the lines behind it ahead. -/
theorem Ahead.readLine (ahead : t.Ahead disk name bytes) (cut : Line.Cut bytes lines) :
    (t.readLine disk name).1.Ahead disk name (lines.drop 1).flatten ∧
      (t.readLine disk name).2 = (lines[0]?.map (Line.reply name)).getD (.ok none) := by
  cases lines with
  | nil =>
    rw [readLine_of_end ahead cut]
    exact ⟨cut.flatten ▸ ahead, rfl⟩
  | cons line later =>
    obtain ⟨handle, read, left⟩ := readLine_of_line ahead cut
    rw [read]
    exact ⟨⟨handle, Std.ExtTreeMap.getElem?_insert_self, left⟩, rfl⟩

theorem Ahead.call (ahead : t.Ahead disk name bytes) (cut : Line.Cut bytes lines) {c : Call}
    (kept : c ≠ .closeFile name) :
    (t.call disk c).1.Ahead disk name (lines.drop ([c].count (.readLine name))).flatten := by
  by_cases own : c.file = name
  · cases c with
    | openFile file =>
      obtain rfl : file = name := own
      -- the file is open, so it is not opened a second time
      rw [call_openFile_of_mem ahead.mem]
      simpa [cut.flatten] using ahead
    | readLine file =>
      obtain rfl : file = name := own
      simpa [OpenFiles.call] using (ahead.readLine cut).1
    | closeFile file =>
      obtain rfl : file = name := own
      exact absurd rfl kept
  · obtain ⟨handle, opened, left⟩ := ahead
    have differs : c ≠ .readLine name := fun same => own (by rw [same, Call.file])
    have still : (t.call disk c).1.Ahead disk name bytes :=
      ⟨handle, (getElem?_call_of_ne own).trans opened, left⟩
    simpa [differs, cut.flatten] using still

/-- Until its file is closed, the reads of a name, and nothing else, take lines from those that are ahead. -/
theorem Ahead.run (ahead : t.Ahead disk name bytes) (cut : Line.Cut bytes lines) {calls : List Call}
    (kept : .closeFile name ∉ calls) :
    (t.run disk calls).Ahead disk name (lines.drop (calls.count (.readLine name))).flatten := by
  induction calls generalizing t bytes lines with
  | nil => exact cut.flatten ▸ ahead
  | cons c calls ih =>
    obtain ⟨differs, later⟩ := List.ne_and_not_mem_of_not_mem_cons kept
    have last := ih (ahead.call cut differs.symm) (cut.drop _) later
    rwa [List.drop_drop, ← List.count_append, List.singleton_append] at last

/-- What the reads of a name are answered from here on, until its file is closed: each read the next of the
lines, and all further ones nothing. -/
def ReadsThrough (disk : Disk) (t : OpenFiles) (name : String) (lines : List (List UInt8)) : Prop :=
  ∀ calls, .closeFile name ∉ calls →
    let reply := ((t.run disk calls).call disk (.readLine name)).2
    match lines[calls.count (.readLine name)]? with
    | some line => Line.Answers name line reply
    | none => reply = .ok none

theorem Ahead.readsThrough (ahead : t.Ahead disk name bytes) (cut : Line.Cut bytes lines) :
    t.ReadsThrough disk name lines := by
  intro calls kept
  have answer := ((ahead.run cut kept).readLine (cut.drop _)).2
  rw [List.getElem?_drop, Nat.add_zero] at answer
  simp only [OpenFiles.call, answer]
  split
  next line there => simpa [there] using Line.answers_reply name line
  next none => simp [none]

/-! ### Opening and closing -/

theorem ahead_of_content (closed : name ∉ t) {content : ByteArray}
    (regular : disk.content? name = some content) :
    (t.call disk (.openFile name)).1.Ahead disk name content.data.toList := by
  simp only [Disk.content?] at regular
  split at regular
  next place found =>
    split at regular
    next content' there =>
      cases regular
      rw [call_openFile_of_resolved closed found]
      exact ⟨_, Std.ExtTreeMap.getElem?_insert_self, by simp [Disk.readFrom, there]⟩
    · cases regular
  · cases regular

/-- A request other than an opening opens nothing. -/
theorem mem_of_mem_call {c : Call} (member : name ∈ (t.call disk c).1) (stays : c ≠ .openFile name) :
    name ∈ t := by
  by_cases own : c.file = name
  · cases c with
    | openFile file => exact absurd (congrArg Call.openFile own) stays
    | closeFile file =>
      by_cases opened : file ∈ t
      · exact own ▸ opened
      · rwa [call_closeFile_of_not_mem opened] at member
    | readLine file =>
      rcases t.readLine_fst disk file with same | read
      · rwa [OpenFiles.call, same] at member
      · exact (read.mem_iff name).mp member
  · rwa [mem_iff_getElem?, getElem?_call_of_ne own, ← mem_iff_getElem?] at member

/-- What is open can be opened. -/
theorem resolved_of_mem_run (resolved : ∀ name ∈ t, ∃ place, disk.resolve name = .ok place)
    (calls : List Call) : ∀ name ∈ t.run disk calls, ∃ place, disk.resolve name = .ok place := by
  induction calls generalizing t with
  | nil => exact resolved
  | cons c calls ih =>
    rw [run_cons]
    apply ih
    intro name member
    by_cases opening : c = .openFile name
    · -- the name was open before, or has been resolved just now
      subst opening
      by_cases opened : name ∈ t
      · exact resolved name opened
      · cases found : disk.resolve name with
        | ok place => exact ⟨place, rfl⟩
        | error fault =>
          rw [call_openFile_of_refused opened found] at member
          exact absurd member opened
    · exact resolved name (mem_of_mem_call member opening)

theorem call_openFile_fails_iff :
    (∃ e, (t.call disk (.openFile name)).2 = .error e) ↔
      name ∈ t ∨ ∃ fault, disk.resolve name = .error fault := by
  by_cases opened : name ∈ t
  · simp [call_openFile_of_mem opened, opened]
  · cases found : disk.resolve name with
    | error fault => simp [call_openFile_of_refused opened found]
    | ok place => simp [call_openFile_of_resolved opened found, opened]

/-- Line reading loses and repeats nothing. After any requests to a table that was empty at first, a name that
is opened and denotes a file is answered the lines of the file one by one, whatever other requests stand in
between, and then nothing, until it is closed; this starts again when it is closed and opened again. Requests
about other names do not make a difference. A name can be opened unless it is open or the system refuses it,
and be read and closed only while it is open. A request that fails leaves the same names open. -/
theorem reading_loses_nothing (disk : Disk) (calls : List Call) (name : String) :
    let t := run disk ∅ calls
    (∀ content, disk.content? name = some content → (∃ lines, Line.Cut content.data.toList lines) ∧
      ∀ lines, Line.Cut content.data.toList lines →
        ((t.call disk (.openFile name)).2 = .ok none →
          (t.call disk (.openFile name)).1.ReadsThrough disk name lines) ∧
        (name ∈ t → (t.run disk [.closeFile name, .openFile name]).ReadsThrough disk name lines)) ∧
    (∀ c, c.file = name →
      (t.call disk c).2 = ((run disk ∅ (calls.filter (·.file = name))).call disk c).2) ∧
    ((∃ e, (t.call disk (.openFile name)).2 = .error e) ↔
      name ∈ t ∨ ∃ fault, disk.resolve name = .error fault) ∧
    (name ∈ t → (t.call disk (.closeFile name)).2 = .ok none ∧
      name ∉ (t.call disk (.closeFile name)).1 ∧
      ((t.call disk (.closeFile name)).1.call disk (.openFile name)).2 = .ok none) ∧
    (name ∉ t → (∃ detail, (t.call disk (.readLine name)).2 = .error (.file name detail)) ∧
      ∃ detail, (t.call disk (.closeFile name)).2 = .error (.file name detail)) ∧
    ∀ c e, (t.call disk c).2 = .error e → ∀ other, other ∈ (t.call disk c).1 ↔ other ∈ t := by
  intro t
  have closed : name ∉ t.erase name := by simp
  refine ⟨fun content regular => ⟨Line.exists_cut _, fun lines cut => ⟨?_, ?_⟩⟩, ?_,
    call_openFile_fails_iff, ?_, ?_, fun c e => mem_call_of_failure⟩
  · intro success
    have fresh : name ∉ t := by
      intro opened
      rw [call_openFile_of_mem opened] at success
      cases success
    exact (ahead_of_content fresh regular).readsThrough cut
  · intro opened
    rw [run_cons, call_closeFile_of_mem opened]
    exact (ahead_of_content closed regular).readsThrough cut
  · intro c own
    subst own
    exact (call_congr (getElem?_run_filter calls rfl)).1
  · intro opened
    have empty : ∀ name ∈ (∅ : OpenFiles), ∃ place, disk.resolve name = .ok place := by simp
    obtain ⟨place, found⟩ := resolved_of_mem_run empty calls name opened
    rw [call_closeFile_of_mem opened, call_openFile_of_resolved closed found]
    exact ⟨rfl, closed, rfl⟩
  · intro absent
    rw [OpenFiles.call, readLine_of_not_mem absent, call_closeFile_of_not_mem absent]
    exact ⟨⟨_, rfl⟩, _, rfl⟩

/-- A file with a line that ends in two carriage returns, one that is not text, an empty one and one that
nothing ends. After two reads, the second of which fails, and some requests that fail, the third read answers
the empty line. -/
theorem reading_loses_nothing_behind_strange_line :
    let bytes : List UInt8 := [97, 13, 13, 10, 255, 10, 10, 98]
    let lines : List (List UInt8) := [[97, 13, 13, 10], [255, 10], [10], [98]]
    let disk := (Disk.blank []).put "f" (.file ⟨bytes.toArray⟩)
    let t := (run disk ∅ []).run disk
      [.openFile "f", .readLine "f", .readLine "g", .readLine "f", .openFile "f", .closeFile "g"]
    disk.content? "f" = some ⟨bytes.toArray⟩ ∧ Line.Cut bytes lines ∧
    ((run disk ∅ []).call disk (.openFile "f")).2 = .ok none ∧
    Line.Answers "f" [10] (t.call disk (.readLine "f")).2 := by
  intro bytes lines disk t
  have regular : disk.content? "f" = some ⟨bytes.toArray⟩ := by decide +kernel
  have opened : ((run disk ∅ []).call disk (.openFile "f")).2 = .ok none := by rfl
  have cut : Line.Cut bytes lines :=
    @Line.Cut.line [97, 13, 13] _ _ (by decide) <| @Line.Cut.line [255] _ _ (by decide) <|
      @Line.Cut.line [] _ _ (by decide) <| .last (by decide) (by decide)
  refine ⟨regular, cut, opened, ?_⟩
  exact (((reading_loses_nothing disk [] "f").1 _ regular).2 lines cut).1 opened
    [.readLine "f", .readLine "g", .readLine "f", .openFile "f", .closeFile "g"] (by decide)

end OpenFiles

end Lockstep

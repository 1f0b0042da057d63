import Lockstep.Snapshot
import Lockstep.Proofs.Numerals

/-!
Printed forms tell values apart, and snapshots tell threads apart.

Text is printed as it is, without any escapes, so a printed text may look like anything else inside its
quotes. Nothing is lost by that: the first character of a printed value gives away its kind, and what
stands behind the kind has one reading only. A snapshot lists cells and variables in order, so it does
not show how they came about, and whatever it prints can be read off it again.
-/

namespace Lockstep

/-! ### Marks -/

namespace Text

/-- What stands before the first occurrence of a mark and what stands behind it can be told apart. -/
theorem append_mark_inj {α : Type} {mark : α} {front front' back back' : List α} (free : mark ∉ front)
    (free' : mark ∉ front') (same : front ++ mark :: back = front' ++ mark :: back') :
    front = front' ∧ back = back' := by
  induction front generalizing front' with
  | nil =>
    -- if only one front is empty, the mark stands first in the other one
    cases front' with
    | nil => exact ⟨rfl, (List.cons.inj same).2⟩
    | cons a rest => exact absurd (List.cons.inj same).1 (List.ne_of_not_mem_cons free')
  | cons a rest ih =>
    cases front' with
    | nil => exact absurd (List.cons.inj same).1.symm (List.ne_of_not_mem_cons free)
    | cons b rest' =>
      obtain ⟨rfl, tails⟩ := List.cons.inj same
      obtain ⟨rfl, behind⟩ :=
        ih (List.not_mem_of_not_mem_cons free) (List.not_mem_of_not_mem_cons free') tails
      exact ⟨rfl, behind⟩

theorem repr_inj {m n : Nat} : m.repr = n.repr ↔ m = n := by
  constructor
  · intro same
    have digits : Nat.toDigits 10 m = Nat.toDigits 10 n := by
      rw [← Nat.toList_repr, same, Nat.toList_repr]
    rw [← Nat.ofDigitChars_ten_toDigits (n := m), digits, Nat.ofDigitChars_ten_toDigits]
  · rintro rfl
    rfl

theorem not_mem_repr {c : Char} (strange : c.isDigit = false) (n : Nat) : c ∉ n.repr.toList := by
  intro member
  rw [Nat.toList_repr] at member
  rw [Nat.isDigit_of_mem_toDigits (by decide) (by decide) member] at strange
  cases strange

/-- A numeral ends where the first character stands that is no digit. -/
theorem repr_mark_inj {mark : Char} (strange : mark.isDigit = false) {m n : Nat} {back back' : List Char}
    (same : m.repr.toList ++ mark :: back = n.repr.toList ++ mark :: back') : m = n ∧ back = back' := by
  obtain ⟨numeral, behind⟩ := append_mark_inj (not_mem_repr strange m) (not_mem_repr strange n) same
  exact ⟨repr_inj.mp (String.toList_inj.mp numeral), behind⟩

end Text

/-! ### Types and values -/

theorem Ty.text_inj {s t : Ty} : s.text = t.text ↔ s = t := by
  constructor
  · intro same
    -- the brackets around the target are the same, so they can be taken off level by level
    induction s generalizing t with
    | ref s ih =>
      cases t with
      | ref t => rw [ih (by simpa [text] using same)]
      | _ => simpa [text] using congrArg String.toList same
    | _ =>
      cases t with
      | ref t => simpa [text] using congrArg String.toList same
      | _ => revert same; decide
  · rintro rfl
    rfl

namespace Value

/-- The kinds of values. -/
inductive Kind where
  | int
  | bool
  | string
  | ref
deriving DecidableEq

/-- The kind of a value. -/
def kind : Value → Kind
  | int _ => .int
  | bool _ => .bool
  | string _ => .string
  | ref _ _ => .ref

/-- The kind of the values whose printed form begins with the given character. -/
def Kind.ofOpening (c : Char) : Kind :=
  if c = '"' then .string
  else if c = '(' then .ref
  else if c = 't' ∨ c = 'f' then .bool
  else .int

theorem Kind.ofOpening_of_isDigit {c : Char} (digit : c.isDigit = true) : ofOpening c = .int := by
  have other (d : Char) (strange : d.isDigit = false) : c ≠ d := by
    rintro rfl
    rw [digit] at strange
    cases strange
  simp [ofOpening, other '"' (by decide), other '(' (by decide), other 't' (by decide),
    other 'f' (by decide)]

/-- The first character of a printed value gives away its kind. -/
theorem exists_opening (v : Value) :
    ∃ c rest, v.text.toList = c :: rest ∧ Kind.ofOpening c = v.kind := by
  cases v with
  | int n =>
    cases number : n.toInt with
    | ofNat m =>
      -- without a sign the numeral begins with a digit, of which there is at least one
      obtain ⟨c, rest, digits⟩ := List.exists_cons_of_ne_nil (Nat.toDigits_ne_nil (b := 10) (n := m))
      have first : c ∈ Nat.toDigits 10 m := by simp [digits]
      refine ⟨c, rest, by simp [text, number, Int.repr, digits], ?_⟩
      exact Kind.ofOpening_of_isDigit (Nat.isDigit_of_mem_toDigits (by decide) (by decide) first)
    | negSucc m =>
      refine ⟨'-', Nat.toDigits 10 (m + 1), by simp [text, number, Int.repr], ?_⟩
      simp [kind, Kind.ofOpening]
  | bool b =>
    cases b with
    | false => exact ⟨'f', "alse".toList, by decide, by decide⟩
    | true => exact ⟨'t', "rue".toList, by decide, by decide⟩
  | string s => exact ⟨'"', s.toList ++ ['"'], by simp [text], by simp [kind, Kind.ofOpening]⟩
  | ref a t =>
    refine ⟨'(', (a.repr ++ ", " ++ t.text ++ ")").toList, by simp [text], ?_⟩
    simp [kind, Kind.ofOpening]

theorem kind_of_text_eq {v w : Value} (same : v.text = w.text) : v.kind = w.kind := by
  obtain ⟨c, rest, text, opening⟩ := v.exists_opening
  obtain ⟨c', rest', text', opening'⟩ := w.exists_opening
  rw [same, text'] at text
  rw [← opening, ← opening', (List.cons.inj text).1]

/-- Integers are read back from their printed form. -/
theorem readInt64?_text (n : Int64) : Text.readInt64? (int n).text = some n :=
  Text.readInt64?_eq_some_iff.mpr (Text.denotes_text n)

theorem ref_text_inj {a b : Nat} {s t : Ty} (same : (ref a s).text = (ref b t).text) :
    a = b ∧ s = t := by
  have chars : a.repr.toList ++ ',' :: ' ' :: (s.text.toList ++ [')']) =
      b.repr.toList ++ ',' :: ' ' :: (t.text.toList ++ [')']) := by
    simpa [text] using congrArg String.toList same
  -- the comma ends the address, and what is left is the type in the same brackets
  obtain ⟨address, behind⟩ := Text.repr_mark_inj (by decide) chars
  refine ⟨address, Ty.text_inj.mp (String.toList_inj.mp ?_)⟩
  simpa using behind

theorem text_inj {v w : Value} : v.text = w.text ↔ v = w := by
  constructor
  · intro same
    -- only values of one kind are left to be told apart
    have kind := kind_of_text_eq same
    cases v with
    | int n =>
      cases w with
      | int m =>
        have read := readInt64?_text n
        rw [same, readInt64?_text m] at read
        rw [Option.some.inj read]
      | _ => cases kind
    | bool b =>
      cases w with
      | bool b' => cases b <;> cases b' <;> simp [text] at same ⊢
      | _ => cases kind
    | string s =>
      cases w with
      | string s' => simpa [text] using same
      | _ => cases kind
    | ref a t =>
      cases w with
      | ref a' t' =>
        obtain ⟨address, target⟩ := ref_text_inj same
        rw [address, target]
      | _ => cases kind
  · rintro rfl
    rfl

end Value

/-! ### Snapshots -/

namespace Snapshot

section

variable {κ : Type} {cmp : κ → κ → Ordering} [Std.TransCmp cmp]

/-- A table is determined by its keys and the printed forms of its values. -/
theorem table_inj {σ τ : Std.ExtTreeMap κ Value cmp}
    (same : σ.toList.map (fun b => (b.1, b.2.text)) = τ.toList.map fun b => (b.1, b.2.text)) : σ = τ := by
  have entries : σ.toList = τ.toList := by
    refine (List.map_inj_right ?_).mp same
    rintro ⟨x, v⟩ ⟨y, w⟩ entry
    obtain ⟨key, text⟩ := Prod.mk.inj entry
    exact Prod.ext key (Value.text_inj.mp text)
  exact Std.ExtTreeMap.toList_inj.mp entries

theorem mem_table [Std.LawfulEqCmp cmp] {σ : Std.ExtTreeMap κ Value cmp} {x : κ} {s : String} :
    (x, s) ∈ σ.toList.map (fun b => (b.1, b.2.text)) ↔ ∃ v, σ[x]? = some v ∧ v.text = s := by
  simp only [List.mem_map, Prod.exists, Prod.mk.injEq, Std.ExtTreeMap.mem_toList_iff_getElem?_eq_some]
  constructor
  · rintro ⟨y, v, bound, rfl, shown⟩
    exact ⟨v, bound, shown⟩
  · rintro ⟨v, bound, shown⟩
    exact ⟨x, v, bound, rfl, shown⟩

end

variable (h : Heap) (t : Thread)

theorem heap_sorted : (ofThread h t).heap.Pairwise fun c d => c.1 < d.1 := by
  refine List.pairwise_map.mpr (Std.ExtTreeMap.ordered_keys_toList.imp fun {c d} lower => ?_)
  exact Nat.compare_eq_lt.mp lower

theorem symbols_sorted : (ofThread h t).symbols.Pairwise fun b c => b.1 < c.1 := by
  refine List.pairwise_map.mpr (Std.ExtTreeMap.ordered_keys_toList.imp fun {b c} lower => ?_)
  exact compareOfLessAndEq_eq_lt.mp lower

/-- Snapshots lose no data. Two values have the same printed form only if they are the same, and so have
two types. Hence threads with the same snapshot have the same number, variables, cells, output and names
of open files, and both can be stepped or neither. Cells and variables are listed strictly in order of
their addresses and names, each with its printed value and nothing else, so that it does not show in which
order they came about. -/
theorem nothing_lost :
    (∀ v w : Value, v.text = w.text ↔ v = w) ∧
    (∀ s t : Ty, s.text = t.text ↔ s = t) ∧
    (∀ (h h' : Heap) (t t' : Thread), ofThread h t = ofThread h' t' →
      t.id = t'.id ∧ t.symbols = t'.symbols ∧ h.cells = h'.cells ∧ t.output = t'.output ∧
      (∀ name, name ∈ t.files ↔ name ∈ t'.files) ∧ t.isActive = t'.isActive) ∧
    ∀ (h : Heap) (t : Thread),
      ((ofThread h t).heap.Pairwise fun c d => c.1 < d.1) ∧
      (∀ a s, (a, s) ∈ (ofThread h t).heap ↔ ∃ v, h.cells[a]? = some v ∧ v.text = s) ∧
      ((ofThread h t).symbols.Pairwise fun b c => b.1 < c.1) ∧
      (∀ x s, (x, s) ∈ (ofThread h t).symbols ↔ ∃ v, t.symbols[x]? = some v ∧ v.text = s) := by
  refine ⟨fun _ _ => Value.text_inj, fun _ _ => Ty.text_inj, ?_, fun h t => ?_⟩
  · intro h h' t t' same
    -- the texts of the status and of the statements are left out, which can be ambiguous
    obtain ⟨id, -, finished, -, cells, symbols, output, files⟩ := Snapshot.mk.inj same
    refine ⟨id, table_inj symbols, table_inj cells, ?_, fun name => ?_, ?_⟩
    · exact (List.map_inj_right fun _ _ => Value.text_inj.mp).mp output
    · rw [← Std.ExtTreeMap.mem_keys, files, Std.ExtTreeMap.mem_keys]
    · simpa using finished
  · exact ⟨heap_sorted h t, fun a s => mem_table, symbols_sorted h t, fun x s => mem_table⟩

/-- Two threads that look the same although they have read different parts of a file and will go on in
different ways. Their variables and cells came about in different orders, and one of the variables is a text
that looks like two other values when it is printed. -/
theorem nothing_lost_look_alikes :
    let seven : Value := .int 7
    let link : Value := .ref 1 .int
    let chain : Value := .ref 4 (.ref .int)
    let tricky : Value := .string "1\", (2, int)"
    let unread : Handle := { place := ["in"], offset := 0 }
    let half : Handle := { place := ["in"], offset := 2 }
    let t : Thread := {
      id := 3, heap := 0, program := .nop, stack := [.print (.string "x")], status := .running,
      symbols := .ofList [("a", chain), ("b", tricky)], output := [tricky, seven],
      files := .ofList [("in", unread)] }
    let t' : Thread := { t with
      heap := 1, stack := [.print (.var "\"x\"")],
      symbols := .ofList [("b", tricky), ("a", chain)], files := .ofList [("in", half)] }
    let h : Heap := { cells := .ofList [(4, link), (1, seven)], next := 5 }
    let h' : Heap := { cells := .ofList [(1, seven), (4, link)], next := 9 }
    ofThread h t = ofThread h' t' ∧ t.stack ≠ t'.stack ∧ h.next ≠ h'.next ∧
    t.symbols = t'.symbols ∧ h.cells = h'.cells ∧ t.isActive = t'.isActive := by
  intro seven link chain tricky unread half t t' h h'
  have same : ofThread h t = ofThread h' t' := by decide +kernel
  obtain ⟨-, symbols, cells, -, -, active⟩ := nothing_lost.2.2.1 h h' t t' same
  exact ⟨same, by decide, by decide, symbols, cells, active⟩

end Snapshot

end Lockstep

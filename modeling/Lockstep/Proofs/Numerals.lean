import Lockstep.Value
import Lockstep.Proofs.Exact
import Mathlib.Data.List.Induction
import Mathlib.Data.List.TakeWhile
import Mathlib.Data.Nat.Digits.Defs

/-!
Numerals: which texts are read as integers, and as which.

A text is read as an integer if it is a numeral with nothing but blanks around it. `Denotes` says what a
numeral is and what it stands for, by the place values of its digits; reading accepts exactly the numerals of
64-bit integers. The printed form of an integer is one of its numerals.
-/

namespace Lockstep.Text

/-! ### Trimming -/

/-- `core` is `xs` without the blanks on both sides. -/
def Trims (xs core : List Char) : Prop :=
  ∃ front back, xs = front ++ core ++ back ∧ (∀ c ∈ front, isBlank c = true) ∧
    (∀ c ∈ back, isBlank c = true) ∧ (∀ c, core.head? = some c → isBlank c = false) ∧
    ∀ c, core.getLast? = some c → isBlank c = false

section

variable {p : Char → Bool} {xs core tail : List Char}

theorem dropWhile_of_head (stays : ∀ c, xs.head? = some c → p c = false) : xs.dropWhile p = xs := by
  cases xs with
  | nil => rfl
  | cons c rest => rw [List.dropWhile_cons, if_neg (by simp [stays c rfl])]

theorem dropEndWhile_append (gone : ∀ c ∈ tail, p c = true) (xs : List Char) :
    dropEndWhile p (xs ++ tail) = dropEndWhile p xs := by
  have reversed : ∀ c ∈ tail.reverse, p c = true := fun c member => gone c (List.mem_reverse.mp member)
  rw [dropEndWhile, List.reverse_append, List.dropWhile_append_of_pos reversed, dropEndWhile]

theorem Trims.trim_eq {s : String} (trims : Trims s.toList core) : (trim s).toList = core := by
  obtain ⟨front, back, whole, before, behind, head, last⟩ := trims
  rw [trim, String.toList_ofList, whole, List.append_assoc, List.dropWhile_append_of_pos before]
  cases core with
  | nil =>
    rw [List.nil_append, List.dropWhile_eq_nil_iff.mpr behind]
    rfl
  | cons c rest =>
    have stays : ∀ d, (c :: rest ++ back).head? = some d → isBlank d = false := head
    rw [dropWhile_of_head stays, dropEndWhile_append behind, dropEndWhile, dropWhile_of_head,
      List.reverse_reverse]
    intro d first
    rw [List.head?_reverse] at first
    exact last d first

theorem trims_trim (s : String) : Trims s.toList (trim s).toList := by
  have start := List.takeWhile_append_dropWhile (p := isBlank) (l := s.toList)
  have ending := List.takeWhile_append_dropWhile (p := isBlank) (l := (s.toList.dropWhile isBlank).reverse)
  rw [trim, String.toList_ofList, dropEndWhile]
  have middle : s.toList.dropWhile isBlank =
      ((s.toList.dropWhile isBlank).reverse.dropWhile isBlank).reverse ++
        ((s.toList.dropWhile isBlank).reverse.takeWhile isBlank).reverse := by
    rw [← List.reverse_append, ending, List.reverse_reverse]
  refine ⟨s.toList.takeWhile isBlank, ((s.toList.dropWhile isBlank).reverse.takeWhile isBlank).reverse,
    ?_, ?_, ?_, ?_, ?_⟩
  · rw [List.append_assoc, ← middle, start]
  · exact fun c member => List.all_eq_true.mp List.all_takeWhile c member
  · exact fun c member => List.all_eq_true.mp List.all_takeWhile c (List.mem_reverse.mp member)
  · intro c head
    -- what is left starts where the trimmed text starts
    have stays := List.head?_dropWhile_not isBlank s.toList
    rw [middle, List.head?_append, head] at stays
    exact stays
  · intro c last
    have stays := List.head?_dropWhile_not isBlank (s.toList.dropWhile isBlank).reverse
    rw [List.getLast?_reverse] at last
    rwa [last] at stays

theorem Trims.append_blank (trims : Trims xs core) (blank : ∀ c ∈ tail, isBlank c = true) :
    Trims (xs ++ tail) core := by
  obtain ⟨front, back, rfl, before, behind, ends⟩ := trims
  refine ⟨front, back ++ tail, by simp, before, fun c member => ?_, ends⟩
  rcases List.mem_append.mp member with inner | outer
  · exact behind c inner
  · exact blank c outer

end

/-! ### What numerals denote -/

/-- A non-empty list of decimal digits, and the number that it denotes. -/
structure IsDigits (cs : List Char) (n : Nat) : Prop where
  some_ : cs ≠ []
  decimal : ∀ c ∈ cs, '0' ≤ c ∧ c ≤ '9'
  value : n = Nat.ofDigits 10 (cs.reverse.map fun c => c.toNat - '0'.toNat)

/-- A numeral and the integer that it denotes: digits with at most one sign before them. -/
inductive Denotes : List Char → Int → Prop where
  | plain {cs : List Char} {n : Nat} (digits : IsDigits cs n) : Denotes cs n
  | plus {cs : List Char} {n : Nat} (digits : IsDigits cs n) : Denotes ('+' :: cs) n
  | minus {cs : List Char} {n : Nat} (digits : IsDigits cs n) : Denotes ('-' :: cs) (-n)

variable {cs : List Char}

theorem isDigit_iff (c : Char) : c.isDigit = true ↔ '0' ≤ c ∧ c ≤ '9' := by
  simp [Char.isDigit, Char.le_def]

theorem ofDigitChars_eq_ofDigits (cs : List Char) :
    Nat.ofDigitChars 10 cs 0 = Nat.ofDigits 10 (cs.reverse.map fun c => c.toNat - '0'.toNat) := by
  -- from the back, since the last digit is the one with the lowest place value
  induction cs using List.reverseRecOn with
  | nil => rfl
  | append_singleton cs c ih =>
    rw [Nat.ofDigitChars_append, Nat.ofDigitChars_cons, Nat.ofDigitChars_nil, ih, List.reverse_append]
    simp [Nat.ofDigits_cons, Nat.add_comm]

theorem natOfDigits?_eq_some_iff {n : Nat} : natOfDigits? cs = some n ↔ IsDigits cs n := by
  have decimal : cs.all Char.isDigit = true ↔ ∀ c ∈ cs, '0' ≤ c ∧ c ≤ '9' := by
    simp only [List.all_eq_true, isDigit_iff]
  simp only [natOfDigits?, decimal, ofDigitChars_eq_ofDigits]
  constructor
  · intro read
    split at read
    next digits => exact ⟨digits.1, digits.2, (Option.some.inj read).symm⟩
    · cases read
  · rintro ⟨some_, digits, rfl⟩
    exact if_pos ⟨some_, digits⟩

theorem IsDigits.head_ne {n : Nat} {c : Char} (digits : IsDigits (c :: cs) n) : c ≠ '-' ∧ c ≠ '+' := by
  obtain ⟨low, -⟩ := digits.decimal c (List.mem_cons_self ..)
  constructor
  · rintro rfl
    exact absurd low (by decide)
  · rintro rfl
    exact absurd low (by decide)

theorem intOfDigits?_eq_some_iff {n : Int} : intOfDigits? cs = some n ↔ Denotes cs n := by
  constructor
  · intro read
    unfold intOfDigits? at read
    split at read
    all_goals
      simp only [Option.map_eq_some_iff, Option.bind_eq_bind, Option.bind_eq_some_iff, Option.pure_def,
        Option.some.injEq, natOfDigits?_eq_some_iff] at read
      obtain ⟨_, ⟨m, digits, rfl⟩, rfl⟩ := read
    · exact .minus digits
    · exact .plus digits
    · exact .plain digits
  · intro denotes
    cases denotes with
    | minus digits => simp [intOfDigits?, natOfDigits?_eq_some_iff.mpr digits]
    | plus digits => simp [intOfDigits?, natOfDigits?_eq_some_iff.mpr digits]
    | plain digits =>
      -- a digit is no sign
      unfold intOfDigits?
      split
      · exact absurd rfl digits.head_ne.1
      · exact absurd rfl digits.head_ne.2
      · simp [natOfDigits?_eq_some_iff.mpr digits]

theorem int64?_eq_some_iff {n : Int} {k : Int64} : int64? n = some k ↔ n = k.toInt := by
  constructor
  · intro fits
    by_cases inRange : FitsInt64 n
    · obtain ⟨c, found, same⟩ := int64?_of_fits inRange
      rw [found, Option.some.injEq] at fits
      rw [← fits, same]
    · rw [int64?_of_exceeds inRange] at fits
      cases fits
  · rintro rfl
    obtain ⟨c, found, same⟩ := int64?_of_fits (fitsInt64_toInt k)
    rw [found, Int64.toInt_inj.mp same]

/-- Reading accepts exactly the numerals of 64-bit integers. -/
theorem readInt64?_eq_some_iff {s : String} {k : Int64} :
    readInt64? s = some k ↔ Denotes s.toList k.toInt := by
  simp [readInt64?, Option.bind_eq_some_iff, intOfDigits?_eq_some_iff, int64?_eq_some_iff]

/-! ### The printed form of an integer -/

theorem isDigits_toDigits (n : Nat) : IsDigits (Nat.toDigits 10 n) n where
  some_ := Nat.toDigits_ne_nil
  decimal c member := (isDigit_iff c).mp (Nat.isDigit_of_mem_toDigits (by decide) (by decide) member)
  value := by rw [← ofDigitChars_eq_ofDigits, Nat.ofDigitChars_ten_toDigits]

theorem denotes_text (n : Int64) : Denotes (Value.int n).text.toList n.toInt := by
  cases number : n.toInt with
  | ofNat m =>
    have text : (Value.int n).text.toList = Nat.toDigits 10 m := by
      simp [Value.text, number, Int.repr, Nat.toList_repr]
    rw [text]
    exact .plain (isDigits_toDigits m)
  | negSucc m =>
    have text : (Value.int n).text.toList = '-' :: Nat.toDigits 10 (m + 1) := by
      simp [Value.text, number, Int.repr, Nat.toList_repr]
    rw [text, Int.negSucc_eq]
    exact .minus (isDigits_toDigits (m + 1))

theorem isBlank_of_digit {c : Char} (digit : '0' ≤ c ∧ c ≤ '9') : isBlank c = false := by
  obtain ⟨low, high⟩ := digit
  have least : 48 ≤ c.toNat := low
  have most : c.toNat ≤ 57 := high
  simp only [isBlank, blankRanges, List.any_cons, List.any_nil, Bool.or_false, Bool.or_eq_false_iff,
    Bool.and_eq_false_iff, decide_eq_false_iff_not]
  omega

/-- There is no blank in a numeral. -/
theorem Denotes.isBlank_eq_false {n : Int} (denotes : Denotes cs n) {c : Char} (member : c ∈ cs) :
    isBlank c = false := by
  cases denotes with
  | plain digits => exact isBlank_of_digit (digits.decimal c member)
  | plus digits =>
    rcases List.mem_cons.mp member with rfl | later
    · decide
    · exact isBlank_of_digit (digits.decimal c later)
  | minus digits =>
    rcases List.mem_cons.mp member with rfl | later
    · decide
    · exact isBlank_of_digit (digits.decimal c later)

/-- A text shows an integer if, without the blanks on both sides, it is a numeral of it. -/
def Shows (s : String) (n : Int) : Prop :=
  ∃ core, Trims s.toList core ∧ Denotes core n

theorem shows_iff {s : String} {n : Int} : Shows s n ↔ Denotes (trim s).toList n := by
  constructor
  · rintro ⟨core, trims, denotes⟩
    rwa [trims.trim_eq]
  · intro denotes
    exact ⟨_, trims_trim s, denotes⟩

end Lockstep.Text

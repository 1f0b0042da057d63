import Lockstep.Stmt.Exec
import Mathlib.Data.List.Basic

/-!
Lines that are no integers.

In the bytes of a text, one below 128 is always a character of its own, whatever stands around it. So a line
with the byte of a character that no integer is written with is refused, also where the line had been begun
before the rest of it was appended.
-/

namespace Lockstep

/-! ### Characters of integers -/

namespace Text

/-- Whether a character can stand in a line that is read as an integer. -/
def isNumeric (c : Char) : Bool :=
  c.isDigit || c = '+' || c = '-' || isBlank c

theorem mem_dropWhile {α : Type} {p : α → Bool} {xs : List α} {a : α} (member : a ∈ xs)
    (stays : p a = false) : a ∈ xs.dropWhile p := by
  rw [← List.takeWhile_append_dropWhile (p := p) (l := xs)] at member
  rcases List.mem_append.mp member with dropped | kept
  · have gone := List.all_eq_true.mp List.all_takeWhile a dropped
    rw [stays] at gone
    cases gone
  · exact kept

theorem mem_dropEndWhile {α : Type} {p : α → Bool} {xs : List α} {a : α} (member : a ∈ xs)
    (stays : p a = false) : a ∈ dropEndWhile p xs :=
  List.mem_reverse.mpr (mem_dropWhile (List.mem_reverse.mpr member) stays)

variable {s : String} {c : Char}

theorem mem_trimEnd {p : Char → Bool} (member : c ∈ s.toList) (stays : p c = false) :
    c ∈ (trimEnd p s).toList := by
  rw [trimEnd, String.toList_ofList]
  exact mem_dropEndWhile member stays

theorem mem_trim (member : c ∈ s.toList) (visible : isBlank c = false) : c ∈ (trim s).toList := by
  rw [trim, String.toList_ofList]
  exact mem_dropEndWhile (mem_dropWhile member visible) visible

theorem natOfDigits?_eq_none {cs : List Char} (member : c ∈ cs) (strange : c.isDigit = false) :
    natOfDigits? cs = none := by
  refine if_neg fun ⟨_, digits⟩ => ?_
  have digit := List.all_eq_true.mp digits c member
  rw [strange] at digit
  cases digit

theorem readInt64?_eq_none (member : c ∈ s.toList) (strange : isNumeric c = false) :
    readInt64? s = none := by
  simp only [isNumeric, Bool.or_eq_false_iff, decide_eq_false_iff_not] at strange
  obtain ⟨⟨⟨noDigit, noPlus⟩, noMinus⟩, -⟩ := strange
  have none : intOfDigits? s.toList = none := by
    -- behind a sign the character is still there
    unfold intOfDigits?
    split
    next cs sign =>
      have behind : c ∈ cs := by simpa [sign, noMinus] using member
      rw [natOfDigits?_eq_none behind noDigit]
      rfl
    next cs sign =>
      have behind : c ∈ cs := by simpa [sign, noPlus] using member
      rw [natOfDigits?_eq_none behind noDigit]
      rfl
    · rw [natOfDigits?_eq_none member noDigit]
      rfl
  rw [readInt64?, none, Option.bind_none]

/-! ### Bytes of texts -/

/-- A byte below 128 is only used to encode the character that it is the number of. -/
theorem toNat_of_mem_encoding {b : UInt8} (low : b.toNat < 128) (member : b ∈ String.utf8EncodeChar c) :
    c.toNat = b.toNat := by
  have high {n : Nat} (least : 128 ≤ n) (most : n < 256) : b ≠ UInt8.ofNat n := by
    rintro rfl
    rw [UInt8.toNat_ofNat_of_lt' most] at low
    omega
  simp only [String.utf8EncodeChar] at member
  split at member
  next single =>
    have fits : c.val.toNat < UInt8.size := Nat.lt_of_le_of_lt single (by decide)
    rw [List.mem_singleton.mp member, UInt8.toNat_ofNat_of_lt' fits]
    rfl
  · -- all bytes of a longer encoding are at least 128
    exfalso
    split at member
    · rcases List.mem_pair.mp member with first | second
      · exact high (by omega) (by omega) first
      · exact high (by omega) (by omega) second
    · split at member
      · simp only [List.mem_cons, List.not_mem_nil, or_false] at member
        rcases member with first | second | third
        · exact high (by omega) (by omega) first
        · exact high (by omega) (by omega) second
        · exact high (by omega) (by omega) third
      · simp only [List.mem_cons, List.not_mem_nil, or_false] at member
        rcases member with first | second | third | fourth
        · exact high (by omega) (by omega) first
        · exact high (by omega) (by omega) second
        · exact high (by omega) (by omega) third
        · exact high (by omega) (by omega) fourth

theorem bytes_eq_flatMap (s : String) :
    s.toByteArray.data.toList = s.toList.flatMap String.utf8EncodeChar := by
  rw [← String.utf8Encode_toList, List.utf8Encode, List.toList_data_toByteArray]

/-- A byte below 128 in a text is a character of the text. -/
theorem mem_toList_of_mem_bytes {b : UInt8} (low : b.toNat < 128)
    (member : b ∈ s.toByteArray.data.toList) : Char.ofNat b.toNat ∈ s.toList := by
  rw [bytes_eq_flatMap, List.mem_flatMap] at member
  obtain ⟨c, there, encoded⟩ := member
  rwa [← toNat_of_mem_encoding low encoded, Char.ofNat_toNat]

theorem mem_bytes_of_mem_toList (low : c.toNat < 128) (member : c ∈ s.toList) :
    UInt8.ofNat c.toNat ∈ s.toByteArray.data.toList := by
  have single : String.utf8EncodeChar c = [UInt8.ofNat c.toNat] := if_pos (Nat.le_of_lt_succ low)
  rw [bytes_eq_flatMap, List.mem_flatMap]
  exact ⟨c, member, by simp [single]⟩

end Text

/-! ### Lines -/

namespace Line

/-- A line that cannot be read as an integer. -/
def NoInteger (line : List UInt8) : Prop :=
  ∀ text, text? line = some text → Text.readInt64? (Text.trim text) = none

theorem NoInteger.lineValue {line : List UInt8} (strange : NoInteger line) {text : String}
    (decoded : text? line = some text) (name : String) :
    Store.lineValue name (some text) = .error (.lineNotInt name (Text.trim text)) := by
  simp only [Store.lineValue, strange text decoded]

theorem noInteger_of_mem {line : List UInt8} {b : UInt8} (member : b ∈ line) (low : b.toNat < 128)
    (strange : Text.isNumeric (Char.ofNat b.toNat) = false) : NoInteger line := by
  intro text decoded
  obtain ⟨whole, found, rfl⟩ := Option.map_eq_some_iff.mp decoded
  have bytes := fromUTF8?_eq_some_iff.mp found
  rw [← bytes] at member
  have visible : Text.isBlank (Char.ofNat b.toNat) = false := by
    simp only [Text.isNumeric, Bool.or_eq_false_iff] at strange
    exact strange.2
  -- neither kind of trimming takes the character away
  refine Text.readInt64?_eq_none (Text.mem_trim (Text.mem_trimEnd (Text.mem_toList_of_mem_bytes low member) ?_)
    visible) strange
  rw [Bool.or_eq_false_iff, decide_eq_false_iff_not, decide_eq_false_iff_not]
  constructor
  · intro same
    rw [same] at visible
    exact absurd visible (by decide)
  · intro same
    rw [same] at visible
    exact absurd visible (by decide)

end Line

end Lockstep

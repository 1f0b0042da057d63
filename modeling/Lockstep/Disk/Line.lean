import Lockstep.Text.Blank

/-!
Lines of a file: the bytes up to and including a line feed, or to the end of the file.
-/

namespace Lockstep.Line

/-- The byte that ends a line. -/
def feed : UInt8 := 10

/-- The bytes of the first line, its line feed included; empty only for no bytes at all. -/
def first : List UInt8 → List UInt8
  | [] => []
  | b :: rest => if b = feed then [b] else b :: first rest

theorem length_first_le (xs : List UInt8) : (first xs).length ≤ xs.length := by
  induction xs with
  | nil => exact Nat.le_refl _
  | cons b rest ih =>
    simp only [first]
    split
    · simp
    · simpa using ih

theorem first_append {xs : List UInt8} (ended : feed ∈ xs) (ys : List UInt8) :
    first (xs ++ ys) = first xs := by
  induction xs with
  | nil => simp at ended
  | cons b rest ih =>
    simp only [List.cons_append, first]
    split
    · rfl
    next other =>
      rcases List.mem_cons.mp ended with here | later
      · exact absurd here.symm other
      · rw [ih later]

theorem first_append_of_not_mem {xs : List UInt8} (open_ : feed ∉ xs) (ys : List UInt8) :
    first (xs ++ ys) = xs ++ first ys := by
  induction xs with
  | nil => rfl
  | cons b rest ih =>
    obtain ⟨other, later⟩ := List.ne_and_not_mem_of_not_mem_cons open_
    rw [List.cons_append, first, if_neg (Ne.symm other), ih later, List.cons_append]

/-- The text of a line without the line feeds and carriage returns at its end, if the bytes are
UTF-8. -/
def text? (bytes : List UInt8) : Option String :=
  (String.fromUTF8? ⟨bytes.toArray⟩).map (Text.trimEnd fun c => c = '\r' || c = '\n')

theorem fromUTF8?_eq_some_iff {bytes : List UInt8} {s : String} :
    String.fromUTF8? ⟨bytes.toArray⟩ = some s ↔ s.toByteArray.data.toList = bytes := by
  constructor
  · intro decoded
    simp only [String.fromUTF8?] at decoded
    split at decoded
    · cases decoded
      rfl
    · cases decoded
  · rintro rfl
    exact dif_pos s.isValidUTF8

end Lockstep.Line

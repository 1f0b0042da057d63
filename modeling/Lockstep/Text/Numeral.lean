/-!
Decimal numerals: an optional sign, then at least one of the digits `0` to `9`.

Signed numerals denote 64-bit integers, unsigned ones counts below `2 ^ 64`; a numeral outside the
range denotes nothing.
-/

namespace Lockstep

/-- The 64-bit integer with the given value, if it is in range. -/
def int64? (n : Int) : Option Int64 :=
  if Int64.minValue.toInt ≤ n ∧ n ≤ Int64.maxValue.toInt then some (Int64.ofInt n) else none

namespace Text

/-- The number that a non-empty list of digits denotes. -/
def natOfDigits? (cs : List Char) : Option Nat :=
  if cs ≠ [] ∧ cs.all Char.isDigit then some (Nat.ofDigitChars 10 cs 0) else none

/-- The integer that an optionally signed list of digits denotes. -/
def intOfDigits? : List Char → Option Int
  | '-' :: cs => (natOfDigits? cs).map fun n => -(n : Int)
  | '+' :: cs => (natOfDigits? cs).map fun n => (n : Int)
  | cs => (natOfDigits? cs).map fun n => (n : Int)

/-- The 64-bit integer that a text denotes. -/
def readInt64? (s : String) : Option Int64 :=
  (intOfDigits? s.toList).bind int64?

/-- Counts are below this number, which is `2 ^ 64`. -/
def countLimit : Nat := 18446744073709551616

/-- The count below `2 ^ 64` that a text denotes; a plus sign may stand before it. -/
def readCount? (s : String) : Option Nat :=
  let digits := match s.toList with
    | '+' :: cs => cs
    | cs => cs
  (natOfDigits? digits).filter (· < countLimit)

end Text

end Lockstep

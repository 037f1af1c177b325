/-
  ReportStore.Number.Binary64
  ───────────────────────────
  **DOUBLES AS WORDS, IN EXACT ARITHMETIC.**

  A measurement is an IEEE 754 double.  It is kept as its 64-bit word, and
  everything about it is computed with natural numbers, so nothing rests on
  the machine's floating point.  The unit of all magnitudes is the least
  positive double, 2 to the power −1074: a finite double is a whole number
  of units,

      magnitude x = significand x * twoTo (scale x),

  and a quotient of naturals, read as units, is rounded to the nearest
  double, a tie to the even significand.
-/
import ReportStore.Number.Power

namespace ReportStore

/-- An IEEE 754 double, as its word. -/
structure Binary64 where
  /-- Sign, eleven bits of exponent, fifty-two bits of fraction. -/
  bits : UInt64
  deriving DecidableEq

namespace Binary64

/-! ## §1. The fields of the word. -/

/-- The word as a number. -/
def word (x : Binary64) : Nat := x.bits.toNat

/-- Whether the sign bit is set. -/
def negative (x : Binary64) : Bool := decide (twoTo 63 ≤ x.word)

/-- The biased exponent. -/
def exponentField (x : Binary64) : Nat := x.word / twoTo 52 % twoTo 11

/-- The fifty-two bits below the exponent. -/
def fraction (x : Binary64) : Nat := x.word % twoTo 52

/-- Neither an infinity nor a NaN. -/
def isFinite (x : Binary64) : Bool := x.exponentField != 2047

/-- Not a number. -/
def isNaN (x : Binary64) : Bool := x.exponentField == 2047 && x.fraction != 0

/-- One of the two zeros. -/
def isZero (x : Binary64) : Bool := x.exponentField == 0 && x.fraction == 0

/-- The significand of a finite double, with the hidden bit of a normal one. -/
def significand (x : Binary64) : Nat :=
  if x.exponentField = 0 then x.fraction else twoTo 52 + x.fraction

/-- The power of two that the significand counts, in units. -/
def scale (x : Binary64) : Nat := x.exponentField - 1

/-- The magnitude of a finite double, in units. -/
def magnitude (x : Binary64) : Nat := x.significand * twoTo x.scale

/-! ## §2. Building doubles. -/

/-- The double of a word. -/
def ofWord (n : Nat) : Binary64 := ⟨UInt64.ofNat n⟩

/-- The word of a sign. -/
def signWord (neg : Bool) : Nat := if neg then twoTo 63 else 0

/-- Zero with a sign. -/
def zero (neg : Bool) : Binary64 := ofWord (signWord neg)

/-- Infinity with a sign. -/
def infinity (neg : Bool) : Binary64 := ofWord (signWord neg + 2047 * twoTo 52)

/-- A NaN with a sign. -/
def nan (neg : Bool) : Binary64 := ofWord (signWord neg + 2047 * twoTo 52 + twoTo 51)

/-- The word, its sign apart, of a significand and a scale.  A significand
of two to the 53 carries into the exponent. -/
def packed (m p : Nat) : Nat :=
  if m < twoTo 52 then m else (p + 1) * twoTo 52 + (m - twoTo 52)

/-- The double of a significand and a scale; infinity where the exponent
has no room. -/
def ofParts (neg : Bool) (m p : Nat) : Binary64 :=
  if packed m p < 2047 * twoTo 52 then ofWord (signWord neg + packed m p) else infinity neg

/-- A quotient rounded to the nearest whole number, a tie to the even one. -/
def roundedQuotient (num den : Nat) : Nat :=
  let q := num / den
  let r := num % den
  if den < 2 * r ∨ (2 * r = den ∧ q % 2 = 1) then q + 1 else q

/-- The double nearest to `num / den` units. -/
def ofQuotient (neg : Bool) (num den : Nat) : Binary64 :=
  -- Below two to the 53 units every whole number is a double, so `p` is 0 there.
  let p := (num / den).log2 - 52
  ofParts neg (roundedQuotient num (den * twoTo p)) p

/-! ## §3. Comparison. -/

/-- Equality of numbers: a NaN differs from itself, the zeros are equal. -/
def agrees (x y : Binary64) : Bool :=
  !x.isNaN && !y.isNaN && (x == y || (x.isZero && y.isZero))

end Binary64

end ReportStore

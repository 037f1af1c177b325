/-
  ReportStore.Number.Shortest
  ───────────────────────────
  **THE FEWEST DIGITS THAT READ BACK.**

  A positive double is written with the fewest decimal digits that denote
  it, and with those that come nearest to it.  For one, two, … seventeen
  digits the two decimals that enclose the double on that grid are tried;
  the first grid on which one of them reads back gives the answer.  Should
  none do, the exact expansion is written, so the answer always reads back.
-/
import ReportStore.Number.Decimal

namespace ReportStore

/-- Which of two decimals to take when both are equally near. -/
inductive Tie where
  /-- The larger one. -/
  | up
  /-- The one whose last digit is even. -/
  | even
  deriving DecidableEq

namespace Binary64

/-! ## §1. The grid. -/

/-- The exponent of the leading digit: the least double has the exponent
−324, so the count is of the digits of the value times 10 to the 324. -/
def leadingExponent (x : Binary64) : Int :=
  (Text.Digits.ofNat (x.magnitude * tenTo 324 / twoTo 1074)).length - 325

/-- A double over a power of ten, as a quotient of naturals. -/
def overPowerOfTen (x : Binary64) (e : Int) : Nat × Nat :=
  if 0 ≤ e then (x.magnitude, twoTo 1074 * tenTo e.toNat)
  else (x.magnitude * tenTo (-e).toNat, twoTo 1074)

/-- Whether a decimal denotes this double, its sign apart. -/
def isDenotedBy (x : Binary64) (d : Decimal) : Bool :=
  d.toBinary64 x.negative == x

/-- Whether the upper of two decimals that enclose a quotient is written: it
is the nearer one, or it is as near and the tie is its. -/
def prefersHigh (tie : Tie) (num den : Nat) : Bool :=
  let r := num % den
  den < 2 * r || (2 * r == den && (tie == .up || num / den % 2 == 1))

/-- Of two decimals the one to write, if one is accepted. -/
def choose? (accepts : Decimal → Bool) (preferHigh : Bool) (low high : Decimal) :
    Option Decimal :=
  match accepts low, accepts high with
  | true, true => some (if preferHigh then high else low)
  | true, false => some low
  | false, true => some high
  | false, false => none

/-- Of the two decimals with so many digits that enclose a double, the one
to write, if one denotes it. -/
def onGrid? (tie : Tie) (x : Binary64) (count : Nat) : Option Decimal :=
  let e := x.leadingExponent - (count - 1 : Nat)
  let quotient := x.overPowerOfTen e
  let q := quotient.1 / quotient.2
  choose? x.isDenotedBy (prefersHigh tie quotient.1 quotient.2) ⟨q, e⟩ ⟨q + 1, e⟩

/-! ## §2. The shortest decimal. -/

/-- All digits of a finite double. -/
def exactDecimal (x : Binary64) : Decimal := ⟨x.magnitude * fiveTo 1074, -1074⟩

/-- The decimal to write for a finite double that is not zero. -/
def shortest (tie : Tie) (x : Binary64) : Decimal :=
  ((List.range' 1 17).findSome? (onGrid? tie x)).elim x.exactDecimal Decimal.strip

end Binary64

end ReportStore

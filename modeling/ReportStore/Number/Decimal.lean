/-
  ReportStore.Number.Decimal
  ──────────────────────────
  **DECIMAL NUMBERS AND THE DOUBLES THEY DENOTE.**

  A decimal is a whole number times a power of ten.  `toBinary64` gives the
  double nearest to it, exactly, and `Binary64.ofText?` reads the texts that
  denote doubles: an optional sign, then digits with an optional point among
  them and an optional exponent, or a word for infinity or NaN in any case
  of letters.
-/
import ReportStore.Number.Binary64
import ReportStore.Text.Digits

namespace ReportStore

/-- A whole number times a power of ten. -/
structure Decimal where
  digits : Nat
  exponent : Int
  deriving DecidableEq, Repr

namespace Decimal

/-! ## §1. The nearest double. -/

/-- Beyond this exponent every positive decimal is infinite. -/
def exponentBound : Int := 400

/-- The double nearest to a decimal.  Far outside the range of doubles the
answer is infinity or zero without computing the power of ten. -/
def toBinary64 (neg : Bool) (d : Decimal) : Binary64 :=
  if d.digits = 0 then .zero neg
  else if exponentBound < d.exponent then .infinity neg
  else if d.exponent < -(exponentBound + d.digits.log2) then .zero neg
  else if 0 ≤ d.exponent then
    .ofQuotient neg (d.digits * tenTo d.exponent.toNat * twoTo 1074) 1
  else .ofQuotient neg (d.digits * twoTo 1074) (tenTo (-d.exponent).toNat)

/-- The same number without zeros at the end of its digits. -/
def strip (d : Decimal) : Decimal :=
  if d.digits ≠ 0 ∧ d.digits % 10 = 0 then strip ⟨d.digits / 10, d.exponent + 1⟩ else d
termination_by d.digits
decreasing_by omega

end Decimal

/-! ## §2. Reading. -/

namespace Decimal

/-- The digits at the start of a text, and what follows them. -/
def spanDigits (cs : List Char) : List Char × List Char :=
  (cs.takeWhile Char.isDigit, cs.dropWhile Char.isDigit)

/-- The digits after an optional point, and what follows them. -/
def spanFraction : List Char → List Char × List Char
  | '.' :: cs => spanDigits cs
  | cs => ([], cs)

/-- The exponent that ends a text: none, or the letter `e` in either case
and a signed numeral. -/
def exponent? : List Char → Option Int
  | [] => some 0
  | 'e' :: cs => Text.Digits.int? cs
  | 'E' :: cs => Text.Digits.int? cs
  | _ => none

/-- Reads digits with an optional point among them and an optional
exponent.  At least one digit has to stand before the exponent. -/
def ofText? (cs : List Char) : Option Decimal :=
  let (whole, rest) := spanDigits cs
  let (part, rest) := spanFraction rest
  if whole ++ part = [] then none
  else (exponent? rest).map fun e =>
    ⟨Nat.ofDigitChars 10 (whole ++ part) 0, e - part.length⟩

end Decimal

namespace Binary64

/-- The doubles that words denote. -/
def ofWord? (neg : Bool) (cs : List Char) : Option Binary64 :=
  let w := String.ofList (cs.map Char.toLower)
  if w = "inf" ∨ w = "infinity" then some (infinity neg)
  else if w = "nan" then some (nan neg)
  else none

/-- Reads a number or a word, the sign already read. -/
def ofUnsigned? (neg : Bool) (cs : List Char) : Option Binary64 :=
  match Decimal.ofText? cs with
  | some d => some (d.toBinary64 neg)
  | none => ofWord? neg cs

/-- Reads the text of a double. -/
def ofText? : List Char → Option Binary64
  | '-' :: cs => ofUnsigned? true cs
  | '+' :: cs => ofUnsigned? false cs
  | cs => ofUnsigned? false cs

end Binary64

end ReportStore

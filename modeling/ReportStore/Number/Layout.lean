/-
  ReportStore.Number.Layout
  ─────────────────────────
  **HOW THE DIGITS OF A DOUBLE ARE LAID OUT.**

  The digits and the power of ten come from the shortest decimal; a layout
  decides everything else: between which exponents the number is written
  with a point in place, whether a whole number keeps `.0`, whether a
  positive exponent has a plus sign, what stands for the values that are no
  numbers.  The store has three layouts: cells, messages, JSON lines.
-/
import ReportStore.Number.Shortest

namespace ReportStore

/-- The decisions of a text format for doubles. -/
structure Layout where
  /-- The exponents of the leading digit from the first on and below the
  second are written with the point in place; `none`: all are. -/
  positional : Option (Int × Int)
  /-- Whether a whole number in place ends in `.0`. -/
  keepsPoint : Bool
  /-- Whether a positive exponent has a plus sign. -/
  plusSign : Bool
  /-- Which of two equally near decimals is written. -/
  tie : Tie
  /-- What stands for the infinities and NaN; `none`: a word for each. -/
  special : Option String

namespace Layout

/-! ## §1. The three layouts. -/

/-- Cells keep a mark of being no integer: `1.0`, `0.0001`, `1e16`, `1.5e-7`. -/
def cell : Layout := ⟨some (-4, 16), true, false, .up, none⟩

/-- Messages never use exponents and drop a fraction of zero. -/
def plain : Layout := ⟨none, false, false, .up, none⟩

/-- JSON lines: `1.0`, `0.00001`, `1e+16`, `1.5e-7`; JSON has no word for
the values that are no numbers, so they become `null`. -/
def json : Layout := ⟨some (-5, 16), true, true, .even, some "null"⟩

/-! ## §2. Writing. -/

/-- Digits with the point in place. -/
def inPlace (keepsPoint : Bool) (digits : List Char) (exponent : Int) : List Char :=
  let point := digits.length + exponent
  if 0 ≤ exponent then
    digits ++ List.replicate exponent.toNat '0' ++ (if keepsPoint then ['.', '0'] else [])
  else if point ≤ 0 then
    '0' :: '.' :: (List.replicate (-point).toNat '0' ++ digits)
  else digits.take point.toNat ++ '.' :: digits.drop point.toNat

/-- Digits with the point after the first and an exponent. -/
def withExponent (plusSign : Bool) (digits : List Char) (lead : Int) : List Char :=
  digits.take 1 ++ (if digits.length ≤ 1 then [] else '.' :: digits.drop 1) ++
    'e' :: ((if plusSign && decide (0 ≤ lead) then ['+'] else []) ++ Text.Digits.ofInt lead)

/-- The text of a decimal that is not negative. -/
def ofDecimal (l : Layout) (d : Decimal) : List Char :=
  let digits := Text.Digits.ofNat d.digits
  let lead := digits.length + d.exponent - 1
  let place := match l.positional with
    | none => true
    | some (low, high) => decide (low ≤ lead ∧ lead < high)
  if place || d.digits == 0 then inPlace l.keepsPoint digits d.exponent
  else withExponent l.plusSign digits lead

/-- The word for a value that is no number. -/
def specialText (l : Layout) (x : Binary64) : List Char :=
  match l.special with
  | some s => s.toList
  | none =>
    if x.isNaN then "NaN".toList
    else if x.negative then "-inf".toList
    else "inf".toList

/-- The text of a double. -/
def text (l : Layout) (x : Binary64) : String :=
  String.ofList <|
    if x.isFinite then
      (if x.negative then ['-'] else []) ++
        l.ofDecimal (if x.isZero then ⟨0, 0⟩ else x.shortest l.tie)
    else l.specialText x

end Layout

end ReportStore

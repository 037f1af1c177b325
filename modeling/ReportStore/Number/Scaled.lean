/-
  ReportStore.Number.Scaled
  ─────────────────────────
  **DOUBLES TIMES POWERS OF TEN.**

  A number can be scaled in doubles instead of exactly.  The whole number is
  rounded, the power of ten is rounded, and so is their product or quotient,

      scaled? x e  =  x * 10^e  or  x / 10^(-e),  each rounded once,

  so the last bit may differ from that of the nearest double.  A power that no
  double holds is divided by in steps; to multiply by one is too much for
  every number but zero.
-/
import ReportStore.Number.Decimal

namespace ReportStore.Binary64

/-! ## §1. Products and quotients. -/

/-- The double nearest to a whole number. -/
def ofNat (neg : Bool) (n : Nat) : Binary64 := ofQuotient neg (n * twoTo 1074) 1

/-- The product of finite doubles, rounded. -/
def mul (x y : Binary64) : Binary64 :=
  ofQuotient (x.negative != y.negative) (x.magnitude * y.magnitude) (twoTo 1074)

/-- The quotient of finite doubles, rounded; the divisor is not zero. -/
def div (x y : Binary64) : Binary64 :=
  ofQuotient (x.negative != y.negative) (x.magnitude * twoTo 1074) y.magnitude

/-! ## §2. Powers of ten. -/

/-- The greatest power of ten that a double holds. -/
def greatestPower : Nat := 308

/-- The double nearest to a power of ten. -/
def powerOfTen (n : Nat) : Binary64 := (⟨1, n⟩ : Decimal).toBinary64 false

/-- A finite double times a power of ten, unless that is too much. -/
def timesTenTo? (x : Binary64) (n : Nat) : Option Binary64 :=
  if n ≤ greatestPower then
    let y := x.mul (powerOfTen n)
    if y.isFinite then some y else none
  else if x.isZero then some x
  else none

/-- A finite double over a power of ten.  Nothing is left to divide once it is
zero. -/
def overTenTo (x : Binary64) (n : Nat) : Binary64 :=
  if n ≤ greatestPower then x.div (powerOfTen n)
  else if x.isZero then x
  else overTenTo (x.div (powerOfTen greatestPower)) (n - greatestPower)
termination_by n
decreasing_by unfold greatestPower at *; omega

/-- A finite double scaled by a power of ten, unless that is too much. -/
def scaled? (x : Binary64) (e : Int) : Option Binary64 :=
  if 0 ≤ e then x.timesTenTo? e.toNat else some (x.overTenTo (-e).toNat)

end ReportStore.Binary64

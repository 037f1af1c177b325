/-
  ReportStore.Number.Power
  ────────────────────────
  **POWERS OF TWO AND OF TEN.**

  The scale of a double is a power of two, that of a decimal a power of ten.
  Both are exact natural numbers:

      twoTo (m + n) = twoTo m * twoTo n        tenTo (m + n) = tenTo m * tenTo n
      tenTo n = fiveTo n * twoTo n
-/

namespace ReportStore

/-- Two to a power. -/
def twoTo (n : Nat) : Nat := Nat.pow 2 n

/-- Five to a power. -/
def fiveTo (n : Nat) : Nat := Nat.pow 5 n

/-- Ten to a power. -/
def tenTo (n : Nat) : Nat := Nat.pow 10 n

theorem twoTo_pos (n : Nat) : 0 < twoTo n := Nat.pow_pos (by decide)

theorem fiveTo_pos (n : Nat) : 0 < fiveTo n := Nat.pow_pos (by decide)

theorem tenTo_pos (n : Nat) : 0 < tenTo n := Nat.pow_pos (by decide)

theorem twoTo_add (m n : Nat) : twoTo (m + n) = twoTo m * twoTo n := Nat.pow_add 2 m n

theorem tenTo_add (m n : Nat) : tenTo (m + n) = tenTo m * tenTo n := Nat.pow_add 10 m n

theorem tenTo_eq (n : Nat) : tenTo n = fiveTo n * twoTo n := Nat.mul_pow 5 2 n

end ReportStore

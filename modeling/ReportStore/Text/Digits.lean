/-
  ReportStore.Text.Digits
  ───────────────────────
  **DECIMAL NUMERALS OF WHOLE NUMBERS.**

  Numbers are written without leading zeros or a plus sign, and read more
  freely: an optional sign, then one or more ASCII digits.  Reading undoes
  writing:

      nat? (ofNat n) = some n        int? (ofInt n) = some n
-/

namespace ReportStore.Text.Digits

/-! ## §1. Writing. -/

/-- The decimal numeral of a natural number. -/
def ofNat (n : Nat) : List Char := Nat.toDigits 10 n

/-- The decimal numeral of an integer, with a minus sign if it is negative. -/
def ofInt (n : Int) : List Char :=
  if n < 0 then '-' :: ofNat n.natAbs else ofNat n.natAbs

/-! ## §2. Reading. -/

/-- Reads one or more digits. -/
def nat? (cs : List Char) : Option Nat :=
  if cs ≠ [] ∧ cs.all Char.isDigit then some (Nat.ofDigitChars 10 cs 0) else none

/-- Reads an optional sign and one or more digits. -/
def int? : List Char → Option Int
  | '-' :: cs => (nat? cs).map fun n : Nat => -(n : Int)
  | '+' :: cs => (nat? cs).map Int.ofNat
  | cs => (nat? cs).map Int.ofNat

/-- Whether an integer fits in 64 bits with sign. -/
def FitsInt64 (n : Int) : Prop := -9223372036854775808 ≤ n ∧ n ≤ 9223372036854775807

instance (n : Int) : Decidable (FitsInt64 n) := inferInstanceAs (Decidable (_ ∧ _))

/-- Reads an integer that fits in 64 bits; a larger one is refused. -/
def int64? (cs : List Char) : Option Int64 :=
  match int? cs with
  | some n => if FitsInt64 n then some (Int64.ofInt n) else none
  | none => none

/-! ## §3. Reading undoes writing. -/

theorem ofNat_ne_nil (n : Nat) : ofNat n ≠ [] := Nat.toDigits_ne_nil

theorem isDigit_of_mem_ofNat {n : Nat} {c : Char} (h : c ∈ ofNat n) : c.isDigit :=
  Nat.isDigit_of_mem_toDigits (by decide) (by decide) h

theorem nat?_ofNat (n : Nat) : nat? (ofNat n) = some n := by
  have hall : (ofNat n).all Char.isDigit := List.all_eq_true.2 fun _ h => isDigit_of_mem_ofNat h
  simp only [nat?, ne_eq, ofNat_ne_nil, not_false_eq_true, hall, and_self, if_true]
  exact congrArg some Nat.ofDigitChars_ten_toDigits

/-- A numeral that starts with a digit has no sign to read. -/
theorem int?_of_isDigit {c : Char} {cs : List Char} (h : c.isDigit) :
    int? (c :: cs) = (nat? (c :: cs)).map Int.ofNat := by
  unfold int?
  split
  · simp_all
  · simp_all
  · rfl

theorem int?_ofInt (n : Int) : int? (ofInt n) = some n := by
  unfold ofInt
  split
  next h =>
    have hn : -(n.natAbs : Int) = n := by omega
    simp only [int?, nat?_ofNat, Option.map_some, hn]
  next h =>
    have hne := ofNat_ne_nil n.natAbs
    cases hd : ofNat n.natAbs with
    | nil => exact absurd hd hne
    | cons c cs =>
      have hc : c.isDigit := isDigit_of_mem_ofNat (n := n.natAbs) (hd ▸ List.mem_cons_self ..)
      rw [int?_of_isDigit hc, ← hd, nat?_ofNat]
      simp only [Option.map_some, Option.some.injEq, Int.ofNat_eq_natCast]
      omega

theorem int64?_ofInt (n : Int64) : int64? (ofInt n.toInt) = some n := by
  have hlo := n.le_toInt
  have hhi := n.toInt_lt
  have hfit : FitsInt64 n.toInt := ⟨by omega, by omega⟩
  simp only [int64?, int?_ofInt, hfit, if_true, Int64.ofInt_toInt]

end ReportStore.Text.Digits

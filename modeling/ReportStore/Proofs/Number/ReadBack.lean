/-
  ReportStore.Proofs.Number.ReadBack
  ──────────────────────────────────
  **THE CELL OF A DOUBLE READS BACK AS THE DOUBLE.**

  The decimal that is written for a double denotes it, for it was tried, and
  the exact expansion denotes it in any case.  Whatever the layout makes of
  the decimal, a number in place, with its point among the digits or with an
  exponent, is read as a decimal of the same value:

      ofText? (cell of x)  =  some x        for every finite x
-/
import ReportStore.Number.Layout
import ReportStore.Proofs.Number.Rounding

namespace ReportStore

/-! ## §1. The decimal that is written. -/

namespace Binary64

variable {x : Binary64} {tie : Tie} {d : Decimal}

theorem accepts_of_choose? {accepts : Decimal → Bool} {preferHigh : Bool} {low high : Decimal}
    (h : choose? accepts preferHigh low high = some d) : accepts d = true := by
  unfold choose? at h
  split at h
  · next hlow hhigh =>
    injection h with h
    subst h
    split
    · exact hhigh
    · exact hlow
  · next hlow _ =>
    injection h with h
    exact h ▸ hlow
  · next _ hhigh =>
    injection h with h
    exact h ▸ hhigh
  · cases h

/-- All digits of a double denote it. -/
theorem toBinary64_exactDecimal (h : x.isFinite = true) :
    x.exactDecimal.toBinary64 x.negative = x := by
  have hunit : ∀ k, ofQuotient x.negative (x.magnitude * twoTo k) (twoTo k) =
      ofQuotient x.negative x.magnitude 1 := by
    intro k
    have hquotient := ofQuotient_mul_left (twoTo_pos k) x.negative x.magnitude 1
    rwa [Nat.mul_one, Nat.mul_comm] at hquotient
  exact (Decimal.toBinary64_fives x.negative x.magnitude (show 0 < 1074 by decide)).trans
    ((hunit 1074).trans (ofQuotient_magnitude h))

/-- **The decimal that is written denotes the double.** -/
theorem toBinary64_shortest (tie : Tie) (h : x.isFinite = true) :
    (x.shortest tie).toBinary64 x.negative = x := by
  unfold shortest
  cases hfound : (List.range' 1 17).findSome? (onGrid? tie x) with
  | none => exact toBinary64_exactDecimal h
  | some d =>
    -- On whichever grid it was found, it was found because it is read as the double.
    obtain ⟨count, -, hgrid⟩ := List.exists_of_findSome?_eq_some hfound
    rw [Option.elim_some, Decimal.toBinary64_strip]
    exact eq_of_beq (accepts_of_choose? hgrid)

/-- Zero is known by its sign. -/
theorem zero_negative (h : x.isZero = true) : zero x.negative = x := by
  have hfields : x.exponentField = 0 ∧ x.fraction = 0 := by simpa [isZero] using h
  have hword : signWord x.negative = x.word := by
    rw [word_eq x, hfields.1, hfields.2, Nat.zero_mul, Nat.add_zero]
  unfold zero
  rw [hword, ofWord_word]

end Binary64

/-! ## §2. Reading a decimal. -/

namespace Decimal

variable {whole part tail : List Char} {e : Int}

/-- The digits at the start of a text end where none follows. -/
theorem spanDigits_append (hwhole : ∀ c ∈ whole, c.isDigit = true)
    (htail : ∀ c ∈ tail.head?, c.isDigit = false) :
    spanDigits (whole ++ tail) = (whole, tail) := by
  have htake : tail.takeWhile Char.isDigit = [] ∧ tail.dropWhile Char.isDigit = tail := by
    cases tail with
    | nil => exact ⟨rfl, rfl⟩
    | cons c rest => simp [htail c rfl]
  unfold spanDigits
  rw [List.takeWhile_append_of_pos hwhole, List.dropWhile_append_of_pos hwhole, htake.1, htake.2,
    List.append_nil]

/-- Without a point there is no fraction. -/
theorem spanFraction_of_no_point (h : ∀ c ∈ tail.head?, c ≠ '.') :
    spanFraction tail = ([], tail) := by
  unfold spanFraction
  split
  · exact absurd rfl (h '.' rfl)
  · rfl

/-- An exponent starts with a letter. -/
theorem head?_of_exponent? (h : exponent? tail = some e) :
    ∀ c ∈ tail.head?, c.isDigit = false ∧ c ≠ '.' := by
  unfold exponent? at h
  split at h
  · simp
  · simp
  · simp
  · cases h

/-- **A number with a point** is read with the digits on both sides of it. -/
theorem ofText?_point (hwhole : ∀ c ∈ whole, c.isDigit = true) (hne : whole ≠ [])
    (hpart : ∀ c ∈ part, c.isDigit = true) (he : exponent? tail = some e) :
    ofText? (whole ++ '.' :: (part ++ tail)) =
      some ⟨Nat.ofDigitChars 10 (whole ++ part) 0, e - part.length⟩ := by
  have hhead := head?_of_exponent? he
  have hpoint : spanDigits (whole ++ '.' :: (part ++ tail)) = (whole, '.' :: (part ++ tail)) :=
    spanDigits_append hwhole (by simp)
  unfold ofText?
  simp only [hpoint, spanFraction, spanDigits_append hpart fun c hc => (hhead c hc).1, he]
  rw [if_neg (by simp [hne])]
  rfl

theorem ofText?_fixed (hwhole : ∀ c ∈ whole, c.isDigit = true) (hne : whole ≠ [])
    (hpart : ∀ c ∈ part, c.isDigit = true) :
    ofText? (whole ++ '.' :: part) =
      some ⟨Nat.ofDigitChars 10 (whole ++ part) 0, -(part.length : Int)⟩ := by
  have hread := ofText?_point hwhole hne hpart (show exponent? [] = some 0 from rfl)
  rwa [List.append_nil, Int.zero_sub] at hread

/-- **A number without a point** is read with its digits. -/
theorem ofText?_noPoint (hwhole : ∀ c ∈ whole, c.isDigit = true) (hne : whole ≠ [])
    (he : exponent? tail = some e) :
    ofText? (whole ++ tail) = some ⟨Nat.ofDigitChars 10 whole 0, e⟩ := by
  have hhead := head?_of_exponent? he
  have hfraction := spanFraction_of_no_point fun c hc => (hhead c hc).2
  unfold ofText?
  simp only [spanDigits_append hwhole fun c hc => (hhead c hc).1, hfraction, List.append_nil, he]
  rw [if_neg hne]
  simp

/-- A number starts with a digit or a point. -/
theorem head?_of_ofText? {cs : List Char} {d : Decimal} (h : ofText? cs = some d) :
    ∀ c ∈ cs.head?, c ≠ '-' ∧ c ≠ '+' := by
  have hsign : ∀ c rest, c.isDigit = false → c ≠ '.' → ofText? (c :: rest) = none := by
    intro c rest hdigit hpoint
    have hspan : spanDigits (c :: rest) = ([], c :: rest) := by
      refine spanDigits_append (List.forall_mem_nil _) ?_
      intro c' hc'
      injection hc' with hc'
      exact hc' ▸ hdigit
    have hfraction : spanFraction (c :: rest) = ([], c :: rest) := by
      refine spanFraction_of_no_point ?_
      intro c' hc'
      injection hc' with hc'
      exact hc' ▸ hpoint
    unfold ofText?
    simp only [hspan, hfraction, List.append_nil, if_true]
  intro c hc
  cases cs with
  | nil => cases hc
  | cons c' rest =>
    injection hc with hc
    subst hc
    constructor
    · rintro rfl
      rw [hsign _ rest (by decide) (by decide)] at h
      cases h
    · rintro rfl
      rw [hsign _ rest (by decide) (by decide)] at h
      cases h

end Decimal

/-! ## §3. What a layout makes of a decimal. -/

namespace Layout

open Text.Digits

variable {d : Decimal}

theorem isDigit_of_mem_zeros {k : Nat} {c : Char} (h : c ∈ List.replicate k '0') :
    c.isDigit = true := by
  rw [(List.mem_replicate.1 h).2]
  rfl

theorem isDigit_zero : ∀ c ∈ ['0'], c.isDigit = true :=
  fun _ hc => isDigit_of_mem_zeros (k := 1) hc

theorem isDigit_of_mem_take (m k : Nat) : ∀ c ∈ (ofNat m).take k, c.isDigit = true :=
  fun _ hc => isDigit_of_mem_ofNat (List.mem_of_mem_take hc)

theorem isDigit_of_mem_drop (m k : Nat) : ∀ c ∈ (ofNat m).drop k, c.isDigit = true :=
  fun _ hc => isDigit_of_mem_ofNat (List.mem_of_mem_drop hc)

theorem ofDigitChars_ofNat (m : Nat) : Nat.ofDigitChars 10 (ofNat m) 0 = m :=
  Nat.ofDigitChars_ten_toDigits

/-- Zeros between the digits and the point are read as digits. -/
theorem ofText?_zerosBehind (m k : Nat) :
    ∃ read, Decimal.ofText? (ofNat m ++ List.replicate k '0' ++ ['.', '0']) = some read ∧
      ∀ neg, read.toBinary64 neg = Decimal.toBinary64 neg ⟨m, k⟩ := by
  have hdigits : ∀ c ∈ ofNat m ++ List.replicate k '0', c.isDigit = true := fun c hc =>
    (List.mem_append.1 hc).elim isDigit_of_mem_ofNat isDigit_of_mem_zeros
  have hread := Decimal.ofText?_fixed hdigits (by simp [ofNat_ne_nil]) isDigit_zero
  refine ⟨_, hread, ?_⟩
  intro neg
  -- The zero behind the point is one more digit and one power of ten less.
  have hpadded : Nat.ofDigitChars 10 (ofNat m ++ List.replicate k '0' ++ ['0']) 0 =
      m * tenTo (k + 1) := by
    rw [show ['0'] = List.replicate 1 '0' from rfl, List.append_assoc,
      List.replicate_append_replicate, Nat.ofDigitChars_append, ofDigitChars_ofNat,
      Nat.ofDigitChars_replicate_zero, Nat.mul_comm]
    rfl
  rw [hpadded, Decimal.toBinary64_mul_tenTo]
  congr 2
  simp only [List.length_cons, List.length_nil]
  omega

/-- Zeros between the point and the digits count for the exponent only. -/
theorem ofText?_zerosBefore (m k : Nat) :
    Decimal.ofText? ('0' :: '.' :: (List.replicate k '0' ++ ofNat m)) =
      some ⟨m, -((k + (ofNat m).length : Nat) : Int)⟩ := by
  have hdigits : ∀ c ∈ List.replicate k '0' ++ ofNat m, c.isDigit = true := fun c hc =>
    (List.mem_append.1 hc).elim isDigit_of_mem_zeros isDigit_of_mem_ofNat
  have hread := Decimal.ofText?_fixed isDigit_zero (by simp) hdigits
  have hvalue : Nat.ofDigitChars 10 (['0'] ++ (List.replicate k '0' ++ ofNat m)) 0 = m := by
    rw [show ['0'] = List.replicate 1 '0' from rfl, ← List.append_assoc,
      List.replicate_append_replicate, Nat.ofDigitChars_append, Nat.ofDigitChars_replicate_zero,
      Nat.mul_zero, ofDigitChars_ofNat]
  rw [hvalue, List.length_append, List.length_replicate] at hread
  exact hread

/-- A point among the digits counts those behind it. -/
theorem ofText?_pointWithin {m k : Nat} (hk : 0 < k) (hlt : k < (ofNat m).length) :
    Decimal.ofText? ((ofNat m).take k ++ '.' :: (ofNat m).drop k) =
      some ⟨m, -(((ofNat m).length - k : Nat) : Int)⟩ := by
  have hne : (ofNat m).take k ≠ [] := List.length_pos_iff.1 (by rw [List.length_take]; omega)
  have hread := Decimal.ofText?_fixed (isDigit_of_mem_take m k) hne (isDigit_of_mem_drop m k)
  rw [List.take_append_drop, ofDigitChars_ofNat, List.length_drop] at hread
  exact hread

/-- **A decimal in place is read with its value.** -/
theorem ofText?_inPlace (m : Nat) (e : Int) :
    ∃ read, Decimal.ofText? (inPlace true (ofNat m) e) = some read ∧
      ∀ neg, read.toBinary64 neg = Decimal.toBinary64 neg ⟨m, e⟩ := by
  have hsame : ∀ {cs : List Char} {e' : Int}, Decimal.ofText? cs = some ⟨m, e'⟩ → e' = e →
      ∃ read, Decimal.ofText? cs = some read ∧
        ∀ neg, read.toBinary64 neg = Decimal.toBinary64 neg ⟨m, e⟩ := by
    rintro cs e' hread rfl
    exact ⟨_, hread, fun _ => rfl⟩
  unfold inPlace
  simp only [if_true]
  -- The point is behind all digits, or before them, or among them.
  by_cases hwhole : 0 ≤ e
  · rw [if_pos hwhole]
    obtain ⟨read, hread, hvalue⟩ := ofText?_zerosBehind m e.toNat
    rw [Int.toNat_of_nonneg hwhole] at hvalue
    exact ⟨read, hread, hvalue⟩
  · rw [if_neg hwhole]
    by_cases hbefore : ((ofNat m).length : Int) + e ≤ 0
    · rw [if_pos hbefore]
      exact hsame (ofText?_zerosBefore m _) (by omega)
    · rw [if_neg hbefore]
      exact hsame (ofText?_pointWithin (by omega) (by omega)) (by omega)

/-- **A decimal with an exponent is read as it is.** -/
theorem ofText?_withExponent (m : Nat) (e : Int) :
    Decimal.ofText? (withExponent false (ofNat m) ((ofNat m).length + e - 1)) = some ⟨m, e⟩ := by
  have hexponent : ∀ n, Decimal.exponent? ('e' :: ofInt n) = some n := int?_ofInt
  have hlength : 0 < (ofNat m).length := List.length_pos_iff.2 (ofNat_ne_nil m)
  have hfirst : (ofNat m).take 1 ≠ [] := List.length_pos_iff.1 (by rw [List.length_take]; omega)
  have htake := isDigit_of_mem_take m 1
  have hdrop := isDigit_of_mem_drop m 1
  unfold withExponent
  simp only [Bool.false_and, Bool.false_eq_true, if_false, List.nil_append]
  -- A single digit stands without a point.
  by_cases hone : (ofNat m).length ≤ 1
  · have hread := Decimal.ofText?_noPoint htake hfirst (hexponent ((ofNat m).length + e - 1))
    rw [if_pos hone, List.append_nil, hread, List.take_of_length_le hone, ofDigitChars_ofNat]
    congr 2
    omega
  · have hread := Decimal.ofText?_point htake hfirst hdrop
      (hexponent ((ofNat m).length + e - 1))
    rw [List.take_append_drop, ofDigitChars_ofNat, List.length_drop] at hread
    rw [if_neg hone, List.append_assoc, List.cons_append, hread]
    congr 2
    omega

/-- Either way of laying it out, a cell has the value of its decimal. -/
theorem ofText?_ofDecimal (d : Decimal) :
    ∃ read, Decimal.ofText? (cell.ofDecimal d) = some read ∧
      ∀ neg, read.toBinary64 neg = d.toBinary64 neg := by
  -- Where the cell changes from one layout to the other does not matter.
  have hlaid : ∀ place : Bool, ∃ read,
      Decimal.ofText? (if place then inPlace true (ofNat d.digits) d.exponent
        else withExponent false (ofNat d.digits) ((ofNat d.digits).length + d.exponent - 1)) =
          some read ∧ ∀ neg, read.toBinary64 neg = d.toBinary64 neg := by
    intro place
    cases place with
    | true => exact ofText?_inPlace d.digits d.exponent
    | false => exact ⟨d, ofText?_withExponent d.digits d.exponent, fun _ => rfl⟩
  exact hlaid _

/-! ## §4. The text of a double. -/

/-- A text without a sign of its own is read with the sign put before it. -/
theorem ofText?_signed {cs : List Char} {d : Decimal} (h : Decimal.ofText? cs = some d)
    (neg : Bool) :
    Binary64.ofText? ((if neg then ['-'] else []) ++ cs) = some (d.toBinary64 neg) := by
  have hunsigned : ∀ neg, Binary64.ofUnsigned? neg cs = some (d.toBinary64 neg) := by
    intro neg
    unfold Binary64.ofUnsigned?
    rw [h]
  cases neg with
  | true => exact hunsigned true
  | false =>
    -- What is read as a decimal does not start with a sign, so none is taken off.
    have hhead := Decimal.head?_of_ofText? h
    rw [← hunsigned false]
    show Binary64.ofText? cs = _
    unfold Binary64.ofText?
    split
    · exact absurd rfl (hhead '-' rfl).1
    · exact absurd rfl (hhead '+' rfl).2
    · rfl

/-- **The cell of a finite double reads back as the double.** -/
theorem ofText?_cell {x : Binary64} (h : x.isFinite = true) :
    Binary64.ofText? (cell.text x).toList = some x := by
  obtain ⟨read, hread, hvalue⟩ :=
    ofText?_ofDecimal (if x.isZero then ⟨0, 0⟩ else x.shortest cell.tie)
  have hdenotes : (if x.isZero then (⟨0, 0⟩ : Decimal) else x.shortest cell.tie).toBinary64
      x.negative = x := by
    split
    · next hzero => exact Binary64.zero_negative hzero
    · exact Binary64.toBinary64_shortest cell.tie h
  unfold text
  rw [if_pos h, String.toList_ofList, ofText?_signed hread, hvalue, hdenotes]

end Layout

end ReportStore

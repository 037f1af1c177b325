/-
  ReportStore.Proofs.Number.Rounding
  ──────────────────────────────────
  **WHICH DOUBLE A NUMBER IS ROUNDED TO.**

  A quotient is rounded by its value alone, so a common factor of its terms
  can go; far above the doubles it becomes infinity and below half a unit
  zero; and the magnitude of a finite double is rounded to that double:

      ofQuotient (c * num) (c * den)  =  ofQuotient num den
      ofQuotient (magnitude of x) 1   =  x

  So a decimal denotes the double of its value, whether it is computed or
  known beforehand to be infinite or zero, and whichever of its digits stand
  in the power of ten.
-/
import ReportStore.Number.Decimal

namespace ReportStore

/-! ## §1. A common factor of the terms. -/

/-- The powers of two below a number are those up to its logarithm. -/
theorem twoTo_le_iff {k n : Nat} (hn : n ≠ 0) : twoTo k ≤ n ↔ k ≤ n.log2 := (Nat.le_log2 hn).symm

theorem lt_twoTo_iff {k n : Nat} (hn : n ≠ 0) : n < twoTo k ↔ n.log2 < k := (Nat.log2_lt hn).symm

/-- Ten is more than eight. -/
theorem twoTo_le_tenTo {m n : Nat} (h : m ≤ 3 * n) : twoTo m ≤ tenTo n :=
  calc twoTo m ≤ twoTo (3 * n) := Nat.pow_le_pow_right (by decide) h
    _ = Nat.pow (Nat.pow 2 3) n := Nat.pow_mul 2 3 n
    _ ≤ tenTo n := Nat.pow_le_pow_left (by decide) n

namespace Binary64

theorem roundedQuotient_mul_left {c : Nat} (hc : 0 < c) (num den : Nat) :
    roundedQuotient (c * num) (c * den) = roundedQuotient num den := by
  have hlt : c * den < 2 * (c * (num % den)) ↔ den < 2 * (num % den) := by
    rw [Nat.mul_left_comm]
    exact Nat.mul_lt_mul_left hc
  have heq : 2 * (c * (num % den)) = c * den ↔ 2 * (num % den) = den := by
    rw [Nat.mul_left_comm]
    exact Nat.mul_right_inj (Nat.ne_of_gt hc)
  unfold roundedQuotient
  simp only [Nat.mul_div_mul_left _ _ hc, Nat.mul_mod_mul_left, hlt, heq]

/-- **A quotient is rounded by its value.** -/
theorem ofQuotient_mul_left {c : Nat} (hc : 0 < c) (neg : Bool) (num den : Nat) :
    ofQuotient neg (c * num) (c * den) = ofQuotient neg num den := by
  unfold ofQuotient
  simp only [Nat.mul_div_mul_left _ _ hc, Nat.mul_assoc, roundedQuotient_mul_left hc]

/-! ## §2. Outside the range. -/

theorem le_roundedQuotient (num den : Nat) : num / den ≤ roundedQuotient num den := by
  unfold roundedQuotient
  simp only
  split
  · omega
  · exact Nat.le_refl _

/-- **Above all doubles there is infinity.** -/
theorem ofQuotient_of_large {num den : Nat} (hden : 0 < den) (h : twoTo 2098 * den ≤ num)
    (neg : Bool) : ofQuotient neg num den = infinity neg := by
  have hquotient : twoTo 2098 ≤ num / den := (Nat.le_div_iff_mul_le hden).2 h
  have hne : num / den ≠ 0 := Nat.ne_of_gt (Nat.lt_of_lt_of_le (twoTo_pos _) hquotient)
  have hlog : 2098 ≤ (num / den).log2 := (twoTo_le_iff hne).1 hquotient
  obtain ⟨p, hp⟩ : ∃ p, (num / den).log2 = p + 52 := ⟨(num / den).log2 - 52, by omega⟩
  -- At this scale the quotient keeps all bits of a significand, and rounding lowers none.
  have hsignificand : twoTo 52 ≤ num / (den * twoTo p) := by
    rw [← Nat.div_div_eq_div_mul]
    refine (Nat.le_div_iff_mul_le (twoTo_pos p)).2 ?_
    rw [← twoTo_add, Nat.add_comm, ← hp]
    exact (twoTo_le_iff hne).2 (Nat.le_refl _)
  have hround := Nat.le_trans hsignificand (le_roundedQuotient num (den * twoTo p))
  -- The scale is past the last one of a finite double.
  have hpacked : 2047 * twoTo 52 ≤ packed (roundedQuotient num (den * twoTo p)) p := by
    unfold packed
    rw [if_neg (Nat.not_lt.2 hround)]
    exact Nat.le_trans (Nat.mul_le_mul_right _ (by omega)) (Nat.le_add_right _ _)
  unfold ofQuotient ofParts
  simp only [hp, Nat.add_sub_cancel]
  rw [if_neg (Nat.not_lt.2 hpacked)]

/-- **Below half a unit there is zero.** -/
theorem ofQuotient_of_small {num den : Nat} (h : 2 * num < den) (neg : Bool) :
    ofQuotient neg num den = zero neg := by
  have hlt : num < den := by omega
  have hquotient : num / den = 0 := Nat.div_eq_of_lt hlt
  have hround : roundedQuotient num den = 0 := by
    unfold roundedQuotient
    simp only [hquotient, Nat.mod_eq_of_lt hlt]
    rw [if_neg (by omega)]
  have hone : den * twoTo 0 = den := Nat.mul_one den
  unfold ofQuotient
  simp only [hquotient]
  rw [show Nat.log2 0 - 52 = 0 from rfl, hone, hround]
  rfl

/-! ## §3. A finite double put together again. -/

variable {x : Binary64}

theorem word_eq (x : Binary64) :
    x.word = signWord x.negative + (x.exponentField * twoTo 52 + x.fraction) := by
  have hlt : x.word < 2 ^ 64 := x.bits.toNat_lt
  unfold negative exponentField fraction signWord
  -- The powers of two are written out, so that they are numerals to divide by.
  show x.word = (if decide (9223372036854775808 ≤ x.word) then 9223372036854775808 else 0) +
    (x.word / 4503599627370496 % 2048 * 4503599627370496 + x.word % 4503599627370496)
  by_cases hneg : 9223372036854775808 ≤ x.word
  · rw [if_pos (decide_eq_true hneg)]
    omega
  · rw [if_neg (by simpa using hneg)]
    omega

theorem ofWord_word (x : Binary64) : ofWord x.word = x := by
  unfold ofWord word
  rw [UInt64.ofNat_toNat]

theorem exponentField_lt (h : x.isFinite = true) : x.exponentField < 2047 := by
  have hlt : x.exponentField < 2048 := Nat.mod_lt _ (by decide)
  have hne : x.exponentField ≠ 2047 := by simpa [isFinite] using h
  omega

theorem fraction_lt (x : Binary64) : x.fraction < twoTo 52 := Nat.mod_lt _ (twoTo_pos 52)

/-- A significand has 53 bits, and all of them but at the least scale. -/
theorem significand_lt (x : Binary64) : x.significand < twoTo 53 := by
  have hfraction := x.fraction_lt
  have htwo : twoTo 53 = twoTo 52 + twoTo 52 := by decide
  unfold significand
  split
  · omega
  · omega

theorem le_significand (h : x.scale ≠ 0) : twoTo 52 ≤ x.significand := by
  have hfield : x.exponentField ≠ 0 := by
    intro hzero
    exact h (by rw [scale, hzero])
  unfold significand
  rw [if_neg hfield]
  exact Nat.le_add_right _ _

theorem packed_significand (x : Binary64) :
    packed x.significand x.scale = x.exponentField * twoTo 52 + x.fraction := by
  unfold packed significand scale
  by_cases hfield : x.exponentField = 0
  · rw [if_pos hfield, if_pos x.fraction_lt, hfield, Nat.zero_mul, Nat.zero_add]
  · rw [if_neg hfield, if_neg (by omega), Nat.add_sub_cancel_left,
      Nat.sub_add_cancel (Nat.one_le_iff_ne_zero.2 hfield)]

theorem ofParts_significand (h : x.isFinite = true) :
    ofParts x.negative x.significand x.scale = x := by
  have hroom : x.exponentField * twoTo 52 + x.fraction < 2047 * twoTo 52 := by
    have hfraction := x.fraction_lt
    have hfield : (x.exponentField + 1) * twoTo 52 ≤ 2047 * twoTo 52 :=
      Nat.mul_le_mul_right _ (exponentField_lt h)
    rw [Nat.add_mul, Nat.one_mul] at hfield
    omega
  unfold ofParts
  rw [packed_significand, if_pos hroom, ← word_eq, ofWord_word]

/-- The scale of a double is the one a quotient of its magnitude is rounded at. -/
theorem log2_magnitude (x : Binary64) : x.magnitude.log2 - 52 = x.scale := by
  have hlt := x.significand_lt
  by_cases hzero : x.significand = 0
  · -- Only at the least scale the significand can be short of 53 bits.
    have hscale : x.scale = 0 := by
      refine Classical.byContradiction fun hne => ?_
      have hle := le_significand hne
      rw [hzero] at hle
      exact absurd hle (Nat.not_le.2 (twoTo_pos 52))
    unfold magnitude
    rw [hzero, Nat.zero_mul, hscale]
    rfl
  · have hmagnitude : x.magnitude ≠ 0 := Nat.mul_ne_zero hzero (Nat.ne_of_gt (twoTo_pos _))
    have hupper : x.magnitude.log2 < 53 + x.scale := by
      rw [← lt_twoTo_iff hmagnitude, twoTo_add]
      exact Nat.mul_lt_mul_of_pos_right hlt (twoTo_pos _)
    by_cases hscale : x.scale = 0
    · omega
    · have hlower : 52 + x.scale ≤ x.magnitude.log2 := by
        rw [← twoTo_le_iff hmagnitude, twoTo_add]
        exact Nat.mul_le_mul_right _ (le_significand hscale)
      omega

/-- **A finite double is the double nearest to its magnitude.** -/
theorem ofQuotient_magnitude (h : x.isFinite = true) :
    ofQuotient x.negative x.magnitude 1 = x := by
  have hround : roundedQuotient x.magnitude (twoTo x.scale) = x.significand := by
    have hpos := twoTo_pos x.scale
    unfold roundedQuotient magnitude
    simp only [Nat.mul_div_cancel _ hpos, Nat.mul_mod_left]
    rw [if_neg (by omega)]
  unfold ofQuotient
  simp only [Nat.div_one, log2_magnitude, Nat.one_mul, hround]
  exact ofParts_significand h

end Binary64

namespace Decimal

open Binary64

/-! ## §4. The double of a decimal. -/

/-- **Of an exponent that is not negative the power of ten is a factor.** -/
theorem toBinary64_of_nonneg {d : Decimal} (h : 0 ≤ d.exponent) (neg : Bool) :
    d.toBinary64 neg = ofQuotient neg (d.digits * tenTo d.exponent.toNat * twoTo 1074) 1 := by
  unfold toBinary64
  split
  · next hzero =>
    rw [hzero, Nat.zero_mul, Nat.zero_mul, ofQuotient_of_small (by decide)]
  · next hzero =>
    split
    · next hlarge =>
      -- The power of ten alone is past all doubles, and was not computed.
      unfold exponentBound at hlarge
      refine (ofQuotient_of_large (by decide) ?_ neg).symm
      have hpower : twoTo 1024 ≤ tenTo d.exponent.toNat := twoTo_le_tenTo (by omega)
      have hdigits : tenTo d.exponent.toNat ≤ d.digits * tenTo d.exponent.toNat :=
        Nat.le_mul_of_pos_left _ (Nat.pos_of_ne_zero hzero)
      rw [Nat.mul_one, show 2098 = 1024 + 1074 from rfl, twoTo_add]
      exact Nat.mul_le_mul_right _ (Nat.le_trans hpower hdigits)
    · rw [if_neg (by unfold exponentBound; omega)]

/-- **Of a negative exponent the power of ten is a divisor.** -/
theorem toBinary64_of_neg {d : Decimal} (h : d.exponent < 0) (neg : Bool) :
    d.toBinary64 neg = ofQuotient neg (d.digits * twoTo 1074) (tenTo (-d.exponent).toNat) := by
  unfold toBinary64
  split
  · next hzero =>
    rw [hzero, Nat.zero_mul, ofQuotient_of_small]
    exact tenTo_pos _
  · rw [if_neg (by unfold exponentBound; omega)]
    split
    · next hsmall =>
      -- The divisor outweighs the digits by more than all units, and was not computed.
      unfold exponentBound at hsmall
      refine (ofQuotient_of_small ?_ neg).symm
      have hdigits : d.digits < twoTo (d.digits.log2 + 1) := Nat.lt_log2_self
      calc 2 * (d.digits * twoTo 1074)
          = d.digits * twoTo (1 + 1074) := by
            rw [Nat.mul_left_comm, twoTo_add, show twoTo 1 = 2 from rfl]
        _ < twoTo (d.digits.log2 + 1) * twoTo (1 + 1074) :=
          Nat.mul_lt_mul_of_pos_right hdigits (twoTo_pos _)
        _ = twoTo (d.digits.log2 + 1 + (1 + 1074)) := (twoTo_add _ _).symm
        _ ≤ tenTo (-d.exponent).toNat := twoTo_le_tenTo (by omega)
    · rw [if_neg (by omega)]

/-- Of a power of ten below a power of five the power of two is left. -/
theorem toBinary64_fives (neg : Bool) (m : Nat) {n : Nat} (hn : 0 < n) :
    toBinary64 neg ⟨m * fiveTo n, -(n : Int)⟩ = ofQuotient neg (m * twoTo 1074) (twoTo n) := by
  rw [toBinary64_of_neg (show -(n : Int) < 0 by omega)]
  simp only [Int.neg_neg, Int.toNat_natCast]
  rw [tenTo_eq, Nat.mul_comm m, Nat.mul_assoc, ofQuotient_mul_left (fiveTo_pos n)]

/-- **A digit zero can stand in the power of ten.** -/
theorem toBinary64_mul_ten (neg : Bool) (m : Nat) (e : Int) :
    toBinary64 neg ⟨m * 10, e⟩ = toBinary64 neg ⟨m, e + 1⟩ := by
  -- The power of ten is a divisor, or a factor, or it goes from one to the other.
  rcases Int.lt_trichotomy e (-1) with he | rfl | he
  · have hpower : tenTo (-e).toNat = 10 * tenTo (-(e + 1)).toNat := by
      rw [show (-e).toNat = 1 + (-(e + 1)).toNat by omega, tenTo_add]
      rfl
    rw [toBinary64_of_neg (show e < 0 by omega), toBinary64_of_neg (show e + 1 < 0 by omega)]
    simp only [hpower]
    rw [Nat.mul_comm m, Nat.mul_assoc, ofQuotient_mul_left (by decide)]
  · rw [toBinary64_of_neg (show (-1 : Int) < 0 by decide),
      toBinary64_of_nonneg (show (0 : Int) ≤ -1 + 1 by decide)]
    have hquotient := ofQuotient_mul_left (show 0 < 10 by decide) neg (m * twoTo 1074) 1
    rw [← Nat.mul_assoc, Nat.mul_comm 10 m] at hquotient
    simpa [tenTo] using hquotient
  · have hpower : tenTo (e + 1).toNat = 10 * tenTo e.toNat := by
      rw [show (e + 1).toNat = 1 + e.toNat by omega, tenTo_add]
      rfl
    rw [toBinary64_of_nonneg (show 0 ≤ e by omega), toBinary64_of_nonneg (show 0 ≤ e + 1 by omega)]
    simp only [hpower, Nat.mul_assoc]

/-- Any number of zeros can. -/
theorem toBinary64_mul_tenTo (neg : Bool) (m k : Nat) (e : Int) :
    toBinary64 neg ⟨m * tenTo k, e⟩ = toBinary64 neg ⟨m, e + k⟩ := by
  induction k generalizing e with
  | zero => simp [tenTo]
  | succ k ih =>
    have hstep : m * tenTo (k + 1) = m * tenTo k * 10 := by rw [tenTo_add, Nat.mul_assoc]; rfl
    rw [hstep, toBinary64_mul_ten, ih]
    congr 2
    omega

/-- The decimal without zeros at its end denotes the same double. -/
theorem toBinary64_strip (neg : Bool) (d : Decimal) :
    d.strip.toBinary64 neg = d.toBinary64 neg := by
  induction d using strip.induct with
  | case1 d h ih =>
    have hdigits : d.digits / 10 * 10 = d.digits := by omega
    rw [strip, if_pos h, ih, ← toBinary64_mul_ten, hdigits]
  | case2 d h => rw [strip, if_neg h]

end Decimal

end ReportStore

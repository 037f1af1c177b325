/-
  ReportStore.Proofs.Cells
  ────────────────────────
  **WHAT A CELL IS READ AS.**

  A cell is an integer iff it is written as one: digits behind a sign or
  without one, which denote an integer of 64 bits.  What is written for an
  integer is of this kind, and what is written for a double never is, since
  it has a point or an exponent.  So a scalar may change its type when it is
  first written and read, but no scalar that was read does:

      ofCell c = .int n    ↔  the characters of c denote n
      reread (ofCell c)    =  ofCell c
-/
import Mathlib.Data.List.Induction
import ReportStore.Proofs.Number.ReadBack
import ReportStore.Proofs.Text
import ReportStore.Value.Cell

namespace ReportStore

/-! ## §1. Numerals. -/

namespace Text.Digits

/-- What one or more digits denote. -/
inductive Denotes : List Char → Nat → Prop where
  /-- A digit counts from zero. -/
  | digit {c : Char} (hc : c.isDigit = true) : Denotes [c] (c.toNat - '0'.toNat)
  /-- One more digit makes ten of the number before it. -/
  | more {cs : List Char} {n : Nat} {c : Char} (h : Denotes cs n) (hc : c.isDigit = true) :
    Denotes (cs ++ [c]) (10 * n + (c.toNat - '0'.toNat))

/-- What digits denote behind a sign, which may be missing. -/
inductive DenotesInt : List Char → Int → Prop where
  | bare {cs : List Char} {n : Nat} (h : Denotes cs n) : DenotesInt cs n
  | plus {cs : List Char} {n : Nat} (h : Denotes cs n) : DenotesInt ('+' :: cs) n
  | minus {cs : List Char} {n : Nat} (h : Denotes cs n) : DenotesInt ('-' :: cs) (-n)

variable {cs : List Char}

theorem ofDigitChars_concat (cs : List Char) (c : Char) :
    Nat.ofDigitChars 10 (cs ++ [c]) 0 =
      10 * Nat.ofDigitChars 10 cs 0 + (c.toNat - '0'.toNat) := by
  rw [Nat.ofDigitChars_append, Nat.ofDigitChars_cons, Nat.ofDigitChars_nil]

theorem denotes_ofDigitChars (hne : cs ≠ []) (hdigits : ∀ c ∈ cs, c.isDigit = true) :
    Denotes cs (Nat.ofDigitChars 10 cs 0) := by
  induction cs using List.reverseRecOn with
  | nil => exact absurd rfl hne
  | append_singleton cs c ih =>
    have hc : c.isDigit = true := hdigits c (List.mem_append_right _ List.mem_cons_self)
    rw [ofDigitChars_concat]
    cases cs with
    | nil =>
      rw [Nat.ofDigitChars_nil, Nat.mul_zero, Nat.zero_add]
      exact .digit hc
    | cons d ds =>
      exact .more (ih (List.cons_ne_nil _ _) fun c' hc' => hdigits c' (List.mem_append_left _ hc')) hc

theorem Denotes.digits {n : Nat} (h : Denotes cs n) :
    cs ≠ [] ∧ (∀ c ∈ cs, c.isDigit = true) ∧ Nat.ofDigitChars 10 cs 0 = n := by
  induction h with
  | @digit c hc =>
    refine ⟨List.cons_ne_nil _ _, List.forall_mem_singleton.2 hc, ?_⟩
    rw [Nat.ofDigitChars_cons, Nat.ofDigitChars_nil, Nat.mul_zero, Nat.zero_add]
  | @more cs n c h hc ih =>
    obtain ⟨-, hdigits, hvalue⟩ := ih
    refine ⟨by simp, ?_, ?_⟩
    · exact List.forall_mem_append.2 ⟨hdigits, List.forall_mem_singleton.2 hc⟩
    · rw [ofDigitChars_concat, hvalue]

/-- **Digits are read as the number they denote**, and nothing else is. -/
theorem nat?_eq_some_iff {n : Nat} : nat? cs = some n ↔ Denotes cs n := by
  constructor
  · intro h
    obtain ⟨hne, hdigits⟩ := nat?_chars h
    unfold nat? at h
    rw [if_pos ⟨hne, List.all_eq_true.2 hdigits⟩] at h
    injection h with h
    exact h ▸ denotes_ofDigitChars hne hdigits
  · intro h
    obtain ⟨hne, hdigits, hvalue⟩ := h.digits
    unfold nat?
    rw [if_pos ⟨hne, List.all_eq_true.2 hdigits⟩, hvalue]

theorem int?_eq_some_iff {n : Int} : int? cs = some n ↔ DenotesInt cs n := by
  constructor
  · intro h
    unfold int? at h
    -- A minus sign, a plus sign, or no sign.
    split at h
    · obtain ⟨m, hm, rfl⟩ := Option.map_eq_some_iff.1 h
      exact .minus (nat?_eq_some_iff.1 hm)
    · obtain ⟨m, hm, rfl⟩ := Option.map_eq_some_iff.1 h
      exact .plus (nat?_eq_some_iff.1 hm)
    · obtain ⟨m, hm, rfl⟩ := Option.map_eq_some_iff.1 h
      exact .bare (nat?_eq_some_iff.1 hm)
  · intro h
    cases h with
    | @bare _ m h =>
      obtain ⟨hne, hdigits, -⟩ := h.digits
      obtain ⟨c, cs, rfl⟩ := List.exists_cons_of_ne_nil hne
      rw [int?_of_isDigit (hdigits c List.mem_cons_self), nat?_eq_some_iff.2 h]
      rfl
    | plus h =>
      rw [int?, nat?_eq_some_iff.2 h]
      rfl
    | minus h =>
      rw [int?, nat?_eq_some_iff.2 h]
      rfl

theorem int64?_eq_some_iff {n : Int64} : int64? cs = some n ↔ DenotesInt cs n.toInt := by
  rw [← int?_eq_some_iff]
  unfold int64?
  cases hint : int? cs with
  | none => simp
  | some i =>
    simp only [Option.some.injEq]
    constructor
    · intro h
      split at h
      · next hfits =>
        injection h with h
        rw [← h, Int64.toInt_ofInt_of_le hfits.1 (by have := hfits.2; omega)]
      · cases h
    · rintro rfl
      have hlow := n.le_toInt
      have hhigh := n.toInt_lt
      rw [if_pos ⟨by omega, by omega⟩, Int64.ofInt_toInt]

end Text.Digits

/-! ## §2. Scalars written and read. -/

/-- A scalar as its cell is read. -/
def Value.reread (v : Value) : Value := Value.ofCell (v.cell?.getD "")

/-- A text that is read as a number. -/
def NumberLike (s : String) : Prop :=
  Text.Digits.int64? s.toList ≠ none ∨ Value.finite? s ≠ none

theorem Value.isScalar_iff {v : Value} : v.isScalar = true ↔ ∃ cell, v.cell? = some cell := by
  cases v <;> simp [isScalar, cell?]

namespace Layout

/-- Digits in place keep their point. -/
theorem point_mem_inPlace (digits : List Char) (exponent : Int) :
    '.' ∈ inPlace true digits exponent := by
  unfold inPlace
  simp only [if_true]
  split
  · simp
  · split
    · simp
    · simp

/-- **A double is not written like an integer**: its cell has a point or an
exponent. -/
theorem cell_ofDecimal (d : Decimal) :
    '.' ∈ cell.ofDecimal d ∨ 'e' ∈ cell.ofDecimal d := by
  have hlaid : ∀ (place : Bool) (digits : List Char) (lead : Int),
      cell.ofDecimal d = (if place then inPlace true digits d.exponent
        else withExponent false digits lead) → '.' ∈ cell.ofDecimal d ∨ 'e' ∈ cell.ofDecimal d := by
    intro place digits lead h
    rw [h]
    cases place with
    | true => exact .inl (point_mem_inPlace _ _)
    | false => exact .inr (by simp [withExponent])
  exact hlaid _ _ _ rfl

theorem int64?_cell {x : Binary64} (h : x.isFinite = true) :
    Text.Digits.int64? (cell.text x).toList = none := by
  have hmark : ∃ c ∈ (cell.text x).toList, Text.Digits.isNumeral c = false := by
    unfold text
    rw [if_pos h, String.toList_ofList]
    rcases cell_ofDecimal (if x.isZero then ⟨0, 0⟩ else x.shortest cell.tie) with hc | hc
    · exact ⟨'.', List.mem_append_right _ hc, by decide⟩
    · exact ⟨'e', List.mem_append_right _ hc, by decide⟩
  obtain ⟨c, hc, hnot⟩ := hmark
  unfold Text.Digits.int64?
  cases hint : Text.Digits.int? (cell.text x).toList with
  | none => rfl
  | some n =>
    have hall := (Text.Digits.int?_chars hint).1 c hc
    rw [hnot] at hall
    cases hall

end Layout

namespace Value

theorem reread_int (n : Int64) : reread (.int n) = .int n := ofCell_intCell n

theorem reread_text {s : String} (h : ¬ NumberLike s) : reread (.text s) = .text s := by
  obtain ⟨hint, hfinite⟩ := not_or.1 h
  unfold reread ofCell cell?
  simp only [Option.getD_some, Classical.not_not.1 hint, Classical.not_not.1 hfinite]

theorem reread_float {x : Binary64} (hfinite : x.isFinite = true)
    (hreads : Binary64.ofText? (Layout.cell.text x).toList = some x) :
    reread (.float x) = .float x := by
  have hread : finite? (Layout.cell.text x) = some x := by
    unfold finite?
    rw [hreads, Option.filter_some, if_pos hfinite]
  unfold reread ofCell cell?
  simp only [Option.getD_some, Layout.int64?_cell hfinite, hread]

/-- The three ways in which a cell is read. -/
inductive ReadAs (cell : String) : Value → Prop where
  /-- It is the numeral of an integer that fits. -/
  | int {n : Int64} (h : Text.Digits.int64? cell.toList = some n) : ReadAs cell (.int n)
  /-- It denotes a finite double. -/
  | float {x : Binary64} (h : x.isFinite = true) : ReadAs cell (.float x)
  /-- It is like no number. -/
  | text (h : ¬ NumberLike cell) : ReadAs cell (.text cell)

theorem readAs_ofCell (cell : String) : ReadAs cell (ofCell cell) := by
  unfold ofCell
  cases hint : Text.Digits.int64? cell.toList with
  | some n => exact .int hint
  | none =>
    cases hfinite : finite? cell with
    | some x =>
      unfold finite? at hfinite
      exact .float (Option.filter_eq_some_iff.1 hfinite).2
    | none =>
      refine .text ?_
      rintro (h | h)
      · exact h hint
      · exact h hfinite

/-- **What was read from a cell is written and read as itself.** -/
theorem reread_ofCell (cell : String) : reread (ofCell cell) = ofCell cell := by
  have h := readAs_ofCell cell
  generalize ofCell cell = v at h
  cases h with
  | int _ => exact reread_int _
  | float h => exact reread_float h (Layout.ofText?_cell h)
  | text h => exact reread_text h

/-- **A cell is an integer iff it is written as one.** -/
theorem ofCell_eq_int_iff {cell : String} {n : Int64} :
    ofCell cell = .int n ↔ Text.Digits.DenotesInt cell.toList n.toInt := by
  rw [← Text.Digits.int64?_eq_some_iff]
  constructor
  · intro hcell
    have h := readAs_ofCell cell
    rw [hcell] at h
    cases h with
    | int h => exact h
  · intro hint
    unfold ofCell
    rw [hint]

end Value

/-! ## §3. The types of cells. -/

namespace Value

/-- **The type of a cell is stable.**  A cell is read as an integer exactly when it
is a sign, if any, and digits that denote the integer; an integer is read
from its cell; and what any cell is read as has a cell, which is read as the
same value of the same type. -/
theorem ofCell_stable :
    (∀ (cell : String) (n : Int64),
      ofCell cell = .int n ↔ Text.Digits.DenotesInt cell.toList n.toInt) ∧
      (∀ n : Int64, ∃ cell, cell? (.int n) = some cell ∧ ofCell cell = .int n) ∧
        ∀ cell, ∃ again, cell? (ofCell cell) = some again ∧ ofCell again = ofCell cell := by
  refine ⟨fun _ _ => ofCell_eq_int_iff, fun n => ⟨intCell n, rfl, ofCell_intCell n⟩, ?_⟩
  intro cell
  obtain ⟨again, hagain⟩ := isScalar_iff.1 (isScalar_ofCell cell)
  have hread := reread_ofCell cell
  unfold reread at hread
  rw [hagain, Option.getD_some] at hread
  exact ⟨again, hagain, hread⟩

/-- A sign and zeros before the number, the least integer, one more than the
greatest, and a number too large for a double. -/
example : ofCell "+007" = .int 7 ∧
    ofCell "-9223372036854775808" = .int (-9223372036854775808) ∧
      ofCell "9223372036854775808" = .float ⟨0x43E0000000000000⟩ ∧
        ofCell "1e999" = .text "1e999" := by
  decide +kernel

end Value

end ReportStore

/-
  ReportStore.Proofs.Json.Quote
  ─────────────────────────────
  **A STRING IS READ BACK FROM ITS QUOTES.**

  Whatever characters a string has, none of those that are written for it
  ends it early, none is a control character, and each of them, alone or
  with the backslash before it, is read as the character it stands for:

      stringBody (characters of s ++ quote ++ rest) = (s, rest)
-/
import Mathlib.Tactic.SplitIfs
import ReportStore.Json.Lexeme
import ReportStore.Json.Quote

namespace ReportStore.Json

/-! ## §1. One character. -/

/-- The forms in which a character is written. -/
inductive Written : Char → List Char → Prop where
  /-- A backslash and a letter. -/
  | letter {c l : Char} (hl : l ≠ 'u') (visible : ¬ l.toNat < 0x20) (stands : escape? l = some c) :
      Written c ['\\', l]
  /-- A backslash and four digits. -/
  | digits {c : Char} (low : c.toNat < 0x20) :
      Written c ['\\', 'u', '0', '0', hexDigit (c.toNat / 16), hexDigit c.toNat]
  /-- The character itself. -/
  | itself {c : Char} (hquote : c ≠ '"') (hback : c ≠ '\\') (high : ¬ c.toNat < 0x20) :
      Written c [c]

theorem hexDigit_visible : ∀ n, ¬ (hexDigit n).toNat < 0x20 := by
  intro n
  have hdigits : ∀ d < 16, ¬ (Nat.digitChar d).toNat < 0x20 := by decide
  exact hdigits (n % 16) (Nat.mod_lt n (by decide))

/-- The digits of a control character are its number. -/
theorem unit?_hexDigit : ∀ n < 0x20, unit? '0' '0' (hexDigit (n / 16)) (hexDigit n) = some n := by
  decide

theorem written_quotedChar (c : Char) : Written c (quotedChar c) := by
  unfold quotedChar
  split_ifs with hquote hback hb ht hn hf hr hlow
  · subst hquote
    exact .letter (by decide) (by decide) rfl
  · subst hback
    exact .letter (by decide) (by decide) rfl
  · subst hb
    exact .letter (by decide) (by decide) rfl
  · subst ht
    exact .letter (by decide) (by decide) rfl
  · subst hn
    exact .letter (by decide) (by decide) rfl
  · subst hf
    exact .letter (by decide) (by decide) rfl
  · subst hr
    exact .letter (by decide) (by decide) rfl
  · exact .digits hlow
  · exact .itself hquote hback hlow

/-- **A character is read as it was written.** -/
theorem stringBody_of_written {c : Char} {w : List Char} (h : Written c w) (rest : List Char) :
    stringBody (w ++ rest) = consReading c (stringBody rest) := by
  cases h with
  | @letter l hl visible stands =>
    rw [List.cons_append, List.cons_append, List.nil_append, stringBody]
    · rw [stands]
    · exact fun _ _ _ _ _ h => absurd h hl
    · exact hl
  | digits low =>
    have hlow : isLowHalf c.toNat = false := decide_eq_false (by omega)
    have hhigh : isHighHalf c.toNat = false := decide_eq_false (by omega)
    simp only [List.cons_append, List.nil_append]
    rw [stringBody, unit?_hexDigit c.toNat low]
    simp only [hlow, hhigh, Bool.false_eq_true, if_false, Char.ofNat_toNat]
  | itself hquote hback high =>
    -- The readings of a quote and of a backslash do not apply.
    rw [List.cons_append, List.nil_append, stringBody, if_neg high]
    · exact hquote
    · exact fun h => absurd h hback
    · exact fun _ _ _ _ _ h => absurd h hback
    · exact fun _ h => absurd h hback
    · exact fun _ _ h => absurd h hback

/-! ## §2. Strings. -/

/-- **A string is read back**, and what follows its quote is left. -/
theorem stringBody_flatMap (rest : List Char) : ∀ s : List Char,
    stringBody (s.flatMap quotedChar ++ '"' :: rest) = .ok (s, rest) := by
  intro s
  induction s with
  | nil => rw [List.flatMap_nil, List.nil_append, stringBody]
  | cons c s ih =>
    rw [List.flatMap_cons, List.append_assoc, stringBody_of_written (written_quotedChar c), ih]
    rfl

theorem quote_append (s : String) (rest : List Char) :
    quote s ++ rest = '"' :: (s.toList.flatMap quotedChar ++ '"' :: rest) := by
  rw [quote, List.append_assoc, List.cons_append, List.singleton_append]

/-! ## §3. No control characters. -/

/-- Whether none of some characters is a control character. -/
def Visible (cs : List Char) : Prop := ∀ c ∈ cs, ¬ c.toNat < 0x20

theorem visible_append {a b : List Char} : Visible (a ++ b) ↔ Visible a ∧ Visible b :=
  List.forall_mem_append

theorem visible_cons {c : Char} {cs : List Char} :
    Visible (c :: cs) ↔ ¬ c.toNat < 0x20 ∧ Visible cs :=
  List.forall_mem_cons

theorem visible_singleton {c : Char} : Visible [c] ↔ ¬ c.toNat < 0x20 := List.forall_mem_singleton

theorem Written.visible {c : Char} {w : List Char} (h : Written c w) : Visible w := by
  cases h with
  | letter hl visible => exact visible_cons.2 ⟨by decide, visible_singleton.2 visible⟩
  | digits low =>
    have hdigits : Visible [hexDigit (c.toNat / 16), hexDigit c.toNat] :=
      visible_cons.2 ⟨hexDigit_visible _, visible_singleton.2 (hexDigit_visible _)⟩
    exact visible_cons.2 ⟨by decide, visible_cons.2 ⟨by decide,
      visible_cons.2 ⟨by decide, visible_cons.2 ⟨by decide, hdigits⟩⟩⟩⟩
  | itself hquote hback high => exact visible_singleton.2 high

/-- **A string is written without control characters.** -/
theorem visible_quote (s : String) : Visible (quote s) := by
  have hinner : Visible (s.toList.flatMap quotedChar) := by
    intro x hx
    obtain ⟨c, -, hx⟩ := List.mem_flatMap.1 hx
    exact (written_quotedChar c).visible x hx
  exact visible_append.2 ⟨visible_cons.2 ⟨by decide, hinner⟩, visible_singleton.2 (by decide)⟩

end ReportStore.Json

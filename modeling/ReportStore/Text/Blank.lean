/-
  ReportStore.Text.Blank
  ──────────────────────
  **BLANK CHARACTERS.**

  A character is blank if it has the Unicode property `White_Space`.  The
  cell of a time stamp is trimmed of blanks before it is read, and a line of
  records that is all blanks is passed over.
-/

namespace ReportStore.Text

/-- Whether a character has the Unicode property `White_Space`. -/
def isBlank (c : Char) : Bool :=
  let n := c.toNat
  (0x09 ≤ n && n ≤ 0x0D) || n == 0x20 || n == 0x85 || n == 0xA0 || n == 0x1680 ||
    (0x2000 ≤ n && n ≤ 0x200A) || n == 0x2028 || n == 0x2029 || n == 0x202F ||
    n == 0x205F || n == 0x3000

/-- Drops the blanks at both ends. -/
def trim (cs : List Char) : List Char :=
  ((cs.dropWhile isBlank).reverse.dropWhile isBlank).reverse

/-- A text whose ends are not blank stays as it is. -/
theorem trim_of_ends {cs : List Char} (hfirst : ∀ c ∈ cs.head?, isBlank c = false)
    (hlast : ∀ c ∈ cs.getLast?, isBlank c = false) : trim cs = cs := by
  have hdrop : ∀ l : List Char, (∀ c ∈ l.head?, isBlank c = false) → l.dropWhile isBlank = l
    | [], _ => rfl
    | c :: l, h => by simp [h c rfl]
  simp only [trim, hdrop cs hfirst]
  rw [hdrop cs.reverse (by simpa using hlast), List.reverse_reverse]

end ReportStore.Text

/-
  ReportStore.Text.Pieces
  ───────────────────────
  **TEXTS CUT AT A CHARACTER.**

  A path is cut at its slashes, a message at its line feeds.  Every
  occurrence cuts, so there is one piece more than there are occurrences,
  and pieces may be empty.
-/

namespace ReportStore.Text

/-- Puts a character before the first piece. -/
def extendFirst (c : Char) : List (List Char) → List (List Char)
  | [] => [[c]]
  | piece :: rest => (c :: piece) :: rest

/-- The texts between the occurrences of a character. -/
def pieces (sep : Char) : List Char → List (List Char)
  | [] => [[]]
  | c :: cs => if c = sep then [] :: pieces sep cs else extendFirst c (pieces sep cs)

/-- The lines of a text, cut at its line feeds. -/
def lines (s : String) : List String := (pieces '\n' s.toList).map String.ofList

/-- There is always a first piece. -/
theorem pieces_ne_nil (sep : Char) (cs : List Char) : pieces sep cs ≠ [] := by
  cases cs with
  | nil => simp [pieces]
  | cons c cs =>
    simp only [pieces]
    split
    · simp
    · cases pieces sep cs <;> simp [extendFirst]

end ReportStore.Text

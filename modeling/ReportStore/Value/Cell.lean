/-
  ReportStore.Value.Cell
  ──────────────────────
  **SCALARS AS CELLS OF A TABLE.**

  A scalar is stored as the text of a cell; a map has none.  A cell is read
  as the narrowest scalar that holds it: an integer, else a finite double,
  else the text itself.  A double keeps a mark of being no integer, so that
  its cell reads back as a double.

      ofCell (cell of an integer n) = .int n
-/
import ReportStore.Value.Basic
import ReportStore.Number.Layout

namespace ReportStore.Value

/-! ## §1. Writing. -/

/-- The cell of an integer. -/
def intCell (n : Int64) : String := String.ofList (Text.Digits.ofInt n.toInt)

/-- The cell of a scalar. -/
def cell? : Value → Option String
  | .int n => some (intCell n)
  | .float x => some (Layout.cell.text x)
  | .text s => some s
  | .map _ => none

/-! ## §2. Reading. -/

/-- The finite double that a cell denotes. -/
def finite? (cell : String) : Option Binary64 :=
  (Binary64.ofText? cell.toList).filter (·.isFinite)

/-- The narrowest scalar that holds a cell. -/
def ofCell (cell : String) : Value :=
  match Text.Digits.int64? cell.toList with
  | some n => .int n
  | none =>
    match finite? cell with
    | some x => .float x
    | none => .text cell

/-- A cell is never read as a map. -/
theorem isScalar_ofCell (cell : String) : (ofCell cell).isScalar = true := by
  unfold ofCell
  split
  · rfl
  · split <;> rfl

/-- An integer survives being written and read. -/
theorem ofCell_intCell (n : Int64) : ofCell (intCell n) = .int n := by
  simp [ofCell, intCell, Text.Digits.int64?_ofInt]

/-! ## §3. Messages. -/

mutual

/-- A value as a message shows it: scalars plainly, a map as its bindings
between braces. -/
def display : Value → String
  | .int n => intCell n
  | .float x => Layout.plain.text x
  | .text s => s
  | .map entries => "\x7b" ++ ", ".intercalate (displayEntries entries) ++ "\x7d"

/-- Each binding as a message shows it. -/
def displayEntries : List (String × Value) → List String
  | [] => []
  | (k, v) :: rest => (k ++ ": " ++ display v) :: displayEntries rest

end

end ReportStore.Value

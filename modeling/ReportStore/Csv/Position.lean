/-
  ReportStore.Csv.Position
  ────────────────────────
  **WHERE A RECORD STANDS IN A FILE, AND WHAT CAN BE WRONG WITH IT.**

  A report about a record names its number (the header is 0), the line and
  the byte at which reading of it began: right after the terminator of the
  record before it, so that skipped empty lines belong to the record that
  follows them.
-/
import ReportStore.Text.Digits

namespace ReportStore.Csv

/-- A byte of a file: its offset and its line, counted from one. -/
structure Mark where
  byte : Nat
  line : Nat
  deriving DecidableEq

/-- Where reading of a record began. -/
structure Position where
  /-- The number of the record; the header is 0. -/
  record : Nat
  start : Mark
  deriving DecidableEq

/-- Why a record is no row of its table. -/
inductive RowFault where
  /-- It has another number of fields than the header. -/
  | fieldCount (position : Position) (found expected : Nat)
  /-- A field is no UTF-8 from a byte of it on. -/
  | notUtf8 (position : Position) (field index : Nat)
  deriving DecidableEq

/-- The decimal numeral of a count. -/
def count (n : Nat) : String := String.ofList (Text.Digits.ofNat n)

/-- The wording of a fault. -/
def RowFault.message : RowFault → String
  | .fieldCount p found expected =>
    "CSV error: record " ++ count p.record ++ " (line: " ++ count p.start.line ++ ", byte: " ++
      count p.start.byte ++ "): found record with " ++ count found ++
      " fields, but the previous record has " ++ count expected ++ " fields"
  | .notUtf8 p field index =>
    "CSV parse error: record " ++ count p.record ++ " (line " ++ count p.start.line ++
      ", field: " ++ count field ++ ", byte: " ++ count p.start.byte ++
      "): invalid utf-8: invalid UTF-8 in field " ++ count field ++ " near byte index " ++
      count index

end ReportStore.Csv

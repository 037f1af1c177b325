/-
  ReportStore.Csv.Table
  ─────────────────────
  **TABLES: A HEADER AND THE ROWS UNDER IT.**

  The first record of a file names the columns.  Every later record is a row
  if it has as many fields as the header and each is UTF-8; the count is
  looked at first.  A record that is no row stands as its fault among the
  rows, and does not hide the ones after it.
-/
import ReportStore.Csv.Scan

namespace ReportStore.Csv

/-! ## §1. The texts of a record. -/

/-- The texts of fields, or the first field that is none and the byte of it
that is wrong. -/
def decodeFields : Nat → List Bytes → Except (Nat × Nat) (List String)
  | _, [] => .ok []
  | i, field :: rest =>
    match Text.decode? field with
    | none => .error (i, Text.validLength field)
    | some s =>
      match decodeFields (i + 1) rest with
      | .ok ss => .ok (s :: ss)
      | .error e => .error e

/-- The texts of a record. -/
def decodeRecord (number : Nat) (r : RawRecord) : Except RowFault (List String) :=
  match decodeFields 0 r.fields with
  | .ok cells => .ok cells
  | .error (field, index) => .error (.notUtf8 ⟨number, r.start⟩ field index)

/-! ## §2. Tables. -/

/-- A row under a header of `width` columns. -/
def decodeRow (width number : Nat) (r : RawRecord) : Except RowFault (List String) :=
  if r.fields.length = width then decodeRecord number r
  else .error (.fieldCount ⟨number, r.start⟩ r.fields.length width)

/-- The rows under a header, numbered onwards. -/
def decodeRows (width : Nat) : Nat → List RawRecord → List (Except RowFault (List String))
  | _, [] => []
  | number, r :: rest => decodeRow width number r :: decodeRows width (number + 1) rest

/-- A header and the records under it. -/
structure Table where
  /-- The column names; none in a file without a record. -/
  header : Except RowFault (List String)
  rows : List (Except RowFault (List String))

/-- The table that a file holds. -/
def Table.ofBytes (bs : Bytes) : Table :=
  match rawRecords bs with
  | [] => ⟨.ok [], []⟩
  | first :: rest => ⟨decodeRecord 0 first, decodeRows first.fields.length 1 rest⟩

end ReportStore.Csv

/-
  ReportStore.Csv.Print
  ─────────────────────
  **FROM RECORDS TO BYTES.**

  A record is its fields with commas between them and a line feed at the
  end.  A field stands between quotes only if it holds a comma, a quote or a
  line end, and its quotes are doubled.  A record of one empty field is
  written as two quotes, for else its line would be skipped.
-/
import ReportStore.Csv.Scan

namespace ReportStore.Csv

/-- Whether a byte cannot stand in a field without quotes. -/
def isSpecial (b : UInt8) : Bool := b == comma || b == quote || isTerminator b

/-- The bytes of a field with its quotes doubled. -/
def doubled (field : Bytes) : Bytes :=
  field.flatMap fun b => if b = quote then [quote, quote] else [b]

/-- A field as it is written. -/
def printField (field : Bytes) : Bytes :=
  if field.any isSpecial then quote :: doubled field ++ [quote] else field

/-- Fields with commas between them. -/
def printFields : List Bytes → Bytes
  | [] => []
  | [field] => printField field
  | field :: rest => printField field ++ comma :: printFields rest

/-- A record as it is written, its terminator included. -/
def printRecord (cells : List String) : Bytes :=
  match cells.map Text.encode with
  | [[]] => [quote, quote, lineFeed]
  | fields => printFields fields ++ [lineFeed]

end ReportStore.Csv

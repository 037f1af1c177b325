/-
  ReportStore.RecordLines
  ───────────────────────
  **RECORDS AS LINES OF JSON.**

  A stream of records has one record a line.  Lines end at a line feed, a
  carriage return before it included; blank lines are passed over but
  counted.  A line that is no record does not hinder the reading of the
  lines after it.
-/
import ReportStore.Csv.Scan
import ReportStore.Json.Record
import ReportStore.Text.Blank

namespace ReportStore.RecordLines

/-! ## §1. Lines. -/

/-- The parts that end at a line feed, and what is left after the last. -/
def cutAtLineFeeds : Bytes → List Bytes × Bytes
  | [] => ([], [])
  | b :: rest =>
    let (whole, last) := cutAtLineFeeds rest
    if b = Csv.lineFeed then ([] :: whole, last)
    else
      match whole with
      | [] => ([], b :: last)
      | line :: whole => ((b :: line) :: whole, last)

/-- A line without the carriage return before its line feed. -/
def dropReturn (line : Bytes) : Bytes :=
  if line.getLast? = some Csv.carriageReturn then line.dropLast else line

/-- The lines of a stream without their ends. -/
def lines (bs : Bytes) : List Bytes :=
  let (whole, last) := cutAtLineFeeds bs
  whole.map dropReturn ++ if last.isEmpty then [] else [last]

/-! ## §2. Reading. -/

/-- Why a line is no record. -/
inductive LineFault where
  /-- It is no UTF-8. -/
  | notText
  /-- It is no JSON record; lines are counted from one. -/
  | notRecord (line : Nat)
  deriving DecidableEq

/-- The record of a line, unless it is blank. -/
def ofLine? (number : Nat) (line : Bytes) : Option (Except LineFault Record) :=
  match Text.decode? line with
  | none => some (.error .notText)
  | some s =>
    if s.toList.all Text.isBlank then none
    else
      match Json.readRecord s.toList with
      | .ok r => some (.ok r)
      | .error _ => some (.error (.notRecord number))

/-- The records of lines, numbered onwards. -/
def ofLines : (number : Nat) → List Bytes → List (Except LineFault Record)
  | _, [] => []
  | number, line :: rest =>
    match ofLine? number line with
    | some item => item :: ofLines (number + 1) rest
    | none => ofLines (number + 1) rest

/-- The records of a stream. -/
def read (bs : Bytes) : List (Except LineFault Record) := ofLines 1 (lines bs)

/-! ## §3. Writing. -/

/-- The line of a record. -/
def line (r : Record) : String := String.ofList (Json.printRecord r ++ ['\n'])

/-- The lines of records. -/
def text (rs : List Record) : String := String.join (rs.map line)

/-- Where the writing of a line stops. -/
inductive Stop where
  /-- Within the record. -/
  | inRecord
  /-- At the end of the line. -/
  | atLineEnd
  deriving DecidableEq

/-- Where the writing of a line stops if an output takes only so many bytes
of it. -/
def stopWithin (limit : Nat) (r : Record) : Option Stop :=
  let size := (Text.encode (String.ofList (Json.printRecord r))).length
  if limit < size then some .inRecord
  else if limit = size then some .atLineEnd
  else none

end ReportStore.RecordLines

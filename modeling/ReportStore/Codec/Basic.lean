/-
  ReportStore.Codec.Basic
  ───────────────────────
  **BETWEEN REPORTS AND ROWS.**

  The store does not interpret reports.  A codec splits a record into groups
  of flat rows when it is saved, and turns a row back into a fragment of a
  record when it is read; fragments of one time are united by the store.
-/
import ReportStore.Columns
import ReportStore.Value.Cell
import ReportStore.Feed

namespace ReportStore

/-- Rows to append, by group; each group is a file of its own. -/
abbrev GroupRows := Dict (List Record)

/-- A translation between records and rows. -/
structure Codec where
  /-- The name that shows in the log. -/
  name : String
  /-- The rows of a record by group. -/
  toGroups : Record → Except Fault GroupRows
  /-- The fragment of a row of a file. -/
  ofRow : (fileName : String) → Row → Except Fault Record

namespace Codec

/-! ## §1. File names. -/

/-- The ending of group files. -/
def extension : String := ".csv"

/-- The name of the file of a group. -/
def fileOfGroup (group : String) : String := group ++ extension

/-- The group of a file: its name without the ending. -/
def groupOfFile (fileName : String) : String :=
  let cs := fileName.toList
  let stem := cs.length - 4
  if 4 ≤ cs.length ∧ cs.drop stem = ".csv".toList then String.ofList (cs.take stem)
  else fileName

/-! ## §2. Common fields. -/

/-- The value of a common column: the time stamp is an integer, the others
stay text, so that a socket `0` keeps its form. -/
def commonValue (field cell : String) : Except Fault Value :=
  if field = "timestamp" then
    match Text.Digits.int64? (Text.trim cell.toList) with
    | some n => .ok (.int n)
    | none => .error (.codec (.timestamp cell))
  else .ok (.text cell)

/-- The common fields that a row has. -/
def commonFields (row : Row) : List String → Record → Except Fault Record
  | [], out => .ok out
  | field :: rest, out =>
    match Dict.get? row field with
    | none => commonFields row rest out
    | some cell =>
      match commonValue field cell with
      | .ok v => commonFields row rest (Dict.insert out field v)
      | .error e => .error e

/-- The fields of a row that are not common, each as the narrowest scalar. -/
def ownFields (row : Row) : Record :=
  Dict.mapValues Value.ofCell (row.filter fun p => !Columns.isCommon p.1)

/-- The cell of a field that has to be a scalar. -/
def scalarCell (r : Record) (field : String) : Except Fault String :=
  match (Dict.get? r field).bind Value.cell? with
  | some cell => .ok cell
  | none => .error (.invalidRecord (.noScalar field))

end Codec

end ReportStore

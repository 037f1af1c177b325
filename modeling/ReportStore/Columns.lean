/-
  ReportStore.Columns
  ───────────────────
  **THE COLUMNS OF A GROUP FILE.**

  Every group file starts with the five common columns in a fixed order and
  goes on with the fields of its own, ascending.  So the columns depend on
  the set of field names only, and files written at different times can be
  compared by their headers.
-/
import ReportStore.Fault

namespace ReportStore.Columns

/-! ## §1. The common columns. -/

/-- The columns that every file starts with. -/
def common : List String := ["timestamp", "sensor", "target", "socket", "cpu"]

/-- Whether a field is a common column. -/
def isCommon (field : String) : Bool := common.contains field

/-- The common columns that a header lacks, in their order. -/
def missingCommon (header : List String) : List String :=
  common.filter fun c => !header.contains c

/-! ## §2. Headers. -/

/-- The names that are no common columns, ascending and each once. -/
def own (fields : List String) : List String :=
  Dict.keys (Dict.ofPairs ((fields.filter fun f => !isCommon f).map fun f => (f, ())))

/-- The header of rows with these fields. -/
def header (fields : List String) : List String := common ++ own fields

/-- Requires the common columns of a header. -/
def requireCommon (path : String) (header : List String) : Except Fault Unit :=
  match missingCommon header with
  | [] => .ok ()
  | missing => .error (.missingColumns path missing)

/-- Requires a file's header to be the one of the rows. -/
def requireSame (path : String) (expected found : List String) : Except Fault Unit :=
  if expected = found then .ok () else .error (.headerMismatch path expected found)

end ReportStore.Columns

/-
  ReportStore.Feed
  ────────────────
  **THE ROWS OF ONE FILE, ONE HELD BACK.**

  Whether a row is due is decided by its time before it is taken, so a feed
  always holds the next row of its file; an exhausted feed holds none.  A
  record of the file that is no row makes one `advance` fail and is then
  passed: the row held stays held, and no other row is lost.
-/
import ReportStore.Timestamp
import ReportStore.Csv.Table

namespace ReportStore

/-- A row of a file: column names to cells. -/
abbrev Row := Dict String

/-- The row of some cells under a header.  A column named twice has the
later cell. -/
def Row.ofCells (header cells : List String) : Row := Dict.ofPairs (header.zip cells)

/-- The rows of one file that are still to come. -/
structure Feed where
  /-- The path it was opened on. -/
  path : String
  /-- The name of the file, which codecs are told. -/
  fileName : String
  /-- The column names; none for a file without a record. -/
  header : List String
  /-- The row to take next. -/
  held : Option Row
  /-- What the file holds after it. -/
  rest : List (Except Csv.RowFault Row)
  /-- How many rows were taken. -/
  taken : Nat

namespace Feed

/-! ## §1. Opening. -/

/-- The rows of a table under its header. -/
def rowsOf (header : List String) (rows : List (Except Csv.RowFault (List String))) :
    List (Except Csv.RowFault Row) :=
  rows.map fun r => r.map (Row.ofCells header)

/-- A feed of the bytes of a file. -/
def ofBytes (path : String) (bytes : Bytes) : Except Fault Feed :=
  let table := Csv.Table.ofBytes bytes
  match table.header with
  | .error e => .error (.malformedRow path e)
  | .ok header =>
    let feed held rest : Feed := ⟨path, Path.fileName path, header, held, rest, 0⟩
    match rowsOf header table.rows with
    | [] => .ok (feed none [])
    | .ok row :: rest => .ok (feed (some row) rest)
    | .error e :: _ => .error (.malformedRow path e)

/-- Opens a file: its header and its first row have to be readable. -/
def openAt (t : FileTree) (path : String) : Except Fault Feed :=
  match t.openAt path with
  | .error e => .error (.cannotOpen path e)
  | .ok node =>
    match FileTree.contents node with
    | .error e => .error (.system path e)
    | .ok bytes => ofBytes path bytes

/-! ## §2. Looking. -/

/-- Whether no row is left. -/
def isExhausted (f : Feed) : Bool := f.held.isNone

/-- The cell of a row that holds its time. -/
def timeCell (row : Row) : String := (Dict.get? row "timestamp").getD ""

/-- The time of the row held, if one is. -/
def heldTime (f : Feed) : Except Fault (Option Int) :=
  match f.held with
  | none => .ok none
  | some row => (readTime f.path (timeCell row)).map some

/-! ## §3. Taking. -/

/-- Takes the row held and holds the one after it. -/
def advance (f : Feed) : Except Fault (Option Row) × Feed :=
  let taken := if f.held.isSome then f.taken + 1 else f.taken
  match f.rest with
  | [] => (.ok f.held, { f with held := none, taken })
  | .ok row :: rest => (.ok f.held, { f with held := some row, rest, taken })
  | .error e :: rest => (.error (.malformedRow f.path e), { f with rest })

/-- How many records of the file were not looked at yet, the row held
included. -/
def remaining (f : Feed) : Nat := f.rest.length + if f.held.isSome then 1 else 0

end Feed

end ReportStore

/-
  ReportStore.Saving.Plan
  ───────────────────────
  **WHAT A SAVE IS GOING TO APPEND.**

  Group files lie at `<base>/<sensor>-<target>/<group>.csv`.  Before a save
  touches anything it is planned: the record is split into rows, every name
  and every time is checked, and the header of every row is compared with
  the one its file carries, or is going to carry.  A plan is the list of
  appends that is left to perform; planning only reads the tree.
-/
import ReportStore.Codec.Basic
import ReportStore.Csv.Print

namespace ReportStore

/-- A row to append to a file. -/
structure Append where
  path : String
  header : List String
  cells : List String
  /-- Whether the header goes before the row, the file having none. -/
  startsFile : Bool
  deriving DecidableEq

/-- The bytes that are appended. -/
def Append.bytes (a : Append) : Bytes :=
  (if a.startsFile then Csv.printRecord a.header else []) ++ Csv.printRecord a.cells

/-- The appends of a save, in order. -/
structure Plan where
  /-- The directory of the files. -/
  directory : String
  appends : List Append

namespace Plan

/-! ## §1. Names. -/

/-- A field of the record as the name of a directory. -/
def nameField (r : Record) (field : String) : Except Fault String :=
  match Codec.scalarCell r field with
  | .error e => .error e
  | .ok name =>
    if Path.isPlain name then .ok name
    else .error (.invalidRecord (.notDirectoryName field name))

/-- The directory of an entity: its sensor and its target. -/
def entityDirectory (base : String) (r : Record) : Except Fault String :=
  match nameField r "sensor" with
  | .error e => .error e
  | .ok sensor =>
    match nameField r "target" with
    | .error e => .error e
    | .ok target => .ok (Path.join base (sensor ++ "-" ++ target))

/-- The file of a group. -/
def groupPath (directory group : String) : Except Fault String :=
  if Path.isPlain group then .ok (Path.join directory (Codec.fileOfGroup group))
  else .error (.invalidRecord (.notFileName group))

/-! ## §2. Headers of files. -/

/-- The header a file carries; none if the file is missing or has no
record. -/
def existingHeader (t : FileTree) (path : String) : Except Fault (Option (List String)) :=
  match t.openAt path with
  | .error .notFound => .ok none
  | .error e => .error (.system path e)
  | .ok node =>
    match FileTree.contents node with
    | .error e => .error (.system path e)
    | .ok bytes =>
      match (Csv.Table.ofBytes bytes).header with
      | .error e => .error (.malformedRow path e)
      | .ok [] => .ok none
      | .ok header => .ok (some header)

/-! ## §3. Rows. -/

/-- Requires a row's time stamp to read back as a time. -/
def requireTime (path : String) (row : Record) : Except Fault Unit :=
  match Codec.scalarCell row "timestamp" with
  | .error e => .error e
  | .ok cell => (readTime path cell).map fun _ => ()

/-- The cells of a row under a header; an absent column is empty. -/
def rowCells (row : Record) : List String → Except Fault (List String)
  | [] => .ok []
  | column :: rest =>
    let cell : Except Fault String :=
      match Dict.get? row column with
      | none => .ok ""
      | some v =>
        match v.cell? with
        | some cell => .ok cell
        | none => .error (.invalidRecord (.nestedColumn column))
    match cell with
    | .error e => .error e
    | .ok cell => (rowCells row rest).map (cell :: ·)

/-- Whether a row has to bring its header along: it has to if its file has
none, and must not if its file carries the same. -/
def startsFile (path : String) (header : List String) :
    Option (List String) → Except Fault Bool
  | none => .ok true
  | some found => (Columns.requireSame path header found).map fun _ => false

/-- The append of a row.  `agreed` is the header that an earlier row of the
same save has settled for the file. -/
def planRow (t : FileTree) (path : String) (agreed : Option (List String)) (row : Record) :
    Except Fault Append :=
  match requireTime path row with
  | .error e => .error e
  | .ok () =>
    let header := Columns.header (Dict.keys row)
    let found : Except Fault (Option (List String)) :=
      match agreed with
      | some h => .ok (some h)
      | none => existingHeader t path
    match found with
    | .error e => .error e
    | .ok found =>
      -- The header is settled before the cells are looked at.
      match startsFile path header found with
      | .error e => .error e
      | .ok starts => (rowCells row header).map fun cells => ⟨path, header, cells, starts⟩

/-- The appends of the rows of one file. -/
def planRows (t : FileTree) (path : String) :
    Option (List String) → List Record → Except Fault (List Append)
  | _, [] => .ok []
  | agreed, row :: rest =>
    match planRow t path agreed row with
    | .error e => .error e
    | .ok a => (planRows t path (some a.header) rest).map (a :: ·)

/-- The appends of the rows of all groups. -/
def planGroups (t : FileTree) (directory : String) : GroupRows → Except Fault (List Append)
  | [] => .ok []
  | (group, rows) :: rest =>
    match groupPath directory group with
    | .error e => .error e
    | .ok path =>
      match planRows t path none rows with
      | .error e => .error e
      | .ok first => (planGroups t directory rest).map (first ++ ·)

/-! ## §4. Plans. -/

/-- The plan of a save. -/
def ofRecord (t : FileTree) (base : String) (codec : Codec) (r : Record) : Except Fault Plan :=
  match codec.toGroups r with
  | .error e => .error e
  | .ok groups =>
    match entityDirectory base r with
    | .error e => .error e
    | .ok directory =>
      match planGroups t directory groups with
      | .error e => .error e
      | .ok [] => .error (.invalidRecord (.noRows codec.name))
      | .ok appends => .ok ⟨directory, appends⟩

end Plan

end ReportStore

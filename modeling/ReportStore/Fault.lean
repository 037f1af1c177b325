/-
  ReportStore.Fault
  ─────────────────
  **WHY AN OPERATION OF THE STORE FAILS.**

  A fault names its cause; its code and its wording are read off it.  Every
  fault ends the operation that met it, and nothing is tried again.
-/
import ReportStore.FileTree
import ReportStore.Csv.Position
import ReportStore.Text.Quoted

namespace ReportStore

/-! ## §1. Causes. -/

/-- What is wrong with a record that is to be saved. -/
inductive RecordFault where
  /-- A field that has to be a scalar is missing or a map. -/
  | noScalar (field : String)
  /-- A field is missing. -/
  | noField (field : String)
  /-- A field of the entity is no name of a directory. -/
  | notDirectoryName (field value : String)
  /-- A group is no name of a file. -/
  | notFileName (group : String)
  /-- A column of a row holds a map. -/
  | nestedColumn (column : String)
  /-- Nothing was left to write. -/
  | noRows (codec : String)
  /-- A reason given by a codec of its own. -/
  | other (reason : String)
  deriving DecidableEq

namespace RecordFault

/-- The wording. -/
def message : RecordFault → String
  | noScalar field => "missing scalar field '" ++ field ++ "'"
  | noField field => "missing field '" ++ field ++ "'"
  | notDirectoryName field value =>
    field ++ " '" ++ value ++ "' is not a valid directory name"
  | notFileName group => "group name '" ++ group ++ "' is not a valid file name"
  | nestedColumn column => "column '" ++ column ++ "' holds a nested value"
  | noRows codec => codec ++ " codec produced no rows"
  | other reason => reason

end RecordFault

/-- Why a codec refuses a record or a row. -/
inductive CodecFault where
  /-- A field of a flat report is a map. -/
  | notScalar (field : String)
  /-- A level of a nested report is no map. -/
  | notMap (level : String)
  /-- A counter is a map, or has the name of a common column. -/
  | notCounter (event group : String)
  /-- The time stamp of a row is no integer. -/
  | timestamp (cell : String)
  /-- A reason given by a codec of its own. -/
  | other (reason : String)
  deriving DecidableEq

namespace CodecFault

/-- The wording. -/
def message : CodecFault → String
  | notScalar field => "power report field '" ++ field ++ "' must be a scalar"
  | notMap level => level ++ " must be a mapping"
  | notCounter event group =>
    "event '" ++ event ++ "' in group '" ++ group ++ "' must be a scalar counter"
  | timestamp cell => "timestamp '" ++ cell ++ "' is not an integer"
  | other reason => reason

end CodecFault

/-- Why an operation of the store fails. -/
inductive Fault where
  /-- A registered file cannot be opened. -/
  | cannotOpen (path : String) (cause : FileFault)
  /-- A header lacks common columns. -/
  | missingColumns (path : String) (missing : List String)
  /-- A file carries another header than the rows to append. -/
  | headerMismatch (path : String) (expected found : List String)
  /-- A time stamp is no integer, or out of range. -/
  | badTimestamp (path cell : String)
  /-- A record of a file is no row. -/
  | malformedRow (path : String) (cause : Csv.RowFault)
  /-- A record cannot be laid out as rows. -/
  | invalidRecord (cause : RecordFault)
  /-- A row is behind the watermark of a strict merge. -/
  | outOfOrder (path : String) (timestamp watermark : Int)
  /-- A codec refuses. -/
  | codec (cause : CodecFault)
  /-- The system refuses an operation on a file. -/
  | system (path : String) (cause : FileFault)
  deriving DecidableEq

namespace Fault

/-! ## §2. Codes and wording. -/

/-- The stable code. -/
def code : Fault → String
  | cannotOpen .. => "CSVDB_BAD_FILE_PATH"
  | missingColumns .. => "CSVDB_BAD_COMMON_KEYS"
  | headerMismatch .. => "CSVDB_HEADER_MISMATCH"
  | badTimestamp .. => "CSVDB_BAD_TIMESTAMP"
  | malformedRow .. => "CSVDB_MALFORMED_ROW"
  | invalidRecord _ => "CSVDB_INVALID_RECORD"
  | outOfOrder .. => "CSVDB_OUT_OF_ORDER_ROW"
  | codec _ => "CSVDB_CODEC_ERROR"
  | system .. => "CSVDB_IO_ERROR"

/-- The decimal numeral of a time. -/
def millis (n : Int) : String := String.ofList (Text.Digits.ofInt n)

/-- The wording. -/
def message : Fault → String
  | cannotOpen path cause => "Cannot open " ++ path ++ ": " ++ cause.message
  | missingColumns path missing =>
    "Wrong columns keys in " ++ path ++ ": missing " ++ Text.quotedList missing
  | headerMismatch path expected found =>
    "Header are not the same in " ++ path ++ ": expected " ++ Text.quotedList expected ++
      ", found " ++ Text.quotedList found
  | badTimestamp path cell => "Bad timestamp '" ++ cell ++ "' in " ++ path
  | malformedRow path cause => "Malformed row in " ++ path ++ ": " ++ cause.message
  | invalidRecord cause => "Invalid record: " ++ cause.message
  | outOfOrder path timestamp watermark =>
    "Row at " ++ millis timestamp ++ " in " ++ path ++ " is behind watermark " ++
      millis watermark
  | codec cause => "Codec error: " ++ cause.message
  | system path cause => "I/O error on " ++ path ++ ": " ++ cause.message

/-- Whether it is a fault of the files that were to be read together. -/
def isConnectFault : Fault → Bool
  | cannotOpen .. | missingColumns .. => true
  | _ => false

end Fault

end ReportStore

/-
  ReportStore.Journal.Event
  ─────────────────────────
  **WHAT THE STORE REPORTS ABOUT ITSELF.**

  Each event has a stable name and a severity of its own.
-/

namespace ReportStore

/-- How much an entry of the journal matters. -/
inductive Severity where
  /-- Detail of single rows. -/
  | trace
  | info
  /-- Rows passed over. -/
  | warn
  | error
  deriving DecidableEq

namespace Severity

/-- Severities in ascending order. -/
def rank : Severity → Nat
  | trace => 0
  | info => 1
  | warn => 2
  | error => 3

/-- Whether an entry is written under a least severity. -/
def passes (least s : Severity) : Bool := decide (least.rank ≤ s.rank)

/-- The name in the journal. -/
def label : Severity → String
  | trace => "TRACE"
  | info => "INFO"
  | warn => "WARN"
  | error => "ERROR"

end Severity

/-- What the store reports. -/
inductive Event where
  /-- Settings were read. -/
  | settingsRead
  /-- A registered file was opened. -/
  | fileOpened
  /-- All registered files were opened. -/
  | connected
  /-- Opening the registered files failed. -/
  | connectFailed
  /-- A merged record was handed out. -/
  | recordMerged
  /-- A row behind the watermark was passed over. -/
  | rowSkipped
  /-- No merged record is left. -/
  | streamEnded
  /-- A new file was given its header. -/
  | headerWritten
  /-- A record was appended to its files. -/
  | recordSaved
  /-- A file carries another header than the record needs. -/
  | headerMismatch
  /-- A record was not saved. -/
  | saveFailed
  deriving DecidableEq

namespace Event

/-- The stable name. -/
def name : Event → String
  | settingsRead => "CONFIG_LOADED"
  | fileOpened => "CSV_FILE_OPENED"
  | connected => "CSVDB_CONNECTED"
  | connectFailed => "CSVDB_CONNECT_FAILED"
  | recordMerged => "MERGED_RECORD"
  | rowSkipped => "STALE_ROW_SKIPPED"
  | streamEnded => "STREAM_EXHAUSTED"
  | headerWritten => "HEADER_WRITTEN"
  | recordSaved => "RECORD_SAVED"
  | headerMismatch => "HEADER_MISMATCH"
  | saveFailed => "SAVE_FAILED"

/-- The severity of its entries. -/
def severity : Event → Severity
  | recordMerged | recordSaved | fileOpened => .trace
  | rowSkipped => .warn
  | connectFailed | headerMismatch | saveFailed => .error
  | settingsRead | connected | streamEnded | headerWritten => .info

end Event

end ReportStore

/-
  ReportStore.Journal.Basic
  ─────────────────────────
  **SIGNALS, COUNTERS AND LINES.**

  The operations of the store are functions; what they report comes back as
  a list of signals beside the result.  A signal counts something or is an
  entry for the journal.  Whoever runs an operation adds the counts to a
  tally and writes the entries that matter, so neither the least severity
  nor the tally can change what an operation does.
-/
import ReportStore.Dict
import ReportStore.Json.Quote
import ReportStore.Journal.Event
import ReportStore.Text.Digits

namespace ReportStore

/-! ## §1. Entries. -/

/-- An entry of the journal. -/
structure Entry where
  severity : Severity
  event : String
  /-- Keys and texts; of two fields with one key the later counts. -/
  fields : List (String × String)
  deriving DecidableEq

/-- The entry of an event. -/
def Event.entry (e : Event) (fields : List (String × String)) : Entry :=
  ⟨e.severity, e.name, fields⟩

/-- The line of an entry: its event, its severity, then its fields by key. -/
def Entry.line (e : Entry) : String :=
  String.ofList <| Json.object <|
    Json.textMember "event" e.event ::
    Json.textMember "severity" e.severity.label ::
    (Dict.ofPairs e.fields).map fun f => Json.textMember f.1 f.2

/-! ## §2. Signals. -/

/-- What the store counts. -/
inductive Counter where
  /-- Rows united into a merged record. -/
  | rowsRead
  /-- Rows passed over. -/
  | rowsSkipped
  /-- Merged records handed out. -/
  | recordsMerged
  /-- Rows appended. -/
  | rowsWritten
  /-- Headers written. -/
  | headersWritten
  /-- Records that were not saved. -/
  | saveFailures
  deriving DecidableEq

/-- What an operation reports. -/
inductive Signal where
  | count (c : Counter)
  | entry (e : Entry)
  deriving DecidableEq

/-- The signal of an event. -/
def Event.signal (e : Event) (fields : List (String × String)) : Signal := .entry (e.entry fields)

/-! ## §3. Tallies. -/

/-- The counters of a store, from its making on. -/
structure Tally where
  rowsRead : Nat
  rowsSkipped : Nat
  recordsMerged : Nat
  rowsWritten : Nat
  headersWritten : Nat
  saveFailures : Nat
  deriving DecidableEq

namespace Tally

/-- Nothing counted. -/
def zero : Tally := ⟨0, 0, 0, 0, 0, 0⟩

/-- One more. -/
def add (t : Tally) : Counter → Tally
  | .rowsRead => { t with rowsRead := t.rowsRead + 1 }
  | .rowsSkipped => { t with rowsSkipped := t.rowsSkipped + 1 }
  | .recordsMerged => { t with recordsMerged := t.recordsMerged + 1 }
  | .rowsWritten => { t with rowsWritten := t.rowsWritten + 1 }
  | .headersWritten => { t with headersWritten := t.headersWritten + 1 }
  | .saveFailures => { t with saveFailures := t.saveFailures + 1 }

/-- Counts what some signals report. -/
def record (t : Tally) : List Signal → Tally
  | [] => t
  | .count c :: rest => (t.add c).record rest
  | .entry _ :: rest => t.record rest

/-- A counter by its name. -/
def member (key : String) (n : Nat) : List Char :=
  Json.quote key ++ ':' :: Text.Digits.ofNat n

/-- The counters as an object. -/
def text (t : Tally) : String :=
  String.ofList <| Json.object
    [member "rows_read" t.rowsRead, member "rows_skipped" t.rowsSkipped,
      member "records_merged" t.recordsMerged, member "rows_written" t.rowsWritten,
      member "headers_written" t.headersWritten, member "save_failures" t.saveFailures]

theorem record_append (t : Tally) (a b : List Signal) :
    t.record (a ++ b) = (t.record a).record b := by
  induction a generalizing t with
  | nil => rfl
  | cons s rest ih => cases s <;> simp [record, ih]

end Tally

/-! ## §4. The journal. -/

/-- The entries among some signals. -/
def entries : List Signal → List Entry
  | [] => []
  | .entry e :: rest => e :: entries rest
  | .count _ :: rest => entries rest

/-- The lines written for some signals under a least severity. -/
def journalLines (least : Severity) (signals : List Signal) : List String :=
  ((entries signals).filter fun e => least.passes e.severity).map Entry.line

/-- A line as it is written. -/
def ended (line : String) : String := line ++ "\n"

theorem entries_append (a b : List Signal) : entries (a ++ b) = entries a ++ entries b := by
  induction a with
  | nil => rfl
  | cons s rest ih => cases s <;> simp [entries, ih]

theorem journalLines_append (least : Severity) (a b : List Signal) :
    journalLines least (a ++ b) = journalLines least a ++ journalLines least b := by
  simp [journalLines, entries_append]

end ReportStore

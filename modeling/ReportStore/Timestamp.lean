/-
  ReportStore.Timestamp
  ─────────────────────
  **TIMES OF REPORTS.**

  A time is a count of milliseconds.  Only the counts within the range of
  the calendar, from the year −262143 to the year 262142, are times.
-/
import ReportStore.Fault
import ReportStore.Text.Blank

namespace ReportStore

/-- The first time of the calendar. -/
def firstTime : Int := -8334601228800000

/-- The last time of the calendar. -/
def lastTime : Int := 8210266876799999

/-- The time of a count of milliseconds. -/
def time? (millis : Int) : Option Int :=
  if firstTime ≤ millis ∧ millis ≤ lastTime then some millis else none

/-- The time a cell denotes, blanks around it apart. -/
def timeOfCell? (cell : String) : Option Int :=
  match Text.Digits.int64? (Text.trim cell.toList) with
  | some n => time? n.toInt
  | none => none

/-- Reads the time stamp of a row of a file. -/
def readTime (path cell : String) : Except Fault Int :=
  match timeOfCell? cell with
  | some t => .ok t
  | none => .error (.badTimestamp path cell)

end ReportStore

/-
  ReportStore.Codec.Power
  ───────────────────────
  **FLAT POWER REPORTS.**

  A power report is one row of a single group, with a column for every field
  that is not common.
-/
import ReportStore.Codec.Basic

namespace ReportStore.Codec.Power

/-- The group of all power reports. -/
def group : String := "PowerReport"

/-- The first field that is a map. -/
def firstNested? (r : Record) : Option String :=
  (r.find? fun p => !p.2.isScalar).map (·.1)

/-- One row with the fields of the record. -/
def toGroups (r : Record) : Except Fault GroupRows :=
  match scalarCell r "timestamp" with
  | .error e => .error e
  | .ok _ =>
    match firstNested? r with
    | some field => .error (.codec (.notScalar field))
    | none => .ok [(group, [r])]

/-- The common fields that the row has, and its own fields. -/
def ofRow (_fileName : String) (row : Row) : Except Fault Record :=
  match commonFields row Columns.common [] with
  | .error e => .error e
  | .ok out => .ok ((ownFields row).foldl (fun r p => Dict.insert r p.1 p.2) out)

end Codec.Power

/-- The codec of power reports. -/
def Codec.power : Codec := ⟨"power", Codec.Power.toGroups, Codec.Power.ofRow⟩

end ReportStore

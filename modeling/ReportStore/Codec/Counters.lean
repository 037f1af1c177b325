/-
  ReportStore.Codec.Counters
  ──────────────────────────
  **HARDWARE COUNTER REPORTS.**

  A counter report nests its counters by group, socket and cpu:

      groups → group → socket → cpu → event → count

  Each group is a file of its own with one row for every socket and cpu.  A
  row read back gives the same nesting with one cpu in it, so the union of
  the fragments of one time is the whole report.
-/
import ReportStore.Codec.Basic

namespace ReportStore.Codec.Counters

/-- The field that holds the counters. -/
def groupsField : String := "groups"

/-! ## §1. Writing. -/

/-- A level of the nesting as a map. -/
def level (name : String) (v : Value) : Except Fault Record :=
  match v.map? with
  | some m => .ok m
  | none => .error (.codec (.notMap name))

/-- The fields that every row carries. -/
def base (r : Record) : List String → Record → Except Fault Record
  | [], out => .ok out
  | field :: rest, out =>
    match (Dict.get? r field).filter Value.isScalar with
    | some v => base r rest (Dict.insert out field v)
    | none => .error (.invalidRecord (.noScalar field))

/-- Adds the counters of a cpu to its row. -/
def addEvents (group : String) : Record → Record → Except Fault Record
  | [], row => .ok row
  | (event, v) :: rest, row =>
    if !v.isScalar || Columns.isCommon event then .error (.codec (.notCounter event group))
    else addEvents group rest (Dict.insert row event v)

/-- The rows of the cpus of a socket. -/
def cpuRows (row : Record) (group : String) : Record → Except Fault (List Record)
  | [] => .ok []
  | (cpu, v) :: rest =>
    match level ("cpu '" ++ cpu ++ "'") v with
    | .error e => .error e
    | .ok events =>
      match addEvents group events (Dict.insert row "cpu" (.text cpu)) with
      | .error e => .error e
      | .ok first => (cpuRows row group rest).map (first :: ·)

/-- The rows of the sockets of a group. -/
def socketRows (row : Record) (group : String) : Record → Except Fault (List Record)
  | [] => .ok []
  | (socket, v) :: rest =>
    match level ("socket '" ++ socket ++ "'") v with
    | .error e => .error e
    | .ok cpus =>
      match cpuRows (Dict.insert row "socket" (.text socket)) group cpus with
      | .error e => .error e
      | .ok first => (socketRows row group rest).map (first ++ ·)

/-- The rows of every group. -/
def groupRows (row : Record) : Record → Except Fault GroupRows
  | [] => .ok []
  | (group, v) :: rest =>
    match level ("group '" ++ group ++ "'") v with
    | .error e => .error e
    | .ok sockets =>
      match socketRows row group sockets with
      | .error e => .error e
      | .ok rows => (groupRows row rest).map ((group, rows) :: ·)

/-- A row for every group, socket and cpu. -/
def toGroups (r : Record) : Except Fault GroupRows :=
  match base r ["timestamp", "sensor", "target"] [] with
  | .error e => .error e
  | .ok row =>
    match Dict.get? r groupsField with
    | none => .error (.invalidRecord (.noField groupsField))
    | some v =>
      match level "groups" v with
      | .error e => .error e
      | .ok groups => groupRows row groups

/-! ## §2. Reading. -/

/-- The identifying fields, and the counters below group, socket and cpu. -/
def ofRow (fileName : String) (row : Row) : Except Fault Record :=
  match commonFields row ["timestamp", "sensor", "target"] [] with
  | .error e => .error e
  | .ok out =>
    let socket := (Dict.get? row "socket").getD ""
    let cpu := (Dict.get? row "cpu").getD ""
    let cpus := Value.map [(cpu, .map (ownFields row))]
    let sockets := Value.map [(socket, cpus)]
    .ok (Dict.insert out groupsField (.map [(groupOfFile fileName, sockets)]))

end Codec.Counters

/-- The codec of hardware counter reports. -/
def Codec.counters : Codec := ⟨"hwpc", Codec.Counters.toGroups, Codec.Counters.ofRow⟩

end ReportStore

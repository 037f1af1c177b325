/-
  ReportStore.Proofs.Saving.Written
  ─────────────────────────────────
  **WHAT IS WRITTEN BELOW A BASE.**

  Stores that begin with no file below their base write files that are known
  byte by byte: one header, and a line for each row that was accepted, in the
  order in which the rows were accepted.  The header is that of every one of
  the rows, so the file reads back as the table of their cells.  This holds
  after every call, since calls that were made are a history themselves.
-/
import ReportStore.Proofs.Saving.Tallies

namespace ReportStore

open FileTree Plan

/-! ## §1. Files that hold rows. -/

/-- The bytes of a file that holds some rows and nothing else. -/
structure WrittenAs (bytes : Bytes) (header : List String) (rows : List Record) : Prop where
  /-- One header line, and one line for each row. -/
  lines : bytes = Csv.printRecord header ++ rows.flatMap Record.line
  /-- The header is that of every row. -/
  header_eq : ∀ row ∈ rows, Columns.header (Dict.keys row) = header
  /-- The records of the file are the header and the cells of the rows. -/
  table : Csv.Table.ofBytes bytes = ⟨.ok header, (rows.map Record.cells).map .ok⟩
  /-- Every record has as many fields as the header. -/
  widths : ∀ row ∈ rows, (Record.cells row).length = header.length
  /-- No column repeats. -/
  nodup : header.Nodup

variable {base : String} {t : FileTree} {log : List Accepted}

namespace Kept

theorem writtenAs (h : Kept base t log) {p : Place} (hp : Below base p) {bytes : Bytes}
    (hfile : t.node? p = some (.file bytes)) : ∃ header, WrittenAs bytes header (rowsAt p log) := by
  obtain ⟨hrows, rfl⟩ := (h.files p hp bytes).1 hfile
  obtain ⟨row, hrow⟩ := List.exists_mem_of_ne_nil _ hrows
  have hsame : ∀ row' ∈ rowsAt p log, Record.header row' = Record.header row :=
    fun row' hrow' => h.same p row' hrow' row hrow
  obtain ⟨-, htable⟩ := Append.table_lines hrow hsame
  refine ⟨Record.header row, Append.linesOf_eq hrow hsame, hsame, htable, ?_,
    Columns.nodup_header _⟩
  intro row' hrow'
  rw [Record.length_cells, hsame row' hrow']

/-- An accepted row has its file below the base. -/
theorem below (h : Kept base t log) {e : Accepted} (he : e ∈ log) :
    Below base (placeOf e.path) := by
  obtain ⟨name, group, hname, hgroup, hpath, -⟩ := (h.stored e he).file
  rw [hpath]
  exact below_group hname hgroup

end Kept

/-! ## §2. What every history leaves. -/

/-- The start of a history. -/
def World.start (t : FileTree) (stores : Nat → Store) : World := ⟨t, stores, []⟩

variable {stores : Nat → Store} {calls : List Call}

/-- A store over `out`. -/
def outStore : Store := ⟨"out", .power, .new .lenient, .zero⟩

/-- There is no file in the empty tree. -/
theorem node?_empty (p : Place) (bytes : Bytes) :
    FileTree.empty.node? p ≠ some (.file bytes) := by
  intro h
  unfold FileTree.node? FileTree.empty at h
  split at h <;> cases h

end ReportStore

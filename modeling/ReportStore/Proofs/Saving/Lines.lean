/-
  ReportStore.Proofs.Saving.Lines
  ───────────────────────────────
  **THE LINES OF ROWS, WRITTEN AND READ BACK.**

  The rows that a save adds to a file are lines of the file's header.  If the
  file was closed, its table afterwards is the one it held with the cells of
  the new rows below.  If it was not, the first new line starts within a
  record, and since the time of a row needs no quotes but for a line end,
  that row is not read back.

      the table after  =  the table before, and the new rows   ↔   closed
-/
import ReportStore.Proofs.Reading
import ReportStore.Proofs.Saving.Effect

namespace ReportStore

/-! ## §1. The cells of a row. -/

/-- A time stamp is written without quotes, if it has no line end. -/
theorem Csv.unquoted_of_time {cell : String} {time : Int} (h : timeOfCell? cell = some time) :
    Csv.Unquoted (Text.encode cell) := by
  obtain ⟨hall, d, hd, hdigit⟩ := chars_of_timeOfCell? h
  have hnot : ∀ b : UInt8, b.toNat < 128 → Text.isBlank (Char.ofNat b.toNat) = false →
      Text.Digits.isNumeral (Char.ofNat b.toNat) = false → b ∉ Text.encode cell := by
    intro b hsmall hblank hnumeral hb
    rcases hall _ (Text.mem_of_mem_encode hb hsmall) with h | h
    · rw [hblank] at h
      cases h
    · rw [hnumeral] at h
      cases h
  refine ⟨hnot Csv.quote (by decide) (by decide) (by decide),
    hnot Csv.comma (by decide) (by decide) (by decide), ?_⟩
  -- A digit is no line end.
  have hrange : 48 ≤ d.toNat ∧ d.toNat ≤ 57 := by
    simp only [Char.isDigit, Bool.and_eq_true, decide_eq_true_eq] at hdigit
    exact hdigit
  refine ⟨UInt8.ofNat d.toNat, Text.mem_encode_of_mem hd (by omega), ?_⟩
  have hvalue : (UInt8.ofNat d.toNat).toNat = d.toNat := by
    rw [UInt8.toNat_ofNat']
    omega
  have hne : ∀ b : UInt8, b.toNat < 48 → UInt8.ofNat d.toNat ≠ b := by
    intro b hb heq
    rw [← heq, hvalue] at hb
    omega
  simp [Csv.isTerminator, hne Csv.lineFeed (by decide), hne Csv.carriageReturn (by decide)]

namespace Record

/-- The columns of a row after the first. -/
def laterColumns (row : Record) : List String :=
  ["sensor", "target", "socket", "cpu"] ++ Columns.own (Dict.keys row)

theorem header_eq_cons (row : Record) : header row = "timestamp" :: laterColumns row := rfl

theorem cells_eq_cons (row : Record) :
    cells row = cellOf row "timestamp" :: (laterColumns row).map (cellOf row) := rfl

theorem cells_ne_nil (row : Record) : cells row ≠ [] := by
  rw [cells_eq_cons]
  simp

/-- The first cell of a row that can be stored is its time. -/
theorem Storable.timeOfCell? {row : Record} (h : Storable row) :
    ∃ time, ReportStore.timeOfCell? (cellOf row "timestamp") = some time := by
  obtain ⟨cell, time, hcell, htime⟩ := h.time
  refine ⟨time, ?_⟩
  unfold Codec.scalarCell at hcell
  unfold cellOf
  cases hget : (Dict.get? row "timestamp").bind Value.cell? with
  | none => simp only [hget, reduceCtorEq] at hcell
  | some c =>
    simp only [hget, Except.ok.injEq] at hcell
    rw [Option.getD_some, hcell, htime]

/-- The row that is read back: for each column of the header its cell. -/
def laid (row : Record) : Row := Row.ofCells (header row) (cells row)

theorem get?_laid (row : Record) (column : String) :
    Dict.get? (laid row) column =
      if column ∈ header row then some (cellOf row column) else none :=
  Row.get?_ofCells_map (header row) (cellOf row) column

theorem head?_printRecord_header (row : Record) :
    (Csv.printRecord (header row)).head? = some 0x74 := by
  rw [header_eq_cons]
  rfl

end Record

/-! ## §2. Appending lines to a table. -/

namespace Append

/-- The records of rows, with their header before them or not. -/
def recordsOf (starts : Bool) : List Record → List (List String)
  | [] => []
  | row :: rest => (if starts then [Record.header row] else []) ++ (row :: rest).map Record.cells

theorem linesOf_eq_flatMap (starts : Bool) (rows : List Record) :
    linesOf starts rows = (recordsOf starts rows).flatMap Csv.printRecord := by
  cases rows with
  | nil => rfl
  | cons row rest =>
    unfold linesOf recordsOf
    rw [List.flatMap_append, List.flatMap_map]
    cases starts with
    | true => simp only [if_true, List.flatMap_cons, List.flatMap_nil, List.append_nil]; rfl
    | false => rfl

theorem ne_nil_of_mem_recordsOf {starts : Bool} {rows : List Record} :
    ∀ cells ∈ recordsOf starts rows, cells ≠ [] := by
  cases rows with
  | nil => simp [recordsOf]
  | cons row rest =>
    intro cells hcells
    rcases List.mem_append.1 hcells with hheader | hrow
    · cases starts with
      | true => exact List.mem_singleton.1 hheader ▸ Record.header_ne_nil row
      | false => cases hheader
    · obtain ⟨row', -, rfl⟩ := List.mem_map.1 hrow
      exact Record.cells_ne_nil row'

section

variable {old : Bytes} {header : List String} {cells : List (List String)} {rows : List Record}
  {row : Record} {starts : Bool}

/-- What is appended makes no byte order mark. -/
theorem mark_of_lines (htable : Csv.Table.ofBytes old = ⟨.ok header, cells.map .ok⟩)
    (hrow : row ∈ rows) (hstarts : starts = true ↔ header = [])
    (h : (old ++ linesOf starts rows).take 3 = Csv.byteOrderMark) :
    old.take 3 = Csv.byteOrderMark := by
  have hheader : (Csv.Table.ofBytes old).header = .ok header := by rw [htable]
  refine Csv.mark_of_header hheader ?_ h
  rintro rfl
  -- To an empty file the header goes first.
  have hnil : header = [] := by
    have hempty : (Csv.Table.ofBytes []).header = .ok [] := rfl
    rw [hempty] at hheader
    injection hheader with hheader
    exact hheader.symm
  cases rows with
  | nil => cases hrow
  | cons first rest =>
    rw [linesOf, if_pos (hstarts.2 hnil), List.head?_append, Record.head?_printRecord_header,
      Option.some_or]
    decide

/-- **Lines appended to a closed file** are read below what it held. -/
theorem table_append (htable : Csv.Table.ofBytes old = ⟨.ok header, cells.map .ok⟩)
    (hclosed : Csv.Closed old) (hrow : row ∈ rows)
    (hsame : ∀ row' ∈ rows, Record.header row' = Record.header row)
    (hstarts : starts = true ↔ header = [])
    (hcarried : header ≠ [] → header = Record.header row) :
    Csv.Closed (old ++ linesOf starts rows) ∧
      Csv.Table.ofBytes (old ++ linesOf starts rows) =
        ⟨.ok (Record.header row), (cells ++ rows.map Record.cells).map .ok⟩ := by
  have hmark := mark_of_lines htable hrow hstarts
  rw [linesOf_eq_flatMap] at hmark ⊢
  obtain ⟨hclosed', hraw⟩ := Csv.rawFields_append hclosed hmark ne_nil_of_mem_recordsOf
  refine ⟨hclosed', ?_⟩
  have hwidth : ∀ c ∈ rows.map Record.cells, c.length = (Record.header row).length := by
    intro c hc
    obtain ⟨row', hrow', rfl⟩ := List.mem_map.1 hc
    rw [Record.length_cells, hsame row' hrow']
  obtain ⟨first, rest, rfl⟩ := List.exists_cons_of_ne_nil (List.ne_nil_of_mem hrow)
  rw [Csv.ofBytes_eq_iff, hraw]
  right
  rcases Csv.ofBytes_eq_iff.1 htable with ⟨hnil, hheader, rfl⟩ | ⟨hcons, hlengths⟩
  · -- There was no record, so the header is the first.
    rw [recordsOf, if_pos (hstarts.2 hheader), hnil, hsame first List.mem_cons_self]
    exact ⟨rfl, hwidth⟩
  · have hne := Csv.ne_nil_of_rawFields_cons hcons
    have hnot : ¬ starts = true := mt hstarts.1 hne
    rw [recordsOf, if_neg hnot, hcons, List.nil_append, ← List.map_append]
    rw [← hcarried hne] at hwidth ⊢
    refine ⟨rfl, ?_⟩
    intro c hc
    rcases List.mem_append.1 hc with hc | hc
    · exact hlengths c hc
    · exact hwidth c hc

/-- **Lines appended within a record** are not read below what was there. -/
theorem table_append_open (htable : Csv.Table.ofBytes old = ⟨.ok header, cells.map .ok⟩)
    (hopen : ¬ Csv.Closed old) (hrow : row ∈ rows)
    (hstorable : ∀ row' ∈ rows, Record.Storable row') (hstarts : starts = true ↔ header = [])
    (hcarried : header ≠ [] → header = Record.header row) :
    Csv.Table.ofBytes (old ++ linesOf starts rows) ≠
      ⟨.ok (Record.header row), (cells ++ rows.map Record.cells).map .ok⟩ := by
  intro hafter
  have hmark := mark_of_lines htable hrow hstarts
  -- A file without a record is closed.
  obtain ⟨hcons, -⟩ : Csv.rawFields old = (header :: cells).map (List.map Text.encode) ∧
      ∀ c ∈ cells, c.length = header.length := by
    rcases Csv.ofBytes_eq_iff.1 htable with ⟨hnil, -⟩ | h
    · exact absurd (Csv.closed_of_rawFields_eq_nil hnil) hopen
    · exact h
  have hne := Csv.ne_nil_of_rawFields_cons hcons
  have hraw : Csv.rawFields (old ++ linesOf starts rows) =
      (Record.header row :: (cells ++ rows.map Record.cells)).map (List.map Text.encode) := by
    rcases Csv.ofBytes_eq_iff.1 hafter with ⟨-, hnil, -⟩ | ⟨h, -⟩
    · exact absurd hnil (Record.header_ne_nil row)
    · exact h
  obtain ⟨first, rest, rfl⟩ := List.exists_cons_of_ne_nil (List.ne_nil_of_mem hrow)
  obtain ⟨time, htime⟩ := (hstorable first List.mem_cons_self).timeOfCell?
  have hlines : linesOf starts (first :: rest) =
      Csv.printRecord (Record.cellOf first "timestamp" ::
        (Record.laterColumns first).map (Record.cellOf first)) ++ rest.flatMap Record.line := by
    rw [linesOf, if_neg (mt hstarts.1 hne), List.nil_append, List.flatMap_cons]
    rfl
  have hlater : (Record.laterColumns first).map (Record.cellOf first) ≠ [] := by
    unfold Record.laterColumns
    simp
  refine Csv.not_isPrefix_append hopen hmark (Csv.unquoted_of_time htime) hlater hlines ?_
  rw [hraw, hcons, hcarried hne]
  refine ⟨(rest.map Record.cells).map (List.map Text.encode), ?_⟩
  rw [← Record.cells_eq_cons]
  simp

end

end Append

/-! ## §3. The files of a save. -/

open FileTree Plan

/-- A file of a directory that is there can be read. -/
theorem FileTree.read_of_node? {t : FileTree} {base name file : String} {bytes : Bytes}
    (hname : Path.isPlain name = true) (hfile : Path.isPlain file = true)
    (hfault : pathFault? (Path.join (Path.join base name) file) = none)
    (hshort : ¬ nameLimit < file.utf8ByteSize) (hreach : t.Reaches (Path.join base name))
    (hnode : t.node? (placeOf (Path.join (Path.join base name) file)) = some (.file bytes)) :
    t.read (Path.join (Path.join base name) file) = .ok bytes := by
  obtain ⟨d, hd, hdir⟩ := hreach
  rw [placeOf_join _ hfile, ← locate_ok hd] at hnode
  unfold FileTree.read
  rw [openAt_below hname hfile hfault, hd]
  simp only [hdir, if_true, if_neg hshort, hnode, contents]

/-- What a save has written can be read. -/
theorem SavedAs.read {t t' : FileTree} {groups : GroupRows} {directory : String}
    (h : SavedAs t t' groups directory) {g : String × List Record} (hg : g ∈ groups)
    (hrows : g.2 ≠ []) :
    t'.read (fileIn directory g.1) =
      .ok (t.bytesAt (placeOf (fileIn directory g.1)) ++
        Append.linesOf (carried t (fileIn directory g.1)).isNone g.2) := by
  obtain ⟨base, name, hname, rfl⟩ := h.entity
  obtain ⟨hfault, hshort⟩ := h.short g hg hrows
  exact read_of_node? hname (Path.isPlain_fileOfGroup (h.fits g hg).plain) hfault hshort h.reaches
    (h.files g hg hrows)

end ReportStore

/-
  ReportStore.Proofs.Saving.Extend
  ────────────────────────────────
  **SAVING TO FILES THAT OTHERS HAVE WRITTEN.**

  A save looks at the first record of a file only.  Whatever stands below,
  the lines are added at the end: so what is read afterwards depends on how
  the file ended.  A file that could be read to its end gives its rows and
  then the new ones iff it was closed, that is, if it ended between two
  records.  A last record without a line end, which reads well before,
  swallows the first new line.

      old rows, then the new ones  ↔  the file was closed
-/
import ReportStore.Proofs.Saving.Exact
import ReportStore.Proofs.Saving.Lines

namespace ReportStore

open FileTree Plan

/-! ## §1. What a save knows of a file. -/

/-- The header of a file that can be read is the one that a plan finds. -/
theorem Plan.found_of_header {t : FileTree} {path : String} {bytes : Bytes}
    {header : List String} {found : Option (List String)}
    (hfound : existingHeader t path = .ok found) (hread : t.read path = .ok bytes)
    (hheader : (Csv.Table.ofBytes bytes).header = .ok header) :
    (found = none ↔ header = []) ∧ (header ≠ [] → found = some header) := by
  have hhere : t.openAt path = .error .notFound →
      Csv.rawFields (t.bytesAt (placeOf path)) = [] := by
    intro hmissing
    unfold FileTree.read at hread
    rw [hmissing] at hread
    cases hread
  obtain ⟨hnone, hsome⟩ := found_iff hfound hhere
  rw [bytesAt_of_file (node?_of_read hread)] at hnone hsome
  rw [hnone, ← Csv.header_eq_nil_iff, hheader, Except.ok.injEq]
  refine ⟨Iff.rfl, ?_⟩
  intro hne
  rcases Csv.header_ok_iff.1 hheader with ⟨-, hnil⟩ | hcons
  · exact absurd hnil hne
  · exact (hsome header).2 hcons

/-- Rows of one header are laid out under it. -/
theorem Record.map_laid {rows : List Record} {row : Record}
    (hsame : ∀ row' ∈ rows, header row' = header row) :
    rows.map laid = (rows.map cells).map (Row.ofCells (header row)) := by
  rw [List.map_map]
  apply List.map_congr_left
  intro row' hrow'
  show Row.ofCells (header row') (cells row') = Row.ofCells (header row) (cells row')
  rw [hsame row' hrow']

/-! ## §2. Files that are closed, and files that are not. -/

namespace SavedAs

variable {t t' : FileTree} {groups : GroupRows} {directory : String} {g : String × List Record}
  {row : Record} {header : List String} {cells : List (List String)}

/-- The rows of a group that was saved have one header. -/
theorem same (h : SavedAs t t' groups directory) (hg : g ∈ groups) (hrow : row ∈ g.2) :
    ∀ row' ∈ g.2, Record.header row' = Record.header row := by
  obtain ⟨found, -, hfit⟩ := (h.fits g hg).rows (List.ne_nil_of_mem hrow)
  exact fun row' hrow' => hfit.same row' hrow' row hrow

/-- **A closed file** gives its rows, and then the rows of the save. -/
theorem yields_of_closed (h : SavedAs t t' groups directory) (hg : g ∈ groups) (hrow : row ∈ g.2)
    (htable : Csv.Table.ofBytes (t.bytesAt (placeOf (fileIn directory g.1))) =
      ⟨.ok header, cells.map .ok⟩)
    (hclosed : Csv.Closed (t.bytesAt (placeOf (fileIn directory g.1))))
    (hstarts : (carried t (fileIn directory g.1)).isNone = true ↔ header = [])
    (hcarried : header ≠ [] → header = Record.header row) :
    Yields t' (fileIn directory g.1) (Record.header row)
      (cells.map (Row.ofCells header) ++ g.2.map Record.laid) := by
  have hsame := h.same hg hrow
  obtain ⟨-, hafter⟩ := Append.table_append htable hclosed hrow hsame hstarts hcarried
  refine yields_iff.2 ⟨_, _, h.read hg (List.ne_nil_of_mem hrow), hafter, ?_⟩
  rw [List.map_append, Record.map_laid hsame]
  congr 1
  by_cases hne : header = []
  · -- A file without a header has no rows either.
    rcases Csv.ofBytes_eq_iff.1 htable with ⟨-, -, rfl⟩ | ⟨hcons, -⟩
    · rfl
    · exact absurd hne (Csv.ne_nil_of_rawFields_cons hcons)
  · rw [hcarried hne]

/-- **A file that ended within a record** does not. -/
theorem not_yields_of_open (h : SavedAs t t' groups directory) (hg : g ∈ groups)
    (hrow : row ∈ g.2)
    (htable : Csv.Table.ofBytes (t.bytesAt (placeOf (fileIn directory g.1))) =
      ⟨.ok header, cells.map .ok⟩)
    (hopen : ¬ Csv.Closed (t.bytesAt (placeOf (fileIn directory g.1))))
    (hstarts : (carried t (fileIn directory g.1)).isNone = true ↔ header = [])
    (hcarried : header ≠ [] → header = Record.header row) :
    ¬ Yields t' (fileIn directory g.1) (Record.header row)
      (cells.map (Row.ofCells header) ++ g.2.map Record.laid) := by
  intro hyields
  obtain ⟨bytes, cells', hread, hafter, hrows⟩ := yields_iff.1 hyields
  rw [h.read hg (List.ne_nil_of_mem hrow)] at hread
  injection hread with hread
  subst hread
  -- A file that is not closed has a record, and so a header.
  obtain ⟨hcons, hwidth⟩ := (Csv.ofBytes_eq_iff.1 htable).resolve_left
    fun hnil => hopen (Csv.closed_of_rawFields_eq_nil hnil.1)
  have hheader := hcarried (Csv.ne_nil_of_rawFields_cons hcons)
  have hsame := h.same hg hrow
  rw [hheader] at hwidth hrows
  obtain ⟨-, hwidth'⟩ := (Csv.ofBytes_eq_iff.1 hafter).resolve_left
    fun hnil => Record.header_ne_nil row hnil.2.1
  have hnew : ∀ c ∈ g.2.map Record.cells, c.length = (Record.header row).length := by
    intro c hc
    obtain ⟨row', hrow', rfl⟩ := List.mem_map.1 hc
    rw [Record.length_cells, hsame row' hrow']
  -- The rows tell the cells, so the table would hold exactly the new rows below.
  rw [Record.map_laid hsame, ← List.map_append] at hrows
  have hcells : cells ++ g.2.map Record.cells = cells' := by
    refine Row.map_ofCells_injective (Columns.nodup_header _) ?_ hwidth' hrows
    intro c hc
    exact (List.mem_append.1 hc).elim (hwidth c) (hnew c)
  rw [← hcells] at hafter
  obtain ⟨found, -, hfit⟩ := (h.fits g hg).rows (List.ne_nil_of_mem hrow)
  exact Append.table_append_open htable hopen hrow hfit.storable hstarts hcarried hafter

end SavedAs

/-! ## §3. What is read after a save. -/

variable {t : FileTree} {base : String} {codec : Codec} {r : Record} {groups : GroupRows}
  {directory : String} {g : String × List Record} {row : Record}

/-- **What is read after a save that succeeds.**  A file that had no record
gives the rows of the save.  A file that could be read to its end, under no
header or under that of the rows, gives its old rows and then those of the
save iff it was closed. -/
theorem yields_saved_iff (hmaps : codec.MapsGroups r) (hgroups : codec.toGroups r = .ok groups)
    (hdirectory : entityDirectory base r = .ok directory)
    (hok : (saveBelow base codec t r).result = .ok ()) (hg : g ∈ groups) (hrow : row ∈ g.2) :
    (Csv.rawFields (t.bytesAt (placeOf (fileIn directory g.1))) = [] →
      Yields (saveBelow base codec t r).state (fileIn directory g.1) (Record.header row)
        (g.2.map Record.laid)) ∧
    ∀ header rows, Yields t (fileIn directory g.1) header rows →
      (header = [] ∨ header = Record.header row) ∧
      (Yields (saveBelow base codec t r).state (fileIn directory g.1) (Record.header row)
          (rows ++ g.2.map Record.laid) ↔
        Csv.Closed (t.bytesAt (placeOf (fileIn directory g.1)))) := by
  have hsaved := saved_of_saveBelow hmaps hgroups hdirectory hok
  obtain ⟨found, hfound, hfit⟩ := (hsaved.fits g hg).rows (List.ne_nil_of_mem hrow)
  have hisNone : (carried t (fileIn directory g.1)).isNone = true ↔ found = none := by
    rw [carried_of_ok hfound, Option.isNone_iff_eq_none]
  constructor
  · intro hnil
    have htable : Csv.Table.ofBytes (t.bytesAt (placeOf (fileIn directory g.1))) =
        ⟨.ok [], ([] : List (List String)).map .ok⟩ := Csv.ofBytes_eq_iff.2 (.inl ⟨hnil, rfl, rfl⟩)
    have hnone : found = none := (found_iff hfound fun _ => hnil).1.2 hnil
    refine hsaved.yields_of_closed hg hrow htable (Csv.closed_of_rawFields_eq_nil hnil) ?_ ?_
    · rw [hisNone]
      exact iff_of_true hnone rfl
    · exact fun hne => absurd rfl hne
  · intro header rows hyields
    obtain ⟨bytes, cells, hread, htable, rfl⟩ := yields_iff.1 hyields
    obtain ⟨hnone, hsome⟩ := found_of_header hfound hread (congrArg Csv.Table.header htable)
    rw [← bytesAt_of_file (node?_of_read hread)] at htable
    have hstarts : (carried t (fileIn directory g.1)).isNone = true ↔ header = [] :=
      hisNone.trans hnone
    have hcarried : header ≠ [] → header = Record.header row :=
      fun hne => (hfit.carried row hrow header (hsome hne)).symm
    refine ⟨?_, ?_, ?_⟩
    · by_cases hne : header = []
      · exact .inl hne
      · exact .inr (hcarried hne)
    · intro hafter
      by_cases hclosed : Csv.Closed (t.bytesAt (placeOf (fileIn directory g.1)))
      · exact hclosed
      · exact absurd hafter (hsaved.not_yields_of_open hg hrow htable hclosed hstarts hcarried)
    · exact fun hclosed => hsaved.yields_of_closed hg hrow htable hclosed hstarts hcarried

/-- The row of `oneReport`, as it is read. -/
def oneRow : Row := Row.ofCells (Columns.header ["power"]) ["1", "s", "t", "0", "0", "5"]

/-- A file with the header of `oneReport` and its row. -/
theorem yields_oneRow {bytes : Bytes}
    (hread : t.read (fileIn "out/s-t" "PowerReport") = .ok bytes)
    (hraw : Csv.rawFields bytes =
      [Columns.header ["power"], ["1", "s", "t", "0", "0", "5"]].map (List.map Text.encode)) :
    Yields t (fileIn "out/s-t" "PowerReport") (Columns.header ["power"]) [oneRow] := by
  refine yields_iff.2 ⟨bytes, [["1", "s", "t", "0", "0", "5"]], hread, ?_, rfl⟩
  exact Csv.ofBytes_eq_iff.2 (.inr ⟨hraw, by decide⟩)

/-- A report added to a file that ends with a line end. -/
theorem yields_saved_oneReport :
    Codec.power.MapsGroups laterReport ∧
      Codec.power.toGroups laterReport = .ok [("PowerReport", [laterReport])] ∧
      entityDirectory "out" laterReport = .ok "out/s-t" ∧
      (saveBelow "out" .power oneReport laterReport).result = .ok () ∧
      Yields oneReport (fileIn "out/s-t" "PowerReport") (Columns.header ["power"]) [oneRow] ∧
      Yields (saveBelow "out" .power oneReport laterReport).state
        (fileIn "out/s-t" "PowerReport") (Record.header laterReport)
        [oneRow, Record.laid laterReport] := by
  have hgroups : Codec.power.toGroups laterReport = .ok [("PowerReport", [laterReport])] := rfl
  have hdirectory : entityDirectory "out" laterReport = .ok "out/s-t" := rfl
  have hok : (saveBelow "out" .power oneReport laterReport).result = .ok () := by rfl
  have hbefore : Yields oneReport (fileIn "out/s-t" "PowerReport") (Columns.header ["power"])
      [oneRow] := yields_oneRow rfl (by decide +kernel)
  obtain ⟨-, hiff⟩ := yields_saved_iff (mapsGroups_power _) hgroups hdirectory hok
    List.mem_cons_self List.mem_cons_self
  have hclosed : Csv.Closed (oneReport.bytesAt (placeOf (fileIn "out/s-t" "PowerReport"))) := by
    unfold Csv.Closed
    decide +kernel
  exact ⟨mapsGroups_power _, hgroups, hdirectory, hok, hbefore,
    (hiff _ _ hbefore).2.2 hclosed⟩

/-- The file of `oneReport` without its last line end. -/
def cutReport : FileTree :=
  ⟨[(["out", "s-t", "PowerReport.csv"], .file (Text.encode
      "timestamp,sensor,target,socket,cpu,power\n1,s,t,0,0,5")),
    (["out", "s-t"], .directory), (["out"], .directory)]⟩

/-- **A last record without a line end** reads well, and the report that is
added to it makes the file one that cannot be opened. -/
theorem not_yields_saved_cutReport :
    Codec.power.MapsGroups laterReport ∧
      Codec.power.toGroups laterReport = .ok [("PowerReport", [laterReport])] ∧
      entityDirectory "out" laterReport = .ok "out/s-t" ∧
      (saveBelow "out" .power cutReport laterReport).result = .ok () ∧
      Yields cutReport (fileIn "out/s-t" "PowerReport") (Columns.header ["power"]) [oneRow] ∧
      ∀ header rows, ¬ Yields (saveBelow "out" .power cutReport laterReport).state
        (fileIn "out/s-t" "PowerReport") header rows := by
  refine ⟨mapsGroups_power _, rfl, rfl, by rfl, yields_oneRow rfl (by decide +kernel), ?_⟩
  rintro header rows ⟨f, hf, -⟩
  -- The two rows make one record, of eleven fields.
  have hfault : Feed.openAt (saveBelow "out" .power cutReport laterReport).state
      (fileIn "out/s-t" "PowerReport") =
        .error (.malformedRow (fileIn "out/s-t" "PowerReport")
          (.fieldCount ⟨1, ⟨41, 2⟩⟩ 11 6)) := by rfl
  rw [hfault] at hf
  cases hf

end ReportStore

/-
  ReportStore.Proofs.Saving.InTurn
  ────────────────────────────────
  **RECORDS SAVED IN TURN, AND READ AS ONE STREAM.**

  A store that saves the records of one entity, one after the other, leaves
  for each group a file of all their rows.  Where there was no file before,
  such files are opened and merged without a fault, and the record of a time
  is known from the records that were saved:

      record at T  =  union, over the files and in each over its rows at T,
                      of what the codec makes of the row

  All that is asked of the codec is that it makes something of a row in time.
-/
import Mathlib.Data.List.Basic
import ReportStore.Proofs.Saving.GroupFile
import ReportStore.Proofs.Saving.Replay

namespace ReportStore

open FileTree Plan

/-! ## §1. Files of groups, as they are read. -/

theorem Codec.groupOfFile_fileOfGroup (group : String) :
    groupOfFile (fileOfGroup group) = group := by
  have hlist : (fileOfGroup group).toList = group.toList ++ ".csv".toList := by
    rw [fileOfGroup, String.toList_append]
    rfl
  unfold groupOfFile
  rw [hlist]
  simp

theorem fileName_fileIn {directory group : String} (hentity : IsEntity directory)
    (hgroup : Path.isPlain group = true) :
    Path.fileName (fileIn directory group) = Codec.fileOfGroup group := by
  obtain ⟨base, name, hname, rfl⟩ := hentity
  have hfile := Path.isPlain_fileOfGroup hgroup
  exact Path.fileName_of_pieces hfile (Path.pieces_join_join hname hfile)

namespace GroupHolds

variable {t : FileTree} {directory group : String} {rows : List Record}

/-- The file of a group with rows is a table of rows in time. -/
theorem holds (h : GroupHolds t directory group rows) (hentity : IsEntity directory)
    (hgroup : Path.isPlain group = true) (hrows : rows ≠ []) :
    Holds t (fileIn directory group) (rows.map Record.timed) := by
  obtain ⟨row, hrow⟩ := List.exists_mem_of_ne_nil _ hrows
  have hsame : ∀ row' ∈ rows, Record.header row' = Record.header row :=
    fun row' hrow' => h.same row' hrow' row hrow
  refine ⟨⟨_, _, _, h.read hentity hgroup hrows, (Append.table_lines hrow hsame).2,
    .inr (Columns.missingCommon_header _), ?_⟩, ?_⟩
  · rw [← Record.map_laid hsame, List.map_map]
    apply List.map_congr_left
    intro row' _
    rw [Function.comp_apply, Record.timed_snd]
  · intro q hq
    obtain ⟨row', hrow', rfl⟩ := List.mem_map.1 hq
    rw [Record.timed_snd]
    exact Record.time?_laid (h.storable row' hrow')

end GroupHolds

/-! ## §2. Records that are accepted. -/

/-- A store accepts records in turn, all of them for one entity. -/
structure SavedInTurn (t : FileTree) (s : Store) (directory : String) (rs : List Record) :
    Prop where
  accepted : (s.saveMany t rs).result = .ok ()
  entity : ∀ r ∈ rs, entityDirectory s.base r = .ok directory

variable {t : FileTree} {s : Store} {directory : String} {rs : List Record}

/-- Each record was saved, in some tree. -/
theorem exists_saved_of_saveMany : ∀ {rs : List Record} {s : Store} {t : FileTree} {r : Record},
    (s.saveMany t rs).result = .ok () → r ∈ rs →
      ∃ t', (saveBelow s.base s.codec t' r).result = .ok () := by
  intro rs
  induction rs with
  | nil => exact fun _ hr => nomatch hr
  | cons first rest ih =>
    intro s t r hok hr
    obtain ⟨hfirst, s', hbase, hcodec, hrest, -⟩ := Store.saveMany_cons_ok hok
    rcases List.mem_cons.1 hr with rfl | hr
    · exact ⟨t, hfirst⟩
    · obtain ⟨t', ht'⟩ := ih hrest hr
      exact ⟨t', hbase ▸ hcodec ▸ ht'⟩

namespace SavedInTurn

/-- What the saves have checked: the groups of each record fit their files,
and one of them has rows. -/
theorem groups (h : SavedInTurn t s directory rs) {r : Record} (hr : r ∈ rs) :
    ∃ t' groups, s.codec.toGroups r = .ok groups ∧ (∀ g ∈ groups, GroupFits t' directory g) ∧
      ∃ g ∈ groups, g.2 ≠ [] := by
  obtain ⟨t', hok⟩ := exists_saved_of_saveMany h.accepted hr
  obtain ⟨plan, -, hplan, -⟩ := saveBelow_ok_iff.1 hok
  obtain ⟨groups, hgroups, -, hfits, hsome, -⟩ := ofRecord_ok_iff.1 hplan
  rw [directory_eq hplan (h.entity r hr)] at hfits
  exact ⟨t', groups, hgroups, hfits, hsome⟩

/-- A group that a record has rows for: its name is plain, and the rows can be
stored. -/
theorem rowsFor (h : SavedInTurn t s directory rs) {r row : Record} {group : String} (hr : r ∈ rs)
    (hmaps : s.codec.MapsGroups r) (hrow : row ∈ s.codec.rowsFor group r) :
    Path.isPlain group = true ∧ Record.Storable row := by
  obtain ⟨t', groups, hgroups, hfits, -⟩ := h.groups hr
  unfold Codec.rowsFor at hrow
  simp only [hgroups] at hrow
  cases hget : Dict.get? groups group with
  | none => simp [hget] at hrow
  | some rows =>
    rw [hget, Option.getD_some] at hrow
    have hfit := hfits _ ((Dict.mem_iff_get? (hmaps groups hgroups)).2 hget)
    obtain ⟨found, -, hrows⟩ := hfit.rows (List.ne_nil_of_mem hrow)
    exact ⟨hfit.plain, hrows.storable row hrow⟩

theorem isEntity (h : SavedInTurn t s directory rs) {r : Record} (hr : r ∈ rs) :
    IsEntity directory := by
  obtain ⟨name, hname, hjoin⟩ := exists_name (h.entity r hr)
  exact ⟨s.base, name, hname, hjoin⟩

/-! ## §3. The stream of what was saved. -/

/-- **The file of a group** that was new is a table of the rows of all records,
in time. -/
theorem holds (h : SavedInTurn t s directory rs) (hmaps : ∀ r ∈ rs, s.codec.MapsGroups r)
    {group : String}
    (hnew : ∀ bytes, t.node? (placeOf (fileIn directory group)) ≠ some (.file bytes))
    (hrows : ∃ r ∈ rs, s.codec.rowsFor group r ≠ []) :
    Path.fileName (fileIn directory group) = Codec.fileOfGroup group ∧
      Holds (s.saveMany t rs).state.1 (fileIn directory group)
        ((rs.flatMap (s.codec.rowsFor group)).map Record.timed) := by
  obtain ⟨r, hr, hne⟩ := hrows
  obtain ⟨row, hrow⟩ := List.exists_mem_of_ne_nil _ hne
  have hplain := (h.rowsFor hr (hmaps r hr) hrow).1
  have hentity := h.isEntity hr
  have hholds := (groupHolds_nil hnew).saveMany hplain hmaps h.entity h.accepted
  exact ⟨fileName_fileIn hentity hplain, hholds.holds hentity hplain
    (List.ne_nil_of_mem (List.mem_flatMap.2 ⟨r, hr, hrow⟩))⟩

/-- **Records saved in turn, read as one stream**: a record for each maximum
of the times of the primary file, put together from the rows of that time. -/
theorem results (h : SavedInTurn t s directory rs) (hmaps : ∀ r ∈ rs, s.codec.MapsGroups r)
    {m : Merge} {g : String} {others : List String}
    (hnew : ∀ group ∈ g :: others, ∀ bytes,
      t.node? (placeOf (fileIn directory group)) ≠ some (.file bytes))
    (hrows : ∀ group ∈ g :: others, ∃ r ∈ rs, s.codec.rowsFor group r ≠ [])
    (hdecodes : ∀ fileName row time, row.time? = some time → s.codec.Decodes fileName row)
    (hpaths : m.paths = (g :: others).map (fileIn directory)) (hlenient : m.strictness = .lenient) :
    (m.connect (s.saveMany t rs).state.1).result = .ok () ∧
    ∀ n, (((m.connect (s.saveMany t rs).state.1).state.after s.codec n).next s.codec).result =
      .ok (((strictMaxima (Record.times (rs.flatMap (s.codec.rowsFor g)))).map fun time =>
        Record.unionAll <| (g :: others).flatMap fun group =>
          fragments s.codec (Codec.fileOfGroup group)
            (dueAt time ((rs.flatMap (s.codec.rowsFor group)).map Record.timed)))[n]?) := by
  have hgroup : ∀ group ∈ g :: others,
      Path.fileName (fileIn directory group) = Codec.fileOfGroup group ∧
        Holds (s.saveMany t rs).state.1 (fileIn directory group)
          ((rs.flatMap (s.codec.rowsFor group)).map Record.timed) :=
    fun group hmem => h.holds hmaps (hnew group hmem) (hrows group hmem)
  -- The rows of a path are those of the group that its file is named for.
  let rowsOf (path : String) : List (Int × Row) :=
    (rs.flatMap (s.codec.rowsFor (Codec.groupOfFile (Path.fileName path)))).map Record.timed
  have hrowsOf : ∀ group ∈ g :: others, rowsOf (fileIn directory group) =
      (rs.flatMap (s.codec.rowsFor group)).map Record.timed := by
    intro group hmem
    simp only [rowsOf, (hgroup group hmem).1, Codec.groupOfFile_fileOfGroup]
  have hfiles : ∀ path ∈ m.paths, Holds (s.saveMany t rs).state.1 path (rowsOf path) := by
    intro path hpath
    rw [hpaths] at hpath
    obtain ⟨group, hmem, rfl⟩ := List.mem_map.1 hpath
    rw [hrowsOf group hmem]
    exact (hgroup group hmem).2
  have hrecord : ∀ time, Merge.recordAt s.codec m.paths rowsOf time =
      Record.unionAll ((g :: others).flatMap fun group =>
        fragments s.codec (Codec.fileOfGroup group)
          (dueAt time ((rs.flatMap (s.codec.rowsFor group)).map Record.timed))) := by
    intro time
    rw [Merge.recordAt, hpaths, List.flatMap_map]
    refine congrArg Record.unionAll (List.flatMap_congr ?_)
    intro group hmem
    rw [hrowsOf group hmem, (hgroup group hmem).1]
  have htimes : (rowsOf (fileIn directory g)).map (·.1) =
      Record.times (rs.flatMap (s.codec.rowsFor g)) := by
    rw [hrowsOf g List.mem_cons_self, List.map_map]
    rfl
  refine ⟨(m.connect_of_holds hfiles).1, ?_⟩
  intro n
  rw [Merge.results_of_holds hpaths hlenient hfiles
    (fun path hpath p hp => hdecodes _ _ _ ((hfiles path hpath).times p hp)) n, htimes,
    List.map_congr_left fun time _ => hrecord time]

end SavedInTurn

end ReportStore

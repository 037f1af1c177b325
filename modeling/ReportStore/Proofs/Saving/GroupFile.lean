/-
  ReportStore.Proofs.Saving.GroupFile
  ───────────────────────────────────
  **THE FILE OF ONE GROUP, SAVE AFTER SAVE.**

  Whatever else stands in the tree, the file of a group of an entity is told
  from the rows that were saved for it: without rows there is no file, and
  else it is one header and the lines of the rows.

      no file  ──save──▶  header, rows  ──save──▶  header, rows, rows  ──▶ …

  One save either adds rows of the group behind those that are there, or has
  none and leaves the file alone; so saves in turn leave all rows in order.
-/
import ReportStore.Proofs.Saving.Extend

namespace ReportStore

open FileTree Plan

/-! ## §1. What the file of a group holds. -/

/-- The table of a file that holds some rows. -/
theorem Append.table_lines {rows : List Record} {row : Record} (hrow : row ∈ rows)
    (hsame : ∀ row' ∈ rows, Record.header row' = Record.header row) :
    Csv.Closed (linesOf true rows) ∧
      Csv.Table.ofBytes (linesOf true rows) =
        ⟨.ok (Record.header row), (rows.map Record.cells).map .ok⟩ := by
  have hempty : Csv.Table.ofBytes [] = ⟨.ok [], ([] : List (List String)).map .ok⟩ := rfl
  exact table_append hempty (Csv.closed_of_rawFields_eq_nil rfl) hrow hsame (by simp)
    fun hne => absurd rfl hne

theorem Append.linesOf_append (starts : Bool) {rows : List Record} (hrows : rows ≠ [])
    (more : List Record) :
    linesOf starts (rows ++ more) = linesOf starts rows ++ linesOf false more := by
  obtain ⟨row, rest, rfl⟩ := List.exists_cons_of_ne_nil hrows
  have hmore : linesOf false more = more.flatMap Record.line := by cases more <;> rfl
  rw [hmore, List.cons_append, linesOf, linesOf, ← List.cons_append, List.flatMap_append,
    List.append_assoc]

/-- The directory of an entity below a base. -/
def IsEntity (directory : String) : Prop :=
  ∃ base name, Path.isPlain name = true ∧ directory = Path.join base name

/-- **The file of a group holds some rows**, and nothing else; if it holds
any, it can be opened. -/
structure GroupHolds (t : FileTree) (directory group : String) (rows : List Record) : Prop where
  storable : ∀ row ∈ rows, Record.Storable row
  same : ∀ row ∈ rows, ∀ row' ∈ rows, Record.header row = Record.header row'
  file : ∀ bytes, t.node? (placeOf (fileIn directory group)) = some (.file bytes) ↔
    rows ≠ [] ∧ bytes = Append.linesOf true rows
  opens : rows ≠ [] → pathFault? (fileIn directory group) = none ∧
    ¬ nameLimit < (Codec.fileOfGroup group).utf8ByteSize ∧ t.Reaches directory

variable {t t' : FileTree} {directory group : String} {rows : List Record}

theorem groupHolds_nil
    (h : ∀ bytes, t.node? (placeOf (fileIn directory group)) ≠ some (.file bytes)) :
    GroupHolds t directory group [] := by
  refine ⟨by simp, by simp, ?_, fun hne => absurd rfl hne⟩
  intro bytes
  exact iff_of_false (h bytes) fun hrows => hrows.1 rfl

namespace GroupHolds

theorem read (h : GroupHolds t directory group rows) (hentity : IsEntity directory)
    (hgroup : Path.isPlain group = true) (hrows : rows ≠ []) :
    t.read (fileIn directory group) = .ok (Append.linesOf true rows) := by
  obtain ⟨base, name, hname, rfl⟩ := hentity
  obtain ⟨hfault, hshort, hreach⟩ := h.opens hrows
  exact read_of_node? hname (Path.isPlain_fileOfGroup hgroup) hfault hshort hreach
    ((h.file _).2 ⟨hrows, rfl⟩)

/-- **The header that is found** is that of the rows, and none if there are
none. -/
theorem found (h : GroupHolds t directory group rows) (hentity : IsEntity directory)
    (hgroup : Path.isPlain group = true) {found : Option (List String)}
    (hfound : existingHeader t (fileIn directory group) = .ok found) :
    (rows = [] → found = none) ∧ ∀ row ∈ rows, found = some (Record.header row) := by
  constructor
  · intro hnone
    rcases existingHeader_ok_iff.1 hfound with ⟨-, hfound⟩ | ⟨bytes, hread, -⟩
    · exact hfound
    · -- A file that can be read holds rows.
      exact absurd hnone ((h.file bytes).1 (node?_of_read hread)).1
  · intro row hrow
    obtain ⟨-, htable⟩ := Append.table_lines hrow fun row' hrow' => h.same row' hrow' row hrow
    exact (found_of_header hfound (h.read hentity hgroup (List.ne_nil_of_mem hrow))
      (congrArg Csv.Table.header htable)).2 (Record.header_ne_nil row)

/-! ## §2. One save. -/

variable {groups : GroupRows}

/-- After a save with rows of the group, all rows have one header, and the file
has the lines of all. -/
theorem lines_added {g : String × List Record} (h : GroupHolds t directory g.1 rows)
    (hsaved : SavedAs t t' groups directory) (hg : g ∈ groups) (hrows : g.2 ≠ []) :
    (∀ row ∈ rows ++ g.2, ∀ row' ∈ rows ++ g.2, Record.header row = Record.header row') ∧
      t'.node? (placeOf (fileIn directory g.1)) =
        some (.file (Append.linesOf true (rows ++ g.2))) := by
  obtain ⟨found, hfound, hfit⟩ := (hsaved.fits g hg).rows hrows
  obtain ⟨hnone, hsome⟩ := h.found hsaved.entity (hsaved.fits g hg).plain hfound
  have hnode := hsaved.files g hg hrows
  rw [carried_of_ok hfound] at hnode
  cases hold : rows with
  | nil =>
    -- The first rows: there was no file, and the header goes before them.
    have hbytes : t.bytesAt (placeOf (fileIn directory g.1)) = [] := by
      cases hfile : t.node? (placeOf (fileIn directory g.1)) with
      | none => simp only [FileTree.bytesAt, hfile]
      | some n =>
        cases n with
        | directory => simp only [FileTree.bytesAt, hfile]
        | file bytes => exact absurd hold ((h.file bytes).1 hfile).1
    rw [hbytes, hnone hold] at hnode
    exact ⟨hfit.same, hnode⟩
  | cons first rest =>
    have hfirst : first ∈ rows := hold ▸ List.mem_cons_self
    have hheader := hsome first hfirst
    have hbytes := (h.file _).2 ⟨List.ne_nil_of_mem hfirst, rfl⟩
    rw [bytesAt_of_file hbytes, hheader] at hnode
    -- Every row has the header of the first.
    have hsame : ∀ row ∈ rows ++ g.2, Record.header row = Record.header first := by
      intro row hrow
      rcases List.mem_append.1 hrow with hrow | hrow
      · exact h.same row hrow first hfirst
      · exact hfit.carried row hrow _ hheader
    rw [← hold, Append.linesOf_append true (List.ne_nil_of_mem hfirst)]
    refine ⟨?_, hnode⟩
    intro row hrow row' hrow'
    rw [hsame row hrow, hsame row' hrow']

/-- **A save with rows of the group** adds them behind those of the file. -/
theorem added {g : String × List Record} (h : GroupHolds t directory g.1 rows)
    (hsaved : SavedAs t t' groups directory) (hg : g ∈ groups) (hrows : g.2 ≠ []) :
    GroupHolds t' directory g.1 (rows ++ g.2) := by
  obtain ⟨found, -, hfit⟩ := (hsaved.fits g hg).rows hrows
  obtain ⟨hfault, hshort⟩ := hsaved.short g hg hrows
  obtain ⟨hsame, hfile⟩ := h.lines_added hsaved hg hrows
  refine ⟨?_, hsame, ?_, fun _ => ⟨hfault, hshort, hsaved.reaches⟩⟩
  · intro row hrow
    exact (List.mem_append.1 hrow).elim (h.storable row) (hfit.storable row)
  · intro bytes
    have hne : rows ++ g.2 ≠ [] := by simp [hrows]
    rw [hfile, Option.some.injEq, Node.file.injEq, eq_comm]
    exact ⟨fun hbytes => ⟨hne, hbytes⟩, And.right⟩

/-- **A save without rows of the group** leaves its file alone. -/
theorem kept (h : GroupHolds t directory group rows) (hsaved : SavedAs t t' groups directory)
    (hgroup : Path.isPlain group = true) (hnone : ∀ g ∈ groups, g.1 = group → g.2 = []) :
    GroupHolds t' directory group rows := by
  have hother : ∀ g ∈ groups, g.2 ≠ [] →
      placeOf (fileIn directory g.1) ≠ placeOf (fileIn directory group) := by
    intro g hg hrows hplace
    exact hrows (hnone g hg (group_eq_of_place (hsaved.fits g hg).plain hgroup hplace))
  refine ⟨h.storable, h.same, ?_, ?_⟩
  · intro bytes
    rw [hsaved.others _ hother]
    by_cases hroute : placeOf (fileIn directory group) ∈ route directory
    · -- A directory was made here, so no file stood here.
      rw [if_pos hroute]
      refine iff_of_false nofun ?_
      rintro ⟨hrows, rfl⟩
      exact hsaved.clear _ hroute _ ((h.file _).2 ⟨hrows, rfl⟩)
    · rw [if_neg hroute]
      exact h.file bytes
  · intro hrows
    obtain ⟨hfault, hshort, hreach⟩ := h.opens hrows
    exact ⟨hfault, hshort, hreach.mono hsaved.directories⟩

end GroupHolds

/-- The rows of a record for a group. -/
def Codec.rowsFor (codec : Codec) (group : String) (r : Record) : List Record :=
  match codec.toGroups r with
  | .ok groups => (Dict.get? groups group).getD []
  | .error _ => []

/-- **One save**, rows of the group or not. -/
theorem GroupHolds.saved {base : String} {codec : Codec} {r : Record}
    (h : GroupHolds t directory group rows) (hgroup : Path.isPlain group = true)
    (hmaps : codec.MapsGroups r) (hdirectory : entityDirectory base r = .ok directory)
    (hok : (saveBelow base codec t r).result = .ok ()) :
    GroupHolds (saveBelow base codec t r).state directory group
      (rows ++ codec.rowsFor group r) := by
  obtain ⟨groups, directory', hgroups, hdirectory'⟩ := exists_groups_of_ok hok
  have hsaved := saved_of_saveBelow hmaps hgroups hdirectory hok
  have hsorted := hmaps groups hgroups
  unfold Codec.rowsFor
  simp only [hgroups]
  by_cases hrows : ∃ more, more ≠ [] ∧ Dict.get? groups group = some more
  · obtain ⟨more, hne, hget⟩ := hrows
    rw [hget, Option.getD_some]
    exact h.added hsaved ((Dict.mem_iff_get? hsorted).2 hget) hne
  · have hnil : (Dict.get? groups group).getD [] = [] := by
      cases hget : Dict.get? groups group with
      | none => rfl
      | some more => exact Classical.byContradiction fun hne => hrows ⟨more, hne, hget⟩
    rw [hnil, List.append_nil]
    refine h.kept hsaved hgroup ?_
    rintro g hg rfl
    exact Classical.byContradiction fun hne =>
      hrows ⟨g.2, hne, (Dict.mem_iff_get? hsorted).1 hg⟩

/-! ## §3. Saves in turn. -/

/-- A run of saves is accepted iff the first one is, and then the others. -/
theorem Store.saveMany_cons_ok {s : Store} {r : Record} {rs : List Record}
    (h : (s.saveMany t (r :: rs)).result = .ok ()) :
    (saveBelow s.base s.codec t r).result = .ok () ∧
      ∃ s' : Store, s'.base = s.base ∧ s'.codec = s.codec ∧
        (s'.saveMany (saveBelow s.base s.codec t r).state rs).result = .ok () ∧
        (s.saveMany t (r :: rs)).state.1 =
          (s'.saveMany (saveBelow s.base s.codec t r).state rs).state.1 := by
  rw [Store.saveMany] at h ⊢
  cases hsave : (s.save t r).result with
  | error e => simp only [hsave, reduceCtorEq] at h
  | ok u =>
    simp only [hsave] at h ⊢
    exact ⟨hsave, (s.save t r).state.2, rfl, rfl, h, rfl⟩

/-- **Saves in turn** leave all rows of the group, in order. -/
theorem GroupHolds.saveMany (hgroup : Path.isPlain group = true) : ∀ {rs : List Record} {s : Store}
    {t : FileTree} {rows : List Record}, GroupHolds t directory group rows →
      (∀ r ∈ rs, s.codec.MapsGroups r) → (∀ r ∈ rs, entityDirectory s.base r = .ok directory) →
      (s.saveMany t rs).result = .ok () →
        GroupHolds (s.saveMany t rs).state.1 directory group
          (rows ++ rs.flatMap (s.codec.rowsFor group)) := by
  intro rs
  induction rs with
  | nil =>
    intro s t rows h _ _ _
    rw [List.flatMap_nil, List.append_nil]
    exact h
  | cons r rest ih =>
    intro s t rows h hmaps hdirectory hok
    obtain ⟨hmap, hmaps⟩ := List.forall_mem_cons.1 hmaps
    obtain ⟨hdir, hdirectory⟩ := List.forall_mem_cons.1 hdirectory
    obtain ⟨hsave, s', hbase, hcodec, hrest, hstate⟩ := Store.saveMany_cons_ok hok
    have hlater := ih (h.saved hgroup hmap hdir hsave) (hcodec ▸ hmaps) (hbase ▸ hdirectory) hrest
    rw [hcodec, List.append_assoc, ← List.flatMap_cons] at hlater
    rw [hstate]
    exact hlater

end ReportStore

/-
  ReportStore.Proofs.Saving.Kept
  ──────────────────────────────
  **FILES THAT HOLD ALL THAT WAS ACCEPTED, AND NOTHING ELSE.**

  Below a base where there was no file, the files are told from the rows that
  were accepted: a file stands where rows were accepted for it, and its bytes
  are one header and the lines of those rows in order.

      file at p  =  header, row₁, …, rowₙ     for the rows accepted for p

  This is what a save keeps.  A header is written iff no row was accepted
  for the file before: the header is looked up anew for every save, and what
  is found is that of the rows.
-/
import ReportStore.Proofs.Saving.GroupFile

namespace ReportStore

open FileTree Plan

/-! ## §1. Accepted rows. -/

/-- A row that was accepted for a file. -/
structure Accepted where
  path : String
  row : Record

/-- The rows of groups, for their files in a directory. -/
def Accepted.ofGroups (directory : String) (groups : GroupRows) : List Accepted :=
  groups.flatMap fun g => g.2.map (Accepted.mk (fileIn directory g.1))

/-- The rows that were accepted for the file at a place, in order. -/
def rowsAt (p : Place) (log : List Accepted) : List Record :=
  (log.filter fun e => placeOf e.path == p).map (·.row)

variable {p : Place} {log : List Accepted} {directory : String} {groups : GroupRows}

theorem mem_rowsAt {row : Record} :
    row ∈ rowsAt p log ↔ ∃ e ∈ log, placeOf e.path = p ∧ e.row = row := by
  simp [rowsAt, and_assoc]

theorem rowsAt_append (p : Place) (a b : List Accepted) :
    rowsAt p (a ++ b) = rowsAt p a ++ rowsAt p b := by
  unfold rowsAt
  rw [List.filter_append, List.map_append]

theorem rowsAt_ofGroups (p : Place) (directory : String) (groups : GroupRows) :
    rowsAt p (Accepted.ofGroups directory groups) =
      groups.flatMap fun g => if placeOf (fileIn directory g.1) = p then g.2 else [] := by
  unfold rowsAt Accepted.ofGroups
  rw [List.filter_flatMap, List.map_flatMap]
  congr 1
  funext g
  by_cases hp : placeOf (fileIn directory g.1) = p
  · rw [if_pos hp, List.filter_eq_self.2, List.map_map]
    · exact List.map_id g.2
    · intro e he
      obtain ⟨row, -, rfl⟩ := List.mem_map.1 he
      exact beq_iff_eq.2 hp
  · rw [if_neg hp, List.filter_eq_nil_iff.2]
    · rfl
    · intro e he
      obtain ⟨row, -, rfl⟩ := List.mem_map.1 he
      simpa using hp

/-- The rows for the file of a group are those of the group. -/
theorem rowsAt_group (hsorted : Dict.Sorted groups) (hplain : ∀ g ∈ groups, Path.isPlain g.1 = true)
    {g : String × List Record} (hg : g ∈ groups) :
    rowsAt (placeOf (fileIn directory g.1)) (Accepted.ofGroups directory groups) = g.2 := by
  rw [rowsAt_ofGroups]
  exact flatMap_of_place hsorted hplain (·.2) hg

theorem rowsAt_ofGroups_eq_nil
    (h : ∀ g ∈ groups, g.2 ≠ [] → placeOf (fileIn directory g.1) ≠ p) :
    rowsAt p (Accepted.ofGroups directory groups) = [] := by
  rw [rowsAt_ofGroups, List.flatMap_eq_nil_iff]
  intro g hg
  by_cases hrows : g.2 = []
  · rw [hrows, ite_self]
  · exact if_neg (h g hg hrows)

theorem mem_ofGroups {e : Accepted} :
    e ∈ Accepted.ofGroups directory groups ↔
      ∃ g ∈ groups, e.path = fileIn directory g.1 ∧ e.row ∈ g.2 := by
  unfold Accepted.ofGroups
  simp only [List.mem_flatMap, List.mem_map]
  constructor
  · rintro ⟨g, hg, row, hrow, rfl⟩
    exact ⟨g, hg, rfl, hrow⟩
  · rintro ⟨g, hg, hpath, hrow⟩
    exact ⟨g, hg, e.row, hrow, by rw [← hpath]⟩

/-! ## §2. Places below a base. -/

/-- A place below that of a base. -/
def Below (base : String) (p : Place) : Prop :=
  ∃ names, names ≠ [] ∧ (∀ n ∈ names, ¬ IsTurn n ∧ '/' ∉ n.toList) ∧ p = placeOf base ++ names

variable {base name group : String}

theorem placeOf_group (hname : Path.isPlain name = true) (hgroup : Path.isPlain group = true) :
    placeOf (fileIn (Path.join base name) group) =
      placeOf base ++ [name, Codec.fileOfGroup group] := by
  rw [placeOf_fileIn hgroup, placeOf_join base hname, List.append_assoc]
  rfl

theorem below_group (hname : Path.isPlain name = true) (hgroup : Path.isPlain group = true) :
    Below base (placeOf (fileIn (Path.join base name) group)) := by
  have hentry : ∀ n, Path.isPlain n = true → ¬ IsTurn n ∧ '/' ∉ n.toList := by
    intro n hn
    exact ⟨not_isTurn_of_isPlain hn, fun h => (((Path.isPlain_iff n).1 hn).2.2.2 _ h).1 rfl⟩
  refine ⟨[name, Codec.fileOfGroup group], by simp, ?_, placeOf_group hname hgroup⟩
  intro n hn
  rcases List.mem_cons.1 hn with rfl | hn
  · exact hentry n hname
  · rw [List.mem_singleton.1 hn]
    exact hentry _ (Path.isPlain_fileOfGroup hgroup)

/-! ## §3. What the files hold. -/

/-- A row that was accepted for the file of a group that can be reached. -/
structure Stored (t : FileTree) (base : String) (e : Accepted) : Prop where
  file : ∃ name group, Path.isPlain name = true ∧ Path.isPlain group = true ∧
    e.path = fileIn (Path.join base name) group ∧ pathFault? e.path = none ∧
    ¬ nameLimit < (Codec.fileOfGroup group).utf8ByteSize ∧ t.Reaches (Path.join base name)
  storable : Record.Storable e.row

theorem Stored.mono {t t' : FileTree} {e : Accepted} (h : Stored t base e)
    (hdirs : ∀ q, t.isDirectory q = true → t'.isDirectory q = true) : Stored t' base e := by
  obtain ⟨name, group, hname, hgroup, hpath, hfault, hshort, hreach⟩ := h.file
  exact ⟨⟨name, group, hname, hgroup, hpath, hfault, hshort, hreach.mono hdirs⟩, h.storable⟩

/-- **What the files below a base hold**: the rows that were accepted, and
nothing else. -/
structure Kept (base : String) (t : FileTree) (log : List Accepted) : Prop where
  stored : ∀ e ∈ log, Stored t base e
  same : ∀ p, ∀ row ∈ rowsAt p log, ∀ row' ∈ rowsAt p log,
    Record.header row = Record.header row'
  files : ∀ p, Below base p → ∀ bytes, t.node? p = some (.file bytes) ↔
    rowsAt p log ≠ [] ∧ bytes = Append.linesOf true (rowsAt p log)

namespace Kept

variable {t : FileTree}

/-- The file of an accepted row can be read: it holds the rows accepted for
it. -/
theorem read (h : Kept base t log) {e : Accepted} (he : e ∈ log) :
    t.read e.path = .ok (Append.linesOf true (rowsAt (placeOf e.path) log)) := by
  obtain ⟨name, group, hname, hgroup, hpath, hfault, hshort, hreach⟩ := (h.stored e he).file
  have hrow : e.row ∈ rowsAt (placeOf e.path) log := mem_rowsAt.2 ⟨e, he, rfl, rfl⟩
  have hbelow : Below base (placeOf e.path) := hpath ▸ below_group hname hgroup
  have hnode := (h.files _ hbelow _).2 ⟨List.ne_nil_of_mem hrow, rfl⟩
  rw [hpath] at hfault hnode ⊢
  exact read_of_node? hname (Path.isPlain_fileOfGroup hgroup) hfault hshort hreach hnode

/-- The file of a group holds the rows that were accepted for it. -/
theorem groupHolds (h : Kept base t log) (hname : Path.isPlain name = true)
    (hgroup : Path.isPlain group = true) :
    GroupHolds t (Path.join base name) group
      (rowsAt (placeOf (fileIn (Path.join base name) group)) log) := by
  refine ⟨?_, h.same _, h.files _ (below_group hname hgroup), ?_⟩
  · intro row hrow
    obtain ⟨e, he, -, rfl⟩ := mem_rowsAt.1 hrow
    exact (h.stored e he).storable
  · intro hrows
    obtain ⟨row, hrow⟩ := List.exists_mem_of_ne_nil _ hrows
    obtain ⟨e, he, hplace, -⟩ := mem_rowsAt.1 hrow
    obtain ⟨name', group', hname', hgroup', hpath, hfault, hshort, hreach⟩ := (h.stored e he).file
    -- The row was accepted for a file of this name in this directory.
    rw [hpath, placeOf_group hname' hgroup', placeOf_group hname hgroup] at hplace
    injection List.append_cancel_left hplace with hdirectory hfile
    injection hfile with hfile
    obtain rfl := hdirectory
    obtain rfl := fileOfGroup_injective hfile
    exact ⟨hpath ▸ hfault, hshort, hreach⟩

/-- **The header that is found** is that of the rows that were accepted, and
none if there are none. -/
theorem found (h : Kept base t log) (hname : Path.isPlain name = true)
    (hgroup : Path.isPlain group = true) {found : Option (List String)}
    (hfound : existingHeader t (fileIn (Path.join base name) group) = .ok found) :
    (rowsAt (placeOf (fileIn (Path.join base name) group)) log = [] → found = none) ∧
      ∀ row ∈ rowsAt (placeOf (fileIn (Path.join base name) group)) log,
        found = some (Record.header row) :=
  (h.groupHolds hname hgroup).found ⟨base, name, hname, rfl⟩ hgroup hfound

/-! ## §4. What a save keeps. -/

variable {t' : FileTree}

/-- The rows of the file of a group, after a save: they have one header, and
the file holds them. -/
theorem group_saved (h : Kept base t log) (hname : Path.isPlain name = true)
    (hsaved : SavedAs t t' groups (Path.join base name)) {g : String × List Record}
    (hg : g ∈ groups) (hrows : g.2 ≠ []) :
    let old := rowsAt (placeOf (fileIn (Path.join base name) g.1)) log
    (∀ row ∈ old ++ g.2, ∀ row' ∈ old ++ g.2, Record.header row = Record.header row') ∧
      t'.node? (placeOf (fileIn (Path.join base name) g.1)) =
        some (.file (Append.linesOf true (old ++ g.2))) := by
  intro old
  have hadded := (h.groupHolds hname (hsaved.fits g hg).plain).added hsaved hg hrows
  exact ⟨hadded.same, (hadded.file _).2 ⟨by simp [hrows], rfl⟩⟩

/-- **A save that succeeds keeps what the files hold**, with its rows after
the others. -/
theorem saved (h : Kept base t log) (hname : Path.isPlain name = true)
    (hsorted : Dict.Sorted groups) (hsaved : SavedAs t t' groups (Path.join base name)) :
    Kept base t' (log ++ Accepted.ofGroups (Path.join base name) groups) := by
  have hplain : ∀ g ∈ groups, Path.isPlain g.1 = true := fun g hg => (hsaved.fits g hg).plain
  -- A place is that of a group with rows, or nothing is added there.
  have hcases : ∀ p, (∃ g ∈ groups, g.2 ≠ [] ∧ placeOf (fileIn (Path.join base name) g.1) = p) ∨
      ∀ g ∈ groups, g.2 ≠ [] → placeOf (fileIn (Path.join base name) g.1) ≠ p := by
    intro p
    by_cases hp : ∃ g ∈ groups, g.2 ≠ [] ∧ placeOf (fileIn (Path.join base name) g.1) = p
    · exact .inl hp
    · exact .inr fun g hg hrows hplace => hp ⟨g, hg, hrows, hplace⟩
  refine ⟨?_, ?_, ?_⟩
  · intro e he
    rcases List.mem_append.1 he with he | he
    · exact (h.stored e he).mono hsaved.directories
    · obtain ⟨g, hg, hpath, hrow⟩ := mem_ofGroups.1 he
      have hrows := List.ne_nil_of_mem hrow
      obtain ⟨found, -, hfit⟩ := (hsaved.fits g hg).rows hrows
      obtain ⟨hfault, hshort⟩ := hsaved.short g hg hrows
      exact ⟨⟨name, g.1, hname, hplain g hg, hpath, hpath ▸ hfault, hshort, hsaved.reaches⟩,
        hfit.storable e.row hrow⟩
  · intro p
    rw [rowsAt_append]
    rcases hcases p with ⟨g, hg, hrows, rfl⟩ | hother
    · rw [rowsAt_group hsorted hplain hg]
      exact (h.group_saved hname hsaved hg hrows).1
    · rw [rowsAt_ofGroups_eq_nil hother, List.append_nil]
      exact h.same p
  · intro p hp bytes
    rw [rowsAt_append]
    rcases hcases p with ⟨g, hg, hrows, rfl⟩ | hother
    · have hne : rowsAt (placeOf (fileIn (Path.join base name) g.1)) log ++ g.2 ≠ [] := by
        simp [hrows]
      rw [rowsAt_group hsorted hplain hg, (h.group_saved hname hsaved hg hrows).2,
        Option.some.injEq, Node.file.injEq, eq_comm]
      exact ⟨fun hbytes => ⟨hne, hbytes⟩, And.right⟩
    · rw [rowsAt_ofGroups_eq_nil hother, List.append_nil, hsaved.others p hother]
      by_cases hroute : p ∈ route (Path.join base name)
      · -- A directory was made here, so no file stood here.
        rw [if_pos hroute]
        refine iff_of_false nofun ?_
        rintro ⟨hrows, rfl⟩
        exact hsaved.clear p hroute _ ((h.files p hp _).2 ⟨hrows, rfl⟩)
      · rw [if_neg hroute]
        exact h.files p hp bytes

end Kept

end ReportStore

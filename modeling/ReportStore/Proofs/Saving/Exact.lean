/-
  ReportStore.Proofs.Saving.Exact
  ───────────────────────────────
  **WHEN A SAVE SUCCEEDS, AND WHAT IT CHANGES.**

  On a file system that can be used for it, a save should succeed iff its
  record is acceptable: it has rows, its names are plain, its rows can be
  stored, and the rows of each group have the columns that the group's file
  has.  It should then add the lines of the rows to the files, after a header
  in a file without a record, and change nothing else; and a save that fails
  should change nothing.

  All of this holds unless a file is obscured: the plan does not find it, for
  something is missing on the way, but once the missing directories are made
  the way leads to something that was there all along, or to one of the
  directories themselves.  A base such as `new/../out` leads there.

      saves exactly  ↔  no file that the plan did not find turns up later
-/
import ReportStore.Proofs.Saving.Effect

namespace ReportStore

open FileTree Plan

/-! ## §1. Records that can be saved. -/

/-- A record that is to be saved as these groups for this entity. -/
structure Accepts (t : FileTree) (base : String) (codec : Codec) (r : Record)
    (groups : GroupRows) (sensor target : String) : Prop where
  /-- The codec lays the record out, with at least one row. -/
  laidOut : codec.toGroups r = .ok groups
  rows : ∃ g ∈ groups, g.2 ≠ []
  /-- The names are scalars, and plain. -/
  sensorName : Codec.scalarCell r "sensor" = .ok sensor ∧ Path.isPlain sensor = true
  targetName : Codec.scalarCell r "target" = .ok target ∧ Path.isPlain target = true
  plain : ∀ g ∈ groups, Path.isPlain g.1 = true
  /-- Every row has a time and holds scalars only. -/
  storable : ∀ g ∈ groups, ∀ row ∈ g.2, Record.Storable row
  /-- The rows of a group have the same columns that are not common. -/
  columns : ∀ g ∈ groups, ∀ row ∈ g.2, ∀ row' ∈ g.2, ∀ c, Columns.isCommon c = false →
    (c ∈ Dict.keys row ↔ c ∈ Dict.keys row')
  /-- The first record of a file, if it has one, is their header. -/
  header : ∀ g ∈ groups, ∀ row ∈ g.2, ∀ first rest,
    Csv.rawFields (t.bytesAt
      (placeOf (fileIn (Path.join base (sensor ++ "-" ++ target)) g.1))) = first :: rest →
    first = (Columns.header (Dict.keys row)).map Text.encode

def Acceptable (t : FileTree) (base : String) (codec : Codec) (r : Record) : Prop :=
  ∃ groups sensor target, Accepts t base codec r groups sensor target

/-- A file system that can be used for a save: the directory of the entity
can be made, and each file is missing or has a header that can be read. -/
structure Usable (t : FileTree) (base : String) (codec : Codec) (r : Record) : Prop where
  directories : ∀ directory, entityDirectory base r = .ok directory →
    (t.makeDirectories directory).2 = .ok ()
  names : ∀ directory groups, entityDirectory base r = .ok directory →
    codec.toGroups r = .ok groups → ∀ g ∈ groups, g.2 ≠ [] → Path.isPlain g.1 = true →
      pathFault? (fileIn directory g.1) = none ∧
        (Codec.fileOfGroup g.1).utf8ByteSize ≤ nameLimit
  files : ∀ directory groups, entityDirectory base r = .ok directory →
    codec.toGroups r = .ok groups → ∀ g ∈ groups, g.2 ≠ [] → Path.isPlain g.1 = true →
      t.openAt (fileIn directory g.1) = .error .notFound ∨
        ∃ bytes header, t.read (fileIn directory g.1) = .ok bytes ∧
          (Csv.Table.ofBytes bytes).header = .ok header

/-- A save as it should be. -/
structure SavesExactly (t : FileTree) (base : String) (codec : Codec) (r : Record) : Prop where
  ok_iff : (saveBelow base codec t r).result = .ok () ↔ Acceptable t base codec r
  /-- The lines of the rows come after what was there, and after a header only
  if no record was there. -/
  files : (saveBelow base codec t r).result = .ok () → ∀ groups directory,
    codec.toGroups r = .ok groups → entityDirectory base r = .ok directory →
      ∀ g ∈ groups, ∀ row ∈ g.2,
        (saveBelow base codec t r).state.node? (placeOf (fileIn directory g.1)) =
          some (.file (t.bytesAt (placeOf (fileIn directory g.1)) ++
            ((if Csv.rawFields (t.bytesAt (placeOf (fileIn directory g.1))) = [] then
                Csv.printRecord (Columns.header (Dict.keys row)) else []) ++
              g.2.flatMap Record.line)))
  /-- Elsewhere only the directories on the way are new. -/
  others : (saveBelow base codec t r).result = .ok () → ∀ groups directory,
    codec.toGroups r = .ok groups → entityDirectory base r = .ok directory →
      ∀ q, (∀ g ∈ groups, g.2 ≠ [] → placeOf (fileIn directory g.1) ≠ q) →
        (saveBelow base codec t r).state.node? q =
          if q ∈ route directory then some .directory else t.node? q
  unchanged : ∀ e, (saveBelow base codec t r).result = .error e →
    (saveBelow base codec t r).state = t

/-- A save that was planned for a file it did not find, where a directory or
a file with a record turns up once the directories are made. -/
def Obscured (t : FileTree) (base : String) (codec : Codec) (r : Record) : Prop :=
  ∃ plan, Plan.ofRecord t base codec r = .ok plan ∧
    ∃ a ∈ plan.appends, t.openAt a.path = .error .notFound ∧
      ((t.makeDirectories plan.directory).1.isDirectory (placeOf a.path) = true ∨
        Csv.rawFields (t.bytesAt (placeOf a.path)) ≠ [])

/-! ## §2. What the plan has found, and what is there. -/

variable {t : FileTree} {base : String} {codec : Codec} {r : Record}

/-- The header that was found is the first record of the bytes at the place,
unless a file turns up there. -/
theorem found_iff {path : String} {found : Option (List String)}
    (hfound : existingHeader t path = .ok found)
    (hclear : t.openAt path = .error .notFound →
      Csv.rawFields (t.bytesAt (placeOf path)) = []) :
    (found = none ↔ Csv.rawFields (t.bytesAt (placeOf path)) = []) ∧
      ∀ h, found = some h ↔
        ∃ rest, Csv.rawFields (t.bytesAt (placeOf path)) = h.map Text.encode :: rest := by
  rcases existingHeader_ok_iff.1 hfound with ⟨hmissing, rfl⟩ | ⟨bytes, hread, hrecords⟩
  · rw [hclear hmissing]
    simp
  · rw [bytesAt_of_file (node?_of_read hread)]
    rcases hrecords with ⟨hnil, rfl⟩ | ⟨h, rest, hcons, rfl⟩
    · rw [hnil]
      simp
    · rw [hcons]
      refine ⟨by simp, ?_⟩
      intro h'
      rw [Option.some.injEq]
      constructor
      · rintro rfl
        exact ⟨rest, rfl⟩
      · rintro ⟨rest', hrest'⟩
        injection hrest' with hmap
        exact Text.map_encode_injective hmap

/-- A file that was found is no directory once directories are made. -/
theorem not_isDirectory_of_read {made : FileTree} {path : String} {bytes : Bytes}
    (hread : t.read path = .ok bytes) (hgrown : Grown t made) :
    made.isDirectory (placeOf path) = false := by
  have hnode := hgrown.node?_eq (node?_of_read hread)
  unfold FileTree.isDirectory
  rw [hnode]
  rfl

/-! ## §3. Saves that were planned. -/

/-- **A planned save succeeds** on a usable file system, if no directory turns
up in the place of a file. -/
theorem saveBelow_ok_of_plan (husable : Usable t base codec r)
    (hclear : ¬ Obscured t base codec r) {plan : Plan}
    (hplan : Plan.ofRecord t base codec r = .ok plan) :
    (saveBelow base codec t r).result = .ok () := by
  obtain ⟨groups, hgroups, hdirectory, hfits, -, happends⟩ := ofRecord_ok_iff.1 hplan
  obtain ⟨name, hname, hjoin⟩ := exists_name hdirectory
  rcases hmade : t.makeDirectories plan.directory with ⟨made, result⟩
  have hok : result = .ok () := by
    have := husable.directories plan.directory hdirectory
    rwa [hmade] at this
  subst hok
  have hgrown : Grown t made := by
    have := makeDirectories_grown t plan.directory
    rwa [hmade] at this
  have hreach : made.Reaches (Path.join base name) := by
    rw [← hjoin]
    exact makeDirectories_ok (hjoin ▸ Path.join_ne_empty hname) hmade
  have hinto := into_of_ofRecord hplan hname hjoin
  rw [saveBelow_ok_iff]
  refine ⟨plan, made, hplan, hmade, ?_⟩
  cases hresult : (Append.performAll made plan.appends).result with
  | ok u => rfl
  | error e =>
    obtain ⟨a, ha, hblocked⟩ := (Append.performAll_error_iff hname hreach hinto).1 ⟨e, hresult⟩
    obtain ⟨g, hg, hrows, hpath⟩ := exists_group_of_append happends ha
    have hplain := (hfits g hg).plain
    have hfile := Path.isPlain_fileOfGroup hplain
    obtain ⟨-, hshort⟩ := husable.names _ _ hdirectory hgroups g hg hrows hplain
    have hfileName : Path.fileName a.path = Codec.fileOfGroup g.1 := by
      rw [hpath, hjoin]
      exact Path.fileName_of_pieces hfile (Path.pieces_join_join hname hfile)
    rcases hblocked with hlong | hdir
    · rw [hfileName] at hlong
      omega
    · -- A directory there was not there as a file, so it was not found.
      rcases husable.files _ _ hdirectory hgroups g hg hrows hplain with hmissing | ⟨_, _, hread, -⟩
      · rw [← hpath] at hmissing
        refine absurd ⟨plan, hplan, a, ha, hmissing, .inl ?_⟩ hclear
        rw [hmade]
        exact hdir
      · rw [hpath, not_isDirectory_of_read hread hgrown] at hdir
        cases hdir

/-- A save that was planned leaves a tree in which its directory is there. -/
theorem reaches_of_plan (husable : Usable t base codec r) {plan : Plan}
    (hplan : Plan.ofRecord t base codec r = .ok plan) :
    (saveBelow base codec t r).state.Reaches plan.directory ∧
      ∀ p, (t.makeDirectories plan.directory).1.isDirectory p = true →
        (saveBelow base codec t r).state.isDirectory p = true := by
  obtain ⟨groups, -, hdirectory, -⟩ := ofRecord_ok_iff.1 hplan
  obtain ⟨name, hname, hjoin⟩ := exists_name hdirectory
  rcases hmade : t.makeDirectories plan.directory with ⟨made, result⟩
  have hok : result = .ok () := by
    have := husable.directories plan.directory hdirectory
    rwa [hmade] at this
  subst hok
  have hdirs : ∀ p, made.isDirectory p = true →
      (saveBelow base codec t r).state.isDirectory p = true := by
    intro p hp
    rw [(saveBelow_of_performAll hplan hmade).2, Append.isDirectory_performAll]
    exact hp
  have hreach : made.Reaches plan.directory :=
    makeDirectories_ok (hjoin ▸ Path.join_ne_empty hname) hmade
  exact ⟨hreach.mono hdirs, hdirs⟩

/-! ## §4. Acceptable records. -/

theorem entityDirectory_ok_iff {directory : String} :
    entityDirectory base r = .ok directory ↔
      ∃ sensor target, (Codec.scalarCell r "sensor" = .ok sensor ∧ Path.isPlain sensor = true) ∧
        (Codec.scalarCell r "target" = .ok target ∧ Path.isPlain target = true) ∧
        directory = Path.join base (sensor ++ "-" ++ target) := by
  constructor
  · intro h
    obtain ⟨sensor, target, hsensor, htarget, hjoin⟩ := entityDirectory_ok h
    exact ⟨sensor, target, nameField_ok hsensor, nameField_ok htarget, hjoin⟩
  · rintro ⟨sensor, target, ⟨hsensor, hplain⟩, ⟨htarget, hplain'⟩, rfl⟩
    have hs : nameField r "sensor" = .ok sensor := by
      simp only [nameField, hsensor, hplain, if_true]
    have ht : nameField r "target" = .ok target := by
      simp only [nameField, htarget, hplain', if_true]
    simp only [entityDirectory, hs, ht]

/-- An acceptable record can be planned. -/
theorem exists_plan_of_acceptable (husable : Usable t base codec r)
    (h : Acceptable t base codec r) : ∃ plan, Plan.ofRecord t base codec r = .ok plan := by
  obtain ⟨groups, sensor, target, haccepts⟩ := h
  obtain ⟨directory, hjoin⟩ : ∃ d, d = Path.join base (sensor ++ "-" ++ target) := ⟨_, rfl⟩
  have hdirectory : entityDirectory base r = .ok directory :=
    entityDirectory_ok_iff.2 ⟨sensor, target, haccepts.sensorName, haccepts.targetName, hjoin⟩
  refine ⟨⟨directory, groups.flatMap (groupAppends t directory)⟩, ?_⟩
  rw [ofRecord_ok_iff]
  refine ⟨groups, haccepts.laidOut, hdirectory, ?_, haccepts.rows, rfl⟩
  intro g hg
  have hplain := haccepts.plain g hg
  refine ⟨hplain, ?_⟩
  intro hrows
  have hfits : ∀ found, (∀ row ∈ g.2, ∀ h, found = some h → Record.header row = h) →
      RowsFit found g.2 := by
    intro found hcarried
    refine ⟨haccepts.storable g hg, ?_, hcarried⟩
    intro row hrow row' hrow'
    exact Columns.header_eq_iff.2 (haccepts.columns g hg row hrow row' hrow')
  show ∃ found, existingHeader t (fileIn directory g.1) = .ok found ∧ RowsFit found g.2
  rcases husable.files _ _ hdirectory haccepts.laidOut g hg hrows hplain with
    hmissing | ⟨bytes, header, hread, hheader⟩
  · exact ⟨none, existingHeader_ok_iff.2 (.inl ⟨hmissing, rfl⟩), hfits none (by simp)⟩
  · rcases Csv.header_ok_iff.1 hheader with ⟨hnil, -⟩ | ⟨rest, hcons⟩
    · exact ⟨none, existingHeader_ok_iff.2 (.inr ⟨bytes, hread, .inl ⟨hnil, rfl⟩⟩),
        hfits none (by simp)⟩
    · refine ⟨some header, existingHeader_ok_iff.2
        (.inr ⟨bytes, hread, .inr ⟨header, rest, hcons, rfl⟩⟩), hfits _ ?_⟩
      rintro row hrow _ ⟨⟩
      -- The first record of the file spells both headers.
      have hfirst := haccepts.header g hg row hrow (header.map Text.encode) rest
      rw [← hjoin, bytesAt_of_file (node?_of_read hread)] at hfirst
      exact (Text.map_encode_injective (hfirst hcons)).symm

/-- A file that is not obscured has no record if it was not found. -/
theorem rawFields_of_clear (hclear : ¬ Obscured t base codec r) {plan : Plan}
    (hplan : Plan.ofRecord t base codec r = .ok plan) {groups : GroupRows}
    (happends : plan.appends = groups.flatMap (groupAppends t plan.directory))
    {g : String × List Record} (hg : g ∈ groups) (hrows : g.2 ≠ [])
    (hmissing : t.openAt (fileIn plan.directory g.1) = .error .notFound) :
    Csv.rawFields (t.bytesAt (placeOf (fileIn plan.directory g.1))) = [] := by
  obtain ⟨a, ha, hpath⟩ := exists_append_of_group happends hg hrows
  by_cases hnil : Csv.rawFields (t.bytesAt (placeOf (fileIn plan.directory g.1))) = []
  · exact hnil
  · rw [← hpath] at hmissing hnil
    exact absurd ⟨plan, hplan, a, ha, hmissing, .inr hnil⟩ hclear

theorem acceptable_of_plan (hclear : ¬ Obscured t base codec r) {plan : Plan}
    (hplan : Plan.ofRecord t base codec r = .ok plan) : Acceptable t base codec r := by
  obtain ⟨groups, hgroups, hdirectory, hfits, hsome, happends⟩ := ofRecord_ok_iff.1 hplan
  obtain ⟨sensor, target, hsensor, htarget, hjoin⟩ := entityDirectory_ok_iff.1 hdirectory
  have hrowsFit : ∀ g ∈ groups, ∀ row ∈ g.2, ∃ found,
      existingHeader t (fileIn plan.directory g.1) = .ok found ∧ RowsFit found g.2 :=
    fun g hg row hrow => (hfits g hg).rows (List.ne_nil_of_mem hrow)
  refine ⟨groups, sensor, target, hgroups, hsome, hsensor, htarget,
    fun g hg => (hfits g hg).plain, ?_, ?_, ?_⟩
  · intro g hg row hrow
    obtain ⟨found, -, hfit⟩ := hrowsFit g hg row hrow
    exact hfit.storable row hrow
  · intro g hg row hrow row' hrow'
    obtain ⟨found, -, hfit⟩ := hrowsFit g hg row hrow
    exact Columns.header_eq_iff.1 (hfit.same row hrow row' hrow')
  · intro g hg row hrow first rest hcons
    obtain ⟨found, hfound, hfit⟩ := hrowsFit g hg row hrow
    have hempty := rawFields_of_clear hclear hplan happends hg (List.ne_nil_of_mem hrow)
    rw [← hjoin] at hcons
    obtain ⟨hnone, hsome⟩ := found_iff hfound hempty
    cases found with
    | none =>
      rw [hnone.1 rfl] at hcons
      cases hcons
    | some h =>
      obtain ⟨rest', hrest'⟩ := (hsome h).1 rfl
      rw [hcons] at hrest'
      injection hrest' with hfirst
      rw [hfirst, ← hfit.carried row hrow h rfl]
      rfl

/-! ## §5. Exactness. -/

/-- What an obscured save comes to is not what it should. -/
theorem not_savesExactly_of_obscured (hmaps : codec.MapsGroups r)
    (husable : Usable t base codec r) (h : Obscured t base codec r) :
    ¬ SavesExactly t base codec r := by
  intro hexact
  obtain ⟨plan, hplan, a, ha, hmissing, hturns⟩ := h
  obtain ⟨groups, hgroups, hdirectory, hfits, -, happends⟩ := ofRecord_ok_iff.1 hplan
  obtain ⟨name, hname, hjoin⟩ := exists_name hdirectory
  obtain ⟨g, hg, hrows, hpath⟩ := exists_group_of_append happends ha
  obtain ⟨hreach, hdirs⟩ := reaches_of_plan husable hplan
  have hplain := (hfits g hg).plain
  have hfile := Path.isPlain_fileOfGroup hplain
  obtain ⟨hfault, hshort⟩ := husable.names _ _ hdirectory hgroups g hg hrows hplain
  cases hresult : (saveBelow base codec t r).result with
  | error e =>
    -- The directory was made, so what turns up would have been found.
    rw [hexact.unchanged e hresult] at hreach hdirs
    rw [hjoin] at hreach
    obtain ⟨d, hd, hdir⟩ := hreach
    have hplace : placeOf a.path = d ++ [Codec.fileOfGroup g.1] := by
      rw [hpath, placeOf_fileIn hplain, hjoin, locate_ok hd]
    have hlong : ¬ nameLimit < (Codec.fileOfGroup g.1).utf8ByteSize := by omega
    have hnode : ∃ n, t.node? (placeOf a.path) = some n := by
      rcases hturns with hisdir | hrecords
      · exact ⟨_, node?_of_isDirectory (hdirs _ hisdir)⟩
      · cases hn : t.node? (placeOf a.path) with
        | some n => exact ⟨n, rfl⟩
        | none =>
          refine absurd ?_ hrecords
          unfold FileTree.bytesAt
          rw [hn]
          rfl
    obtain ⟨n, hn⟩ := hnode
    rw [hpath, hjoin] at hmissing
    rw [hjoin] at hfault
    unfold fileIn at hmissing hfault
    rw [openAt_below hname hfile hfault, hd] at hmissing
    simp only [hdir, if_true, if_neg hlong, ← hplace, hn, reduceCtorEq] at hmissing
  | ok u =>
    have hnode := (saved_of_saveBelow hmaps hgroups hdirectory hresult).files g hg hrows
    rcases hturns with hisdir | hrecords
    · -- No file stands where there is a directory.
      have hdirectory := node?_of_isDirectory (hdirs _ hisdir)
      rw [hpath, hnode] at hdirectory
      cases hdirectory
    · -- The header was written after a record.
      obtain ⟨row, rest, hcons⟩ := List.exists_cons_of_ne_nil hrows
      have hrow : row ∈ g.2 := hcons ▸ List.mem_cons_self
      have hexpected := hexact.files hresult _ _ hgroups hdirectory g hg row hrow
      have hcarried : carried t (fileIn plan.directory g.1) = none := by
        rw [← hpath]
        exact carried_of_ok (existingHeader_ok_iff.2 (.inl ⟨hmissing, rfl⟩))
      rw [hpath] at hrecords
      rw [hnode, hcarried, if_neg hrecords, hcons] at hexpected
      simp only [Option.some.injEq, Node.file.injEq, List.append_cancel_left_eq] at hexpected
      have hlength := congrArg List.length hexpected
      have hheader := List.length_pos_iff.2 (Append.printRecord_ne_nil (Record.header row))
      simp only [Append.linesOf, Option.isNone_none, if_true, List.length_append,
        List.nil_append] at hlength
      omega

/-- **A save is exact iff no file is obscured.**  For every tree, base, codec
and record: on a file system that can be used for it, the save succeeds iff
the record is acceptable, adds exactly the lines of the rows to exactly their
files, and changes nothing if it fails; unless it was planned for a file that
it did not find, and where a directory or a file with a record turns up once
the missing directories are made. -/
theorem savesExactly_iff (hmaps : codec.MapsGroups r) (husable : Usable t base codec r) :
    SavesExactly t base codec r ↔ ¬ Obscured t base codec r := by
  constructor
  · exact fun hexact hobscured => not_savesExactly_of_obscured hmaps husable hobscured hexact
  · intro hclear
    refine ⟨⟨?_, ?_⟩, ?_, ?_, ?_⟩
    · intro hresult
      obtain ⟨plan, -, hplan, -⟩ := saveBelow_ok_iff.1 hresult
      exact acceptable_of_plan hclear hplan
    · intro hacceptable
      obtain ⟨plan, hplan⟩ := exists_plan_of_acceptable husable hacceptable
      exact saveBelow_ok_of_plan husable hclear hplan
    · intro hresult groups directory hgroups hdirectory g hg row hrow
      obtain ⟨plan, -, hplan, -⟩ := saveBelow_ok_iff.1 hresult
      obtain ⟨groups', hgroups', hdirectory', -, -, happends⟩ := ofRecord_ok_iff.1 hplan
      have hsaved := saved_of_saveBelow hmaps hgroups hdirectory hresult
      obtain rfl : groups = groups' := Except.ok.inj (hgroups.symm.trans hgroups')
      obtain rfl : directory = plan.directory :=
        Except.ok.inj (hdirectory.symm.trans hdirectory')
      have hrows := List.ne_nil_of_mem hrow
      obtain ⟨found, hfound, hfit⟩ := (hsaved.fits g hg).rows hrows
      have hempty := rawFields_of_clear hclear hplan happends hg hrows
      obtain ⟨hnone, -⟩ := found_iff hfound hempty
      rw [hsaved.files g hg hrows, carried_of_ok hfound]
      rw [Append.linesOf_eq hrow fun row' hrow' => hfit.same row' hrow' row hrow]
      simp only [← hnone, Option.isNone_iff_eq_none]
      rfl
    · intro hresult groups directory hgroups hdirectory q hq
      exact (saved_of_saveBelow hmaps hgroups hdirectory hresult).others q hq
    · intro e hresult
      cases hplan : Plan.ofRecord t base codec r with
      | error e' => simp only [saveBelow, hplan]
      | ok plan =>
        rw [saveBelow_ok_of_plan husable hclear hplan] at hresult
        cases hresult

/-! ## §6. A file behind a detour. -/

/-- A file with a header and a row. -/
def oneReport : FileTree :=
  ⟨[(["out", "s-t", "PowerReport.csv"], .file (Text.encode
      "timestamp,sensor,target,socket,cpu,power\n1,s,t,0,0,5\n")),
    (["out", "s-t"], .directory), (["out"], .directory)]⟩

/-- A report for that file. -/
def laterReport : Record :=
  [("power", .int 7), ("sensor", .text "s"), ("target", .text "t"), ("timestamp", .int 2)]

def laterRow (path : String) (starts : Bool) : Append :=
  ⟨path, Columns.header ["power"], ["2", "s", "t", "", "", "7"], starts⟩

/-- A save of one group. -/
theorem usable_of_group {directory group : String} {rows : List Record}
    (hdirectory : entityDirectory base r = .ok directory)
    (hgroups : codec.toGroups r = .ok [(group, rows)])
    (hmade : (t.makeDirectories directory).2 = .ok ())
    (hname : pathFault? (fileIn directory group) = none ∧
      (Codec.fileOfGroup group).utf8ByteSize ≤ nameLimit)
    (hfile : t.openAt (fileIn directory group) = .error .notFound ∨
      ∃ bytes header, t.read (fileIn directory group) = .ok bytes ∧
        (Csv.Table.ofBytes bytes).header = .ok header) : Usable t base codec r := by
  refine ⟨?_, ?_, ?_⟩
  · intro directory' h
    rw [hdirectory] at h
    injection h with h
    rwa [← h]
  · intro directory' groups h h' g hg _ _
    rw [hdirectory] at h
    rw [hgroups] at h'
    injection h with h
    injection h' with h'
    subst h h'
    rw [List.mem_singleton.1 hg]
    exact hname
  · intro directory' groups h h' g hg _ _
    rw [hdirectory] at h
    rw [hgroups] at h'
    injection h with h
    injection h' with h'
    subst h h'
    rw [List.mem_singleton.1 hg]
    exact hfile

theorem mapsGroups_power (r : Record) : Codec.power.MapsGroups r := by
  intro groups h
  change Codec.Power.toGroups r = .ok groups at h
  unfold Codec.Power.toGroups at h
  split at h
  · cases h
  · split at h
    · cases h
    · injection h with h
      subst h
      exact List.pairwise_singleton _ _

/-- The plain way to the file. -/
theorem savesExactly_oneReport :
    Codec.power.MapsGroups laterReport ∧ Usable oneReport "out" .power laterReport ∧
      SavesExactly oneReport "out" .power laterReport := by
  have hdirectory : entityDirectory "out" laterReport = .ok "out/s-t" := rfl
  have husable : Usable oneReport "out" .power laterReport :=
    usable_of_group hdirectory rfl (by rfl) (by decide +kernel)
      (.inr ⟨_, Columns.header ["power"], rfl, Csv.header_ok_iff.2
        (.inr ⟨[["1", "s", "t", "0", "0", "5"].map Text.encode], by decide +kernel⟩)⟩)
  refine ⟨mapsGroups_power _, husable, (savesExactly_iff (mapsGroups_power _) husable).2 ?_⟩
  rintro ⟨plan, hplan, a, ha, hmissing, -⟩
  have hplanned : Plan.ofRecord oneReport "out" .power laterReport =
      .ok ⟨"out/s-t", [laterRow "out/s-t/PowerReport.csv" false]⟩ := by rfl
  rw [hplanned] at hplan
  injection hplan with hplan
  subst hplan
  rw [List.mem_singleton.1 ha] at hmissing
  cases hmissing

/-- **A base with a detour hides the file**: the header is written a second
time, below a row. -/
theorem not_savesExactly_detour :
    Codec.power.MapsGroups laterReport ∧ Usable oneReport "new/../out" .power laterReport ∧
      ¬ SavesExactly oneReport "new/../out" .power laterReport := by
  have hdirectory : entityDirectory "new/../out" laterReport = .ok "new/../out/s-t" := rfl
  have husable : Usable oneReport "new/../out" .power laterReport :=
    usable_of_group hdirectory rfl (by rfl) (by decide +kernel)
      (.inl (by rfl))
  refine ⟨mapsGroups_power _, husable, not_savesExactly_of_obscured (mapsGroups_power _) husable ?_⟩
  have hplanned : Plan.ofRecord oneReport "new/../out" .power laterReport =
      .ok ⟨"new/../out/s-t", [laterRow "new/../out/s-t/PowerReport.csv" true]⟩ := by rfl
  refine ⟨_, hplanned, _, List.mem_singleton.2 rfl, by rfl, .inr ?_⟩
  decide +kernel

end ReportStore

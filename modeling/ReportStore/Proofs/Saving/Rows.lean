/-
  ReportStore.Proofs.Saving.Rows
  ──────────────────────────────
  **WHAT A PLAN ACCEPTS, AND WHAT IT IS GOING TO APPEND.**

  A row can be stored if it has a time and holds scalars only.  The rows of a
  group fit their file if all of them have one header, which is the one the
  file carries if it carries any.  A plan is made iff the names are plain and
  the rows of every group fit, and it appends every row in order:

      planGroups groups = appends
        ↔  every group fits  ∧  appends = the appends of each group in order

  Only the first row of a group brings the header along, and only to a file
  that carries none.
  So two trees lead to two plans only if the header of a file is another in
  each of them.
-/
import ReportStore.Proofs.Cells
import ReportStore.Proofs.Columns
import ReportStore.Proofs.Saving.Plan

namespace ReportStore

/-! ## §1. Checks, one after the other. -/

section

variable {α β : Type} {x : Except Fault α} {b : β}

theorem bind_ok_iff {f : α → Except Fault β} :
    x.bind f = .ok b ↔ ∃ a, x = .ok a ∧ f a = .ok b := by
  cases x <;> simp [Except.bind]

theorem map_ok_iff {f : α → β} : x.map f = .ok b ↔ ∃ a, x = .ok a ∧ f a = b := by
  cases x <;> simp [Except.map]

end

/-! ## §2. Rows that can be stored. -/

namespace Record

/-- The cell of a column, which is empty if the row has no scalar there. -/
def cellOf (row : Record) (column : String) : String :=
  ((Dict.get? row column).bind Value.cell?).getD ""

/-- The header that the file of a row has to have. -/
def header (row : Record) : List String := Columns.header (Dict.keys row)

/-- The cells of a row under its header. -/
def cells (row : Record) : List String := (header row).map (cellOf row)

/-- The line of a row. -/
def line (row : Record) : Bytes := Csv.printRecord (cells row)

/-- A row with a time that can be read back, and with scalars only. -/
structure Storable (row : Record) : Prop where
  time : ∃ cell time, Codec.scalarCell row "timestamp" = .ok cell ∧ timeOfCell? cell = some time
  scalars : ∀ column v, Dict.get? row column = some v → v.isScalar = true

theorem length_cells (row : Record) : (cells row).length = (header row).length :=
  List.length_map _

theorem header_ne_nil (row : Record) : header row ≠ [] := Columns.header_ne_nil _

end Record

namespace Plan

variable {t : FileTree} {path : String}

theorem requireTime_ok_iff {row : Record} :
    requireTime path row = .ok () ↔
      ∃ cell time, Codec.scalarCell row "timestamp" = .ok cell ∧
        timeOfCell? cell = some time := by
  unfold requireTime
  cases hcell : Codec.scalarCell row "timestamp" with
  | error e => simp
  | ok cell =>
    cases htime : timeOfCell? cell with
    | none => simp [readTime, htime, Except.map]
    | some time => simp [readTime, htime, Except.map]

/-- **The cells of a row** exist if the columns asked for are scalars. -/
theorem rowCells_ok_iff {row : Record} : ∀ {columns cells : List String},
    rowCells row columns = .ok cells ↔
      (∀ column ∈ columns, ∀ v, Dict.get? row column = some v → v.isScalar = true) ∧
        cells = columns.map (Record.cellOf row) := by
  intro columns
  induction columns with
  | nil =>
    intro cells
    rw [rowCells, Except.ok.injEq, eq_comm]
    simp
  | cons column rest ih =>
    intro cells
    rw [rowCells]
    rw [List.forall_mem_cons, List.map_cons]
    have hcons : ∀ cell : String, ((rowCells row rest).map (cell :: ·) = .ok cells ↔
        (∀ c ∈ rest, ∀ v, Dict.get? row c = some v → v.isScalar = true) ∧
          cells = cell :: rest.map (Record.cellOf row)) := by
      intro cell
      rw [map_ok_iff]
      constructor
      · rintro ⟨found, hrest, rfl⟩
        obtain ⟨hscalars, rfl⟩ := ih.1 hrest
        exact ⟨hscalars, rfl⟩
      · rintro ⟨hscalars, rfl⟩
        exact ⟨_, ih.2 ⟨hscalars, rfl⟩, rfl⟩
    cases hget : Dict.get? row column with
    | none =>
      have hcell : Record.cellOf row column = "" := by simp [Record.cellOf, hget]
      simp only [hcons, hcell, reduceCtorEq, false_implies, implies_true, true_and]
    | some v =>
      cases hv : v.cell? with
      | none =>
        have hnot : ¬ v.isScalar = true := by
          rw [Value.isScalar_iff, hv]
          exact fun ⟨_, h⟩ => nomatch h
        simp [hnot, hv]
      | some cell =>
        have hscalar : v.isScalar = true := Value.isScalar_iff.2 ⟨cell, hv⟩
        have hcell : Record.cellOf row column = cell := by simp [Record.cellOf, hget, hv]
        simp only [hv, hcons, hcell, Option.some.injEq, forall_eq', hscalar, true_and]

/-- The columns of the header are all that a row has. -/
theorem rowCells_header_iff {row : Record} {cells : List String} :
    rowCells row (Record.header row) = .ok cells ↔
      (∀ column v, Dict.get? row column = some v → v.isScalar = true) ∧
        cells = Record.cells row := by
  rw [rowCells_ok_iff]
  refine and_congr_left fun _ => ⟨?_, fun h column _ => h column⟩
  intro h column v hv
  have hkey : column ∈ Dict.keys row := Dict.mem_keys_iff.2 ⟨v, hv⟩
  exact h column (Columns.mem_header.2 (.inr hkey)) v hv

theorem startsFile_ok_iff {header : List String} {found : Option (List String)} {starts : Bool} :
    startsFile path header found = .ok starts ↔
      (∀ h, found = some h → header = h) ∧ starts = found.isNone := by
  unfold startsFile Columns.requireSame
  cases found with
  | none => simp [eq_comm]
  | some h =>
    by_cases hsame : header = h
    · simp [hsame, Except.map, eq_comm]
    · simp [hsame, Except.map]

end Plan

/-- The append of a row, with the header before it or not. -/
def Append.ofRow (path : String) (starts : Bool) (row : Record) : Append :=
  ⟨path, Record.header row, Record.cells row, starts⟩

/-- The appends of the rows of a group: the first may start the file. -/
def Append.ofRows (path : String) (starts : Bool) : List Record → List Append
  | [] => []
  | row :: rest => Append.ofRow path starts row :: rest.map (Append.ofRow path false)

namespace Append

variable {path : String} {starts : Bool} {rows : List Record}

theorem ofRows_eq_nil_iff : ofRows path starts rows = [] ↔ rows = [] := by
  cases rows <;> simp [ofRows]

theorem path_of_mem_ofRows : ∀ a ∈ ofRows path starts rows, a.path = path := by
  cases rows with
  | nil => simp [ofRows]
  | cons row rest =>
    intro a ha
    rcases List.mem_cons.1 ha with rfl | ha
    · rfl
    · obtain ⟨row', -, rfl⟩ := List.mem_map.1 ha
      rfl

end Append

namespace Plan

variable {t : FileTree} {path : String}

/-- The header that a row is compared with. -/
def foundHeader (t : FileTree) (path : String) :
    Option (List String) → Except Fault (Option (List String))
  | some h => .ok (some h)
  | none => existingHeader t path

/-- Planning a row, check by check. -/
theorem planRow_eq (agreed : Option (List String)) (row : Record) :
    planRow t path agreed row =
      (requireTime path row).bind fun _ =>
        (foundHeader t path agreed).bind fun found =>
          (startsFile path (Record.header row) found).bind fun starts =>
            (rowCells row (Record.header row)).map fun cells =>
              ⟨path, Record.header row, cells, starts⟩ := by
  unfold planRow foundHeader Record.header
  cases requireTime path row with
  | error e => rfl
  | ok u =>
    cases agreed with
    | some h =>
      simp only [Except.bind]
      cases startsFile path (Columns.header (Dict.keys row)) (some h) <;> rfl
    | none =>
      cases existingHeader t path with
      | error e => rfl
      | ok found =>
        simp only [Except.bind]
        cases startsFile path (Columns.header (Dict.keys row)) found <;> rfl

/-- **A row is planned** iff it can be stored and has the header that was
found. -/
theorem planRow_ok_iff {agreed : Option (List String)} {row : Record} {a : Append} :
    planRow t path agreed row = .ok a ↔
      Record.Storable row ∧ ∃ found, foundHeader t path agreed = .ok found ∧
        (∀ h, found = some h → Record.header row = h) ∧
        a = Append.ofRow path found.isNone row := by
  rw [planRow_eq, bind_ok_iff]
  constructor
  · rintro ⟨u, htime, h⟩
    obtain ⟨found, hfound, h⟩ := bind_ok_iff.1 h
    obtain ⟨starts, hstarts, h⟩ := bind_ok_iff.1 h
    obtain ⟨cells, hcells, rfl⟩ := map_ok_iff.1 h
    obtain ⟨hscalars, rfl⟩ := rowCells_header_iff.1 hcells
    obtain ⟨hsame, rfl⟩ := startsFile_ok_iff.1 hstarts
    exact ⟨⟨requireTime_ok_iff.1 htime, hscalars⟩, found, hfound, hsame, rfl⟩
  · rintro ⟨⟨htime, hscalars⟩, found, hfound, hsame, rfl⟩
    refine ⟨(), requireTime_ok_iff.2 htime, bind_ok_iff.2 ⟨found, hfound, ?_⟩⟩
    refine bind_ok_iff.2 ⟨found.isNone, startsFile_ok_iff.2 ⟨hsame, rfl⟩, ?_⟩
    exact map_ok_iff.2 ⟨_, rowCells_header_iff.2 ⟨hscalars, rfl⟩, rfl⟩

/-! ## §3. The rows of a group. -/

theorem planRows_cons_iff {agreed : Option (List String)} {row : Record} {rest : List Record}
    {appends : List Append} :
    planRows t path agreed (row :: rest) = .ok appends ↔
      ∃ a later, planRow t path agreed row = .ok a ∧
        planRows t path (some a.header) rest = .ok later ∧ appends = a :: later := by
  rw [planRows]
  cases planRow t path agreed row with
  | error e => simp
  | ok a =>
    simp only [map_ok_iff, Except.ok.injEq, exists_and_left, exists_eq_left']
    exact exists_congr fun later => and_congr_right fun _ => eq_comm

/-- Once a header is settled, every row has to have it. -/
theorem planRows_some_iff {h : List String} : ∀ {rows : List Record} {appends : List Append},
    planRows t path (some h) rows = .ok appends ↔
      (∀ row ∈ rows, Record.Storable row ∧ Record.header row = h) ∧
        appends = rows.map (Append.ofRow path false) := by
  intro rows
  induction rows with
  | nil =>
    intro appends
    simp [planRows, eq_comm]
  | cons row rest ih =>
    intro appends
    rw [planRows_cons_iff, List.forall_mem_cons, List.map_cons]
    constructor
    · rintro ⟨a, later, hrow, hrest, rfl⟩
      obtain ⟨hstorable, found, hfound, hsame, rfl⟩ := planRow_ok_iff.1 hrow
      injection hfound with hfound
      subst hfound
      have hheader : Record.header row = h := hsame h rfl
      -- The header of the row is the one that was settled before it.
      have hrest' : planRows t path (some h) rest = .ok later := by rwa [← hheader]
      obtain ⟨hall, rfl⟩ := ih.1 hrest'
      exact ⟨⟨⟨hstorable, hheader⟩, hall⟩, rfl⟩
    · rintro ⟨⟨⟨hstorable, hheader⟩, hall⟩, rfl⟩
      refine ⟨Append.ofRow path false row, _, ?_, ?_, rfl⟩
      · rw [planRow_ok_iff]
        refine ⟨hstorable, some h, rfl, ?_, rfl⟩
        rintro _ ⟨⟩
        exact hheader
      · show planRows t path (some (Record.header row)) rest = _
        rw [hheader]
        exact ih.2 ⟨hall, rfl⟩

/-- Rows that can go to a file under the header it carries, if it carries
any. -/
structure RowsFit (found : Option (List String)) (rows : List Record) : Prop where
  storable : ∀ row ∈ rows, Record.Storable row
  same : ∀ row ∈ rows, ∀ row' ∈ rows, Record.header row = Record.header row'
  carried : ∀ row ∈ rows, ∀ h, found = some h → Record.header row = h

/-- The header that a file carries, as far as one can be read. -/
def carried (t : FileTree) (path : String) : Option (List String) :=
  match existingHeader t path with
  | .ok found => found
  | .error _ => none

theorem carried_of_ok {found : Option (List String)} (h : existingHeader t path = .ok found) :
    carried t path = found := by
  simp only [carried, h]

/-- **The rows of a group are planned** iff they fit the file. -/
theorem planRows_none_iff {rows : List Record} {appends : List Append} :
    planRows t path none rows = .ok appends ↔
      (rows ≠ [] → ∃ found, existingHeader t path = .ok found ∧ RowsFit found rows) ∧
        appends = Append.ofRows path (carried t path).isNone rows := by
  cases rows with
  | nil => simp [planRows, Append.ofRows, eq_comm]
  | cons row rest =>
    rw [planRows_cons_iff]
    constructor
    · rintro ⟨a, later, hrow, hrest, rfl⟩
      obtain ⟨hstorable, found, hfound, hsame, rfl⟩ := planRow_ok_iff.1 hrow
      obtain ⟨hall, rfl⟩ := planRows_some_iff.1 hrest
      have hheader : ∀ row' ∈ row :: rest, Record.header row' = Record.header row := by
        intro row' hmem
        rcases List.mem_cons.1 hmem with rfl | hmem
        · rfl
        · exact (hall row' hmem).2
      refine ⟨fun _ => ⟨found, hfound, ?_, ?_, ?_⟩, ?_⟩
      · intro row' hmem
        rcases List.mem_cons.1 hmem with rfl | hmem
        · exact hstorable
        · exact (hall row' hmem).1
      · intro a ha b hb
        rw [hheader a ha, hheader b hb]
      · intro row' hmem h hh
        rw [hheader row' hmem]
        exact hsame h hh
      · rw [carried_of_ok hfound]
        rfl
    · rintro ⟨hfits, rfl⟩
      obtain ⟨found, hfound, hstorable, hsame, hcarried⟩ := hfits (by simp)
      refine ⟨Append.ofRow path found.isNone row, _, ?_, planRows_some_iff.2 ⟨?_, rfl⟩, ?_⟩
      · exact planRow_ok_iff.2 ⟨hstorable row List.mem_cons_self, found, hfound,
          hcarried row List.mem_cons_self, rfl⟩
      · intro row' hmem
        have hrow' := List.mem_cons_of_mem row hmem
        exact ⟨hstorable row' hrow', hsame row' hrow' row List.mem_cons_self⟩
      · rw [carried_of_ok hfound]
        rfl

/-! ## §4. The groups of a record. -/

/-- The file of a group in a directory. -/
def fileIn (directory group : String) : String := Path.join directory (Codec.fileOfGroup group)

/-- A group that can be saved: its name is plain and its rows fit the file. -/
structure GroupFits (t : FileTree) (directory : String) (g : String × List Record) : Prop where
  plain : Path.isPlain g.1 = true
  rows : g.2 ≠ [] →
    ∃ found, existingHeader t (fileIn directory g.1) = .ok found ∧ RowsFit found g.2

/-- The appends of a group. -/
def groupAppends (t : FileTree) (directory : String) (g : String × List Record) : List Append :=
  Append.ofRows (fileIn directory g.1) (carried t (fileIn directory g.1)).isNone g.2

/-- **Groups are planned** iff each of them fits. -/
theorem planGroups_ok_iff {directory : String} : ∀ {groups : GroupRows} {appends : List Append},
    planGroups t directory groups = .ok appends ↔
      (∀ g ∈ groups, GroupFits t directory g) ∧
        appends = groups.flatMap (groupAppends t directory) := by
  intro groups
  induction groups with
  | nil =>
    intro appends
    simp [planGroups, eq_comm]
  | cons g rest ih =>
    obtain ⟨group, rows⟩ := g
    intro appends
    unfold planGroups groupPath
    rw [List.forall_mem_cons, List.flatMap_cons]
    by_cases hplain : Path.isPlain group = true
    · rw [if_pos hplain]
      constructor
      · intro h
        cases hrows : planRows t (fileIn directory group) none rows with
        | error e => simp only [fileIn] at hrows; simp only [hrows, reduceCtorEq] at h
        | ok first =>
          obtain ⟨hfits, hfirst⟩ := planRows_none_iff.1 hrows
          simp only [fileIn] at hrows
          simp only [hrows] at h
          obtain ⟨later, hrest, rfl⟩ := map_ok_iff.1 h
          obtain ⟨hall, rfl⟩ := ih.1 hrest
          exact ⟨⟨⟨hplain, hfits⟩, hall⟩, by rw [hfirst]; rfl⟩
      · rintro ⟨⟨⟨-, hfits⟩, hall⟩, rfl⟩
        have hrows := planRows_none_iff.2 ⟨hfits, rfl⟩
        simp only [fileIn] at hrows
        simp only [hrows, ih.2 ⟨hall, rfl⟩]
        rfl
    · rw [if_neg hplain]
      refine ⟨nofun, ?_⟩
      rintro ⟨⟨⟨h, -⟩, -⟩, -⟩
      exact absurd h hplain

/-- **What a plan needs, and what it appends.** -/
theorem ofRecord_ok_iff {base : String} {codec : Codec} {r : Record} {plan : Plan} :
    ofRecord t base codec r = .ok plan ↔
      ∃ groups, codec.toGroups r = .ok groups ∧ entityDirectory base r = .ok plan.directory ∧
        (∀ g ∈ groups, GroupFits t plan.directory g) ∧ (∃ g ∈ groups, g.2 ≠ []) ∧
        plan.appends = groups.flatMap (groupAppends t plan.directory) := by
  have hsome : ∀ (directory : String) (groups : GroupRows),
      groups.flatMap (groupAppends t directory) ≠ [] ↔ ∃ g ∈ groups, g.2 ≠ [] := by
    intro directory groups
    rw [Ne, List.flatMap_eq_nil_iff]
    simp only [groupAppends, Append.ofRows_eq_nil_iff, Classical.not_forall, exists_prop]
  unfold ofRecord
  cases codec.toGroups r with
  | error e => simp
  | ok groups =>
    cases entityDirectory base r with
    | error e => simp
    | ok directory =>
      simp only [Except.ok.injEq, exists_eq_left']
      constructor
      · intro h
        cases hplan : planGroups t directory groups with
        | error e => simp only [hplan, reduceCtorEq] at h
        | ok appends =>
          obtain ⟨hfits, happends⟩ := planGroups_ok_iff.1 hplan
          cases appends with
          | nil => simp only [hplan, reduceCtorEq] at h
          | cons a later =>
            simp only [hplan, Except.ok.injEq] at h
            subst h
            have hne : groups.flatMap (groupAppends t directory) ≠ [] := by
              rw [← happends]
              simp
            exact ⟨rfl, hfits, (hsome directory groups).1 hne, happends⟩
      · rintro ⟨rfl, hfits, hrows, happends⟩
        have hplan := planGroups_ok_iff.2 ⟨hfits, happends⟩
        have hne : plan.appends ≠ [] := by
          rw [happends]
          exact (hsome plan.directory groups).2 hrows
        obtain ⟨a, later, hcons⟩ := List.exists_cons_of_ne_nil hne
        obtain ⟨directory, appends⟩ := plan
        obtain rfl : appends = a :: later := hcons
        simp only [hplan]

/-! ## §5. The files of a plan. -/

variable {base : String} {codec : Codec} {r : Record} {plan : Plan}

section

variable {groups : GroupRows}
  (happends : plan.appends = groups.flatMap (groupAppends t plan.directory))

include happends

/-- Each append of a plan goes to the file of a group that has rows. -/
theorem exists_group_of_append {a : Append} (ha : a ∈ plan.appends) :
    ∃ g ∈ groups, g.2 ≠ [] ∧ a.path = fileIn plan.directory g.1 := by
  rw [happends] at ha
  obtain ⟨g, hg, ha⟩ := List.mem_flatMap.1 ha
  refine ⟨g, hg, ?_, Append.path_of_mem_ofRows a ha⟩
  intro hnil
  unfold groupAppends at ha
  rw [hnil] at ha
  cases ha

theorem exists_append_of_group {g : String × List Record} (hg : g ∈ groups) (hrows : g.2 ≠ []) :
    ∃ a ∈ plan.appends, a.path = fileIn plan.directory g.1 := by
  obtain ⟨a, ha⟩ := List.exists_mem_of_ne_nil _ (mt Append.ofRows_eq_nil_iff.1 hrows)
  exact ⟨a, happends ▸ List.mem_flatMap.2 ⟨g, hg, ha⟩, Append.path_of_mem_ofRows a ha⟩

end

/-- **Every append of a plan goes to a plainly named file of one directory**,
and the file was looked at. -/
theorem ofRecord_ok (h : ofRecord t base codec r = .ok plan) :
    entityDirectory base r = .ok plan.directory ∧ plan.appends ≠ [] ∧
      ∀ a ∈ plan.appends, ∃ file, Path.isPlain file = true ∧
        a.path = Path.join plan.directory file ∧ ∃ found, existingHeader t a.path = .ok found := by
  obtain ⟨groups, -, hdirectory, hfits, ⟨g, hg, hrows⟩, happends⟩ := ofRecord_ok_iff.1 h
  refine ⟨hdirectory, ?_, ?_⟩
  · obtain ⟨a, ha, -⟩ := exists_append_of_group happends hg hrows
    exact List.ne_nil_of_mem ha
  · intro a ha
    obtain ⟨g, hg, hrows, hpath⟩ := exists_group_of_append happends ha
    obtain ⟨found, hfound, -⟩ := (hfits g hg).rows hrows
    exact ⟨_, Path.isPlain_fileOfGroup (hfits g hg).plain, hpath, found, hpath ▸ hfound⟩

/-- A plan is made for the directory of the entity of its record. -/
theorem directory_eq {directory : String} (hplan : ofRecord t base codec r = .ok plan)
    (hdirectory : entityDirectory base r = .ok directory) : plan.directory = directory := by
  have hplanned := (ofRecord_ok hplan).1
  rw [hdirectory] at hplanned
  injection hplanned with hplanned
  exact hplanned.symm

/-! ## §6. Where two plans part. -/

variable {t' : FileTree} {directory : String}

/-- Rows that are planned otherwise in another tree: there is a first one, a
header was looked for, and a fault in looking for it would have been theirs. -/
theorem planRows_ne {rows : List Record}
    (h : planRows t' path none rows ≠ planRows t path none rows) :
    rows ≠ [] ∧ existingHeader t' path ≠ existingHeader t path ∧
      ∀ u e, existingHeader u path = .error e → planRows u path none rows = .error e := by
  cases rows with
  | nil => exact absurd rfl h
  | cons row rest =>
    refine ⟨List.cons_ne_nil _ _, fun hsame => h (planRows_congr hsame _ _), ?_⟩
    intro u e hfault
    cases htime : requireTime path row with
    | error e' =>
      -- Without a time the row is refused before any file is looked at.
      have hrefused : ∀ v, planRow v path none row = .error e' := by
        intro v
        rw [planRow_eq, htime]
        rfl
      unfold planRows at h
      rw [hrefused, hrefused] at h
      exact absurd rfl h
    | ok =>
      unfold planRows
      rw [planRow_eq, htime]
      simp only [Except.bind, foundHeader, hfault]

/-- **Groups that are planned otherwise in another tree**: one of them has a
file that was looked at, with another header in each tree, and a fault in
looking for it would have been that of the plan. -/
theorem planGroups_ne : ∀ {groups : GroupRows},
    planGroups t' directory groups ≠ planGroups t directory groups →
      ∃ g ∈ groups, g.2 ≠ [] ∧ Path.isPlain g.1 = true ∧
        existingHeader t' (fileIn directory g.1) ≠ existingHeader t (fileIn directory g.1) ∧
        ∀ u, u = t ∨ u = t' → ∀ e, existingHeader u (fileIn directory g.1) = .error e →
          planGroups u directory groups = .error e := by
  intro groups
  induction groups with
  | nil => exact fun h => absurd rfl h
  | cons g rest ih =>
    obtain ⟨group, rows⟩ := g
    intro h
    by_cases hplain : Path.isPlain group = true
    · have hcons : ∀ u, planGroups u directory ((group, rows) :: rest) =
          (planRows u (fileIn directory group) none rows).bind fun first =>
            (planGroups u directory rest).map (first ++ ·) := by
        intro u
        rw [planGroups, groupPath, if_pos hplain]
        unfold fileIn
        dsimp only
        cases planRows u (Path.join directory (Codec.fileOfGroup group)) none rows with
        | error e => rfl
        | ok first => rfl
      by_cases hrows : planRows t' (fileIn directory group) none rows =
          planRows t (fileIn directory group) none rows
      · rw [hcons, hcons, hrows] at h
        cases hfirst : planRows t (fileIn directory group) none rows with
        | error e =>
          rw [hfirst] at h
          exact absurd rfl h
        | ok first =>
          rw [hfirst] at h hrows
          -- The first group is the same, so it is in the rest that they part.
          obtain ⟨g, hg, hne, hplain', hheader, hfault⟩ := ih fun hrest => h (by rw [hrest])
          refine ⟨g, List.mem_cons_of_mem _ hg, hne, hplain', hheader, ?_⟩
          intro u hu e he
          have hfirst' : planRows u (fileIn directory group) none rows = .ok first := by
            rcases hu with rfl | rfl
            · exact hfirst
            · exact hrows
          rw [hcons, hfirst', hfault u hu e he]
          rfl
      · obtain ⟨hne, hheader, hfault⟩ := planRows_ne hrows
        refine ⟨(group, rows), List.mem_cons_self, hne, hplain, hheader, ?_⟩
        intro u _ e he
        rw [hcons, hfault u e he]
        rfl
    · -- A name that is no file name is refused in both trees.
      rw [planGroups, planGroups, groupPath, if_neg hplain] at h
      exact absurd rfl h

/-- **Where two plans part.** -/
theorem ofRecord_ne {base : String} {codec : Codec} {r : Record}
    (h : ofRecord t' base codec r ≠ ofRecord t base codec r) :
    ∃ groups directory, codec.toGroups r = .ok groups ∧
      entityDirectory base r = .ok directory ∧
      ∃ g ∈ groups, g.2 ≠ [] ∧ Path.isPlain g.1 = true ∧
        existingHeader t' (fileIn directory g.1) ≠ existingHeader t (fileIn directory g.1) ∧
        ∀ u, u = t ∨ u = t' → ∀ e, existingHeader u (fileIn directory g.1) = .error e →
          ofRecord u base codec r = .error e := by
  unfold ofRecord at h
  cases hgroups : codec.toGroups r with
  | error e =>
    rw [hgroups] at h
    exact absurd rfl h
  | ok groups =>
    cases hdirectory : entityDirectory base r with
    | error e =>
      rw [hgroups, hdirectory] at h
      exact absurd rfl h
    | ok directory =>
      simp only [hgroups, hdirectory] at h
      obtain ⟨g, hg, hne, hplain, hheader, hfault⟩ := planGroups_ne fun hsame => h (by rw [hsame])
      refine ⟨groups, directory, rfl, rfl, g, hg, hne, hplain, hheader, ?_⟩
      intro u hu e he
      unfold ofRecord
      simp only [hgroups, hdirectory, hfault u hu e he]

end Plan

end ReportStore

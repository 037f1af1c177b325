/-
  ReportStore.Proofs.Merge.Opening
  ────────────────────────────────
  **WHICH FILES CAN BE CONNECTED.**

  A file is opened, then its header is read, then its first row, and last the
  header has to hold the common columns.  The first of these that fails is
  the defect of the file, and a file without a defect is legible:

      openSource t path = ok _     ↔  Legible t path
      openSource t path = error e  ↔  Defect t path e

  Several files are opened in order, so what opening them comes to is decided
  by the first that has a defect.  The time of the primary file is looked at
  after them.
-/
import ReportStore.Proofs.Merge.Rows

namespace ReportStore

/-! ## §1. Files that can be connected, and what is wrong with others. -/

/-- A file that can be read from its start: its header and its first row, if
it has one, are well formed, and the header has the common columns, or is
that of a file without a record. -/
def Legible (t : FileTree) (path : String) : Prop :=
  ∃ (bytes : Bytes) (header : List String),
    t.read path = .ok bytes ∧ (Csv.Table.ofBytes bytes).header = .ok header ∧
    (∀ first ∈ (Csv.Table.ofBytes bytes).rows.head?, ∃ cells, first = .ok cells) ∧
    (header = [] ∨ ∀ column ∈ Columns.common, column ∈ header)

/-- What is wrong with a file, by the first check that fails. -/
inductive Defect (t : FileTree) (path : String) : Fault → Prop where
  /-- Nothing can be opened there. -/
  | unopened {cause : FileFault} (opened : t.openAt path = .error cause) :
      Defect t path (.cannotOpen path cause)
  /-- What was opened cannot be read. -/
  | unreadable {node : Node} {cause : FileFault} (opened : t.openAt path = .ok node)
      (contents : FileTree.contents node = .error cause) : Defect t path (.system path cause)
  /-- The header is no text. -/
  | header {bytes : Bytes} {cause : Csv.RowFault} (read : t.read path = .ok bytes)
      (names : (Csv.Table.ofBytes bytes).header = .error cause) :
      Defect t path (.malformedRow path cause)
  /-- The first row is malformed. -/
  | row {bytes : Bytes} {names : List String} {cause : Csv.RowFault}
      (read : t.read path = .ok bytes) (named : (Csv.Table.ofBytes bytes).header = .ok names)
      (first : (Csv.Table.ofBytes bytes).rows.head? = some (.error cause)) :
      Defect t path (.malformedRow path cause)
  /-- The header lacks common columns. -/
  | columns {bytes : Bytes} {names : List String} (read : t.read path = .ok bytes)
      (named : (Csv.Table.ofBytes bytes).header = .ok names)
      (first : ∀ first ∈ (Csv.Table.ofBytes bytes).rows.head?, ∃ cells, first = .ok cells)
      (nonempty : names ≠ []) (missing : Columns.missingCommon names ≠ []) :
      Defect t path (.missingColumns path (Columns.missingCommon names))

/-- The cell of the first row of a file in which its time stands. -/
def FirstTimeCell (t : FileTree) (path cell : String) : Prop :=
  ∃ (bytes : Bytes) (header cells : List String),
    t.read path = .ok bytes ∧ (Csv.Table.ofBytes bytes).header = .ok header ∧
    (Csv.Table.ofBytes bytes).rows.head? = some (.ok cells) ∧
    cell = Feed.timeCell (Row.ofCells header cells)

/-- A file has one first row. -/
theorem FirstTimeCell.unique {t : FileTree} {path cell cell' : String}
    (h : FirstTimeCell t path cell) (h' : FirstTimeCell t path cell') : cell = cell' := by
  obtain ⟨bytes, names, cells, hread, hnamed, hfirst, rfl⟩ := h
  obtain ⟨bytes', names', cells', hread', hnamed', hfirst', rfl⟩ := h'
  obtain rfl : bytes = bytes' := by
    rw [hread] at hread'
    injection hread'
  obtain rfl : names = names' := by
    rw [hnamed] at hnamed'
    injection hnamed'
  obtain rfl : cells = cells' := by
    rw [hfirst] at hfirst'
    injection hfirst' with hcells
    injection hcells
  rfl

/-- A header lacks no common column iff it has each. -/
theorem missingCommon_eq_nil_iff {header : List String} :
    Columns.missingCommon header = [] ↔ ∀ column ∈ Columns.common, column ∈ header := by
  unfold Columns.missingCommon
  simp

/-! ## §2. Opening one file. -/

/-- A feed that was opened on a table and not read from. -/
structure Feed.OpenedOn (path : String) (table : Csv.Table) (names : List String) (f : Feed) :
    Prop where
  path : f.path = path
  named : table.header = .ok names
  header : f.header = names
  taken : f.taken = 0
  /-- The first row is held, unless there is none. -/
  first : (table.rows = [] ∧ f.held = none) ∨
    ∃ cells, table.rows.head? = some (.ok cells) ∧ f.held = some (Row.ofCells names cells)

/-- The first row of a table that was opened is well formed. -/
theorem Feed.OpenedOn.head {path : String} {table : Csv.Table} {names : List String} {f : Feed}
    (h : f.OpenedOn path table names) : ∀ first ∈ table.rows.head?, ∃ cells, first = .ok cells := by
  rcases h.first with ⟨hrows, -⟩ | ⟨cells, hrows, -⟩
  · simp [hrows]
  · simp [hrows]

/-- Opening a file that was read: a feed of its table, or what is wrong with
its header or its first row. -/
theorem Feed.ofBytes_cases (path : String) (bytes : Bytes) :
    (∃ f names, ofBytes path bytes = .ok f ∧ OpenedOn path (Csv.Table.ofBytes bytes) names f) ∨
    ∃ cause, ofBytes path bytes = .error (.malformedRow path cause) ∧
      ((Csv.Table.ofBytes bytes).header = .error cause ∨
        (∃ names, (Csv.Table.ofBytes bytes).header = .ok names) ∧
          (Csv.Table.ofBytes bytes).rows.head? = some (.error cause)) := by
  unfold ofBytes
  generalize Csv.Table.ofBytes bytes = table
  obtain ⟨header, rows⟩ := table
  cases header with
  | error cause => exact .inr ⟨cause, rfl, .inl rfl⟩
  | ok names =>
    cases rows with
    | nil => exact .inl ⟨_, names, rfl, rfl, rfl, rfl, rfl, .inl ⟨rfl, rfl⟩⟩
    | cons first rest =>
      cases first with
      | error cause => exact .inr ⟨cause, rfl, .inr ⟨⟨names, rfl⟩, rfl⟩⟩
      | ok cells => exact .inl ⟨_, names, rfl, rfl, rfl, rfl, rfl, .inr ⟨cells, rfl, rfl⟩⟩

theorem openAt_of_read {t : FileTree} {path : String} {bytes : Bytes}
    (h : t.read path = .ok bytes) : t.openAt path = .ok (.file bytes) := by
  unfold FileTree.read at h
  cases hopen : t.openAt path with
  | error e => simp [hopen] at h
  | ok node =>
    cases node with
    | directory => simp [hopen, FileTree.contents] at h
    | file bs =>
      simp only [hopen, FileTree.contents, Except.ok.injEq] at h
      rw [h]

namespace Merge

variable {t : FileTree} {path : String} {f : Feed} {e : Fault}

/-- A file that can be read is opened on its bytes. -/
theorem openAt_eq_ofBytes {bytes : Bytes} (read : t.read path = .ok bytes) :
    Feed.openAt t path = Feed.ofBytes path bytes := by
  simp only [Feed.openAt, openAt_of_read read, FileTree.contents]

/-- The last check, of a feed that was opened. -/
theorem openSource_of_openAt (h : Feed.openAt t path = .ok f) :
    openSource t path =
      if f.header = [] ∨ Columns.missingCommon f.header = [] then .ok f
      else .error (.missingColumns path (Columns.missingCommon f.header)) := by
  unfold openSource Columns.requireCommon
  simp only [h]
  cases hheader : f.header with
  | nil => simp
  | cons name rest =>
    cases hmissing : Columns.missingCommon (name :: rest) with
    | nil => simp
    | cons column more => simp

/-- **Opening a file**: a feed of its table, and the file is legible; or the
fault is its defect. -/
theorem openSource_cases (t : FileTree) (path : String) :
    (∃ f bytes names, openSource t path = .ok f ∧ Legible t path ∧ t.read path = .ok bytes ∧
      f.OpenedOn path (Csv.Table.ofBytes bytes) names) ∨
    ∃ e, openSource t path = .error e ∧ Defect t path e := by
  -- What fails before the columns are looked at fails as it is.
  have hearly : ∀ {e}, Feed.openAt t path = .error e → openSource t path = .error e := by
    intro e h
    simp only [openSource, h]
  cases hopen : t.openAt path with
  | error cause =>
    exact .inr ⟨_, hearly (by simp only [Feed.openAt, hopen]), .unopened hopen⟩
  | ok node =>
    cases hcontents : FileTree.contents node with
    | error cause =>
      exact .inr ⟨_, hearly (by simp only [Feed.openAt, hopen, hcontents]),
        .unreadable hopen hcontents⟩
    | ok bytes =>
      have hread : t.read path = .ok bytes := by simp only [FileTree.read, hopen, hcontents]
      have hfeed := openAt_eq_ofBytes hread
      rcases Feed.ofBytes_cases path bytes with ⟨f, names, hf, hopened⟩ | ⟨cause, hf, hbad⟩
      · have hlast := openSource_of_openAt (hfeed.trans hf)
        rw [hopened.header] at hlast
        by_cases hcommon : names = [] ∨ Columns.missingCommon names = []
        · rw [if_pos hcommon] at hlast
          rw [missingCommon_eq_nil_iff] at hcommon
          exact .inl ⟨f, bytes, names, hlast,
            ⟨bytes, names, hread, hopened.named, hopened.head, hcommon⟩, hread, hopened⟩
        · rw [if_neg hcommon] at hlast
          obtain ⟨hnames, hmissing⟩ := not_or.1 hcommon
          exact .inr ⟨_, hlast, .columns hread hopened.named hopened.head hnames hmissing⟩
      · have hfault := hearly (hfeed.trans hf)
        rcases hbad with hheader | ⟨⟨names, hnamed⟩, hfirst⟩
        · exact .inr ⟨_, hfault, .header hread hheader⟩
        · exact .inr ⟨_, hfault, .row hread hnamed hfirst⟩

/-- A file whose header and first row are well formed gives a feed. -/
theorem openAt_of_named {bytes : Bytes} {names : List String} (read : t.read path = .ok bytes)
    (named : (Csv.Table.ofBytes bytes).header = .ok names)
    (first : ∀ first ∈ (Csv.Table.ofBytes bytes).rows.head?, ∃ cells, first = .ok cells) :
    ∃ f, Feed.openAt t path = .ok f ∧ f.header = names := by
  have hfeed := openAt_eq_ofBytes read
  rcases Feed.ofBytes_cases path bytes with
    ⟨f, names', hf, hopened⟩ | ⟨cause, -, hheader | ⟨-, hrow⟩⟩
  · have hnames : Except.ok names' = .ok names := hopened.named.symm.trans named
    injection hnames with hnames
    exact ⟨f, hfeed.trans hf, hopened.header.trans hnames⟩
  · rw [named] at hheader
    cases hheader
  · obtain ⟨cells, hcells⟩ := first _ hrow
    cases hcells

/-- A legible file is opened. -/
theorem openSource_of_legible (h : Legible t path) : ∃ f, openSource t path = .ok f := by
  obtain ⟨bytes, names, read, named, first, hcommon⟩ := h
  obtain ⟨f, hf, hheader⟩ := openAt_of_named read named first
  refine ⟨f, ?_⟩
  rw [openSource_of_openAt hf, hheader]
  exact if_pos (hcommon.imp_right missingCommon_eq_nil_iff.2)

/-- The defect of a file is the fault of opening it. -/
theorem openSource_of_defect (h : Defect t path e) : openSource t path = .error e := by
  cases h with
  | unopened opened => simp only [openSource, Feed.openAt, opened]
  | unreadable opened contents => simp only [openSource, Feed.openAt, opened, contents]
  | header read names => simp only [openSource, openAt_eq_ofBytes read, Feed.ofBytes, names]
  | row read named first =>
    obtain ⟨rest, hrows⟩ := List.head?_eq_some_iff.1 first
    simp only [openSource, openAt_eq_ofBytes read, Feed.ofBytes, named, hrows, Feed.rowsOf,
      List.map_cons, Except.map]
  | columns read named first nonempty missing =>
    obtain ⟨f, hf, hheader⟩ := openAt_of_named read named first
    rw [openSource_of_openAt hf, hheader]
    exact if_neg (not_or.2 ⟨nonempty, missing⟩)

/-- What opening a file gives was opened on its table. -/
theorem openedOn_of_openSource (h : openSource t path = .ok f) :
    ∃ bytes names, t.read path = .ok bytes ∧ f.OpenedOn path (Csv.Table.ofBytes bytes) names := by
  rcases openSource_cases t path with ⟨g, bytes, names, hg, -, hread, hopened⟩ | ⟨e, he, -⟩
  · rw [hg] at h
    injection h with h
    exact ⟨bytes, names, hread, h ▸ hopened⟩
  · rw [he] at h
    cases h

/-- A file that is opened is the feed of its bytes. -/
theorem ofBytes_of_openSource (h : openSource t path = .ok f) :
    ∃ bytes, t.read path = .ok bytes ∧ Feed.ofBytes path bytes = .ok f := by
  obtain ⟨bytes, names, hread, hopened⟩ := openedOn_of_openSource h
  refine ⟨bytes, hread, ?_⟩
  rw [← openAt_eq_ofBytes hread]
  unfold openSource at h
  split at h
  · cases h
  · next g hg =>
    rw [hg]
    split at h
    · exact h
    · split at h
      · exact h
      · cases h

/-! ## §3. Opening several files. -/

/-- What is wrong with some files: the defect of the first that has one. -/
def FirstDefect (t : FileTree) (paths : List String) (e : Fault) : Prop :=
  ∃ before path after, paths = before ++ path :: after ∧ (∀ p ∈ before, Legible t p) ∧
    Defect t path e

/-- **Opening files in order**: every file is legible, or the first that is
not decides. -/
theorem openAll_cases (t : FileTree) (paths : List String) :
    ((openAll t paths).result = .ok () ∧ ∀ path ∈ paths, Legible t path) ∨
    ∃ e, (openAll t paths).result = .error e ∧ FirstDefect t paths e := by
  induction paths with
  | nil => exact .inl ⟨rfl, by simp⟩
  | cons path rest ih =>
    unfold openAll
    rcases openSource_cases t path with ⟨f, -, -, hf, hlegible, -⟩ | ⟨e, he, hdefect⟩
    · simp only [hf]
      rcases ih with ⟨hok, hrest⟩ | ⟨e, he, before, path', after, rfl, hbefore, hdefect⟩
      · exact .inl ⟨hok, List.forall_mem_cons.2 ⟨hlegible, hrest⟩⟩
      · exact .inr ⟨e, he, path :: before, path', after, rfl,
          List.forall_mem_cons.2 ⟨hlegible, hbefore⟩, hdefect⟩
    · simp only [he]
      exact .inr ⟨e, rfl, [], path, rest, rfl, by simp, hdefect⟩

theorem openAll_of_legible {paths : List String} (h : ∀ path ∈ paths, Legible t path) :
    (openAll t paths).result = .ok () := by
  rcases openAll_cases t paths with ⟨hok, -⟩ | ⟨e, -, before, path, after, rfl, -, hdefect⟩
  · exact hok
  · obtain ⟨f, hf⟩ := openSource_of_legible (h path (by simp))
    rw [openSource_of_defect hdefect] at hf
    cases hf

theorem openAll_of_firstDefect {paths : List String} (h : FirstDefect t paths e) :
    (openAll t paths).result = .error e := by
  obtain ⟨before, path, after, rfl, hbefore, hdefect⟩ := h
  induction before with
  | nil =>
    rw [List.nil_append, openAll, openSource_of_defect hdefect]
  | cons first before ih =>
    obtain ⟨hfirst, hrest⟩ := List.forall_mem_cons.1 hbefore
    obtain ⟨f, hf⟩ := openSource_of_legible hfirst
    rw [List.cons_append, openAll, hf]
    exact ih hrest

/-- More files are opened behind those that were opened. -/
theorem openAll_append_of_ok {bs : List String} : ∀ {as : List String},
    (openAll t as).result = .ok () →
      openAll t (as ++ bs) =
        ⟨(openAll t bs).result, (openAll t as).state ++ (openAll t bs).state,
          (openAll t as).signals ++ (openAll t bs).signals⟩ := by
  intro as
  induction as with
  | nil => exact fun _ => rfl
  | cons path rest ih =>
    intro hok
    rw [List.cons_append, openAll, openAll]
    cases hf : openSource t path with
    | error e =>
      simp only [openAll, hf] at hok
      cases hok
    | ok f =>
      simp only [openAll, hf] at hok
      simp only [ih hok, List.cons_append]

/-- After a file that cannot be opened no other is looked at. -/
theorem openAll_append_of_error {bs : List String} : ∀ {as : List String},
    (openAll t as).result = .error e → openAll t (as ++ bs) = openAll t as := by
  intro as
  induction as with
  | nil => exact fun h => nomatch h
  | cons path rest ih =>
    intro herror
    rw [List.cons_append, openAll, openAll]
    cases hf : openSource t path with
    | error e => rfl
    | ok f =>
      simp only [openAll, hf] at herror
      simp only [ih herror]

/-- Files that were opened: the registered paths, each with a feed of the
table that stands there. -/
theorem sources_of_openAll : ∀ {paths : List String}, (openAll t paths).result = .ok () →
    (openAll t paths).state.map (·.path) = paths ∧
    ∀ s ∈ (openAll t paths).state, ∃ f bytes names, s.feed = some f ∧
      t.read s.path = .ok bytes ∧ f.OpenedOn s.path (Csv.Table.ofBytes bytes) names := by
  intro paths
  induction paths with
  | nil => exact fun _ => ⟨rfl, by simp [openAll]⟩
  | cons path rest ih =>
    intro hok
    unfold openAll at hok ⊢
    cases hf : openSource t path with
    | error e =>
      simp only [hf] at hok
      cases hok
    | ok f =>
      simp only [hf] at hok ⊢
      obtain ⟨hpaths, hrest⟩ := ih hok
      obtain ⟨bytes, names, hread, hopened⟩ := openedOn_of_openSource hf
      exact ⟨by rw [List.map_cons, hpaths],
        List.forall_mem_cons.2 ⟨⟨f, bytes, names, rfl, hread, hopened⟩, hrest⟩⟩

/-! ## §4. The time of the primary file. -/

/-- Whether the first row of the primary file, if there is one, stands at a
time. -/
def StartsInTime (t : FileTree) (paths : List String) : Prop :=
  ∀ primary cell, paths.head? = some primary → FirstTimeCell t primary cell →
    ∃ time, timeOfCell? cell = some time

/-- **The watermark of files that were opened** is the first time of the
primary one, unless its cell is no time. -/
theorem firstWatermark_cases {paths : List String} (hok : (openAll t paths).result = .ok ()) :
    (∃ w, firstWatermark (openAll t paths).state = .ok w ∧ StartsInTime t paths) ∨
    ∃ primary rest cell, paths = primary :: rest ∧ FirstTimeCell t primary cell ∧
      timeOfCell? cell = none ∧
      firstWatermark (openAll t paths).state = .error (.badTimestamp primary cell) := by
  obtain ⟨hpaths, hopened⟩ := sources_of_openAll hok
  generalize (openAll t paths).state = ss at hpaths hopened ⊢
  subst hpaths
  cases ss with
  | nil => exact .inl ⟨none, rfl, by simp [StartsInTime]⟩
  | cons s rest =>
    obtain ⟨path, feed⟩ := s
    obtain ⟨f, bytes, names, rfl, hread, hf⟩ := hopened _ List.mem_cons_self
    simp only [firstWatermark, Feed.heldTime]
    rcases hf.first with ⟨hrows, hheld⟩ | ⟨cells, hrows, hheld⟩
    · simp only [hheld]
      refine .inl ⟨none, rfl, ?_⟩
      -- A file without a row has no first cell.
      rintro primary cell hprimary ⟨bytes', -, cells, hread', -, hfirst, -⟩
      obtain rfl : path = primary := Option.some.inj hprimary
      rw [hread] at hread'
      injection hread' with hbytes
      rw [← hbytes, hrows] at hfirst
      cases hfirst
    · have hcell : FirstTimeCell t path (Feed.timeCell (Row.ofCells names cells)) :=
        ⟨bytes, names, cells, hread, hf.named, hrows, rfl⟩
      simp only [hheld, hf.path, readTime]
      cases htime : timeOfCell? (Feed.timeCell (Row.ofCells names cells)) with
      | none => exact .inr ⟨path, _, _, rfl, hcell, htime, rfl⟩
      | some time =>
        refine .inl ⟨some time, rfl, ?_⟩
        intro primary cell hprimary hcell'
        obtain rfl : path = primary := Option.some.inj hprimary
        exact ⟨time, hcell.unique hcell' ▸ htime⟩

/-! ## §5. Connecting. -/

variable {m : Merge}

theorem connect_of_unopened (h : (openAll t m.paths).result = .error e) :
    (m.connect t).result = .error e ∧ (m.connect t).state = m.disconnect := by
  simp only [connect, h]
  exact ⟨trivial, trivial⟩

theorem connect_of_untimed (h : (openAll t m.paths).result = .ok ())
    (hfirst : firstWatermark (openAll t m.paths).state = .error e) :
    (m.connect t).result = .error e ∧ (m.connect t).state = m.disconnect := by
  simp only [connect, h, hfirst]
  exact ⟨trivial, trivial⟩

theorem connect_of_timed {w : Option Int} (h : (openAll t m.paths).result = .ok ())
    (hfirst : firstWatermark (openAll t m.paths).state = .ok w) :
    (m.connect t).result = .ok () ∧
      (m.connect t).state =
        { m with sources := (openAll t m.paths).state, phase := .connected w } := by
  simp only [connect, h, hfirst]
  exact ⟨trivial, trivial⟩

/-- **What connecting comes to**: every file is closed if one of them has a
defect or the primary one does not start in time, and each is open if not. -/
theorem connect_cases (t : FileTree) (m : Merge) :
    (∃ e, (openAll t m.paths).result = .error e ∧
      (m.connect t).result = .error e ∧ (m.connect t).state = m.disconnect) ∨
    (∃ e, (openAll t m.paths).result = .ok () ∧
      firstWatermark (openAll t m.paths).state = .error e ∧
      (m.connect t).result = .error e ∧ (m.connect t).state = m.disconnect) ∨
    ∃ w, (openAll t m.paths).result = .ok () ∧
      firstWatermark (openAll t m.paths).state = .ok w ∧ (m.connect t).result = .ok () ∧
      (m.connect t).state =
        { m with sources := (openAll t m.paths).state, phase := .connected w } := by
  cases hopen : (openAll t m.paths).result with
  | error e => exact .inl ⟨e, rfl, connect_of_unopened hopen⟩
  | ok u =>
    cases hfirst : firstWatermark (openAll t m.paths).state with
    | error e => exact .inr (.inl ⟨e, rfl, rfl, connect_of_untimed hopen hfirst⟩)
    | ok w => exact .inr (.inr ⟨w, rfl, rfl, connect_of_timed hopen hfirst⟩)

end Merge

end ReportStore

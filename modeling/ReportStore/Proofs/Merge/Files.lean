/-
  ReportStore.Proofs.Merge.Files
  ──────────────────────────────
  **FROM THE BYTES OF THE FILES TO THE STREAM OF RECORDS.**

  A registered file is known by its path; what a merge makes of it is decided
  when it is connected.  `Holds` says that the bytes at a path are a table
  under a header with the common columns, all of whose records are rows in
  time.  Of such files `connect` opens every one, whatever the merge did
  before, and sets the watermark to the first time of the primary one.  With
  a codec that decodes their rows the stream is then known:

      call n = the n-th strict maximum T of the primary file's times,
               with the union of the rows of all files that are due at T

  Both codecs of the library decode every row in time.
-/
import ReportStore.Proofs.Merge.Opening
import ReportStore.Proofs.Merge.Stream
import ReportStore.Codec.Counters
import ReportStore.Codec.Power

namespace ReportStore

/-! ## §1. Well-formed files. -/

/-- A file of a tree that is a table of rows in time; it may have no row, or
no record at all. -/
structure Holds (t : FileTree) (path : String) (rows : List (Int × Row)) : Prop where
  table : ∃ (bytes : Bytes) (header : List String) (cells : List (List String)),
    t.read path = .ok bytes ∧
    Csv.Table.ofBytes bytes = ⟨.ok header, cells.map .ok⟩ ∧
    (header = [] ∨ Columns.missingCommon header = []) ∧
    rows.map (·.2) = cells.map (Row.ofCells header)
  times : ∀ p ∈ rows, p.2.time? = some p.1

/-- A feed of given rows, none of which is hidden. -/
structure Feed.Opened (path : String) (rs : List Row) (f : Feed) : Prop where
  fileName : f.fileName = Path.fileName path
  rows : f.rows = rs
  rest : ∀ x ∈ f.rest, ∃ row, x = .ok row

theorem inTime_of_times {rows : List (Int × Row)} (h : ∀ p ∈ rows, p.2.time? = some p.1) :
    inTime (rows.map (·.2)) = rows := by
  have happend := inTime_append h []
  rwa [List.append_nil, inTime, List.append_nil] at happend

theorem rowsOf_ok (header : List String) (cells : List (List String)) :
    Feed.rowsOf header (cells.map .ok) = (cells.map (Row.ofCells header)).map .ok := by
  simp only [Feed.rowsOf, List.map_map]
  rfl

/-! ## §2. Opening. -/

theorem Feed.ofBytes_opened {bytes : Bytes} {header : List String} {cells : List (List String)}
    (path : String) (htable : Csv.Table.ofBytes bytes = ⟨.ok header, cells.map .ok⟩) :
    ∃ f, Feed.ofBytes path bytes = .ok f ∧ f.header = header ∧
      f.Opened path (cells.map (Row.ofCells header)) := by
  unfold Feed.ofBytes
  simp only [htable, rowsOf_ok]
  cases hrows : cells.map (Row.ofCells header) with
  | nil => exact ⟨_, rfl, rfl, rfl, rfl, by simp⟩
  | cons row rest =>
    refine ⟨_, rfl, rfl, rfl, ?_, ?_⟩
    · simp only [Feed.rows, filterMap_toOption_ok]
    · intro x hx
      obtain ⟨r, -, rfl⟩ := List.mem_map.1 hx
      exact ⟨r, rfl⟩

namespace Merge

theorem openSource_of_holds {t : FileTree} {path : String} {rows : List (Int × Row)}
    (h : Holds t path rows) :
    ∃ f, openSource t path = .ok f ∧ f.Opened path (rows.map (·.2)) := by
  obtain ⟨bytes, header, cells, hread, htable, hcommon, hrows⟩ := h.table
  obtain ⟨f, hf, hheader, hopened⟩ := Feed.ofBytes_opened path htable
  have hopen : Feed.openAt t path = .ok f := by
    simp only [Feed.openAt, openAt_of_read hread, FileTree.contents, hf]
  rw [hrows]
  refine ⟨f, ?_, hopened⟩
  unfold openSource
  simp only [hopen, hheader]
  rcases hcommon with rfl | hcommon
  · rfl
  · have hrequire : Columns.requireCommon path header = .ok () := by
      simp only [Columns.requireCommon, hcommon]
    simp only [hrequire, ite_self]

/-- The sources of some files, opened and not read from. -/
inductive Fresh (rowsOf : String → List (Int × Row)) : List String → List Source → Prop where
  | nil : Fresh rowsOf [] []
  | cons {path : String} {f : Feed} {paths : List String} {ss : List Source}
      (first : f.Opened path ((rowsOf path).map (·.2))) (rest : Fresh rowsOf paths ss) :
      Fresh rowsOf (path :: paths) (⟨path, some f⟩ :: ss)

theorem openAll_of_holds {t : FileTree} {rowsOf : String → List (Int × Row)} :
    ∀ {paths : List String}, (∀ path ∈ paths, Holds t path (rowsOf path)) →
      (openAll t paths).result = .ok () ∧ Fresh rowsOf paths (openAll t paths).state := by
  intro paths
  induction paths with
  | nil => exact fun _ => ⟨rfl, .nil⟩
  | cons path rest ih =>
    intro h
    obtain ⟨f, hf, hopened⟩ := openSource_of_holds (h path List.mem_cons_self)
    obtain ⟨hok, hfresh⟩ := ih fun p hp => h p (List.mem_cons_of_mem _ hp)
    unfold openAll
    simp only [hf]
    exact ⟨hok, .cons hopened hfresh⟩

/-- An open file has the time of its first row at hand. -/
theorem firstWatermark_of_fresh {t : FileTree} {rowsOf : String → List (Int × Row)}
    {paths : List String} {ss : List Source} (h : ∀ path ∈ paths, Holds t path (rowsOf path))
    (hfresh : Fresh rowsOf paths ss) : firstWatermark ss = .ok (primaryTimes ss).head? := by
  cases hfresh with
  | nil => rfl
  | @cons path f _ ss first rest =>
    have htimes := (h path List.mem_cons_self).times
    simp only [firstWatermark, primaryTimes, Feed.timed, first.rows, inTime_of_times htimes]
    cases hrows : rowsOf path with
    | nil =>
      have hheld : f.held = none := by
        have hf := first.rows
        rw [hrows] at hf
        unfold Feed.rows at hf
        cases hh : f.held with
        | none => rfl
        | some row => simp [hh] at hf
      simp [Feed.heldTime, hheld]
    | cons p later =>
      have hheld : f.held = some p.2 := by
        have hf := first.rows
        rw [hrows] at hf
        unfold Feed.rows at hf
        cases hh : f.held with
        | none => simp [hh] at hf
        | some row => simp only [hh, List.map_cons, List.cons.injEq] at hf; rw [hf.1]
      have hcell : timeOfCell? (Feed.timeCell p.2) = some p.1 :=
        htimes p (hrows ▸ List.mem_cons_self)
      simp [Feed.heldTime, hheld, readTime, hcell, Except.map]

/-- **Connecting well-formed files succeeds**, whatever the merge did before:
every file is open at its first row, and the watermark is the first time of
the primary one. -/
theorem connect_of_holds {t : FileTree} {rowsOf : String → List (Int × Row)} (m : Merge)
    (h : ∀ path ∈ m.paths, Holds t path (rowsOf path)) :
    (m.connect t).result = .ok () ∧ (m.connect t).state.strictness = m.strictness ∧
      Fresh rowsOf m.paths (m.connect t).state.sources ∧
      (m.connect t).state.phase = .connected (m.connect t).state.times.head? := by
  obtain ⟨hok, hfresh⟩ := openAll_of_holds h
  have hfirst := firstWatermark_of_fresh h hfresh
  rcases m.connect_cases t with ⟨e, he, -⟩ | ⟨e, -, he, -⟩ | ⟨w, -, hw, hresult, hstate⟩
  · rw [hok] at he
    cases he
  · rw [hfirst] at he
    cases he
  · rw [hfirst] at hw
    injection hw with hw
    rw [hstate, ← hw]
    exact ⟨hresult, rfl, hfresh, rfl⟩

/-- What is due of files that were not read from is what is due of their rows. -/
theorem due_of_fresh {t : FileTree} {rowsOf : String → List (Int × Row)} {paths : List String}
    {ss : List Source} (codec : Codec) (time : Int)
    (h : ∀ path ∈ paths, Holds t path (rowsOf path)) (hfresh : Fresh rowsOf paths ss) :
    dueFrom codec time ss =
      paths.flatMap fun path =>
        fragments codec (Path.fileName path) (dueAt time (rowsOf path)) := by
  induction hfresh with
  | nil => rfl
  | @cons path f paths ss first rest ih =>
    have htimes := (h path List.mem_cons_self).times
    unfold dueFrom at ih ⊢
    simp only [List.flatMap_cons, ih fun p hp => h p (List.mem_cons_of_mem _ hp), Source.due,
      Feed.due, Feed.timed, first.fileName, first.rows, inTime_of_times htimes]

theorem Fresh.opened {rowsOf : String → List (Int × Row)} {paths : List String}
    {ss : List Source} (h : Fresh rowsOf paths ss) :
    ∀ s ∈ ss, ∀ f, s.feed = some f →
      ∃ path ∈ paths, f.Opened path ((rowsOf path).map (·.2)) := by
  induction h with
  | nil => simp
  | @cons path f paths ss first rest ih =>
    refine List.forall_mem_cons.2 ⟨?_, ?_⟩
    · intro g hg
      injection hg with hg
      exact ⟨path, List.mem_cons_self, hg ▸ first⟩
    · intro s hs g hg
      obtain ⟨path', hpath, hopened⟩ := ih s hs g hg
      exact ⟨path', List.mem_cons_of_mem _ hpath, hopened⟩

/-- Files that were opened and not read from are smooth if the codec takes
their rows. -/
theorem smooth_of_fresh {t : FileTree} {rowsOf : String → List (Int × Row)} {paths : List String}
    {ss : List Source} {codec : Codec} (h : ∀ path ∈ paths, Holds t path (rowsOf path))
    (htakes : ∀ path ∈ paths, ∀ p ∈ rowsOf path, ∃ r, codec.ofRow (Path.fileName path) p.2 = .ok r)
    (hfresh : Fresh rowsOf paths ss) : ∀ s ∈ ss, s.Smooth codec := by
  intro s hs f hf
  obtain ⟨path, hpath, hopened⟩ := hfresh.opened s hs f hf
  have hrows : ∀ row ∈ f.rows, ∃ p ∈ rowsOf path, p.2 = row := by
    intro row hrow
    rw [hopened.rows] at hrow
    exact List.mem_map.1 hrow
  refine ⟨hopened.rest, ?_, ?_⟩
  · intro row hrow
    obtain ⟨p, hp, rfl⟩ := hrows row hrow
    exact ⟨p.1, (h path hpath).times p hp⟩
  · intro row hrow
    obtain ⟨p, hp, rfl⟩ := hrows row hrow
    rw [hopened.fileName]
    exact htakes path hpath p hp

/-- They are sound if it makes something of each. -/
theorem sound_of_fresh {t : FileTree} {rowsOf : String → List (Int × Row)} {paths : List String}
    {ss : List Source} {codec : Codec} (h : ∀ path ∈ paths, Holds t path (rowsOf path))
    (hdecodes : ∀ path ∈ paths, ∀ p ∈ rowsOf path, codec.Decodes (Path.fileName path) p.2)
    (hfresh : Fresh rowsOf paths ss) : ∀ s ∈ ss, s.Sound codec := by
  intro s hs f hf
  have hsmooth := smooth_of_fresh h
    (fun path hpath p hp => (hdecodes path hpath p hp).imp fun _ hr => hr.1) hfresh s hs f hf
  obtain ⟨path, hpath, hopened⟩ := hfresh.opened s hs f hf
  refine ⟨hsmooth.rest, hsmooth.times, ?_⟩
  intro row hrow
  rw [hopened.rows] at hrow
  obtain ⟨p, hp, rfl⟩ := List.mem_map.1 hrow
  rw [hopened.fileName]
  exact hdecodes path hpath p hp

end Merge

/-! ## §3. Rows that the codecs of the library decode. -/

/-- The time of a row is a cell of it. -/
theorem get?_timestamp_of_time {row : Row} {t : Int} (h : row.time? = some t) :
    ∃ cell, Dict.get? row "timestamp" = some cell ∧ timeOfCell? cell = some t := by
  unfold Row.time? Feed.timeCell at h
  cases hget : Dict.get? row "timestamp" with
  | none =>
    rw [hget] at h
    -- The empty cell is no time.
    have hempty : timeOfCell? "" = none := by decide
    rw [Option.getD_none, hempty] at h
    cases h
  | some cell =>
    rw [hget] at h
    exact ⟨cell, rfl, h⟩

namespace Codec

theorem commonValue_of_time {row : Row} {t : Int} (h : row.time? = some t) {field cell : String}
    (hget : Dict.get? row field = some cell) : ∃ v, commonValue field cell = .ok v := by
  unfold commonValue
  by_cases hfield : field = "timestamp"
  · obtain ⟨cell', hget', htime⟩ := get?_timestamp_of_time h
    rw [hfield, hget'] at hget
    injection hget with hget
    subst hget
    unfold timeOfCell? at htime
    cases hint : Text.Digits.int64? (Text.trim cell'.toList) with
    | none => simp [hint] at htime
    | some n => exact ⟨.int n, by simp only [hfield, if_true]⟩
  · exact ⟨.text cell, by rw [if_neg hfield]⟩

/-- The common fields of a row in time can be read, and none is lost. -/
theorem commonFields_of_time {row : Row} {t : Int} (h : row.time? = some t)
    (fields : List String) :
    ∀ out, ∃ r, commonFields row fields out = .ok r ∧ (out ≠ [] → r ≠ []) := by
  induction fields with
  | nil => exact fun out => ⟨out, rfl, id⟩
  | cons field rest ih =>
    intro out
    unfold commonFields
    cases hget : Dict.get? row field with
    | none => exact ih out
    | some cell =>
      obtain ⟨v, hv⟩ := commonValue_of_time h hget
      obtain ⟨r, hr, hne⟩ := ih (Dict.insert out field v)
      simp only [hv]
      exact ⟨r, hr, fun _ => hne (Dict.insert_ne_nil out field v)⟩

theorem commonFields_ne_nil {row : Row} {t : Int} (h : row.time? = some t)
    (fields : List String) :
    ∃ r, commonFields row ("timestamp" :: fields) [] = .ok r ∧ r ≠ [] := by
  obtain ⟨cell, hget, -⟩ := get?_timestamp_of_time h
  obtain ⟨v, hv⟩ := commonValue_of_time h hget
  obtain ⟨r, hr, hne⟩ := commonFields_of_time h fields (Dict.insert [] "timestamp" v)
  refine ⟨r, ?_, hne (Dict.insert_ne_nil _ _ _)⟩
  simp only [commonFields, hget, hv, hr]

theorem decodes_power {row : Row} {t : Int} (h : row.time? = some t) (fileName : String) :
    power.Decodes fileName row := by
  obtain ⟨r, hr, hne⟩ := commonFields_ne_nil h ["sensor", "target", "socket", "cpu"]
  have hrow : power.ofRow fileName row =
      .ok ((ownFields row).foldl (fun r p => Dict.insert r p.1 p.2) r) := by
    show Power.ofRow fileName row = _
    simp only [Power.ofRow, Columns.common, hr]
  refine ⟨_, hrow, ?_⟩
  -- Adding fields takes none away.
  refine List.foldlRecOn (motive := (· ≠ [])) (ownFields row) _ hne ?_
  exact fun r _ p _ => Dict.insert_ne_nil r p.1 p.2

theorem decodes_counters {row : Row} {t : Int} (h : row.time? = some t) (fileName : String) :
    counters.Decodes fileName row := by
  obtain ⟨r, hr, -⟩ := commonFields_ne_nil h ["sensor", "target"]
  have hrow : ∃ v, counters.ofRow fileName row = .ok (Dict.insert r Counters.groupsField v) := by
    show ∃ v, Counters.ofRow fileName row = _
    simp only [Counters.ofRow, hr]
    exact ⟨_, rfl⟩
  obtain ⟨v, hv⟩ := hrow
  exact ⟨_, hv, Dict.insert_ne_nil _ _ _⟩

end Codec

/-! ## §4. The stream of well-formed files. -/

/-- The record that well-formed files have at a time: the union of the rows
that are due, in the order of the files and of the rows in each. -/
def Merge.recordAt (codec : Codec) (paths : List String) (rowsOf : String → List (Int × Row))
    (time : Int) : Record :=
  Record.unionAll <| paths.flatMap fun path =>
    fragments codec (Path.fileName path) (dueAt time (rowsOf path))

namespace Merge

variable {t : FileTree} {rowsOf : String → List (Int × Row)} {m : Merge} {codec : Codec}

/-- Connected to well-formed files, a merge is ready for the first time of the
primary one. -/
theorem ready_of_holds (codec : Codec) (hfiles : ∀ path ∈ m.paths, Holds t path (rowsOf path)) :
    (m.connect t).state.Ready codec := by
  obtain ⟨-, -, -, hphase⟩ := m.connect_of_holds hfiles
  unfold Ready
  cases htimes : (m.connect t).state.times with
  | nil => exact .inl (by rw [hphase, htimes]; rfl)
  | cons x xs => show _ = _; rw [hphase, htimes]; rfl

/-- Opened and not read from, the primary file has the times of its rows. -/
theorem primaryTimes_of_fresh {primary : String} {others : List String} {ss : List Source}
    (h : Holds t primary (rowsOf primary)) (hfresh : Fresh rowsOf (primary :: others) ss) :
    primaryTimes ss = (rowsOf primary).map (·.1) := by
  cases hfresh with
  | cons first rest =>
    simp only [primaryTimes, Feed.timed, first.rows, inTime_of_times h.times]

/-- At each maximum of the times of the primary file there is the record that the
files have at it. -/
theorem results_of_holds {primary : String} {others : List String}
    (hpaths : m.paths = primary :: others) (hlenient : m.strictness = .lenient)
    (hfiles : ∀ path ∈ m.paths, Holds t path (rowsOf path))
    (hdecodes : ∀ path ∈ m.paths, ∀ p ∈ rowsOf path,
      codec.Decodes (Path.fileName path) p.2) (n : Nat) :
    (((m.connect t).state.after codec n).next codec).result =
      .ok (((strictMaxima ((rowsOf primary).map (·.1))).map
        (recordAt codec m.paths rowsOf))[n]?) := by
  obtain ⟨-, hstrictness, hfresh, -⟩ := m.connect_of_holds hfiles
  have htimes : (m.connect t).state.times = (rowsOf primary).map (·.1) :=
    primaryTimes_of_fresh (hfiles primary (hpaths ▸ List.mem_cons_self)) (hpaths ▸ hfresh)
  rw [results_of_sound n (hstrictness.trans hlenient) (sound_of_fresh hfiles hdecodes hfresh)
    (ready_of_holds codec hfiles), htimes]
  congr 2
  apply List.map_congr_left
  intro time _
  exact congrArg Record.unionAll (due_of_fresh codec time hfiles hfresh)

end Merge

/-- **The stream of well-formed files, sorted or not.**  After `connect`, a
lenient merge hands out one record for each strict running maximum of the
primary file's times, in the order of the file, and then none for ever.  The
record of a time is the union of the rows that stand at it and not behind a
later time of their own file.  All that is asked of the codec is that it
makes something of every row, which both codecs of the library do. -/
theorem merged_stream {t : FileTree} {rowsOf : String → List (Int × Row)} {primary : String}
    {others : List String} {m : Merge} (hpaths : m.paths = primary :: others)
    (hlenient : m.strictness = .lenient) (hfiles : ∀ path ∈ m.paths, Holds t path (rowsOf path)) :
    (∀ codec ∈ [Codec.power, Codec.counters], ∀ path ∈ m.paths, ∀ p ∈ rowsOf path,
      codec.Decodes (Path.fileName path) p.2) ∧
    ∀ codec : Codec,
      (∀ path ∈ m.paths, ∀ p ∈ rowsOf path, codec.Decodes (Path.fileName path) p.2) →
      (m.connect t).result = .ok () ∧
      ∀ n, (((m.connect t).state.after codec n).next codec).result =
        .ok (((strictMaxima ((rowsOf primary).map (·.1))).map fun time =>
          Merge.recordAt codec m.paths rowsOf time)[n]?) := by
  constructor
  · intro codec hcodec path hpath p hp
    have htime := (hfiles path hpath).times p hp
    simp only [List.mem_cons, List.not_mem_nil, or_false] at hcodec
    rcases hcodec with rfl | rfl
    · exact Codec.decodes_power htime _
    · exact Codec.decodes_counters htime _
  · intro codec hdecodes
    exact ⟨(m.connect_of_holds hfiles).1, Merge.results_of_holds hpaths hlenient hfiles hdecodes⟩

/-! ## §5. Two files out of order. -/

/-- Two files, neither of them in the order of its times. -/
def unsortedPair : FileTree :=
  ⟨[(["a.csv"], .file (Text.encode
      "timestamp,sensor,target,socket,cpu,x\n2,s,t,0,0,1\n1,s,t,0,0,7\n2,s,t,0,0,5\n3,s,t,0,0,3\n")),
    (["b.csv"], .file (Text.encode
      "timestamp,sensor,target,socket,cpu,y\n3,s,t,0,0,8\n2,s,t,0,0,9\n"))]⟩

def unsortedRows (path : String) : List (Int × Row) :=
  let row (own : String) (p : Int × String) : Int × Row :=
    (p.1, Row.ofCells (Columns.header [own]) [Fault.millis p.1, "s", "t", "0", "0", p.2])
  if path = "a.csv" then [(2, "1"), (1, "7"), (2, "5"), (3, "3")].map (row "x")
  else [(3, "8"), (2, "9")].map (row "y")

def unsortedMerge : Merge := ((Merge.new .lenient).add "a.csv").add "b.csv"

set_option maxRecDepth 1000 in
theorem holds_unsorted :
    ∀ path ∈ unsortedMerge.paths, Holds unsortedPair path (unsortedRows path) := by
  intro path hpath
  have hpaths : unsortedMerge.paths = ["a.csv", "b.csv"] := rfl
  have hcases : path = "a.csv" ∨ path = "b.csv" := by simpa [hpaths] using hpath
  rcases hcases with rfl | rfl
  · refine ⟨⟨_, _, [["2", "s", "t", "0", "0", "1"], ["1", "s", "t", "0", "0", "7"],
      ["2", "s", "t", "0", "0", "5"], ["3", "s", "t", "0", "0", "3"]], rfl, rfl, ?_, ?_⟩, ?_⟩
    · decide
    · decide +kernel
    · decide +kernel
  · refine ⟨⟨_, _, [["3", "s", "t", "0", "0", "8"], ["2", "s", "t", "0", "0", "9"]],
      rfl, rfl, ?_, ?_⟩, ?_⟩
    · decide
    · decide +kernel
    · decide +kernel

/-- The row at 1 is behind the one at 2, and the row of the other file at 2
behind the one at 3: neither is in a record. -/
theorem merged_stream_unsorted_pair :
    (∀ path ∈ unsortedMerge.paths, Holds unsortedPair path (unsortedRows path)) ∧
    ∀ n, (((unsortedMerge.connect unsortedPair).state.after Codec.power n).next
        Codec.power).result =
      .ok ([
        [("cpu", .text "0"), ("sensor", .text "s"), ("socket", .text "0"), ("target", .text "t"),
          ("timestamp", .int 2), ("x", .int 5)],
        [("cpu", .text "0"), ("sensor", .text "s"), ("socket", .text "0"), ("target", .text "t"),
          ("timestamp", .int 3), ("x", .int 3), ("y", .int 8)]][n]?) := by
  have h := merged_stream (m := unsortedMerge) rfl rfl holds_unsorted
  exact ⟨holds_unsorted, (h.2 Codec.power (h.1 Codec.power List.mem_cons_self)).2⟩

end ReportStore

/-
  ReportStore.Proofs.Merge.Order
  ──────────────────────────────
  **THE ORDER OF THE SECONDARY FILES.**

  The primary file decides at which times there is a record, and what the
  other files add to it is united in the order of their registration.  That
  order does not count where no two of them are at odds about a time:

      same primary file, the others permuted   →   same records

  Rows of one file may be at odds with each other, and all of them with the
  primary file, for it comes first in both orders.
-/
import ReportStore.Proofs.Fragments
import ReportStore.Proofs.Merge.Connecting
import ReportStore.Proofs.Merge.Files

namespace ReportStore

/-! ## §1. Files whose rows all parse. -/

/-- A file of a tree all of whose records are rows in time, under any header. -/
structure Parses (t : FileTree) (path : String) (rows : List (Int × Row)) : Prop where
  table : ∃ (bytes : Bytes) (header : List String) (cells : List (List String)),
    t.read path = .ok bytes ∧
    Csv.Table.ofBytes bytes = ⟨.ok header, cells.map .ok⟩ ∧
    rows.map (·.2) = cells.map (Row.ofCells header)
  times : ∀ p ∈ rows, p.2.time? = some p.1

/-- Such a file is well formed if it can be connected. -/
theorem Parses.holds {t : FileTree} {path : String} {rows : List (Int × Row)}
    (h : Parses t path rows) (hlegible : Legible t path) : Holds t path rows := by
  obtain ⟨⟨bytes, header, cells, hread, htable, hrows⟩, htimes⟩ := h
  obtain ⟨bytes', header', hread', hheader, -, hcommon⟩ := hlegible
  obtain rfl : bytes = bytes' := by
    rw [hread] at hread'
    injection hread'
  rw [htable] at hheader
  injection hheader with hheader
  subst hheader
  exact ⟨⟨bytes, header, cells, hread, htable, hcommon.imp_right missingCommon_eq_nil_iff.2, hrows⟩,
    htimes⟩

/-- Its rows are rows under its header. -/
theorem Parses.sorted {t : FileTree} {path : String} {rows : List (Int × Row)}
    (h : Parses t path rows) : ∀ p ∈ rows, Dict.Sorted p.2 := by
  obtain ⟨-, header, cells, -, -, hrows⟩ := h.table
  intro p hp
  have hmem : p.2 ∈ rows.map (·.2) := List.mem_map.2 ⟨p, hp, rfl⟩
  rw [hrows] at hmem
  obtain ⟨cs, -, hcs⟩ := List.mem_map.1 hmem
  exact hcs ▸ Row.sorted_ofCells header cs

/-- Two files that are not at odds: no two rows of one time are read as records
at odds. -/
def Agree (codec : Codec) (rowsOf : String → List (Int × Row)) (path path' : String) : Prop :=
  ∀ time row row', (time, row) ∈ rowsOf path → (time, row') ∈ rowsOf path' →
    ∀ r r', codec.ofRow (Path.fileName path) row = .ok r →
      codec.ofRow (Path.fileName path') row' = .ok r' → Record.Compatible r r'

namespace Merge

variable {t : FileTree} {rowsOf : String → List (Int × Row)} {codec : Codec} {m m' : Merge}

/-! ## §2. What is due, in any order. -/

/-- What a file that was not read from adds at a time. -/
def block (codec : Codec) (rowsOf : String → List (Int × Row)) (time : Int) (path : String) :
    List Record :=
  fragments codec (Path.fileName path) (dueAt time (rowsOf path))

theorem mem_block {time : Int} {path : String} {r : Record}
    (h : r ∈ block codec rowsOf time path) :
    ∃ row, (time, row) ∈ rowsOf path ∧ codec.ofRow (Path.fileName path) row = .ok r := by
  obtain ⟨row, hrow, hr⟩ := mem_fragments h
  exact ⟨row, mem_of_mem_dueAt hrow, hr⟩

/-- **The record of a time does not depend on the order** of the files after the
first. -/
theorem recordAt_perm {paths paths' : List String} (time : Int)
    (hprimary : paths.head? = paths'.head?) (hothers : paths.tail.Perm paths'.tail)
    (hcodec : codec.Ordered) (hsorted : ∀ path ∈ paths, ∀ p ∈ rowsOf path, Dict.Sorted p.2)
    (hagree : ∀ path ∈ paths.tail, ∀ path' ∈ paths.tail,
      ¬ (Path.fileName path = Path.fileName path' ∧ rowsOf path = rowsOf path') →
        Agree codec rowsOf path path') :
    recordAt codec paths rowsOf time = recordAt codec paths' rowsOf time := by
  have hblocks : ∀ path ∈ paths, ∀ r ∈ block codec rowsOf time path, r.Ordered := by
    intro path hpath r hr
    obtain ⟨row, hrow, hdecoded⟩ := mem_block hr
    exact hcodec (hsorted path hpath _ hrow) hdecoded
  cases paths with
  | nil =>
    -- No file at all is registered in either order.
    cases paths' with
    | nil => rfl
    | cons primary' others' => cases hprimary
  | cons primary others =>
    cases paths' with
    | nil => cases hprimary
    | cons primary' others' =>
      obtain rfl : primary = primary' := Option.some.inj hprimary
      obtain ⟨hfirst, hrest⟩ := List.forall_mem_cons.1 hblocks
      have hsame := Record.foldl_union_perm (Record.ordered_nil.foldl_union hfirst)
        (hothers.map (block codec rowsOf time)) (List.forall_mem_map.2 hrest) ?_
      · have hsplit : ∀ rest : List String, recordAt codec (primary :: rest) rowsOf time =
            (rest.map (block codec rowsOf time)).flatten.foldl Record.union
              ((block codec rowsOf time primary).foldl Record.union []) := by
          intro rest
          rw [← List.foldl_append]
          rfl
        rw [hsplit, hsplit]
        exact hsame
      · intro b hb b' hb'
        obtain ⟨path, hpath, rfl⟩ := List.mem_map.1 hb
        obtain ⟨path', hpath', rfl⟩ := List.mem_map.1 hb'
        by_cases htwice : Path.fileName path = Path.fileName path' ∧ rowsOf path = rowsOf path'
        · refine .inl ?_
          unfold block
          rw [htwice.1, htwice.2]
        · refine .inr ?_
          intro r hr r' hr'
          obtain ⟨row, hrow, hdecoded⟩ := mem_block hr
          obtain ⟨row', hrow', hdecoded'⟩ := mem_block hr'
          exact hagree path hpath path' hpath' htwice time row row' hrow hrow' r r' hdecoded
            hdecoded'

/-! ## §3. The stream, in any order. -/

/-- Opened and not read from, the files have the times of the primary one. -/
theorem primaryTimes_eq_of_fresh {paths : List String} {ss : List Source}
    (h : ∀ path ∈ paths, Holds t path (rowsOf path)) (hfresh : Fresh rowsOf paths ss) :
    primaryTimes ss = (paths.head?.elim [] rowsOf).map (·.1) := by
  cases hfresh with
  | nil => rfl
  | cons first rest =>
    exact primaryTimes_of_fresh (h _ List.mem_cons_self) (.cons first rest)

/-- **The stream of well-formed files whose rows are taken**: the records of the
maxima of the times of the primary one, up to the first with nothing in it. -/
theorem results_of_taken (hlenient : m.strictness = .lenient)
    (hfiles : ∀ path ∈ m.paths, Holds t path (rowsOf path))
    (htakes : ∀ path ∈ m.paths, ∀ p ∈ rowsOf path,
      ∃ r, codec.ofRow (Path.fileName path) p.2 = .ok r) (n : Nat) :
    (((m.connect t).state.after codec n).next codec).result =
      .ok ((((strictMaxima ((m.paths.head?.elim [] rowsOf).map (·.1))).map
        (recordAt codec m.paths rowsOf)).takeWhile (!·.isEmpty))[n]?) := by
  obtain ⟨-, hstrictness, hfresh, -⟩ := m.connect_of_holds hfiles
  have htimes : (m.connect t).state.times = _ := primaryTimes_eq_of_fresh hfiles hfresh
  have hdue : ∀ time, Record.unionAll ((m.connect t).state.due codec time) =
      recordAt codec m.paths rowsOf time :=
    fun time => congrArg Record.unionAll (due_of_fresh codec time hfiles hfresh)
  rw [results_of_smooth n (hstrictness.trans hlenient) (smooth_of_fresh hfiles htakes hfresh)
    (ready_of_holds codec hfiles), stream, htimes]
  simp only [hdue]

/-- After a failure to connect no call comes to anything. -/
theorem results_of_failed (codec : Codec) (h : (m.connect t).result ≠ .ok ()) (n : Nat) :
    (((m.connect t).state.after codec n).next codec).result = .ok none := by
  rw [connect_of_failed h, after_of_kept rfl]
  rfl

/-- Lists with the same first element and the others permuted are permuted. -/
theorem perm_of_perm_tail {α : Type} {xs ys : List α} (hhead : xs.head? = ys.head?)
    (htail : xs.tail.Perm ys.tail) : xs.Perm ys := by
  cases xs with
  | nil =>
    cases ys with
    | nil => exact .nil
    | cons y rest => cases hhead
  | cons x rest =>
    cases ys with
    | nil => cases hhead
    | cons y rest' =>
      obtain rfl : x = y := Option.some.inj hhead
      exact htail.cons x

/-- The same files connect in any order of those after the first. -/
theorem connect_ok_iff_of_perm (hprimary : m.paths.head? = m'.paths.head?)
    (hothers : m.paths.tail.Perm m'.paths.tail) :
    (m.connect t).result = .ok () ↔ (m'.connect t).result = .ok () := by
  rw [connect_ok_iff, connect_ok_iff, StartsInTime, StartsInTime, hprimary]
  simp only [(perm_of_perm_tail hprimary hothers).mem_iff]

/-- **The order of the files after the first does not matter** for data that are
not at odds.  Two lenient merges with the same primary file and the same other
files in any order, each of them maybe registered more than once; all files
parse, and the codec takes their rows.  If no two different files after the first are at
odds about a time, the two merges connect or fail to connect together, and then
each call of one comes to the same as that of the other. -/
theorem merged_any_order (hlenient : m.strictness = .lenient)
    (hlenient' : m'.strictness = .lenient) (hprimary : m.paths.head? = m'.paths.head?)
    (hothers : m.paths.tail.Perm m'.paths.tail)
    (hfiles : ∀ path ∈ m.paths, Parses t path (rowsOf path))
    (hcodec : codec.Ordered)
    (htakes : ∀ path ∈ m.paths, ∀ p ∈ rowsOf path,
      ∃ r, codec.ofRow (Path.fileName path) p.2 = .ok r)
    (hagree : ∀ path ∈ m.paths.tail, ∀ path' ∈ m.paths.tail,
      ¬ (Path.fileName path = Path.fileName path' ∧ rowsOf path = rowsOf path') →
        Agree codec rowsOf path path') :
    ((m.connect t).result = .ok () ↔ (m'.connect t).result = .ok ()) ∧
    ∀ n, (((m.connect t).state.after codec n).next codec).result =
      (((m'.connect t).state.after codec n).next codec).result := by
  have hperm := perm_of_perm_tail hprimary hothers
  have hconnect := connect_ok_iff_of_perm (t := t) hprimary hothers
  refine ⟨hconnect, ?_⟩
  intro n
  by_cases hok : (m.connect t).result = .ok ()
  · have hholds : ∀ path ∈ m.paths, Holds t path (rowsOf path) :=
      fun path hpath => (hfiles path hpath).holds ((connect_ok_iff.1 hok).1 path hpath)
    rw [results_of_taken hlenient hholds htakes,
      results_of_taken hlenient' (fun path hpath => hholds path (hperm.mem_iff.2 hpath))
        (fun path hpath => htakes path (hperm.mem_iff.2 hpath)), hprimary]
    -- The times are those of the primary file, and each time has one record.
    congr 3
    apply List.map_congr_left
    intro time _
    exact recordAt_perm time hprimary hothers hcodec
      (fun path hpath => (hfiles path hpath).sorted) hagree
  · rw [results_of_failed codec hok, results_of_failed codec (mt hconnect.2 hok)]

/-! ## §4. Three files, one of them registered twice. -/

/-- A primary file and two others: `a.csv` is at odds with itself about `y`, and
`b.csv` with the primary file about `x`. -/
def threeFiles : FileTree :=
  ⟨[(["p.csv"], .file (Text.encode
      "timestamp,sensor,target,socket,cpu,x\n1,s,t,0,0,1\n2,s,t,0,0,5\n")),
    (["a.csv"], .file (Text.encode
      "timestamp,sensor,target,socket,cpu,y\n1,s,t,0,0,2\n1,s,t,0,0,3\n")),
    (["b.csv"], .file (Text.encode
      "timestamp,sensor,target,socket,cpu,x\n1,s,t,0,0,4\n"))]⟩

def threeFilesCells (path : String) : List (Int × String) :=
  if path = "p.csv" then [(1, "1"), (2, "5")]
  else if path = "a.csv" then [(1, "2"), (1, "3")]
  else [(1, "4")]

def threeFilesRows (path : String) : List (Int × Row) :=
  (threeFilesCells path).map fun p =>
    (p.1, Row.ofCells (Columns.header [if path = "a.csv" then "y" else "x"])
      [Fault.millis p.1, "s", "t", "0", "0", p.2])

def addedInOrder (paths : List String) : Merge := paths.foldl Merge.add (new .lenient)

set_option maxRecDepth 1000 in
theorem parses_threeFiles : ∀ path ∈ ["p.csv", "a.csv", "b.csv", "a.csv"],
    Parses threeFiles path (threeFilesRows path) := by
  intro path hpath
  have hcases : path = "p.csv" ∨ path = "a.csv" ∨ path = "b.csv" := by
    simp only [List.mem_cons, List.not_mem_nil, or_false] at hpath
    rcases hpath with h | h | h | h
    · exact .inl h
    · exact .inr (.inl h)
    · exact .inr (.inr h)
    · exact .inr (.inl h)
  rcases hcases with rfl | rfl | rfl
  · refine ⟨⟨_, _, [["1", "s", "t", "0", "0", "1"], ["2", "s", "t", "0", "0", "5"]],
      rfl, rfl, ?_⟩, ?_⟩
    · decide +kernel
    · decide +kernel
  · refine ⟨⟨_, _, [["1", "s", "t", "0", "0", "2"], ["1", "s", "t", "0", "0", "3"]],
      rfl, rfl, ?_⟩, ?_⟩
    · decide +kernel
    · decide +kernel
  · refine ⟨⟨_, _, [["1", "s", "t", "0", "0", "4"]], rfl, rfl, ?_⟩, ?_⟩
    · decide +kernel
    · decide +kernel

/-- The two files after the first are not at odds about any time. -/
theorem agree_threeFiles : ∀ path ∈ ["a.csv", "b.csv", "a.csv"],
    ∀ path' ∈ ["a.csv", "b.csv", "a.csv"],
      ¬ (Path.fileName path = Path.fileName path' ∧ threeFilesRows path = threeFilesRows path') →
        Agree Codec.power threeFilesRows path path' := by
  have hflat : ∀ path ∈ ["a.csv", "b.csv", "a.csv"], ∀ path' ∈ ["a.csv", "b.csv", "a.csv"],
      path ≠ path' → ∀ p ∈ threeFilesRows path, ∀ p' ∈ threeFilesRows path',
        ∀ r ∈ (Codec.power.ofRow (Path.fileName path) p.2).toOption,
          ∀ r' ∈ (Codec.power.ofRow (Path.fileName path') p'.2).toOption,
            (∀ x ∈ r, x.2.map? = none) ∧ ∀ x ∈ r, ∀ y ∈ r', x.1 = y.1 → x.2 = y.2 := by
    decide +kernel
  intro path hpath path' hpath' hother time row row' hrow hrow' r r' hr hr'
  have hne : path ≠ path' := fun heq => hother ⟨by rw [heq], by rw [heq]⟩
  obtain ⟨hscalars, hsame⟩ := hflat path hpath path' hpath' hne _ hrow _ hrow' r
    (by rw [hr]; rfl) r' (by rw [hr']; rfl)
  exact Record.compatible_of_scalars hscalars hsame

/-- The files after the first in two orders, one of them registered twice: in
both of them `y` is what `a.csv` says last, and `x` what `b.csv` says after the
primary file. -/
theorem merged_any_order_threeFiles :
    let m := addedInOrder ["p.csv", "a.csv", "b.csv", "a.csv"]
    let m' := addedInOrder ["p.csv", "b.csv", "a.csv", "a.csv"]
    m.paths ≠ m'.paths ∧ (m.connect threeFiles).result = .ok () ∧
    (((m.connect threeFiles).state.after .power 0).next .power).result =
      .ok (some [("cpu", .text "0"), ("sensor", .text "s"), ("socket", .text "0"),
        ("target", .text "t"), ("timestamp", .int 1), ("x", .int 4), ("y", .int 3)]) ∧
    ((m.connect threeFiles).result = .ok () ↔ (m'.connect threeFiles).result = .ok ()) ∧
    ∀ n, (((m.connect threeFiles).state.after .power n).next .power).result =
      (((m'.connect threeFiles).state.after .power n).next .power).result := by
  intro m m'
  have hpaths : m.paths = ["p.csv", "a.csv", "b.csv", "a.csv"] := rfl
  have hpaths' : m'.paths = ["p.csv", "b.csv", "a.csv", "a.csv"] := rfl
  have htakes : ∀ path ∈ m.paths, ∀ p ∈ threeFilesRows path,
      ∃ r, Codec.power.ofRow (Path.fileName path) p.2 = .ok r := by
    intro path hpath p hp
    obtain ⟨r, hr, -⟩ := Codec.decodes_power
      ((parses_threeFiles path (hpaths ▸ hpath)).times p hp) (Path.fileName path)
    exact ⟨r, hr⟩
  have hothers : m.paths.tail.Perm m'.paths.tail := by decide
  obtain ⟨hconnect, hresults⟩ := @merged_any_order threeFiles threeFilesRows .power m m' rfl rfl
    rfl hothers parses_threeFiles Codec.ordered_power htakes agree_threeFiles
  refine ⟨by decide, eq_ok_of_toOption (by decide +kernel), eq_ok_of_toOption (by decide +kernel),
    hconnect, hresults⟩

end Merge

end ReportStore

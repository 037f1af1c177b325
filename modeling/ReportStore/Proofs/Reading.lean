/-
  ReportStore.Proofs.Reading
  ──────────────────────────
  **WHAT IS READ FROM A FILE, CALL BY CALL.**

  A file is read through a feed: it is opened, and its rows are taken one by
  one until none is left.  The n-th call gives the n-th row, and every call
  past the last row gives none.  A file can be read in this way iff it is a
  table without a fault, and the rows are then those of the table:

      the calls give `rows`  ↔  rows = the cells of the table, under its header
-/
import ReportStore.Proofs.Merge.Files

namespace ReportStore

namespace Feed

/-! ## §1. The calls of a feed. -/

/-- The feed after some calls. -/
def after (f : Feed) : Nat → Feed
  | 0 => f
  | n + 1 => f.advance.2.after n

/-- Every call succeeds: the rows come in order, and then none for ever. -/
def Gives (f : Feed) (rows : List Row) : Prop := ∀ n, (f.after n).advance.1 = .ok rows[n]?

theorem gives_iff_tail {f : Feed} {rows : List Row} :
    f.Gives rows ↔ f.advance.1 = .ok rows[0]? ∧ f.advance.2.Gives rows.tail := by
  constructor
  · intro h
    refine ⟨h 0, ?_⟩
    intro n
    rw [List.getElem?_tail]
    exact h (n + 1)
  · rintro ⟨hfirst, hrest⟩ n
    cases n with
    | zero => exact hfirst
    | succ n =>
      rw [← List.getElem?_tail]
      exact hrest n

/-- A feed with nothing held and nothing left gives none for ever. -/
theorem gives_nil {f : Feed} (hheld : f.held = none) (hrest : f.rest = []) : f.Gives [] := by
  intro n
  rw [List.getElem?_nil]
  induction n generalizing f with
  | zero =>
    show f.advance.1 = .ok none
    simp only [advance, hrest, hheld]
  | succ n ih =>
    show (f.advance.2.after n).advance.1 = .ok none
    apply ih
    · simp only [advance, hrest]
    · simp only [advance, hrest]

theorem gives_of_rest : ∀ {later : List Row} {f : Feed} {row : Row}, f.held = some row →
    f.rest = later.map .ok → f.Gives (row :: later) := by
  intro later
  induction later with
  | nil =>
    intro f row hheld hrest
    rw [gives_iff_tail]
    simp only [List.map_nil] at hrest
    refine ⟨by simp only [advance, hrest, hheld, List.getElem?_cons_zero], ?_⟩
    apply gives_nil
    · simp only [advance, hrest]
    · simp only [advance, hrest]
  | cons next later ih =>
    intro f row hheld hrest
    rw [List.map_cons] at hrest
    rw [gives_iff_tail]
    refine ⟨by simp only [advance, hrest, hheld, List.getElem?_cons_zero], ?_⟩
    apply ih
    · simp only [advance, hrest]
    · simp only [advance, hrest]

theorem rest_of_gives : ∀ {rest : List (Except Csv.RowFault Row)} {f : Feed} {rows : List Row},
    f.rest = rest → f.Gives rows →
      (f.held = none ∧ rest = [] ∧ rows = []) ∨
      ∃ row later, f.held = some row ∧ rest = later.map .ok ∧ rows = row :: later := by
  intro rest
  induction rest with
  | nil =>
    intro f rows hrest h
    rw [gives_iff_tail] at h
    obtain ⟨hfirst, htail⟩ := h
    have hnext := htail 0
    simp only [after, advance, hrest, Except.ok.injEq] at hfirst hnext
    -- The call after the last row finds none.
    have hnil : rows.tail = [] := by
      rwa [eq_comm, ← List.head?_eq_getElem?, List.head?_eq_none_iff] at hnext
    cases rows with
    | nil => exact .inl ⟨hfirst, rfl, rfl⟩
    | cons row later =>
      rw [List.tail_cons] at hnil
      exact .inr ⟨row, [], hfirst, rfl, by rw [hnil]⟩
  | cons x rest ih =>
    intro f rows hrest h
    rw [gives_iff_tail] at h
    obtain ⟨hfirst, htail⟩ := h
    cases x with
    | error e => simp only [advance, hrest, reduceCtorEq] at hfirst
    | ok next =>
      simp only [advance, hrest, Except.ok.injEq] at hfirst
      have hheld : f.advance.2.held = some next := by simp only [advance, hrest]
      have hleft : f.advance.2.rest = rest := by simp only [advance, hrest]
      rcases ih hleft htail with ⟨hnone, -, -⟩ | ⟨row, later, hsome, hlater, hrows⟩
      · rw [hheld] at hnone
        cases hnone
      · rw [hheld] at hsome
        injection hsome with hsome
        subst hsome
        cases rows with
        | nil => cases hrows
        | cons row rows =>
          rw [List.tail_cons] at hrows
          exact .inr ⟨row, rows, hfirst, by rw [hlater, hrows]; rfl, rfl⟩

/-! ## §2. The rows of the bytes of a file. -/

theorem rowsOf_eq_ok {header : List String} : ∀ {rs : List (Except Csv.RowFault (List String))}
    {rows : List Row}, rowsOf header rs = rows.map .ok →
      ∃ cells : List (List String), rs = cells.map .ok ∧ rows = cells.map (Row.ofCells header) := by
  intro rs
  induction rs with
  | nil =>
    intro rows h
    exact ⟨[], rfl, List.map_eq_nil_iff.1 h.symm⟩
  | cons r rs ih =>
    intro rows h
    obtain ⟨row, later, rfl, hrow, hlater⟩ := List.map_eq_cons_iff.1 h.symm
    cases r with
    | error e => cases hrow
    | ok cells =>
      injection hrow with hrow
      obtain ⟨css, rfl, rfl⟩ := ih hlater.symm
      exact ⟨cells :: css, rfl, by rw [hrow]; rfl⟩

/-- **Bytes that can be read to their end** are a table without a fault. -/
theorem ofBytes_gives_iff (path : String) {bytes : Bytes} {header : List String}
    {rows : List Row} :
    (∃ f, Feed.ofBytes path bytes = .ok f ∧ f.header = header ∧ f.Gives rows) ↔
      ∃ cells : List (List String), Csv.Table.ofBytes bytes = ⟨.ok header, cells.map .ok⟩ ∧
        rows = cells.map (Row.ofCells header) := by
  constructor
  · rintro ⟨f, hf, rfl, hgives⟩
    unfold Feed.ofBytes at hf
    rcases htable : Csv.Table.ofBytes bytes with ⟨e | header, rs⟩
    · simp only [htable, reduceCtorEq] at hf
    · simp only [htable] at hf
      -- The table has the rows that the feed gives.
      suffices hrows : rowsOf header rs = rows.map .ok ∧ f.header = header by
        obtain ⟨cells, rfl, hcells⟩ := rowsOf_eq_ok hrows.1
        rw [hrows.2]
        exact ⟨cells, rfl, hcells⟩
      split at hf
      · next hrs =>
        injection hf with hf
        subst hf
        rcases rest_of_gives rfl hgives with ⟨-, -, rfl⟩ | ⟨row, later, hheld, -, -⟩
        · exact ⟨hrs, rfl⟩
        · cases hheld
      · next row rest hrs =>
        injection hf with hf
        subst hf
        rcases rest_of_gives rfl hgives with ⟨hheld, -, -⟩ | ⟨row', later, hheld, hrest, rfl⟩
        · cases hheld
        · injection hheld with hheld
          refine ⟨?_, rfl⟩
          rw [hrs, hheld, List.map_cons, ← hrest]
      · cases hf
  · rintro ⟨cells, htable, rfl⟩
    unfold Feed.ofBytes
    simp only [htable, rowsOf_ok]
    cases hrows : cells.map (Row.ofCells header) with
    | nil => exact ⟨_, rfl, rfl, gives_nil rfl rfl⟩
    | cons row rest => exact ⟨_, rfl, rfl, gives_of_rest rfl rfl⟩

end Feed

/-! ## §3. The rows of a file of a tree. -/

/-- The file at a path can be opened and read to its end: it has this header
and gives these rows. -/
def Yields (t : FileTree) (path : String) (header : List String) (rows : List Row) : Prop :=
  ∃ f, Feed.openAt t path = .ok f ∧ f.header = header ∧ f.Gives rows

/-- **A file that can be read to its end** is a table without a fault. -/
theorem yields_iff {t : FileTree} {path : String} {header : List String} {rows : List Row} :
    Yields t path header rows ↔
      ∃ (bytes : Bytes) (cells : List (List String)), t.read path = .ok bytes ∧
        Csv.Table.ofBytes bytes = ⟨.ok header, cells.map .ok⟩ ∧
        rows = cells.map (Row.ofCells header) := by
  constructor
  · rintro ⟨f, hf, hheader, hgives⟩
    unfold Feed.openAt at hf
    cases hopen : t.openAt path with
    | error e => simp only [hopen, reduceCtorEq] at hf
    | ok node =>
      cases hcontents : FileTree.contents node with
      | error e => simp only [hopen, hcontents, reduceCtorEq] at hf
      | ok bytes =>
        simp only [hopen, hcontents] at hf
        obtain ⟨cells, htable, hrows⟩ := (Feed.ofBytes_gives_iff path).1 ⟨f, hf, hheader, hgives⟩
        refine ⟨bytes, cells, ?_, htable, hrows⟩
        simp only [FileTree.read, hopen, hcontents]
  · rintro ⟨bytes, cells, hread, htable, hrows⟩
    obtain ⟨f, hf, hheader, hgives⟩ := (Feed.ofBytes_gives_iff path).2 ⟨cells, htable, hrows⟩
    refine ⟨f, ?_, hheader, hgives⟩
    simp only [Feed.openAt, openAt_of_read hread, FileTree.contents, hf]

end ReportStore

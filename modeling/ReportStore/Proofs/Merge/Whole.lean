/-
  ReportStore.Proofs.Merge.Whole
  ──────────────────────────────
  **THE ROWS OF OPEN FILES HAVE THE COMMON COLUMNS.**

  A file is opened only if its header has the common columns, or if it has
  no record at all, and a record of a table is a row only if it has a cell
  for every column.  So each row that an open file still holds has its
  columns in order and all common ones among them, and this stays so
  whatever is asked of the merge.
-/
import ReportStore.Proofs.Columns
import ReportStore.Proofs.Csv.Table
import ReportStore.Proofs.Merge.Requests

namespace ReportStore

/-! ## §1. Rows of a file that was opened. -/

/-- A row with its columns in order, all common ones among them. -/
structure Row.Whole (row : Row) : Prop where
  sorted : Dict.Sorted row
  common : ∀ column ∈ Columns.common, ∃ cell, Dict.get? row column = some cell

/-- A feed of such rows. -/
def Feed.Whole (f : Feed) : Prop := ∀ row ∈ f.rows, row.Whole

theorem Feed.mem_rowsOf {header : List String} {rows : List (Except Csv.RowFault (List String))}
    {row : Row} (h : .ok row ∈ rowsOf header rows) :
    ∃ cells, .ok cells ∈ rows ∧ row = Row.ofCells header cells := by
  obtain ⟨x, hx, heq⟩ := List.mem_map.1 h
  cases x with
  | error e => cases heq
  | ok cells =>
    injection heq with heq
    exact ⟨cells, hx, heq.symm⟩

/-- The rows of a feed are the rows of the table it was opened on. -/
theorem Feed.mem_rows_ofBytes {path : String} {bytes : Bytes} {f : Feed} {row : Row}
    (h : ofBytes path bytes = .ok f) (hrow : row ∈ f.rows) :
    (Csv.Table.ofBytes bytes).header = .ok f.header ∧
      ∃ cells, .ok cells ∈ (Csv.Table.ofBytes bytes).rows ∧ row = Row.ofCells f.header cells := by
  unfold ofBytes at h
  cases hheader : (Csv.Table.ofBytes bytes).header with
  | error e => simp only [hheader, reduceCtorEq] at h
  | ok header =>
    simp only [hheader] at h
    rcases hrows : rowsOf header (Csv.Table.ofBytes bytes).rows with _ | ⟨e | held, rest⟩
    · simp only [hrows, Except.ok.injEq] at h
      subst h
      cases hrow
    · simp only [hrows, reduceCtorEq] at h
    · simp only [hrows, Except.ok.injEq] at h
      subst h
      refine ⟨rfl, mem_rowsOf ?_⟩
      rw [hrows]
      have hrow' : row ∈ held :: rest.filterMap Except.toOption := hrow
      rcases List.mem_cons.1 hrow' with rfl | hrow'
      · exact List.mem_cons_self
      · obtain ⟨x, hx, hsome⟩ := List.mem_filterMap.1 hrow'
        exact List.mem_cons_of_mem _ (eq_ok_of_toOption hsome ▸ hx)

/-- Passing rows keeps the others. -/
theorem SourcesPassed.whole {codec : Codec} {w : Int} {ss ss' : List Source}
    (h : SourcesPassed codec w ss ss') (hss : ∀ s ∈ ss, ∀ f ∈ s.feed, f.Whole) :
    ∀ s ∈ ss', ∀ f ∈ s.feed, f.Whole := by
  refine h.keeps (P := fun _ f => f.Whole) ?_ hss
  intro path f f' taken hpassed hf row hrow
  obtain ⟨before, hrows, -⟩ := hpassed.rows
  exact hf row (hrows ▸ List.mem_append_right _ hrow)

namespace Merge

variable {t : FileTree} {path : String} {f : Feed} {m : Merge}

theorem whole_openSource (h : openSource t path = .ok f) : f.Whole := by
  obtain ⟨bytes, hread, hfeed⟩ := ofBytes_of_openSource h
  intro row hrow
  obtain ⟨hheader, cells, hcells, rfl⟩ := Feed.mem_rows_ofBytes hfeed hrow
  obtain ⟨hlength, hne⟩ := Csv.length_of_mem_rows hheader hcells
  refine ⟨Row.sorted_ofCells f.header cells, ?_⟩
  intro column hcolumn
  -- A file with a row has a header, and it was opened since that has the column.
  have hcommon : Columns.missingCommon f.header = [] := by
    have hlast := openSource_of_openAt ((openAt_eq_ofBytes hread).trans hfeed)
    rw [h] at hlast
    split at hlast
    · next hcommon => exact hcommon.resolve_left hne
    · cases hlast
  exact Row.exists_get?_ofCells hlength (missingCommon_eq_nil_iff.1 hcommon column hcolumn)

/-! ## §2. Whatever is asked of a merge. -/

/-- All rows that the open files hold have the common columns. -/
def Whole (m : Merge) : Prop := ∀ s ∈ m.sources, ∀ f ∈ s.feed, f.Whole

theorem whole_openAll : ∀ {paths : List String}, ∀ s ∈ (openAll t paths).state, ∀ f ∈ s.feed,
    f.Whole := by
  intro paths
  induction paths with
  | nil => simp [openAll]
  | cons path rest ih =>
    unfold openAll
    cases hf : openSource t path with
    | error e => simp
    | ok f =>
      refine List.forall_mem_cons.2 ⟨?_, ih⟩
      intro g hg
      injection hg with hg
      exact hg ▸ whole_openSource hf

theorem Whole.next (h : m.Whole) (codec : Codec) : (m.next codec).state.Whole := by
  by_cases hw : ∃ w, m.phase = .connected (some w)
  · obtain ⟨w, hphase⟩ := hw
    unfold Whole
    rw [(sources_next codec hphase).1]
    exact (sweep_passed codec m.strictness w m.sources []).whole h
  · unfold Whole
    rw [(next_idle codec (not_exists.1 hw)).2.1]
    exact h

theorem whole_disconnect (m : Merge) : m.disconnect.Whole := by
  intro s hs f hf
  obtain ⟨source, -, rfl⟩ := List.mem_map.1 hs
  cases hf

/-- **The rows of open files have the common columns**, whatever was asked of
the merge. -/
theorem Whole.ask (h : m.Whole) (q : Request) : (m.ask q).Whole := by
  cases q with
  | add path =>
    intro s hs f hf
    rcases List.mem_append.1 hs with hs | hs
    · exact h s hs f hf
    · rw [List.mem_singleton.1 hs] at hf
      cases hf
  | clear => exact fun s hs => nomatch hs
  | disconnect => exact whole_disconnect m
  | next codec => exact h.next codec
  | connect t =>
    show (m.connect t).state.Whole
    rcases connect_cases t m with ⟨e, -, -, hs⟩ | ⟨e, -, -, -, hs⟩ | ⟨w, -, -, -, hs⟩
    · exact hs ▸ whole_disconnect m
    · exact hs ▸ whole_disconnect m
    · rw [hs]
      exact whole_openAll

end Merge

end ReportStore

/-
  ReportStore.Proofs.Merge.PrimaryRows
  ────────────────────────────────────
  **NO MORE RECORDS THAN THE PRIMARY FILE HAS ROWS.**

  Only the primary file moves the watermark, so whatever is read after
  connecting, and whichever files are registered meanwhile, every watermark
  is a time of the primary file as it was opened.  Times are handed out in
  strictly ascending order, hence each at most once:

      records handed out  ≤  times of the primary file  ≤  its rows
-/
import Mathlib.Data.List.Perm.Subperm
import ReportStore.Proofs.Merge.Ascending
import ReportStore.Proofs.Merge.Whole

namespace ReportStore

/-! ## §1. The rows of a file. -/

/-- How many rows a file has; none if it cannot be read. -/
def FileTree.rowCount (t : FileTree) (path : String) : Nat :=
  match t.read path with
  | .error _ => 0
  | .ok bytes => ((Csv.Table.ofBytes bytes).rows.filterMap Except.toOption).length

/-- How many rows the first of some files has. -/
def primaryRowCount (t : FileTree) : List String → Nat
  | [] => 0
  | primary :: _ => t.rowCount primary

/-- A feed that was opened holds the rows of its file. -/
theorem Feed.length_rows_ofBytes {path : String} {bytes : Bytes} {f : Feed}
    (h : ofBytes path bytes = .ok f) :
    f.rows.length = ((Csv.Table.ofBytes bytes).rows.filterMap Except.toOption).length := by
  have hcount : ∀ (header : List String) (rows : List (Except Csv.RowFault (List String))),
      ((rowsOf header rows).filterMap Except.toOption).length =
        (rows.filterMap Except.toOption).length := by
    intro header rows
    induction rows with
    | nil => rfl
    | cons row rest ih =>
      cases row with
      | error e => exact ih
      | ok cells => exact congrArg (· + 1) ih
  unfold ofBytes at h
  cases hheader : (Csv.Table.ofBytes bytes).header with
  | error e => simp only [hheader, reduceCtorEq] at h
  | ok header =>
    rw [← hcount header]
    simp only [hheader] at h
    rcases hrows : rowsOf header (Csv.Table.ofBytes bytes).rows with _ | ⟨e | held, rest⟩
    · simp only [hrows, Except.ok.injEq] at h
      subst h
      rfl
    · simp only [hrows, reduceCtorEq] at h
    · simp only [hrows, Except.ok.injEq] at h
      subst h
      rfl

theorem length_inTime_le (rows : List Row) : (inTime rows).length ≤ rows.length := by
  induction rows with
  | nil => exact Nat.le_refl _
  | cons row rest ih =>
    unfold inTime
    cases row.time? with
    | none => exact Nat.zero_le _
    | some t => exact Nat.succ_le_succ ih

namespace Merge

variable {codec : Codec} {t : FileTree} {m : Merge} {times : List Int}

/-- The times of the primary file, when all files are opened, are no more
than its rows. -/
theorem length_times_openAll {paths : List String} (h : (openAll t paths).result = .ok ()) :
    (primaryTimes (openAll t paths).state).length ≤ primaryRowCount t paths := by
  cases paths with
  | nil => exact Nat.le_refl 0
  | cons primary rest =>
    unfold openAll at h ⊢
    cases hopen : openSource t primary with
    | error e =>
      simp only [hopen] at h
      cases h
    | ok f =>
      obtain ⟨bytes, hread, hfeed⟩ := ofBytes_of_openSource hopen
      have hrows : f.rows.length = t.rowCount primary := by
        unfold FileTree.rowCount
        rw [Feed.length_rows_ofBytes hfeed, hread]
      show (f.timed.map (·.1)).length ≤ t.rowCount primary
      rw [List.length_map, ← hrows]
      exact length_inTime_le f.rows

/-! ## §2. Within the times of the primary file. -/

/-- The watermark and every time of the primary file that is left are among
some times. -/
structure Within (times : List Int) (m : Merge) : Prop where
  watermark : ∀ w, m.phase = .connected (some w) → w ∈ times
  left : m.times ⊆ times

theorem Within.next (h : Within times m) (codec : Codec) : Within times (m.next codec).state := by
  by_cases hw : ∃ w, m.phase = .connected (some w)
  · obtain ⟨w, hphase⟩ := hw
    have hpassed : SourcesPassed codec w m.sources (m.next codec).state.sources :=
      next_passed hphase
    obtain ⟨before, hsplit, -⟩ := hpassed.primaryTimes_eq
    have hleft : (m.next codec).state.times ⊆ times := by
      intro time htime
      refine h.left ?_
      show time ∈ primaryTimes m.sources
      rw [hsplit]
      exact List.mem_append_right _ htime
    refine ⟨?_, hleft⟩
    intro v hv
    cases hresult : (m.next codec).result with
    | error e =>
      rw [(next_error hphase hresult).1] at hv
      exact h.watermark v hv
    | ok handed =>
      cases handed with
      | none =>
        rw [(next_none hphase hresult).1] at hv
        cases hv
      | some r =>
        -- The watermark moves to a time that is left, or stays.
        rw [(next_some hphase hresult).2.2.2.2.1] at hv
        injection hv with hv
        injection hv with hv
        cases hhead : (m.next codec).state.times.head? with
        | none =>
          rw [hhead] at hv
          exact h.watermark v (hv ▸ hphase)
        | some time =>
          rw [hhead] at hv
          obtain rfl : time = v := hv
          exact hleft (List.mem_of_mem_head? hhead)
  · obtain ⟨-, hsources, -, hidle⟩ := next_idle codec (not_exists.1 hw)
    refine ⟨fun w hphase => absurd hphase (hidle w), ?_⟩
    unfold Merge.times
    rw [hsources]
    exact h.left

theorem Within.add (h : Within times m) (path : String) : Within times (m.add path) := by
  refine ⟨h.watermark, ?_⟩
  have hsame : (m.add path).times = m.times := by
    show primaryTimes (m.sources ++ [⟨path, none⟩]) = primaryTimes m.sources
    rcases m.sources with _ | ⟨⟨path, _ | f⟩, rest⟩
    · rfl
    · rfl
    · rfl
  rw [hsame]
  exact h.left

theorem Within.ask (h : Within times m) {q : Request} (hq : q.isReading = true) :
    Within times (m.ask q) := by
  cases q with
  | clear | connect _ | disconnect => cases hq
  | add path => exact h.add path
  | next codec => exact h.next codec

/-- What is handed out while it is read stands within the times. -/
theorem Within.handedTimes_subset {qs : List Request} : ∀ {m : Merge}, Within times m →
    (∀ q ∈ qs, q.isReading = true) → m.handedTimes qs ⊆ times := by
  induction qs with
  | nil => exact fun _ _ => List.nil_subset _
  | cons q rest ih =>
    intro m h hqs
    obtain ⟨hq, hrest⟩ := List.forall_mem_cons.1 hqs
    rw [handedTimes_cons]
    refine List.append_subset.2 ⟨?_, ih (h.ask hq) hrest⟩
    intro time htime
    obtain ⟨codec, r, -, hphase, -⟩ := handedTime_eq_some (Option.mem_toList.1 htime)
    exact h.watermark time hphase

/-- **Each time is handed out at most once**, so no more are than there are. -/
theorem Within.length_handedTimes_le (h : Within times m) {qs : List Request}
    (hqs : ∀ q ∈ qs, q.isReading = true) : (m.handedTimes qs).length ≤ times.length := by
  have hnodup : (m.handedTimes qs).Nodup :=
    (pairwise_handedTimes hqs).imp fun hlt => Int.ne_of_lt hlt
  exact (hnodup.subperm (h.handedTimes_subset hqs)).length_le

/-! ## §3. What is read after connecting. -/

/-- A merge that was connected to some files, and only read since. -/
inductive ReadsFrom (codec : Codec) (t : FileTree) : Merge → Prop where
  | connected {m : Merge} (ok : (m.connect t).result = .ok ()) :
      ReadsFrom codec t (m.connect t).state
  /-- A file is registered, but not opened. -/
  | added {m : Merge} (before : ReadsFrom codec t m) (path : String) :
      ReadsFrom codec t (m.add path)
  | read {m : Merge} (before : ReadsFrom codec t m) : ReadsFrom codec t (m.next codec).state

theorem within_connect (t : FileTree) (m : Merge) :
    Within (m.connect t).state.times (m.connect t).state := by
  refine ⟨?_, List.Subset.refl _⟩
  intro w hphase
  exact List.mem_of_mem_head? (phase_connect t m (some w) hphase).symm

/-- **A merge that was connected stays within times of its primary file**, and
these are no more than its rows. -/
theorem ReadsFrom.exists_within (h : ReadsFrom codec t m) :
    ∃ times, Within times m ∧ times.length ≤ primaryRowCount t m.paths := by
  induction h with
  | @connected m ok =>
    refine ⟨_, within_connect t m, ?_⟩
    rw [paths_connect]
    rcases connect_cases t m with ⟨e, -, herror, -⟩ | ⟨e, -, -, herror, -⟩ | ⟨w, hopen, -, -, hs⟩
    · rw [ok] at herror
      cases herror
    · rw [ok] at herror
      cases herror
    · rw [hs]
      exact length_times_openAll hopen
  | @added m _ path ih =>
    obtain ⟨times, hwithin, hle⟩ := ih
    refine ⟨times, hwithin.add path, hle.trans ?_⟩
    -- The primary file stays what it is if there is one.
    have hpaths : (m.add path).paths = m.paths ++ [path] := List.map_append
    rw [hpaths]
    cases m.paths with
    | nil => exact Nat.zero_le _
    | cons primary rest => exact Nat.le_refl _
  | read _ ih =>
    obtain ⟨times, hwithin, hle⟩ := ih
    exact ⟨times, hwithin.next codec, by rwa [paths_next]⟩

end Merge

end ReportStore

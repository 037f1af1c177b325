/-
  ReportStore.Proofs.Saving.PowerReports
  ──────────────────────────────────────
  **POWER REPORTS COME BACK.**

  A power report is one row, and the row comes back as the report in its
  canonical form: the time an integer, the other common fields text, and
  every own field as its cell is read.  Reports saved in turn at times that
  never go back are read again as one record for each time:

      record at T  =  the last-wins union of the forms of the reports at T
-/
import ReportStore.Proofs.Saving.InTurn
import ReportStore.Proofs.Saving.ReadBack
import ReportStore.Proofs.Union

namespace ReportStore

open FileTree Plan

/-! ## §1. The canonical form of a flat report. -/

/-- A flat report as it comes back: a value for every column of its row. -/
def Record.flatForm (r : Record) : Record :=
  Dict.ofPairs ((header r).map fun c => (c, readBack r c))

namespace Record

variable {r : Record}

theorem get?_flatForm (r : Record) (c : String) :
    Dict.get? (flatForm r) c = if c ∈ header r then some (readBack r c) else none :=
  Dict.get?_ofPairs_map (readBack r) (header r) c

theorem isScalar_of_mem_flatForm {p : String × Value} (hp : p ∈ flatForm r) :
    p.2.isScalar = true := by
  have hget := (Dict.mem_iff_get? (Dict.sorted_ofPairs _)).1 hp
  rw [show Dict.ofPairs _ = flatForm r from rfl, get?_flatForm] at hget
  split at hget
  · injection hget with hget
    exact hget ▸ isScalar_readBack r p.1
  · cases hget

/-- An own field of a report comes back as its cell is read. -/
theorem get?_flatForm_of_get? {field : String} {v : Value} (hget : Dict.get? r field = some v)
    (hown : Columns.isCommon field = false) : Dict.get? (flatForm r) field = some v.reread := by
  have hcolumn : field ∈ header r := Columns.mem_header.2 (.inr (Dict.mem_keys_iff.2 ⟨v, hget⟩))
  rw [get?_flatForm, if_pos hcolumn, readBack_of_get? hget hown]

end Record

namespace Codec.Power

/-- The row of a report is the report. -/
theorem toGroups_ok {r : Record} {groups : GroupRows} (h : toGroups r = .ok groups) :
    groups = [(group, [r])] := by
  unfold toGroups at h
  split at h
  · cases h
  · split at h
    · cases h
    · injection h with h
      exact h.symm

/-- **The row of a report comes back as its canonical form.** -/
theorem ofRow_laid {row : Record} (h : Record.Storable row) (fileName : String) :
    Codec.power.ofRow fileName (Record.laid row) = .ok (Record.flatForm row) := by
  show ofRow fileName (Record.laid row) = _
  unfold ofRow
  simp only [commonFields_laid h fun f hf => Columns.isCommon_iff.2 hf, ownFields_laid]
  unfold Record.flatForm Record.header Columns.header Dict.ofPairs
  rw [List.map_append, List.foldl_append]

end Codec.Power

/-! ## §2. Reports saved in turn. -/

variable {t : FileTree} {s : Store} {directory : String} {rs : List Record}

theorem fragments_power {rows : List Record} (h : ∀ row ∈ rows, Record.Storable row)
    (fileName : String) :
    fragments Codec.power fileName (rows.map Record.laid) = rows.map Record.flatForm := by
  unfold fragments
  rw [List.filterMap_map, ← List.filterMap_eq_map]
  apply List.filterMap_congr
  intro row hrow
  rw [Function.comp_apply, Codec.Power.ofRow_laid (h row hrow)]
  rfl

/-- Forms of flat reports are united by binding their fields in order. -/
theorem unionAll_flatForm (rows : List Record) :
    Record.unionAll (rows.map Record.flatForm) = Dict.ofPairs (rows.flatMap Record.flatForm) := by
  rw [Record.unionAll_of_scalars, List.flatMap_def]
  intro form hform p hp
  obtain ⟨r, -, rfl⟩ := List.mem_map.1 hform
  exact Record.isScalar_of_mem_flatForm hp

/-- Of rows at times that do not go back, those of a time are due at it. -/
theorem dueAt_timed {rows : List Record} (h : (Record.times rows).Pairwise (· ≤ ·)) (time : Int) :
    dueAt time (rows.map Record.timed) =
      (rows.filter fun row => decide (Record.time row = time)).map Record.laid := by
  have hsorted : (rows.map Record.timed).Pairwise fun a b => a.1 ≤ b.1 := by
    unfold Record.times at h
    rw [List.pairwise_map] at h ⊢
    exact h
  rw [dueAt_of_sorted hsorted, List.filter_map, List.map_map]
  apply List.map_congr_left
  intro row _
  rw [Function.comp_apply, Record.timed_snd]

theorem SavedInTurn.rowsFor_power (h : SavedInTurn t s directory rs) (hcodec : s.codec = .power)
    {r : Record} (hr : r ∈ rs) : s.codec.rowsFor Codec.Power.group r = [r] := by
  obtain ⟨-, groups, hgroups, -⟩ := h.groups hr
  unfold Codec.rowsFor
  rw [hcodec] at hgroups ⊢
  obtain rfl := Codec.Power.toGroups_ok hgroups
  simp only [hgroups]
  rfl

/-- A path at which no file stands cannot be connected to, and gives nothing. -/
theorem next_of_no_file {path : String} {m : Merge} {codec : Codec} (hpaths : m.paths = [path])
    (hnone : ∀ bytes, t.node? (placeOf path) ≠ some (.file bytes)) (n : Nat) :
    (((m.connect t).state.after codec n).next codec).result = .ok none := by
  have hopen : ∃ e, Feed.openAt t path = .error e := by
    cases hread : t.read path with
    | ok bytes => exact absurd (node?_of_read hread) (hnone bytes)
    | error e =>
      unfold FileTree.read at hread
      unfold Feed.openAt
      cases hnode : t.openAt path with
      | error e => exact ⟨_, rfl⟩
      | ok node =>
        simp only [hnode] at hread ⊢
        rw [hread]
        exact ⟨_, rfl⟩
  obtain ⟨e, he⟩ := hopen
  have hsource : Merge.openSource t path = .error e := by
    unfold Merge.openSource
    simp only [he]
  have hphase : (m.connect t).state.phase = .unconnected := by
    unfold Merge.connect
    simp only [hpaths, Merge.openAll, hsource]
    rfl
  have hafter : (m.connect t).state.after codec n = (m.connect t).state := by
    induction n with
    | zero => rfl
    | succ n ih =>
      show (((m.connect t).state.after codec n).next codec).state = _
      rw [ih]
      simp only [Merge.next, hphase]
  rw [hafter]
  simp only [Merge.next, hphase]

/-- **The stream of flat reports** saved in turn at times that do not go back. -/
theorem SavedInTurn.results_power {m : Merge} (h : SavedInTurn t s directory rs)
    (hcodec : s.codec = .power) (hne : rs ≠ [])
    (hnew : ∀ bytes,
      t.node? (placeOf (fileIn directory Codec.Power.group)) ≠ some (.file bytes))
    (htimes : (Record.times rs).Pairwise (· ≤ ·))
    (hpaths : m.paths = [fileIn directory Codec.Power.group])
    (hlenient : m.strictness = .lenient) :
    (m.connect (s.saveMany t rs).state.1).result = .ok () ∧
    ∀ n, (((m.connect (s.saveMany t rs).state.1).state.after s.codec n).next s.codec).result =
      .ok (((Record.times rs).eraseDups.map fun time =>
        Dict.ofPairs ((rs.filter fun r => decide (Record.time r = time)).flatMap
          Record.flatForm))[n]?) := by
  have hmaps : ∀ r ∈ rs, s.codec.MapsGroups r := fun r _ => hcodec ▸ mapsGroups_power r
  have hrows : rs.flatMap (s.codec.rowsFor Codec.Power.group) = rs := by
    rw [List.flatMap_congr fun r hr => h.rowsFor_power hcodec hr, List.flatMap_singleton']
  have hstorable : ∀ r ∈ rs, Record.Storable r := fun r hr =>
    (h.rowsFor hr (hmaps r hr) (h.rowsFor_power hcodec hr ▸ List.mem_singleton_self r)).2
  have hsome : ∀ group ∈ [Codec.Power.group], ∃ r ∈ rs, s.codec.rowsFor group r ≠ [] := by
    intro group hgroup
    obtain ⟨r, hr⟩ := List.exists_mem_of_ne_nil _ hne
    refine ⟨r, hr, ?_⟩
    rw [List.mem_singleton.1 hgroup, h.rowsFor_power hcodec hr]
    simp
  have hnew' : ∀ group ∈ [Codec.Power.group], ∀ bytes,
      t.node? (placeOf (fileIn directory group)) ≠ some (.file bytes) := by
    intro group hgroup
    rw [List.mem_singleton.1 hgroup]
    exact hnew
  have hdecodes : ∀ fileName row time, row.time? = some time → s.codec.Decodes fileName row := by
    intro fileName row time htime
    rw [hcodec]
    exact Codec.decodes_power htime fileName
  obtain ⟨hconnect, hresults⟩ := h.results hmaps hnew' hsome hdecodes hpaths hlenient
  refine ⟨hconnect, ?_⟩
  intro n
  have hrecord : ∀ time, Record.unionAll ([Codec.Power.group].flatMap fun group =>
      fragments s.codec (Codec.fileOfGroup group)
        (dueAt time ((rs.flatMap (s.codec.rowsFor group)).map Record.timed))) =
      Dict.ofPairs ((rs.filter fun r => decide (Record.time r = time)).flatMap
        Record.flatForm) := by
    intro time
    rw [List.flatMap_singleton, hrows, dueAt_timed htimes, hcodec,
      fragments_power fun r hr => hstorable r (List.mem_of_mem_filter hr), unionAll_flatForm]
  rw [hresults n, List.map_congr_left fun time _ => hrecord time, hrows,
    strictMaxima_of_sorted htimes]

/-- **Power reports survive being saved and replayed.** -/
theorem powerReports_replay {m : Merge} (hcodec : s.codec = .power)
    (h : SavedInTurn t s directory rs)
    (hnew : ∀ bytes,
      t.node? (placeOf (fileIn directory Codec.Power.group)) ≠ some (.file bytes))
    (htimes : (Record.times rs).Pairwise (· ≤ ·))
    (hpaths : m.paths = [fileIn directory Codec.Power.group])
    (hlenient : m.strictness = .lenient) :
    (rs ≠ [] → (m.connect (s.saveMany t rs).state.1).result = .ok ()) ∧
    (∀ n, (((m.connect (s.saveMany t rs).state.1).state.after s.codec n).next s.codec).result =
      .ok (((Record.times rs).eraseDups.map fun time =>
        Dict.ofPairs ((rs.filter fun r => decide (Record.time r = time)).flatMap
          Record.flatForm))[n]?)) ∧
    ∀ r ∈ rs, ∀ field v, Dict.get? r field = some v → Columns.isCommon field = false →
      Dict.get? (Record.flatForm r) field = some v.reread ∧
      (∀ n, v = .int n → v.reread = v) ∧
      (∀ text, v = .text text → ¬ NumberLike text → v.reread = v) ∧
      ∀ x, v = .float x → x.isFinite = true →
        Binary64.ofText? (Layout.cell.text x).toList = some x → v.reread = v := by
  refine ⟨fun hne => (h.results_power hcodec hne hnew htimes hpaths hlenient).1, ?_, ?_⟩
  · intro n
    cases hrs : rs with
    | nil => exact next_of_no_file hpaths hnew n
    | cons r rest =>
      rw [← hrs]
      exact (h.results_power hcodec (by simp [hrs]) hnew htimes hpaths hlenient).2 n
  · intro r _ field v hget hown
    refine ⟨Record.get?_flatForm_of_get? hget hown, ?_, ?_, ?_⟩
    · rintro n rfl
      exact Value.reread_int n
    · rintro text rfl htext
      exact Value.reread_text htext
    · rintro x rfl hfinite hreads
      exact Value.reread_float hfinite hreads

/-- Three reports, the first two at one time. -/
def threeReports : List Record := [
  [("power", .int 5), ("sensor", .text "s"), ("target", .text "t"), ("timestamp", .int 1)],
  [("cpu", .int 0), ("power", .text "high, low"), ("sensor", .text "s"), ("target", .text "t"),
    ("timestamp", .text " 1")],
  [("power", .text "7"), ("sensor", .text "s"), ("target", .text "t"), ("timestamp", .int 2)]]

/-- A merge of the file of the reports. -/
def powerMerge : Merge := (Merge.new .lenient).add "out/s-t/PowerReport.csv"

theorem threeReports_replay :
    SavedInTurn .empty outStore "out/s-t" threeReports ∧
      (∀ bytes, FileTree.empty.node? (placeOf (fileIn "out/s-t" Codec.Power.group)) ≠
        some (.file bytes)) ∧
      (Record.times threeReports).Pairwise (· ≤ ·) ∧
      powerMerge.paths = [fileIn "out/s-t" Codec.Power.group] ∧
      (((powerMerge.connect (outStore.saveMany .empty threeReports).state.1).state.after .power
        0).next .power).result = .ok (some [("cpu", .text "0"), ("power", .text "high, low"),
          ("sensor", .text "s"), ("socket", .text ""), ("target", .text "t"),
          ("timestamp", .int 1)]) ∧
      (((powerMerge.connect (outStore.saveMany .empty threeReports).state.1).state.after .power
        1).next .power).result = .ok (some [("cpu", .text ""), ("power", .int 7),
          ("sensor", .text "s"), ("socket", .text ""), ("target", .text "t"),
          ("timestamp", .int 2)]) ∧
      (((powerMerge.connect (outStore.saveMany .empty threeReports).state.1).state.after .power
        2).next .power).result = .ok none := by
  have hsaved : SavedInTurn .empty outStore "out/s-t" threeReports := by
    refine ⟨by rfl, ?_⟩
    intro r hr
    simp only [threeReports, List.mem_cons, List.not_mem_nil, or_false] at hr
    rcases hr with rfl | rfl | rfl <;> rfl
  have hnew : ∀ bytes, FileTree.empty.node? (placeOf (fileIn "out/s-t" Codec.Power.group)) ≠
      some (.file bytes) := node?_empty _
  have htimes : (Record.times threeReports).Pairwise (· ≤ ·) := by decide +kernel
  have hpaths : powerMerge.paths = [fileIn "out/s-t" Codec.Power.group] := by decide +kernel
  obtain ⟨-, hresults, -⟩ := powerReports_replay rfl hsaved hnew htimes hpaths rfl
  refine ⟨hsaved, hnew, htimes, hpaths, (hresults 0).trans ?_, (hresults 1).trans ?_,
    (hresults 2).trans ?_⟩
  · exact congrArg Except.ok (by decide +kernel)
  · exact congrArg Except.ok (by decide +kernel)
  · exact congrArg Except.ok (by decide +kernel)

end ReportStore

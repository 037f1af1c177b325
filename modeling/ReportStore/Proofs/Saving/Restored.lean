/-
  ReportStore.Proofs.Saving.Restored
  ──────────────────────────────────
  **WHAT IS STORED IS RESTORED.**

  A record that is saved into new files and read again has a scalar wherever
  the saved one had it, as its cell is read:

      path of a scalar v  ──save, replay──▶  the same path, reread v

  The fields that tell a report come back as text, the time as an integer.
  A power report stores all of its fields.  A counter report is its time, its
  sensor, its target and its groups: a field beside them has no column in any
  file, and is not there when the report is read.
-/
import ReportStore.Proofs.Saving.CounterReports
import ReportStore.Proofs.Saving.PowerReports

namespace ReportStore

open FileTree Plan
open Codec.Counters

/-! ## §1. Scalars at paths. -/

/-- What a scalar at a path of a record comes back as: a field by its name, and
what is nested as its cell is read. -/
def Record.restored (r : Record) (path : List String) (v : Value) : Value :=
  match path with
  | [field] => readBack r field
  | _ => v.reread

/-- A record that is read back has the scalars of a saved one, at the paths
below some of its fields. -/
def Record.Restores (stored : String → Prop) (r back : Record) : Prop :=
  ∀ path v, r.at? path = some v → v.isScalar = true → (∀ field ∈ path.head?, stored field) →
    back.at? path = some (r.restored path v)

/-- The fields that a codec stores: all those of a power report, and what makes
a counter report. -/
def Codec.Stores (codec : Codec) (field : String) : Prop :=
  codec = .power ∨ field ∈ groupsField :: headFields

variable {r back : Record}

/-- In a record of scalars every path is a field. -/
theorem Record.field_of_at? (hscalars : ∀ field v, Dict.get? r field = some v → v.isScalar = true)
    {path : List String} {v : Value} (hat : r.at? path = some v) : ∃ field,
      path = [field] ∧ Dict.get? r field = some v := by
  match path, hat with
  | [field], hat => exact ⟨field, rfl, hat⟩
  | k :: k' :: path, hat =>
    rw [at?_cons_cons, Option.bind_eq_some_iff] at hat
    obtain ⟨m, hm, -⟩ := hat
    obtain ⟨w, hget, hw⟩ := Option.bind_eq_some_iff.1 hm
    -- A path goes on below a map only.
    have hscalar := hscalars k w hget
    rw [Value.map?_eq_some_iff.1 hw] at hscalar
    cases hscalar

/-- **A flat report is restored by its form.** -/
theorem Record.restores_flatForm
    (hscalars : ∀ field v, Dict.get? r field = some v → v.isScalar = true)
    (stored : String → Prop) : Restores stored r (flatForm r) := by
  intro path v hat _ _
  obtain ⟨field, rfl, hget⟩ := field_of_at? hscalars hat
  have hcolumn : field ∈ header r := Columns.mem_header.2 (.inr (Dict.mem_keys_iff.2 ⟨v, hget⟩))
  show Dict.get? (flatForm r) field = some (readBack r field)
  rw [get?_flatForm, if_pos hcolumn]

theorem Record.get?_treeForm (r : Record) (field : String) :
    Dict.get? (treeForm r) field =
      if field = groupsField then some (.map (pruned rereadEvents 3 (groupsOf r)))
      else if field ∈ headFields then some (readBack r field) else none := by
  rw [treeForm, Dict.get?_insert, get?_headForm]

namespace Splits

variable {base : Record} {out : GroupRows}

/-- **A scalar below the groups of a report is an event** of a cpu. -/
theorem event_of_at? (h : Splits r base (Record.groupsOf r) out) (hr : Record.Ordered r)
    {path : List String} {v : Value} (hat : Record.at? (Record.groupsOf r) path = some v)
    (hv : v.isScalar = true) : ∃ group socket cpu event events,
      path = [group, socket, cpu] ++ [event] ∧
      ([group, socket, cpu], events) ∈ Record.leaves 3 (Record.groupsOf r) ∧
        Dict.get? events event = some v := by
  have hordered := h.ordered_groups hr
  have hlong : 3 < path.length := by
    refine Nat.lt_of_not_le fun hshort => ?_
    obtain ⟨m, rfl⟩ := h.nested.at?_map hordered hshort hat
    cases hv
  match path, hlong with
  | group :: socket :: cpu :: first :: more, _ =>
    rw [show group :: socket :: cpu :: first :: more =
        [group, socket, cpu] ++ first :: more from rfl, Record.at?_append (by simp) (by simp), Option.bind_eq_some_iff] at hat
    obtain ⟨events, hevents, hat⟩ := hat
    obtain ⟨w, hw, hmap⟩ := Option.bind_eq_some_iff.1 hevents
    rw [Value.map?_eq_some_iff.1 hmap] at hw
    have hleaf : ([group, socket, cpu], events) ∈ Record.leaves 3 (Record.groupsOf r) :=
      (Record.mem_leaves_iff hordered).2 ⟨rfl, hw⟩
    obtain ⟨-, hsorted, hall⟩ := h.of_mem_inGroup hr ((h.cons_mem_leaves hr).1 hleaf)
    obtain ⟨event, hevent, hget⟩ := Record.field_of_at?
      (fun event v hget => (hall _ ((Dict.mem_iff_get? hsorted).2 hget)).1) hat
    exact ⟨group, socket, cpu, event, events, by rw [hevent]; rfl, hleaf, hget⟩

/-- **A counter report is restored by its tree**, in the fields that it stores. -/
theorem restores_treeForm (h : Splits r base (Record.groupsOf r) out) (hr : Record.Ordered r) :
    Record.Restores (· ∈ groupsField :: headFields) r (Record.treeForm r) := by
  intro path v hat hv hstored
  match path, hat with
  | field :: path, hat =>
    rcases List.mem_cons.1 (hstored field rfl) with rfl | hfield
    · -- Below the groups.
      cases path with
      | nil =>
        obtain rfl : Value.map (Record.groupsOf r) = v := Option.some.inj (h.holds.symm.trans hat)
        cases hv
      | cons k path =>
        rw [Record.at?_cons_cons, h.holds] at hat
        obtain ⟨group, socket, cpu, event, events, hpath, hleaf, hget⟩ := h.event_of_at? hr hat hv
        rw [Record.at?_cons_cons, Record.get?_treeForm, if_pos rfl, hpath]
        show Record.at? (Record.pruned rereadEvents 3 (Record.groupsOf r))
          ([group, socket, cpu] ++ [event]) = some v.reread
        rw [Record.at?_pruned (by simp) (h.ordered_groups hr) hleaf]
        show Dict.get? (rereadEvents events) event = some v.reread
        rw [rereadEvents, Dict.get?_mapValues, hget, Option.map_some]
    · -- A field that tells the report is a scalar.
      obtain ⟨w, hw, hscalar⟩ := h.scalars field hfield
      cases path with
      | nil =>
        have hne : field ≠ groupsField := by
          rintro rfl
          exact absurd hfield (by decide)
        show Dict.get? (Record.treeForm r) field = some (Record.readBack r field)
        rw [Record.get?_treeForm, if_neg hne, if_pos hfield]
      | cons k path =>
        rw [Record.at?_cons_cons, hw, Option.bind_some] at hat
        cases hmap : w.map? with
        | none => simp [hmap] at hat
        | some m =>
          rw [Value.map?_eq_some_iff.1 hmap] at hscalar
          cases hscalar

end Splits

/-! ## §2. One record, saved and replayed. -/

variable {t : FileTree} {s : Store} {directory : String}

/-- A record that is saved is one that is saved in turn. -/
theorem SavedInTurn.of_save (hok : (s.save t r).result = .ok ())
    (hdirectory : entityDirectory s.base r = .ok directory) :
    SavedInTurn t s directory [r] ∧ (s.saveMany t [r]).state.1 = (s.save t r).state.1 := by
  have hrun : (s.saveMany t [r]).result = .ok () ∧
      (s.saveMany t [r]).state = (s.save t r).state := by
    rw [Store.saveMany]
    simp only [hok]
    exact ⟨rfl, rfl⟩
  refine ⟨⟨hrun.1, ?_⟩, congrArg Prod.fst hrun.2⟩
  intro r' hr'
  rw [List.mem_singleton.1 hr']
  exact hdirectory

/-- **A power report is replayed** as its form. -/
theorem SavedInTurn.replay_power {m : Merge} {groups : List String}
    (h : SavedInTurn t s directory [r]) (hcodec : s.codec = .power)
    (hgroups : ∀ group, group ∈ groups ↔ s.codec.rowsFor group r ≠ [])
    (hnew : ∀ group ∈ groups, ¬ HasFile t directory group) (hnodup : groups.Nodup)
    (hpaths : m.paths = groups.map (fileIn directory)) (hlenient : m.strictness = .lenient) :
    (m.connect (s.saveMany t [r]).state.1).result = .ok () ∧
    ∀ n, (((m.connect (s.saveMany t [r]).state.1).state.after s.codec n).next s.codec).result =
      .ok ([Record.flatForm r][n]?) := by
  have hrow := h.rowsFor_power hcodec List.mem_cons_self
  have hgroup : ∀ group, group ∈ groups ↔ group = Codec.Power.group := by
    intro group
    rw [hgroups]
    constructor
    · intro hne
      refine Classical.byContradiction fun hother => hne ?_
      obtain ⟨-, out, hout, -⟩ := h.groups List.mem_cons_self
      unfold Codec.rowsFor
      rw [hcodec] at hout ⊢
      obtain rfl := Codec.Power.toGroups_ok hout
      simp [hout, Dict.get?, Ne.symm hother]
    · rintro rfl
      rw [hrow]
      simp
  obtain rfl : groups = [Codec.Power.group] := Record.eq_singleton_of_nodup hnodup hgroup
  have hplain : Path.isPlain Codec.Power.group = true := by decide
  have htimes : Record.times [r] = [Record.time r] := rfl
  have hform : Dict.ofPairs (([r].filter fun r' =>
      decide (Record.time r' = Record.time r)).flatMap Record.flatForm) = Record.flatForm r := by
    simp only [List.filter_cons, decide_true, if_true, List.filter_nil, List.flatMap_singleton]
    exact Dict.ofPairs_of_sorted (Dict.sorted_ofPairs _)
  obtain ⟨hconnect, hresults⟩ := h.results_power hcodec (by simp)
    (fun bytes hfile => hnew _ List.mem_cons_self ⟨hplain, bytes, hfile⟩) (by simp [htimes])
    hpaths hlenient
  refine ⟨hconnect, ?_⟩
  intro n
  rw [hresults n, htimes]
  exact congrArg (fun form => Except.ok [form][n]?) hform

/-- **A counter report is replayed** as its tree. -/
theorem SavedInTurn.replay_counters {m : Merge} {groups : List String}
    (h : SavedInTurn t s directory [r]) (hcodec : s.codec = .counters) (hr : Record.Ordered r)
    (hgroups : ∀ group, group ∈ groups ↔ s.codec.rowsFor group r ≠ [])
    (hnew : ∀ group ∈ groups, ¬ HasFile t directory group) (hnodup : groups.Nodup)
    (hpaths : m.paths = groups.map (fileIn directory)) (hlenient : m.strictness = .lenient) :
    (m.connect (s.saveMany t [r]).state.1).result = .ok () ∧
    ∀ n, (((m.connect (s.saveMany t [r]).state.1).state.after s.codec n).next s.codec).result =
      .ok ([Record.treeForm r][n]?) := by
  have hordered : ∀ r' ∈ [r], Record.Ordered r' := by simpa using hr
  have hentry : ∀ group, group ∈ groups ↔ Record.HasEntry group r := by
    intro group
    rw [hgroups, hcodec]
    exact h.rowsFor_ne_nil_iff hcodec List.mem_cons_self hr group
  -- The save has written rows, so there is a first file.
  obtain ⟨-, out, hout, -, g, hg, hne⟩ := h.groups List.mem_cons_self
  have hfirst : g.1 ∈ groups := by
    rw [hgroups]
    unfold Codec.rowsFor
    rw [hcodec] at hout ⊢
    simp only [hout, (Dict.mem_iff_get? (mapsGroups_counters hr out hout)).1 hg]
    exact hne
  obtain ⟨first, others, rfl⟩ := List.exists_cons_of_ne_nil (List.ne_nil_of_mem hfirst)
  refine h.results_counters hcodec hordered (by simp [Record.times]) ?_ ?_ hnodup ?_ hpaths hlenient
  · intro group hgroup bytes hfile
    have hplain := h.isPlain_of_hasEntry hcodec List.mem_cons_self hr ((hentry group).1 hgroup)
    exact hnew group hgroup ⟨hplain, bytes, hfile⟩
  · simpa using (hentry first).1 List.mem_cons_self
  · simpa using hentry

/-- **No stored field is lost.**  A record is saved into files that did not
exist, and these are replayed, each once, in any order.  Then the one record
that comes back has all scalars of the saved one, at the same paths, in the
fields that the codec stores; the other fields are not there. -/
theorem stored_restored {m : Merge} {groups : List String}
    (hcodec : s.codec = .power ∨ s.codec = .counters) (hr : Record.Ordered r)
    (hok : (s.save t r).result = .ok ()) (hdirectory : entityDirectory s.base r = .ok directory)
    (hgroups : ∀ group, group ∈ groups ↔ s.codec.rowsFor group r ≠ [])
    (hnew : ∀ group ∈ groups, ¬ HasFile t directory group) (hnodup : groups.Nodup)
    (hpaths : m.paths = groups.map (fileIn directory)) (hlenient : m.strictness = .lenient) :
    ∃ back, (m.connect (s.save t r).state.1).result = .ok () ∧
      (∀ n, (((m.connect (s.save t r).state.1).state.after s.codec n).next s.codec).result =
        .ok ([back][n]?)) ∧
      Record.Restores s.codec.Stores r back ∧
      ∀ field, ¬ s.codec.Stores field → Dict.get? back field = none := by
  obtain ⟨hsaved, hstate⟩ := SavedInTurn.of_save hok hdirectory
  rw [← hstate]
  rcases hcodec with hcodec | hcodec
  · obtain ⟨hconnect, hresults⟩ :=
      hsaved.replay_power hcodec hgroups hnew hnodup hpaths hlenient
    have hrow := hsaved.rowsFor_power hcodec List.mem_cons_self
    have hstorable := (hsaved.rowsFor List.mem_cons_self (hcodec ▸ mapsGroups_power r)
      (hrow ▸ List.mem_singleton_self r)).2
    exact ⟨Record.flatForm r, hconnect, hresults, Record.restores_flatForm hstorable.scalars _,
      fun field hnot => absurd (.inl hcodec) hnot⟩
  · obtain ⟨hconnect, hresults⟩ :=
      hsaved.replay_counters hcodec hr hgroups hnew hnodup hpaths hlenient
    obtain ⟨base, out, hout, hsplits⟩ := hsaved.splits hcodec List.mem_cons_self
    refine ⟨Record.treeForm r, hconnect, hresults, ?_, ?_⟩
    · intro path v hat hv hstored
      refine hsplits.restores_treeForm hr path v hat hv fun field hfield => ?_
      rcases hstored field hfield with hpower | hmem
      · rw [hcodec] at hpower
        exact absurd (congrArg Codec.name hpower) (by decide)
      · exact hmem
    · intro field hnot
      have hother : field ≠ groupsField ∧ field ∉ headFields := by
        rw [← not_or, ← List.mem_cons]
        exact fun hmem => hnot (.inr hmem)
      rw [Record.get?_treeForm, if_neg hother.1, if_neg hother.2]

/-- A counter report with a field beside its groups. -/
def extraReport : Record := [
  ("extra", .int 1),
  ("groups", .map [
    ("core", .map [("0", .map [("0", .map [("cycles", .int 5)])])]),
    ("uncore", .map [("0", .map [("0", .map [("clock", .text "x")])])])]),
  ("sensor", .text "s"), ("target", .text "t"), ("timestamp", .text " 2")]

/-- A merge of the files of the report. -/
def extraMerge : Merge :=
  ((Merge.new .lenient).add "out/s-t/uncore.csv").add "out/s-t/core.csv"

/-- The report is accepted, and the merge is one of its files. -/
theorem extraReport_saved :
    (counterStore.save .empty extraReport).result = .ok () ∧
      (∀ group, group ∈ ["uncore", "core"] ↔
        counterStore.codec.rowsFor group extraReport ≠ []) ∧
      (∀ group ∈ ["uncore", "core"], ¬ HasFile .empty "out/s-t" group) ∧
      extraMerge.paths = ["uncore", "core"].map (fileIn "out/s-t") := by
  have hout : ∃ core uncore, counterStore.codec.toGroups extraReport =
      .ok [("core", [core]), ("uncore", [uncore])] := ⟨_, _, rfl⟩
  obtain ⟨core, uncore, hout⟩ := hout
  refine ⟨eq_ok_of_toOption (by decide +kernel), ?_, ?_, by decide +kernel⟩
  · intro group
    unfold Codec.rowsFor
    simp only [hout, Dict.get?, List.mem_cons, List.not_mem_nil, or_false]
    by_cases hcore : "core" = group
    · simp [← hcore]
    · by_cases huncore : "uncore" = group
      · simp [← huncore]
      · simp [hcore, huncore, Ne.symm hcore, Ne.symm huncore]
  · rintro group - ⟨-, bytes, hfile⟩
    exact node?_empty _ bytes hfile

theorem stored_restored_extraReport :
    Record.Ordered extraReport ∧ (counterStore.save .empty extraReport).result = .ok () ∧
      entityDirectory "out" extraReport = .ok "out/s-t" ∧
      (∀ group, group ∈ ["uncore", "core"] ↔
        counterStore.codec.rowsFor group extraReport ≠ []) ∧
      (∀ group ∈ ["uncore", "core"], ¬ HasFile .empty "out/s-t" group) ∧
      ["uncore", "core"].Nodup ∧ extraMerge.paths = ["uncore", "core"].map (fileIn "out/s-t") ∧
      ∃ back, (((extraMerge.connect (counterStore.save .empty extraReport).state.1).state.after
          .counters 0).next .counters).result = .ok (some back) ∧
        back.at? ["groups", "core", "0", "0", "cycles"] = some (.int 5) ∧
        back.at? ["groups", "uncore", "0", "0", "clock"] = some (.text "x") ∧
        back.at? ["timestamp"] = some (.int 2) ∧ Dict.get? back "extra" = none := by
  have hordered : Record.Ordered extraReport := by decide +kernel
  have hdirectory : entityDirectory "out" extraReport = .ok "out/s-t" := by rfl
  obtain ⟨hok, hgroups, hnew, hpaths⟩ := extraReport_saved
  obtain ⟨back, -, hresults, hrestores, hlost⟩ := stored_restored (.inr rfl) hordered hok
    hdirectory hgroups hnew (by decide) hpaths rfl
  have hstored : ∀ path : List String, (∀ field ∈ path.head?, field ∈ groupsField :: headFields) →
      ∀ field ∈ path.head?, counterStore.codec.Stores field :=
    fun path hpath field hfield => .inr (hpath field hfield)
  refine ⟨hordered, hok, hdirectory, hgroups, hnew, by decide, hpaths, back, hresults 0, ?_, ?_,
    ?_, hlost "extra" ?_⟩
  · exact hrestores ["groups", "core", "0", "0", "cycles"] (.int 5) rfl rfl
      (hstored _ (by decide))
  · refine (hrestores ["groups", "uncore", "0", "0", "clock"] (.text "x") rfl rfl
      (hstored _ (by decide))).trans (congrArg some ?_)
    decide +kernel
  · refine (hrestores ["timestamp"] (.text " 2") rfl rfl (hstored _ (by decide))).trans
      (congrArg some ?_)
    decide +kernel
  · rintro (hpower | hmem)
    · exact absurd (congrArg Codec.name hpower) (by decide)
    · exact absurd hmem (by decide)

/-- **A field beside the groups of a counter report is lost**: there is a
scalar in the saved report that is not restored. -/
theorem not_restores_extraReport :
    (counterStore.save .empty extraReport).result = .ok () ∧
      (∀ group, group ∈ ["uncore", "core"] ↔
        counterStore.codec.rowsFor group extraReport ≠ []) ∧
      (∀ group ∈ ["uncore", "core"], ¬ HasFile .empty "out/s-t" group) ∧
      extraMerge.paths = ["uncore", "core"].map (fileIn "out/s-t") ∧
      extraMerge.strictness = .lenient ∧
      ∃ back, (((extraMerge.connect (counterStore.save .empty extraReport).state.1).state.after
          .counters 0).next .counters).result = .ok (some back) ∧
        extraReport.at? ["extra"] = some (.int 1) ∧ back.at? ["extra"] = none ∧
        ¬ Record.Restores (fun _ => True) extraReport back := by
  have hordered : Record.Ordered extraReport := by decide +kernel
  have hdirectory : entityDirectory "out" extraReport = .ok "out/s-t" := by rfl
  obtain ⟨hok, hgroups, hnew, hpaths⟩ := extraReport_saved
  obtain ⟨hsaved, hstate⟩ := SavedInTurn.of_save hok hdirectory
  obtain ⟨-, hresults⟩ :=
    hsaved.replay_counters rfl hordered hgroups hnew (by decide) hpaths rfl
  rw [hstate] at hresults
  have hlost : Record.at? (Record.treeForm extraReport) ["extra"] = none := by
    show Dict.get? (Record.treeForm extraReport) "extra" = none
    rw [Record.get?_treeForm, if_neg (by decide), if_neg (by decide)]
  refine ⟨hok, hgroups, hnew, hpaths, rfl, _, hresults 0, rfl, hlost, ?_⟩
  intro hrestores
  have hkept := hrestores ["extra"] (.int 1) rfl rfl (fun _ _ => trivial)
  rw [hlost] at hkept
  cases hkept

end ReportStore

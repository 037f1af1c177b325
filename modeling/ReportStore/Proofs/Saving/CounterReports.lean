/-
  ReportStore.Proofs.Saving.CounterReports
  ────────────────────────────────────────
  **COUNTER REPORTS COME BACK.**

  A counter report lies in as many files as it has groups, a row for every
  socket and cpu.  The files are read side by side, and what is due at a time
  are the rows of one report, each read as a leaf below its keys.  So the
  union of them is the tree that was saved, in whatever order the files come:

      union of the leaves  =  the tree, but for branches without a leaf

  The first file gives the times, so its group has to have a row in every
  report.
-/
import ReportStore.Proofs.Saving.CounterRows

namespace ReportStore

open FileTree Plan
open Codec.Counters

/-! ## §1. The tree of a counter report. -/

namespace Record

variable {r base : Record} {out : GroupRows} {group : String}

/-- The groups of a report. -/
def groupsOf (r : Record) : Record := ((Dict.get? r groupsField).bind Value.map?).getD []

/-- The events of a group, each with its socket and cpu. -/
def inGroup (group : String) (r : Record) : List (List String × Record) :=
  (Dict.get? (groupsOf r) group).elim [] groupLeaves

/-- The events of some groups, each with its group, socket and cpu. -/
def inGroups (groups : List String) (r : Record) : List (List String × Record) :=
  groups.flatMap fun group => (inGroup group r).map fun leaf => (group :: leaf.1, leaf.2)

/-- A report has something for a socket and a cpu in a group. -/
def HasEntry (group : String) (r : Record) : Prop :=
  ∃ socket cpu v, r.at? [groupsField, group, socket, cpu] = some v

/-- A counter report as it comes back: the fields that tell it, and the tree of
its events without the branches that have no cpu. -/
def treeForm (r : Record) : Record :=
  Dict.insert (headForm r) groupsField (.map (pruned rereadEvents 3 (groupsOf r)))

end Record

namespace Splits

variable {r base : Record} {out : GroupRows} {group : String}

theorem ordered_groups (h : Splits r base (Record.groupsOf r) out) (hr : Record.Ordered r) :
    Record.Ordered (Record.groupsOf r) :=
  hr.of_mem ((Dict.mem_iff_get? hr.sorted).2 h.holds)

/-- The leaves of the whole tree are those of its groups. -/
theorem cons_mem_leaves (h : Splits r base (Record.groupsOf r) out) (hr : Record.Ordered r)
    {path : List String} {leaf : Record} :
    (group :: path, leaf) ∈ Record.leaves 3 (Record.groupsOf r) ↔
      (path, leaf) ∈ Record.inGroup group r := by
  have hsorted := (h.ordered_groups hr).sorted
  unfold Record.inGroup
  rw [Record.mem_leaves_succ]
  constructor
  · rintro ⟨k, m, path', hm, hleaf, hpath⟩
    injection hpath with hk hpath
    subst hk hpath
    rw [(Dict.mem_iff_get? hsorted).1 hm]
    exact hleaf
  · intro hleaf
    cases hget : Dict.get? (Record.groupsOf r) group with
    | none => simp [hget] at hleaf
    | some v =>
      have hmem := (Dict.mem_iff_get? hsorted).2 hget
      obtain ⟨m, hm, -⟩ := h.nested _ hmem
      obtain rfl : v = .map m := hm
      rw [hget] at hleaf
      exact ⟨group, m, path, hmem, hleaf, rfl⟩

/-- A leaf of the whole tree lies below a group. -/
theorem exists_group_of_mem_leaves (h : Splits r base (Record.groupsOf r) out)
    (hr : Record.Ordered r) {leaf : List String × Record}
    (hleaf : leaf ∈ Record.leaves 3 (Record.groupsOf r)) :
    ∃ group, ∃ below ∈ Record.inGroup group r, leaf = (group :: below.1, below.2) := by
  obtain ⟨path, events⟩ := leaf
  obtain ⟨hlength, -⟩ := (Record.mem_leaves_iff (h.ordered_groups hr)).1 hleaf
  obtain ⟨group, rest, rfl⟩ := List.exists_cons_of_length_eq_add_one hlength
  exact ⟨group, (rest, events), (h.cons_mem_leaves hr).1 hleaf, rfl⟩

/-- What a leaf of a group is: it lies below a socket and a cpu, and its events
can be columns. -/
theorem of_mem_inGroup (h : Splits r base (Record.groupsOf r) out) (hr : Record.Ordered r)
    {leaf : List String × Record} (hleaf : leaf ∈ Record.inGroup group r) :
    leaf.1.length = 2 ∧ Dict.Sorted leaf.2 ∧ AreEvents leaf.2 := by
  obtain ⟨path, events⟩ := leaf
  have hmem := (h.cons_mem_leaves hr).2 hleaf
  obtain ⟨hlength, -⟩ := (Record.mem_leaves_iff (h.ordered_groups hr)).1 hmem
  refine ⟨by simpa using hlength,
    (Record.ordered_of_mem_leaves (h.ordered_groups hr) hmem).sorted, ?_⟩
  unfold Record.inGroup at hleaf
  cases hget : Dict.get? (Record.groupsOf r) group with
  | none => simp [hget] at hleaf
  | some v =>
    rw [hget] at hleaf
    exact h.events _ ((Dict.mem_iff_get? (h.ordered_groups hr).sorted).2 hget) _ hleaf

theorem nodup_inGroup (h : Splits r base (Record.groupsOf r) out) (hr : Record.Ordered r)
    (group : String) : (Record.inGroup group r).Nodup := by
  unfold Record.inGroup
  cases hget : Dict.get? (Record.groupsOf r) group with
  | none => exact List.nodup_nil
  | some v =>
    have hmem := (Dict.mem_iff_get? (h.ordered_groups hr).sorted).2 hget
    obtain ⟨m, hm, -⟩ := h.nested _ hmem
    obtain rfl : v = .map m := hm
    refine (List.pairwise_map.1 (Record.nodup_leaves ((h.ordered_groups hr).of_mem hmem))).imp ?_
    exact fun hne heq => hne (congrArg Prod.fst heq)

/-- A report has an entry in a group iff the group has a leaf. -/
theorem hasEntry_iff (h : Splits r base (Record.groupsOf r) out) (hr : Record.Ordered r) :
    Record.HasEntry group r ↔ Record.inGroup group r ≠ [] := by
  have hat : ∀ socket cpu, Record.at? r [groupsField, group, socket, cpu] =
      Record.at? (Record.groupsOf r) [group, socket, cpu] := by
    intro socket cpu
    rw [Record.at?_cons_cons, h.holds]
    rfl
  constructor
  · rintro ⟨socket, cpu, v, hv⟩
    rw [hat] at hv
    obtain ⟨events, rfl⟩ := h.nested.at?_map (h.ordered_groups hr) (by simp) hv
    exact List.ne_nil_of_mem ((h.cons_mem_leaves hr).1
      ((Record.mem_leaves_iff (h.ordered_groups hr)).2 ⟨rfl, hv⟩))
  · intro hne
    obtain ⟨⟨path, events⟩, hleaf⟩ := List.exists_mem_of_ne_nil _ hne
    obtain ⟨socket, cpu, rfl⟩ := List.length_eq_two.1 (h.of_mem_inGroup hr hleaf).1
    refine ⟨socket, cpu, .map events, ?_⟩
    rw [hat]
    exact ((Record.mem_leaves_iff (h.ordered_groups hr)).1 ((h.cons_mem_leaves hr).2 hleaf)).2

/-- Groups that leave out no entry have all leaves of the tree. -/
theorem mem_inGroups_iff (h : Splits r base (Record.groupsOf r) out) (hr : Record.Ordered r)
    {groups : List String} (hall : ∀ group, Record.HasEntry group r → group ∈ groups)
    {leaf : List String × Record} :
    leaf ∈ Record.inGroups groups r ↔ leaf ∈ Record.leaves 3 (Record.groupsOf r) := by
  unfold Record.inGroups
  simp only [List.mem_flatMap, List.mem_map]
  constructor
  · rintro ⟨group, -, below, hbelow, rfl⟩
    exact (h.cons_mem_leaves hr).2 hbelow
  · intro hleaf
    obtain ⟨group, below, hbelow, rfl⟩ := h.exists_group_of_mem_leaves hr hleaf
    have hentry := (h.hasEntry_iff hr).2 (List.ne_nil_of_mem hbelow)
    exact ⟨group, hall group hentry, below, hbelow, rfl⟩

theorem nodup_inGroups (h : Splits r base (Record.groupsOf r) out) (hr : Record.Ordered r)
    {groups : List String} (hnodup : groups.Nodup) : (Record.inGroups groups r).Nodup := by
  unfold Record.inGroups List.Nodup
  rw [List.pairwise_flatMap]
  constructor
  · intro group _
    refine List.pairwise_map.2 ((h.nodup_inGroup hr group).imp ?_)
    intro a b hne heq
    injection heq with hpath hevents
    injection hpath with _ hpath
    exact hne (Prod.ext hpath hevents)
  · -- Leaves of two groups differ in their first key.
    refine hnodup.imp ?_
    intro a b hne x hx y hy heq
    obtain ⟨_, -, rfl⟩ := List.mem_map.1 hx
    obtain ⟨_, -, rfl⟩ := List.mem_map.1 hy
    injection heq with hpath _
    injection hpath with hgroup _
    exact hne hgroup

/-- The rows of a group are those of its leaves. -/
theorem rowsFor (h : Splits r base (Record.groupsOf r) out) (hout : toGroups r = .ok out)
    (group : String) :
    Codec.counters.rowsFor group r = (Record.inGroup group r).map (leafRow base) := by
  have hgroups : Codec.counters.toGroups r = .ok out := hout
  unfold Codec.rowsFor Record.inGroup
  simp only [hgroups]
  rw [h.rows, Dict.get?_mapValues]
  cases Dict.get? (Record.groupsOf r) group with
  | none => rfl
  | some v => rfl

/-- **The leaves of a report come back as its tree**, in whatever order and
beside whatever head of scalars each of them has. -/
theorem unionAll_leaves (h : Splits r base (Record.groupsOf r) out) (hr : Record.Ordered r)
    {head : Record} (hhead : Dict.Sorted head)
    (hscalars : ∀ k v, Dict.get? head k = some v → v.isScalar = true)
    {ls : List (List String × Record)} (hne : ls ≠ []) (hnodup : ls.Nodup)
    (hmem : ∀ leaf, leaf ∈ ls ↔ leaf ∈ Record.leaves 3 (Record.groupsOf r)) :
    Record.unionAll (ls.map fun leaf =>
        Dict.insert head groupsField (.map (Record.nest leaf.1 (rereadEvents leaf.2)))) =
      Dict.insert head groupsField (.map (Record.pruned rereadEvents 3 (Record.groupsOf r))) := by
  have hforms : (ls.map fun leaf =>
        Dict.insert head groupsField (.map (Record.nest leaf.1 (rereadEvents leaf.2)))) =
      (ls.map fun leaf => Record.nest leaf.1 (rereadEvents leaf.2)).map fun m =>
        Dict.insert head groupsField (.map m) := by
    rw [List.map_map]
    rfl
  have hevents : ∀ leaf, Record.Ordered leaf → Dict.Sorted (rereadEvents leaf) :=
    fun _ hleaf => Dict.sorted_mapValues _ hleaf.sorted
  have hnests := Record.sorted_of_mem_nests hevents (h.ordered_groups hr) fun leaf => (hmem leaf).1
  have hsome : (ls.map fun leaf => Record.nest leaf.1 (rereadEvents leaf.2)) ≠ [] := by
    rwa [Ne, List.map_eq_nil_iff]
  rw [hforms, Record.unionAll_insert_map hhead hscalars hsome hnests,
    Record.unionAll_nest hevents (h.ordered_groups hr) hnodup hmem]

theorem unionAll_leafForm (h : Splits r base (Record.groupsOf r) out) (hr : Record.Ordered r)
    {ls : List (List String × Record)} (hne : ls ≠ []) (hnodup : ls.Nodup)
    (hmem : ∀ leaf, leaf ∈ ls ↔ leaf ∈ Record.leaves 3 (Record.groupsOf r)) :
    Record.unionAll (ls.map (Record.leafForm r)) = Record.treeForm r :=
  h.unionAll_leaves hr (Record.sorted_headForm r) (Record.isScalar_headForm r) hne hnodup hmem

end Splits

theorem exists_splits_groupsOf {r : Record} {out : GroupRows} (h : toGroups r = .ok out) :
    ∃ base, Splits r base (Record.groupsOf r) out := by
  obtain ⟨base, groups, hsplits⟩ := exists_splits h
  have hgroups : Record.groupsOf r = groups := by
    unfold Record.groupsOf
    rw [hsplits.holds]
    rfl
  exact ⟨base, hgroups ▸ hsplits⟩

theorem mapsGroups_counters {r : Record} (hr : Record.Ordered r) : Codec.counters.MapsGroups r := by
  intro out hout
  obtain ⟨base, groups, h⟩ := exists_splits hout
  rw [h.rows]
  exact Dict.sorted_mapValues _ (hr.of_mem ((Dict.mem_iff_get? hr.sorted).2 h.holds)).sorted

/-! ## §2. The rows of one report. -/

variable {t : FileTree} {s : Store} {directory : String} {rs : List Record} {r : Record}

namespace SavedInTurn

theorem splits (h : SavedInTurn t s directory rs) (hcodec : s.codec = .counters) (hr : r ∈ rs) :
    ∃ base out, toGroups r = .ok out ∧ Splits r base (Record.groupsOf r) out := by
  obtain ⟨-, out, hout, -⟩ := h.groups hr
  rw [hcodec] at hout
  obtain ⟨base, hsplits⟩ := exists_splits_groupsOf hout
  exact ⟨base, out, hout, hsplits⟩

/-- Every row of a report has its time. -/
theorem time_of_mem_rowsFor (h : SavedInTurn t s directory rs) (hcodec : s.codec = .counters)
    (hr : r ∈ rs) (hordered : Record.Ordered r) {group : String} {row : Record}
    (hrow : row ∈ Codec.counters.rowsFor group r) : Record.time row = Record.time r := by
  obtain ⟨base, out, hout, hsplits⟩ := h.splits hcodec hr
  rw [hsplits.rowsFor hout] at hrow
  obtain ⟨leaf, hleaf, rfl⟩ := List.mem_map.1 hrow
  obtain ⟨-, hsorted, hevents⟩ := hsplits.of_mem_inGroup hordered hleaf
  exact hsplits.time_leafRow hsorted hevents

/-- **The rows of a group come back as its leaves**, each alone in a tree. -/
theorem fragments_counters (h : SavedInTurn t s directory rs) (hcodec : s.codec = .counters)
    (hr : r ∈ rs) (hordered : Record.Ordered r) (group : String) :
    fragments Codec.counters (Codec.fileOfGroup group)
        ((Codec.counters.rowsFor group r).map Record.laid) =
      (Record.inGroup group r).map fun leaf => Record.leafForm r (group :: leaf.1, leaf.2) := by
  obtain ⟨base, out, hout, hsplits⟩ := h.splits hcodec hr
  have hstorable : ∀ row ∈ Codec.counters.rowsFor group r, Record.Storable row := by
    intro row hrow
    refine (h.rowsFor hr ?_ (hcodec.symm ▸ hrow)).2
    exact hcodec.symm ▸ mapsGroups_counters hordered
  rw [hsplits.rowsFor hout] at hstorable ⊢
  unfold fragments
  rw [List.map_map, List.filterMap_map, ← List.filterMap_eq_map]
  apply List.filterMap_congr
  intro leaf hleaf
  obtain ⟨hlength, hsorted, hevents⟩ := hsplits.of_mem_inGroup hordered hleaf
  rw [Function.comp_apply, Function.comp_apply, hsplits.ofRow_laid hlength hsorted hevents
    (hstorable _ (List.mem_map_of_mem hleaf))]
  rfl

/-- **The rows of a report come back as its tree**, in whatever order the
groups come. -/
theorem unionAll_counters (h : SavedInTurn t s directory rs) (hcodec : s.codec = .counters)
    (hr : r ∈ rs) (hordered : Record.Ordered r) {groups : List String} (hnodup : groups.Nodup)
    (hall : ∀ group, Record.HasEntry group r → group ∈ groups)
    (hsome : ∃ group, Record.HasEntry group r) :
    Record.unionAll (groups.flatMap fun group => fragments Codec.counters
      (Codec.fileOfGroup group) ((Codec.counters.rowsFor group r).map Record.laid)) =
        Record.treeForm r := by
  obtain ⟨base, out, hout, hsplits⟩ := h.splits hcodec hr
  have hfragments : (groups.flatMap fun group => fragments Codec.counters
      (Codec.fileOfGroup group) ((Codec.counters.rowsFor group r).map Record.laid)) =
        (Record.inGroups groups r).map (Record.leafForm r) := by
    unfold Record.inGroups
    simp only [List.map_flatMap, List.map_map]
    refine List.flatMap_congr ?_
    intro group _
    exact h.fragments_counters hcodec hr hordered group
  have hmem : ∀ leaf, leaf ∈ Record.inGroups groups r ↔
      leaf ∈ Record.leaves 3 (Record.groupsOf r) :=
    fun _ => hsplits.mem_inGroups_iff hordered hall
  have hne : Record.inGroups groups r ≠ [] := by
    obtain ⟨group, hentry⟩ := hsome
    obtain ⟨leaf, hleaf⟩ :=
      List.exists_mem_of_ne_nil _ ((hsplits.hasEntry_iff hordered).1 hentry)
    exact List.ne_nil_of_mem ((hmem (group :: leaf.1, leaf.2)).2
      ((hsplits.cons_mem_leaves hordered).2 hleaf))
  rw [hfragments]
  exact hsplits.unionAll_leafForm hordered hne (hsplits.nodup_inGroups hordered hnodup) hmem

end SavedInTurn

/-! ## §3. Reports saved in turn. -/

/-- A group of an entity has a file. -/
def HasFile (t : FileTree) (directory group : String) : Prop :=
  Path.isPlain group = true ∧
    ∃ bytes, t.node? (placeOf (fileIn directory group)) = some (.file bytes)

namespace SavedInTurn

/-- A report has rows in a group iff it has an entry there. -/
theorem rowsFor_ne_nil_iff (h : SavedInTurn t s directory rs) (hcodec : s.codec = .counters)
    (hr : r ∈ rs) (hordered : Record.Ordered r) (group : String) :
    Codec.counters.rowsFor group r ≠ [] ↔ Record.HasEntry group r := by
  obtain ⟨base, out, hout, hsplits⟩ := h.splits hcodec hr
  rw [hsplits.rowsFor hout, hsplits.hasEntry_iff hordered, Ne, List.map_eq_nil_iff]

/-- The group of an entry is named for a file. -/
theorem isPlain_of_hasEntry (h : SavedInTurn t s directory rs) (hcodec : s.codec = .counters)
    (hr : r ∈ rs) (hordered : Record.Ordered r) {group : String}
    (hentry : Record.HasEntry group r) : Path.isPlain group = true := by
  obtain ⟨row, hrow⟩ := List.exists_mem_of_ne_nil _
    ((h.rowsFor_ne_nil_iff hcodec hr hordered group).2 hentry)
  rw [← hcodec] at hrow
  exact (h.rowsFor hr (hcodec.symm ▸ mapsGroups_counters hordered) hrow).1

/-- The rows of the reports in a group, report by report. -/
theorem timed_counters (h : SavedInTurn t s directory rs) (hcodec : s.codec = .counters)
    (hordered : ∀ r ∈ rs, Record.Ordered r) (group : String) :
    (rs.flatMap (Codec.counters.rowsFor group)).map Record.timed =
      inBlocks Record.time (fun r => (Codec.counters.rowsFor group r).map Record.laid) rs := by
  unfold inBlocks
  rw [List.map_flatMap]
  refine List.flatMap_congr ?_
  intro r hr
  rw [List.map_map]
  apply List.map_congr_left
  intro row hrow
  exact Prod.ext (h.time_of_mem_rowsFor hcodec hr (hordered r hr) hrow) (Record.timed_snd row)

/-- A file with a row of every report has the times of all. -/
theorem strictMaxima_counters (h : SavedInTurn t s directory rs) (hcodec : s.codec = .counters)
    (hordered : ∀ r ∈ rs, Record.Ordered r) (htimes : (Record.times rs).Pairwise (· < ·))
    {group : String} (hall : ∀ r ∈ rs, Record.HasEntry group r) :
    strictMaxima (Record.times (rs.flatMap (Codec.counters.rowsFor group))) = Record.times rs := by
  have htimed : Record.times (rs.flatMap (Codec.counters.rowsFor group)) =
      ((rs.flatMap (Codec.counters.rowsFor group)).map Record.timed).map (·.1) := by
    rw [List.map_map]
    rfl
  rw [htimed, h.timed_counters hcodec hordered]
  refine strictMaxima_inBlocks htimes ?_
  intro r hr
  rw [Ne, List.map_eq_nil_iff]
  exact (h.rowsFor_ne_nil_iff hcodec hr (hordered r hr) group).2 (hall r hr)

/-- **The stream of counter reports** saved in turn at later and later times:
the trees of the reports, one by one. -/
theorem results_counters {m : Merge} {g : String} {others : List String}
    (h : SavedInTurn t s directory rs) (hcodec : s.codec = .counters)
    (hordered : ∀ r ∈ rs, Record.Ordered r) (htimes : (Record.times rs).Pairwise (· < ·))
    (hnew : ∀ group ∈ g :: others, ∀ bytes,
      t.node? (placeOf (fileIn directory group)) ≠ some (.file bytes))
    (hfirst : ∀ r ∈ rs, Record.HasEntry g r) (hnodup : (g :: others).Nodup)
    (hgroups : ∀ group, group ∈ g :: others ↔ ∃ r ∈ rs, Record.HasEntry group r)
    (hpaths : m.paths = (g :: others).map (fileIn directory)) (hlenient : m.strictness = .lenient) :
    (m.connect (s.saveMany t rs).state.1).result = .ok () ∧
    ∀ n, (((m.connect (s.saveMany t rs).state.1).state.after s.codec n).next s.codec).result =
      .ok ((rs.map Record.treeForm)[n]?) := by
  have hmaps : ∀ r ∈ rs, s.codec.MapsGroups r :=
    fun r hr => hcodec.symm ▸ mapsGroups_counters (hordered r hr)
  have hrows : ∀ group ∈ g :: others, ∃ r ∈ rs, s.codec.rowsFor group r ≠ [] := by
    intro group hgroup
    obtain ⟨r, hr, hentry⟩ := (hgroups group).1 hgroup
    refine ⟨r, hr, ?_⟩
    rw [hcodec]
    exact (h.rowsFor_ne_nil_iff hcodec hr (hordered r hr) group).2 hentry
  have hdecodes : ∀ fileName row time, row.time? = some time → s.codec.Decodes fileName row := by
    intro fileName row time htime
    rw [hcodec]
    exact Codec.decodes_counters htime fileName
  obtain ⟨hconnect, hresults⟩ := h.results hmaps hnew hrows hdecodes hpaths hlenient
  refine ⟨hconnect, ?_⟩
  intro n
  have hrecord : ∀ r ∈ rs, Record.unionAll ((g :: others).flatMap fun group =>
      fragments s.codec (Codec.fileOfGroup group)
        (dueAt (Record.time r) ((rs.flatMap (s.codec.rowsFor group)).map Record.timed))) =
          Record.treeForm r := by
    intro r hr
    rw [hcodec, ← h.unionAll_counters hcodec hr (hordered r hr) hnodup
      (fun group hentry => (hgroups group).2 ⟨r, hr, hentry⟩) ⟨g, hfirst r hr⟩]
    refine congrArg Record.unionAll (List.flatMap_congr ?_)
    intro group _
    rw [h.timed_counters hcodec hordered, dueAt_inBlocks htimes hr]
  rw [hresults n, hcodec, h.strictMaxima_counters hcodec hordered htimes hfirst, Record.times,
    List.map_map]
  rw [hcodec] at hrecord
  exact congrArg (fun records => Except.ok records[n]?) (List.map_congr_left hrecord)

/-- After the saves, the groups with a file are those with an entry. -/
theorem hasFile_iff (h : SavedInTurn t s directory rs) (hcodec : s.codec = .counters)
    (hordered : ∀ r ∈ rs, Record.Ordered r) (hnew : ∀ group, ¬ HasFile t directory group)
    (group : String) :
    HasFile (s.saveMany t rs).state.1 directory group ↔ ∃ r ∈ rs, Record.HasEntry group r := by
  have hmaps : ∀ r ∈ rs, s.codec.MapsGroups r :=
    fun r hr => hcodec.symm ▸ mapsGroups_counters (hordered r hr)
  have hholds : Path.isPlain group = true → GroupHolds (s.saveMany t rs).state.1 directory group
      (rs.flatMap (s.codec.rowsFor group)) := by
    intro hplain
    have hnone := groupHolds_nil fun bytes hfile => hnew group ⟨hplain, bytes, hfile⟩
    exact hnone.saveMany hplain hmaps h.entity h.accepted
  constructor
  · rintro ⟨hplain, bytes, hfile⟩
    obtain ⟨row, hrow⟩ := List.exists_mem_of_ne_nil _ (((hholds hplain).file bytes).1 hfile).1
    obtain ⟨r, hr, hrow⟩ := List.mem_flatMap.1 hrow
    rw [hcodec] at hrow
    exact ⟨r, hr, (h.rowsFor_ne_nil_iff hcodec hr (hordered r hr) group).1
      (List.ne_nil_of_mem hrow)⟩
  · rintro ⟨r, hr, hentry⟩
    have hplain := h.isPlain_of_hasEntry hcodec hr (hordered r hr) hentry
    obtain ⟨row, hrow⟩ := List.exists_mem_of_ne_nil _
      ((h.rowsFor_ne_nil_iff hcodec hr (hordered r hr) group).2 hentry)
    rw [← hcodec] at hrow
    have hrows := List.ne_nil_of_mem (List.mem_flatMap.2 ⟨r, hr, hrow⟩)
    exact ⟨hplain, _, ((hholds hplain).file _).2 ⟨hrows, rfl⟩⟩

end SavedInTurn

/-- **Counter reports survive being saved and replayed.**  No group of the
entity had a file, the reports come later and later, and each has an entry in
the group whose file is read first; the files of all other groups follow in
any order. -/
theorem counterReports_replay {m : Merge} {g : String} {others : List String}
    (hcodec : s.codec = .counters) (hordered : ∀ r ∈ rs, Record.Ordered r)
    (h : SavedInTurn t s directory rs) (hnew : ∀ group, ¬ HasFile t directory group)
    (htimes : (Record.times rs).Pairwise (· < ·)) (hfirst : ∀ r ∈ rs, Record.HasEntry g r)
    (hnodup : (g :: others).Nodup)
    (hgroups : ∀ group, group ∈ g :: others ↔ HasFile (s.saveMany t rs).state.1 directory group)
    (hpaths : m.paths = (g :: others).map (fileIn directory)) (hlenient : m.strictness = .lenient) :
    (m.connect (s.saveMany t rs).state.1).result = .ok () ∧
    ∀ n, (((m.connect (s.saveMany t rs).state.1).state.after s.codec n).next s.codec).result =
      .ok ((rs.map Record.treeForm)[n]?) := by
  have hentries : ∀ group, group ∈ g :: others ↔ ∃ r ∈ rs, Record.HasEntry group r :=
    fun group => (hgroups group).trans (h.hasFile_iff hcodec hordered hnew group)
  refine h.results_counters hcodec hordered htimes ?_ hfirst hnodup hentries hpaths hlenient
  intro group hgroup bytes hfile
  exact hnew group ⟨((hgroups group).1 hgroup).1, bytes, hfile⟩

/-- Two reports: the first has a cpu and an empty group more, the second a
group with a cpu. -/
def twoReports : List Record := [
  [("extra", .int 9),
    ("groups", .map [
      ("core", .map [
        ("0", .map [("0", .map [("cycles", .int 5)]), ("1", .map [("cycles", .text "7")])]),
        ("1", .map [])]),
      ("idle", .map [])]),
    ("sensor", .text "s"), ("target", .text "t"), ("timestamp", .int 1)],
  [("groups", .map [
      ("core", .map [("0", .map [("0", .map [("cycles", .int 6)])])]),
      ("uncore", .map [("0", .map [("0", .map [("clock", .text "x")])])])]),
    ("sensor", .text "s"), ("target", .text "t"), ("timestamp", .text " 2")]]

/-- A store of counter reports. -/
def counterStore : Store := ⟨"out", .counters, .new .lenient, .zero⟩

/-- A merge of the files of the reports. -/
def counterMerge : Merge :=
  ((Merge.new .lenient).add "out/s-t/core.csv").add "out/s-t/uncore.csv"

/-- The reports are accepted, and two groups have a file. -/
theorem twoReports_saved :
    (∀ r ∈ twoReports, Record.Ordered r) ∧ SavedInTurn .empty counterStore "out/s-t" twoReports ∧
      (∀ group, ¬ HasFile .empty "out/s-t" group) ∧
      ∀ group, group ∈ ["core", "uncore"] ↔
        HasFile (counterStore.saveMany .empty twoReports).state.1 "out/s-t" group := by
  have hordered : ∀ r ∈ twoReports, Record.Ordered r := by decide +kernel
  have hsaved : SavedInTurn .empty counterStore "out/s-t" twoReports := by
    refine ⟨eq_ok_of_toOption (by decide +kernel), ?_⟩
    intro r hr
    simp only [twoReports, List.mem_cons, List.not_mem_nil, or_false] at hr
    rcases hr with rfl | rfl <;> rfl
  have hnew : ∀ group, ¬ HasFile .empty "out/s-t" group := by
    rintro group ⟨-, bytes, hfile⟩
    exact node?_empty _ bytes hfile
  refine ⟨hordered, hsaved, hnew, ?_⟩
  intro group
  rw [hsaved.hasFile_iff rfl hordered hnew]
  constructor
  · intro hgroup
    simp only [List.mem_cons, List.not_mem_nil, or_false] at hgroup
    rcases hgroup with rfl | rfl
    · exact ⟨_, List.mem_cons_self, "0", "0", _, rfl⟩
    · exact ⟨_, List.mem_cons_of_mem _ List.mem_cons_self, "0", "0", _, rfl⟩
  · rintro ⟨r, hr, socket, cpu, v, hv⟩
    simp only [twoReports, List.mem_cons, List.not_mem_nil, or_false] at hr
    rcases hr with rfl | rfl
    · by_cases hcore : "core" = group
      · simp [← hcore]
      · by_cases hidle : "idle" = group
        · simp [Record.at?, Dict.get?, groupsField, hcore, hidle] at hv
        · simp [Record.at?, Dict.get?, groupsField, hcore, hidle] at hv
    · by_cases hcore : "core" = group
      · simp [← hcore]
      · by_cases huncore : "uncore" = group
        · simp [← huncore]
        · simp [Record.at?, Dict.get?, groupsField, hcore, huncore] at hv

theorem twoReports_replay :
    (∀ r ∈ twoReports, Record.Ordered r) ∧ SavedInTurn .empty counterStore "out/s-t" twoReports ∧
      (∀ group, ¬ HasFile .empty "out/s-t" group) ∧
      (Record.times twoReports).Pairwise (· < ·) ∧
      (∀ r ∈ twoReports, Record.HasEntry "core" r) ∧ ["core", "uncore"].Nodup ∧
      (∀ group, group ∈ ["core", "uncore"] ↔
        HasFile (counterStore.saveMany .empty twoReports).state.1 "out/s-t" group) ∧
      counterMerge.paths = ["core", "uncore"].map (fileIn "out/s-t") ∧
      (((counterMerge.connect (counterStore.saveMany .empty twoReports).state.1).state.after
        .counters 0).next .counters).result = .ok (some [
          ("groups", .map [("core", .map [("0", .map [
            ("0", .map [("cycles", .int 5)]), ("1", .map [("cycles", .int 7)])])])]),
          ("sensor", .text "s"), ("target", .text "t"), ("timestamp", .int 1)]) ∧
      (((counterMerge.connect (counterStore.saveMany .empty twoReports).state.1).state.after
        .counters 1).next .counters).result = .ok (some [
          ("groups", .map [("core", .map [("0", .map [("0", .map [("cycles", .int 6)])])]),
            ("uncore", .map [("0", .map [("0", .map [("clock", .text "x")])])])]),
          ("sensor", .text "s"), ("target", .text "t"), ("timestamp", .int 2)]) ∧
      (((counterMerge.connect (counterStore.saveMany .empty twoReports).state.1).state.after
        .counters 2).next .counters).result = .ok none := by
  obtain ⟨hordered, hsaved, hnew, hgroups⟩ := twoReports_saved
  have htimes : (Record.times twoReports).Pairwise (· < ·) := by decide +kernel
  have hfirst : ∀ r ∈ twoReports, Record.HasEntry "core" r := by
    intro r hr
    simp only [twoReports, List.mem_cons, List.not_mem_nil, or_false] at hr
    rcases hr with rfl | rfl
    · exact ⟨"0", "0", _, rfl⟩
    · exact ⟨"0", "0", _, rfl⟩
  have hpaths : counterMerge.paths = ["core", "uncore"].map (fileIn "out/s-t") := by
    decide +kernel
  obtain ⟨-, hresults⟩ := counterReports_replay rfl hordered hsaved hnew htimes hfirst
    (by decide) hgroups hpaths rfl
  refine ⟨hordered, hsaved, hnew, htimes, hfirst, by decide, hgroups, hpaths,
    (hresults 0).trans ?_, (hresults 1).trans ?_, (hresults 2).trans ?_⟩
  · exact congrArg Except.ok (by decide +kernel)
  · exact congrArg Except.ok (by decide +kernel)
  · exact congrArg Except.ok (by decide +kernel)

end ReportStore

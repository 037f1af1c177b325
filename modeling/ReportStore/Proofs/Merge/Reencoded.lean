/-
  ReportStore.Proofs.Merge.Reencoded
  ──────────────────────────────────
  **A MERGED RECORD IS SPLIT AND READ AS ITSELF.**

  What a merge hands out can be saved again with the codec it was read with,
  and the rows it is split into are read as the record itself.  For reports
  in general a save is not faithful, since a cell has no type; a record that
  was read has the types that its cells are read with:

      flatForm r = r    for a flat record
      treeForm r = r    for a record with groups
-/
import Mathlib.Data.List.Nodup
import ReportStore.Proofs.Saving.PowerReports
import ReportStore.Proofs.Saving.Restored
import ReportStore.Proofs.Shape

namespace ReportStore

open Codec.Counters

/-! ## §1. The cells of a row. -/

/-- A row as cells, if each of its values has one. -/
def Record.toRow? : Record → Option Row
  | [] => some []
  | (column, v) :: rest =>
    match v.cell?, toRow? rest with
    | some cell, some row => some ((column, cell) :: row)
    | _, _ => none

/-- Whether the rows that a record is split into, as cells, are read as
fragments that are united to the record. -/
def Codec.Reencodes (codec : Codec) (r : Record) : Prop :=
  ∃ groups fragments, codec.toGroups r = .ok groups ∧
    (groups.flatMap fun g => g.2.map fun row =>
      (Record.toRow? row).map (codec.ofRow (Codec.fileOfGroup g.1))) =
        fragments.map (fun fragment => some (.ok fragment)) ∧
    Record.unionAll fragments = r

namespace Record

variable {r row : Record}

theorem toRow?_of_scalars (h : ∀ p ∈ row, p.2.isScalar = true) :
    toRow? row = some (Dict.mapValues (fun v => v.cell?.getD "") row) := by
  induction row with
  | nil => rfl
  | cons p rest ih =>
    obtain ⟨column, v⟩ := p
    obtain ⟨hv, hrest⟩ := List.forall_mem_cons.1 h
    obtain ⟨cell, hcell⟩ := Value.isScalar_iff.1 (show v.isScalar = true from hv)
    simp only [toRow?, hcell, ih hrest, Dict.mapValues, List.map_cons, Option.getD_some]

/-- **A row with the common columns has the cells that are laid out for it.** -/
theorem toRow?_eq_laid (hsorted : Dict.Sorted row)
    (hscalars : ∀ column v, Dict.get? row column = some v → v.isScalar = true)
    (hcommon : ∀ column ∈ Columns.common, ∃ v, Dict.get? row column = some v) :
    toRow? row = some (laid row) := by
  rw [toRow?_of_scalars fun p hp => hscalars p.1 p.2 ((Dict.mem_iff_get? hsorted).1 hp)]
  refine congrArg some
    (Dict.eq_of_get? (Dict.sorted_mapValues _ hsorted) (Dict.sorted_ofPairs _) ?_)
  intro k
  rw [Dict.get?_mapValues]
  show _ = Dict.get? (laid row) k
  rw [get?_laid]
  cases hget : Dict.get? row k with
  | none =>
    -- A column of the header is common, or a key of the row.
    have hnot : k ∉ header row := by
      intro hk
      rcases Columns.mem_header.1 hk with hk | hk
      · obtain ⟨v, hv⟩ := hcommon k hk
        rw [hget] at hv
        cases hv
      · obtain ⟨v, hv⟩ := Dict.mem_keys_iff.1 hk
        rw [hget] at hv
        cases hv
    rw [if_neg hnot]
    rfl
  | some v =>
    have hk : k ∈ header row := Columns.mem_header.2 (.inr (Dict.mem_keys_iff.2 ⟨v, hget⟩))
    rw [if_pos hk, cellOf, hget]
    rfl

/-- A row can be stored if its time is as it is read. -/
theorem storable_of_isRead
    (hscalars : ∀ column v, Dict.get? row column = some v → v.isScalar = true) {v : Value}
    (hget : Dict.get? row "timestamp" = some v) (hv : IsRead "timestamp" v) : Storable row := by
  unfold IsRead at hv
  rw [if_pos rfl] at hv
  obtain ⟨n, htime, rfl⟩ := hv
  refine ⟨⟨Value.intCell n, n.toInt, ?_, ?_⟩, hscalars⟩
  · unfold Codec.scalarCell
    rw [hget]
    rfl
  · rw [timeOfCell?_intCell, htime]

/-! ## §2. Flat records. -/

theorem Flat.isScalar (h : r.Flat) (column : String) (v : Value)
    (hget : Dict.get? r column = some v) : v.isScalar = true :=
  (h.fields column v hget).isScalar

theorem Flat.storable (h : r.Flat) : Storable r := by
  obtain ⟨v, hv⟩ := h.present "timestamp" (by decide)
  exact storable_of_isRead h.isScalar hv (h.fields _ v hv)

/-- **A flat record is its own canonical form.** -/
theorem Flat.flatForm_eq (h : r.Flat) : flatForm r = r := by
  refine Dict.eq_of_get? (Dict.sorted_ofPairs _) h.sorted ?_
  intro k
  rw [get?_flatForm]
  cases hget : Dict.get? r k with
  | none =>
    have hnot : k ∉ header r := by
      intro hk
      obtain ⟨v, hv⟩ := (Columns.mem_header.1 hk).elim (h.present k) Dict.mem_keys_iff.1
      rw [hget] at hv
      cases hv
    rw [if_neg hnot]
  | some v =>
    have hk : k ∈ header r := Columns.mem_header.2 (.inr (Dict.mem_keys_iff.2 ⟨v, hget⟩))
    rw [if_pos hk, (h.fields k v hget).readBack_eq hget]

end Record

theorem Codec.reencodes_flat {r : Record} (h : r.Flat) : Codec.power.Reencodes r := by
  have hgroups : Codec.power.toGroups r = .ok [(Power.group, [r])] := by
    obtain ⟨cell, time, hcell, -⟩ := h.storable.time
    have hnested : Power.firstNested? r = none := by
      unfold Power.firstNested?
      rw [Option.map_eq_none_iff, List.find?_eq_none]
      intro p hp
      have hscalar := h.isScalar p.1 p.2 ((Dict.mem_iff_get? h.sorted).1 hp)
      simp [hscalar]
    show Power.toGroups r = _
    unfold Power.toGroups
    simp only [hcell, hnested]
  have hcells := Record.toRow?_eq_laid h.sorted h.isScalar h.present
  have hread := Codec.Power.ofRow_laid h.storable (Codec.fileOfGroup Power.group)
  rw [h.flatForm_eq] at hread
  refine ⟨_, [r], hgroups, ?_, Record.unionAll_singleton h.sorted⟩
  simp only [List.flatMap_cons, List.flatMap_nil, List.map_cons, List.map_nil, List.append_nil,
    hcells, Option.map_some, hread]

/-! ## §3. Records with groups. -/

namespace Record

variable {depth : Nat} {r : Record}

theorem Tree.sorted (h : Tree depth r) : Dict.Sorted r := by
  cases depth with
  | zero => exact Shaped.sorted h
  | succ depth => exact h.2.sorted

theorem Tree.ordered : ∀ {depth : Nat} {r : Record}, Tree depth r → Ordered r := by
  intro depth
  induction depth with
  | zero =>
    intro r h
    exact ordered_of_scalars (Shaped.sorted h) fun p hp => (Shaped.of_mem h hp).2.isScalar
  | succ depth ih =>
    intro r h
    refine ordered_iff.2 ⟨h.2.sorted, ?_⟩
    intro k m hm
    obtain ⟨m', hm', htree⟩ := h.2.fields k _ hm
    injection hm' with hm'
    exact hm' ▸ ih htree

theorem Tree.nested : ∀ {depth : Nat} {r : Record}, Tree depth r → Nested depth r := by
  intro depth
  induction depth with
  | zero => exact fun _ => trivial
  | succ depth ih =>
    intro r h p hp
    obtain ⟨m, hm, htree⟩ := h.2.of_mem hp
    exact ⟨m, hm, ih htree⟩

/-- Below a tree there are trees without levels. -/
theorem Tree.of_mem_leaves : ∀ {depth : Nat} {r : Record} {leaf : List String × Record},
    Tree depth r → leaf ∈ leaves depth r → Tree 0 leaf.2 := by
  intro depth
  induction depth with
  | zero =>
    intro r leaf h hleaf
    rw [List.mem_singleton.1 hleaf]
    exact h
  | succ depth ih =>
    intro r leaf h hleaf
    obtain ⟨k, m, path, hm, hbelow, -⟩ := mem_leaves_succ.1 hleaf
    obtain ⟨m', hm', htree⟩ := h.2.of_mem hm
    injection hm' with hm'
    have hfound : Tree 0 (path, leaf.2).2 := ih (hm' ▸ htree) hbelow
    exact hfound

/-- A tree has leaves, since no level of it is empty. -/
theorem Tree.leaves_ne_nil : ∀ {depth : Nat} {r : Record}, Tree depth r → leaves depth r ≠ [] := by
  intro depth
  induction depth with
  | zero => exact fun _ => by simp [leaves]
  | succ depth ih =>
    intro r h
    obtain ⟨⟨k, v⟩, hp⟩ := List.exists_mem_of_ne_nil r h.1
    obtain ⟨m, hm, htree⟩ := h.2.of_mem hp
    obtain rfl : v = .map m := hm
    obtain ⟨leaf, hleaf⟩ := List.exists_mem_of_ne_nil _ (ih htree)
    have hin : (k :: leaf.1, leaf.2) ∈ leaves (depth + 1) r :=
      mem_leaves_succ.2 ⟨k, m, leaf.1, hp, hleaf, rfl⟩
    exact List.ne_nil_of_mem hin

theorem Tree.areEvents (h : Tree 0 r) : AreEvents r := by
  intro p hp
  obtain ⟨hown, hread⟩ := Shaped.of_mem h hp
  exact ⟨hread.isScalar, hown⟩

/-- Events that were read come back. -/
theorem Tree.rereadEvents_eq (h : Tree 0 r) : rereadEvents r = r := by
  unfold rereadEvents Dict.mapValues
  refine (List.map_congr_left ?_).trans (List.map_id r)
  intro p hp
  obtain ⟨hown, hread⟩ := Shaped.of_mem h hp
  -- An own field is neither the time nor a text: it is the scalar of some cell.
  unfold IsRead at hread
  rw [if_neg (by intro htime; rw [htime] at hown; exact absurd hown (by decide)),
    if_neg (by rw [hown]; decide)] at hread
  obtain ⟨cell, hcell⟩ := hread
  refine Prod.ext rfl ?_
  show p.2.reread = p.2
  rw [hcell, Value.reread_ofCell]

/-- **A tree loses nothing** when it is taken apart and put together. -/
theorem Tree.pruned_eq : ∀ {depth : Nat} {r : Record}, Tree depth r →
    pruned rereadEvents depth r = r := by
  intro depth
  induction depth with
  | zero => exact fun h => h.rereadEvents_eq
  | succ depth ih =>
    intro r h
    refine Dict.eq_of_get? (Dict.sorted_filterMapValues _ h.sorted) h.sorted ?_
    intro k
    rw [get?_pruned rereadEvents depth h.ordered]
    cases hget : Dict.get? r k with
    | none => rfl
    | some v =>
      obtain ⟨m, rfl, htree⟩ := h.2.fields k v hget
      show (if leaves depth m = [] then none
        else some (Value.map (pruned rereadEvents depth m))) = _
      rw [if_neg htree.leaves_ne_nil, ih htree]

namespace Grouped

theorem isRead (h : r.Grouped) {field : String} (hfield : field ∈ headFields) :
    ∃ v, Dict.get? r field = some v ∧ IsRead field v := by
  obtain ⟨v, hv⟩ := h.present field (List.mem_cons_of_mem _ hfield)
  have hread := h.fields field v hv
  have hne : field ≠ groupsField := by
    rintro rfl
    exact absurd hfield (by decide)
  unfold IsTreeField at hread
  rw [if_neg hne] at hread
  exact ⟨v, hv, hread.2⟩

theorem tree (h : r.Grouped) :
    Dict.get? r groupsField = some (.map (groupsOf r)) ∧ Tree 3 (groupsOf r) := by
  obtain ⟨v, hv⟩ := h.present groupsField List.mem_cons_self
  have hread := h.fields groupsField v hv
  unfold IsTreeField at hread
  rw [if_pos rfl] at hread
  obtain ⟨groups, rfl, htree⟩ := hread
  have hgroups : groupsOf r = groups := by
    unfold groupsOf
    rw [hv]
    rfl
  rw [hgroups]
  exact ⟨hv, htree⟩

theorem ordered (h : r.Grouped) : Ordered r := by
  refine ordered_iff.2 ⟨h.sorted, ?_⟩
  intro k m hm
  have hread := h.fields k _ hm
  unfold IsTreeField at hread
  split at hread
  · obtain ⟨groups, hgroups, htree⟩ := hread
    injection hgroups with hgroups
    exact hgroups ▸ htree.ordered
  · exact absurd hread.2.isScalar (by simp [Value.isScalar])

/-- **A record with groups is the tree that it comes back as.** -/
theorem treeForm_eq (h : r.Grouped) : treeForm r = r := by
  refine Dict.eq_of_get? (Dict.sorted_insert (sorted_headForm r) _ _) h.sorted ?_
  intro k
  rw [get?_treeForm]
  -- The groups, a field of the head, and there are no others.
  by_cases hgroups : k = groupsField
  · rw [if_pos hgroups, h.tree.2.pruned_eq, hgroups, h.tree.1]
  · rw [if_neg hgroups]
    by_cases hhead : k ∈ headFields
    · obtain ⟨v, hv, hread⟩ := h.isRead hhead
      rw [if_pos hhead, hread.readBack_eq hv, hv]
    · rw [if_neg hhead]
      cases hget : Dict.get? r k with
      | none => rfl
      | some v =>
        have hread := h.fields k v hget
        unfold IsTreeField at hread
        rw [if_neg hgroups] at hread
        exact absurd hread.1 hhead

/-- **A record with groups can be split.** -/
theorem exists_splits (h : r.Grouped) :
    ∃ base out, toGroups r = .ok out ∧ Splits r base (groupsOf r) out := by
  have hevents : ∀ p ∈ groupsOf r, ∀ leaf ∈ groupLeaves p.2, AreEvents leaf.2 := by
    intro p hp leaf hleaf
    obtain ⟨m, hm, htree⟩ := h.tree.2.2.of_mem hp
    rw [hm] at hleaf
    exact (htree.of_mem_leaves hleaf).areEvents
  have hhead : ∀ field ∈ headFields, ∃ v, Dict.get? r field = some v ∧ v.isScalar = true :=
    fun field hfield => (h.isRead hfield).imp fun v hv => ⟨hv.1, hv.2.isScalar⟩
  obtain ⟨out, hout⟩ := exists_toGroups hhead h.tree.1 h.tree.2.nested hevents
  obtain ⟨base, hsplits⟩ := exists_splits_groupsOf hout
  exact ⟨base, out, hout, hsplits⟩

end Grouped

/-- The leaves of a tree with groups, group by group. -/
theorem leaves_groups (groups : Record) :
    leaves 3 groups = groups.flatMap fun p =>
      (groupLeaves p.2).map fun leaf => (p.1 :: leaf.1, leaf.2) := by
  rw [leaves]
  refine List.flatMap_congr ?_
  intro p _
  unfold groupLeaves
  cases p.2.map? with
  | none => rfl
  | some m => rfl

end Record

namespace Splits

variable {r base : Record} {out : GroupRows} {leaf : List String × Record}

theorem sorted_leafRow (h : Splits r base (Record.groupsOf r) out) (leaf : List String × Record) :
    Dict.Sorted (leafRow base leaf) := by
  unfold leafRow
  exact Dict.sorted_foldl_insert _ (Dict.sorted_insert (Dict.sorted_insert h.sorted _ _) _ _)

theorem isScalar_leafRow (h : Splits r base (Record.groupsOf r) out) (hsorted : Dict.Sorted leaf.2)
    (hevents : AreEvents leaf.2) (column : String) (v : Value)
    (hget : Dict.get? (leafRow base leaf) column = some v) : v.isScalar = true := by
  rw [h.get?_leafRow hsorted] at hget
  -- The field is an event, the cpu, the socket, or one of the head, in this order.
  cases hevent : Dict.get? leaf.2 column with
  | some w =>
    rw [hevent, Option.some_or] at hget
    injection hget with hget
    exact hget ▸ (hevents _ (Dict.mem_of_get? hevent)).1
  | none =>
    rw [hevent, Option.none_or] at hget
    split at hget
    · injection hget with hget
      exact hget ▸ rfl
    · split at hget
      · injection hget with hget
        exact hget ▸ rfl
      · split at hget
        · next hhead =>
          obtain ⟨w, hw, hscalar⟩ := h.scalars column hhead
          rw [hw] at hget
          injection hget with hget
          exact hget ▸ hscalar
        · cases hget

/-- A row carries all common fields. -/
theorem common_leafRow (h : Splits r base (Record.groupsOf r) out) (hsorted : Dict.Sorted leaf.2)
    (hevents : AreEvents leaf.2) (column : String) (hcolumn : column ∈ Columns.common) :
    ∃ v, Dict.get? (leafRow base leaf) column = some v := by
  rw [h.get?_leafRow_common hsorted hevents (Columns.isCommon_iff.2 hcolumn)]
  -- The cpu and the socket are keys above the leaf, the other three stand in the head.
  by_cases hcpu : column = "cpu"
  · exact ⟨_, if_pos hcpu⟩
  · by_cases hsocket : column = "socket"
    · exact ⟨_, (if_neg hcpu).trans (if_pos hsocket)⟩
    · have hhead : column ∈ headFields := by
        simp only [Columns.common, List.mem_cons, List.not_mem_nil, or_false] at hcolumn
        simp only [headFields, List.mem_cons, List.not_mem_nil, or_false]
        tauto
      obtain ⟨v, hv, -⟩ := h.scalars column hhead
      exact ⟨v, by rw [if_neg hcpu, if_neg hsocket, if_pos hhead, hv]⟩

/-- The cells of a row are those that are laid out for it. -/
theorem toRow?_leafRow (h : Splits r base (Record.groupsOf r) out) (hsorted : Dict.Sorted leaf.2)
    (hevents : AreEvents leaf.2) :
    Record.toRow? (leafRow base leaf) = some (Record.laid (leafRow base leaf)) :=
  Record.toRow?_eq_laid (h.sorted_leafRow leaf) (h.isScalar_leafRow hsorted hevents)
    (h.common_leafRow hsorted hevents)

/-- **The rows stand group by group, and so do the leaves**, in the same order. -/
theorem flatMap_rows {β : Type} (h : Splits r base (Record.groupsOf r) out)
    (f : String → Record → β) :
    (out.flatMap fun g => g.2.map (f g.1)) =
      (Record.leaves 3 (Record.groupsOf r)).map fun leaf =>
        f (leaf.1.headD "") (leafRow base (leaf.1.tail, leaf.2)) := by
  rw [h.rows, Record.leaves_groups, List.map_flatMap]
  unfold Dict.mapValues
  rw [List.flatMap_map]
  refine List.flatMap_congr ?_
  intro p _
  rw [List.map_map, List.map_map]
  rfl

end Splits

/-- **The rows of a record with groups are read as its leaves.** -/
theorem Record.Grouped.ofRow_leafRow {r base : Record} {out : GroupRows} (hr : r.Grouped)
    (h : Splits r base (Record.groupsOf r) out) {group : String} {leaf : List String × Record}
    (hleaf : leaf ∈ Record.inGroup group r) :
    (Record.toRow? (leafRow base leaf)).map
        (Codec.counters.ofRow (Codec.fileOfGroup group)) =
      some (.ok (Record.leafForm r (group :: leaf.1, leaf.2))) := by
  obtain ⟨hlength, hsorted, hevents⟩ := h.of_mem_inGroup hr.ordered hleaf
  have htime : Dict.get? (leafRow base leaf) "timestamp" = Dict.get? r "timestamp" := by
    rw [h.get?_leafRow_common hsorted hevents (by decide)]
    rfl
  obtain ⟨v, hv, hread⟩ := hr.isRead (show "timestamp" ∈ headFields by decide)
  have hstorable := Record.storable_of_isRead (h.isScalar_leafRow hsorted hevents)
    (htime.trans hv) hread
  rw [h.toRow?_leafRow hsorted hevents, Option.map_some,
    h.ofRow_laid hlength hsorted hevents hstorable]

theorem Codec.reencodes_grouped {r : Record} (hr : r.Grouped) : Codec.counters.Reencodes r := by
  obtain ⟨base, out, hout, h⟩ := hr.exists_splits
  have hordered := h.ordered_groups hr.ordered
  have hnodup : (Record.leaves 3 (Record.groupsOf r)).Nodup :=
    List.Nodup.of_map _ (Record.nodup_leaves hordered)
  have hunion := h.unionAll_leafForm hr.ordered hr.tree.2.leaves_ne_nil hnodup fun _ => Iff.rfl
  rw [hr.treeForm_eq] at hunion
  refine ⟨out, _, hout, ?_, hunion⟩
  rw [h.flatMap_rows fun group row =>
    (Record.toRow? row).map (Codec.counters.ofRow (Codec.fileOfGroup group)), List.map_map]
  apply List.map_congr_left
  intro leaf hleaf
  obtain ⟨group, below, hbelow, rfl⟩ := h.exists_group_of_mem_leaves hr.ordered hleaf
  exact hr.ofRow_leafRow h hbelow

/-! ## §4. Whatever was asked of a merge. -/

namespace Merge

/-- **A merged record is split and read as itself.**  This holds of every
record that a merge of any files hands out with a codec of the library,
whatever was asked of the merge before. -/
theorem merged_reencodes (strictness : Strictness) (qs : List Request) {codec : Codec}
    (hcodec : codec ∈ [Codec.power, Codec.counters]) {m : Merge}
    (hasked : (m, .next codec) ∈ (Merge.new strictness).trace qs) {r : Record}
    (hresult : (m.next codec).result = .ok (some r)) : codec.Reencodes r := by
  -- Every request keeps it that the rows to come have all common columns.
  have hnew : (Merge.new strictness).Whole := fun _ hs => nomatch hs
  have hm : m.Whole := trace_induction (fun _ q _ h => h.ask q) hnew m _ hasked
  simp only [List.mem_cons, List.not_mem_nil, or_false] at hcodec
  rcases hcodec with rfl | rfl
  · exact Codec.reencodes_flat (flat_of_next hm hresult)
  · exact Codec.reencodes_grouped (grouped_of_next hm hresult)

/-- A file of counters for two cores, the second without a load. -/
def twoCores : FileTree :=
  ⟨[(["core.csv"], .file (Text.encode
      "timestamp,sensor,target,socket,cpu,load\n1,s,t,0,0,2.50\n1,s,t,0,1,\n"))]⟩

/-- The two rows are united to one record, a number read as a double in it, and
are two rows again. -/
theorem merged_reencodes_twoCores :
    let m := (Merge.new .lenient).askAll [.add "core.csv", .connect twoCores]
    let cpus : Record :=
      [("0", .map [("load", .float ⟨0x4004000000000000⟩)]), ("1", .map [("load", .text "")])]
    let r : Record := [("groups", .map [("core", .map [("0", .map cpus)])]),
      ("sensor", .text "s"), ("target", .text "t"), ("timestamp", .int 1)]
    (m, .next .counters) ∈
        (Merge.new .lenient).trace [.add "core.csv", .connect twoCores, .next .counters] ∧
      (m.next .counters).result = .ok (some r) ∧ Codec.counters.Reencodes r := by
  intro m cpus r
  have hasked : (m, .next .counters) ∈
      (Merge.new .lenient).trace [.add "core.csv", .connect twoCores, .next .counters] :=
    List.mem_cons_of_mem _ (List.mem_cons_of_mem _ List.mem_cons_self)
  have hresult : (m.next .counters).result = .ok (some r) := eq_ok_of_toOption (by decide +kernel)
  exact ⟨hasked, hresult,
    merged_reencodes .lenient _ (List.mem_cons_of_mem _ List.mem_cons_self) hasked hresult⟩

end Merge

end ReportStore
